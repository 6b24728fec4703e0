/-
# What instructions use

Of the operands of an instruction two things matter outside of it: whether one of them is the
receiver, and, if it is a call, the types under which it is made.  `Instruction.uses` collects them.
Whether an instruction fits is a question about its uses alone.
-/
import JavaMinus.Proofs.Assembly.Success

namespace JavaMinus.Ir

/-- A call by the types of its operands, and whether its result is wanted. -/
structure Outline where
  kind : CallKind
  target : Option ElementType
  method : Option String
  args : List ElementType
  returnType : ElementType
  wanted : Bool
deriving DecidableEq, Repr

/-- What an instruction uses beside its variables. -/
inductive Use where
  | receiver
  | call (o : Outline)
deriving DecidableEq, Repr

/-- The receiver, where a word stands for it. -/
def receiverUse (isReceiver : Bool) : List Use := if isReceiver then [.receiver] else []

theorem mem_receiverUse {isReceiver : Bool} :
    .receiver ∈ receiverUse isReceiver ↔ isReceiver = true := by
  cases isReceiver <;> simp [receiverUse]

/-- The uses of an operand. -/
def Element.uses : Element → List Use
  | .literal .. => []
  | .var name t => receiverUse (name == "this" || t == .this)
  | .item array index _ => receiverUse (array == "this") ++ index.uses

/-- The call by its types. -/
def Call.outline (c : Call) (wanted : Bool) : Outline :=
  ⟨c.kind, c.target.map Element.type, c.method, c.args.map Element.type, c.returnType, wanted⟩

/-- The uses of a call: those of its operands, and the call. -/
def Call.uses (c : Call) (wanted : Bool) : List Use :=
  (c.target.map Element.uses).getD [] ++ (c.args.flatMap Element.uses ++ [.call (c.outline wanted)])

def Instruction.uses (wanted : Bool) : Instruction → List Use
  | .assign dest _ rhs => dest.uses ++ rhs.uses true
  | .binary lhs _ rhs => lhs.uses ++ rhs.uses
  | .unary _ operand => operand.uses
  | .single operand => operand.uses
  | .call c => c.uses wanted
  | .getField object _ => object.uses
  | .putField object _ value => object.uses ++ value.uses
  | .goto _ => []
  | .branch condition _ => condition.uses true
  | .return _ value => value.uses
  | .returnVoid => []

/-- The uses of a method's instructions. -/
def Method.uses (m : Method) : List Use := m.body.flatMap fun l => l.instruction.uses false

/-! ## Uses that fit -/

/-- A call that creates what can be created, or is made on something that has methods, and returns
something where its result is wanted. -/
def Outline.fits (o : Outline) : Bool :=
  (match o.kind with
    | .new => o.returnType.creates
    | .invokeSpecial | .invokeVirtual => o.target.all ElementType.hasMethods
    | .invokeStatic | .loadConstant | .arrayLength => true) &&
    (!o.wanted || o.returnType != .void)

def Use.fits : Use → Bool
  | .receiver => true
  | .call o => o.fits

theorem receiverUse_fits (isReceiver : Bool) : (receiverUse isReceiver).all Use.fits = true := by
  cases isReceiver <;> rfl

theorem Element.uses_fit (e : Element) : e.uses.all Use.fits = true := by
  induction e with
  | literal => rfl
  | var name t => exact receiverUse_fits _
  | item array index t ih =>
      rw [uses, List.all_append, receiverUse_fits, Bool.true_and]
      exact ih

theorem Call.outline_fits (c : Call) (wanted : Bool) :
    (c.outline wanted).fits = (c.fits && (!wanted || c.returnType != .void)) := by
  obtain ⟨kind, target, method, args, type⟩ := c
  cases kind <;> cases target <;> rfl

theorem Call.uses_fit (c : Call) (wanted : Bool) :
    (c.uses wanted).all Use.fits = (c.fits && (!wanted || c.returnType != .void)) := by
  have target : ((c.target.map Element.uses).getD []).all Use.fits = true := by
    cases c.target with
    | none => rfl
    | some e => exact e.uses_fit
  have args : (c.args.flatMap Element.uses).all Use.fits = true := by
    rw [List.all_flatMap]
    exact List.all_eq_true.2 fun e _ => e.uses_fit
  rw [uses, List.all_append, List.all_append, target, args, ← c.outline_fits wanted]
  simp [Use.fits]

theorem Instruction.right_uses_fit {i : Instruction} (h : i.FormedRight) :
    (i.uses true).all Use.fits = i.valued := by
  cases i with
  | binary lhs o rhs => rw [uses, List.all_append, lhs.uses_fit, rhs.uses_fit]; rfl
  | unary o operand => exact operand.uses_fit
  | single operand => exact operand.uses_fit
  | getField object field => exact object.uses_fit
  | call c => exact (c.uses_fit true).trans rfl
  | assign | putField | goto | branch | «return» | returnVoid => exact h.elim

theorem Instruction.uses_fit {i : Instruction} (h : i.Formed) :
    (i.uses false).all Use.fits = i.fits := by
  cases i with
  | assign dest t rhs =>
      rw [uses, List.all_append, dest.uses_fit, right_uses_fit h.2]
      rfl
  | call c => exact (c.uses_fit false).trans (Bool.and_true _)
  | putField object field value =>
      rw [uses, List.all_append, object.uses_fit, value.uses_fit]
      rfl
  | goto | returnVoid => rfl
  | «return» t value => exact value.uses_fit
  | branch condition label =>
      cases condition with
      | unary o operand => exact operand.uses_fit
      | assign | binary | single | call | getField | putField | goto | branch | «return»
      | returnVoid => exact h.elim
  | binary | unary | single | getField => exact h.elim

theorem Method.uses_fit {m : Method} (h : ∀ l ∈ m.body, l.instruction.Formed) :
    m.uses.all Use.fits = m.body.all fun l => l.instruction.fits := by
  rw [uses, List.all_flatMap, Bool.eq_iff_iff, List.all_eq_true, List.all_eq_true]
  exact forall₂_congr fun l hl => by rw [Instruction.uses_fit (h l hl)]

end JavaMinus.Ir
