/-
# Lines that can be read

A class may have any name, but where a type is read the word `array` begins the type of an array.  So
a line that shows a class called `array` as a type is written, but not read.

`Stmt.isLegible` says of a statement that it has no such line, by the types under which its
expressions are lowered.  It is exact: a value that no line mentions, such as a variable that an
expression statement drops, does not count, and neither does the type of the array in an access, which
shows only its name.  The receiver is written without its type, whatever its class is called.
-/
import JavaMinus.Proofs.Lowering.Statements

namespace JavaMinus

open Source

namespace Ty

/-- Whether the type can be read where it is written. -/
def isLegible (t : Ty) : Bool := t.name != "array"

theorem readable_lowered (t : Ty) : t.lowered.readable = t.isLegible := by
  obtain ⟨name, isArray⟩ := t
  have base : (lowered.base name).readable = (name != "array") := by
    by_cases h : name ∈ ["int", "boolean", "void", "static void", "String"]
    · simp only [List.mem_cons, List.not_mem_nil, or_false] at h
      rcases h with rfl | rfl | rfl | rfl | rfl <;> decide
    · rw [base_other h]
      rfl
  cases isArray <;> exact base

end Ty

namespace Source

/-- The index of the array element that the expression is, parentheses aside. -/
def Expr.index? (e : Expr) : Option Expr :=
  match e.unparen with
  | .index _ _ i => some i
  | _ => none

/-- Whether the variable or the number that an expression leaves can be read. -/
def Expr.leavesLegible (s : Scope) (e : Expr) (expected : Option Ty) : Bool :=
  e.isThis || (e.loweredType s expected).isLegible

/-- Whether the operand that an expression leaves can be read: that of an array element also shows
its index. -/
def Expr.holdsLegible (s : Scope) (e : Expr) (expected : Option Ty) : Bool :=
  e.leavesLegible s expected && e.index?.all fun i => i.leavesLegible s (some .int)

/-- Whether the line that copies an array element to a variable can be read; nothing else is
copied. -/
def Expr.copiesLegible (s : Scope) (e : Expr) (expected : Option Ty) : Bool :=
  e.index?.isNone || e.holdsLegible s expected

mutual

/-- Whether the lines of an expression can be read, lowered where a type is expected, and what it
leaves if that is an operation. -/
def Expr.isLegible (s : Scope) : Expr → Option Ty → Bool
  | .int .., _ | .bool .., _ | .this _, _ => true
  | .name _ text, _ => !s.isField text || (s.variableType? text).all Ty.isLegible
  | .binary _ op lhs rhs, _ =>
      lhs.isLegible s (some op.operandType) &&
        (rhs.isLegible s (some op.operandType) &&
          (lhs.holdsLegible s (some op.operandType) && rhs.holdsLegible s (some op.operandType)))
  | .not _ operand, _ =>
      operand.isLegible s (some .boolean) && operand.holdsLegible s (some .boolean)
  | .index _ array i, _ =>
      (array.isLegible s (some .intArray) && array.copiesLegible s (some .intArray)) &&
        (i.isLegible s (some .int) && i.copiesLegible s (some .int))
  | .length _ array, _ =>
      array.isLegible s (some .intArray) && array.holdsLegible s (some .intArray)
  | .newArray _ size, _ => size.isLegible s (some .int) && size.holdsLegible s (some .int)
  | .newObject _ className, _ => (Ty.ofClass className).isLegible
  | .paren _ inner, expected => inner.isLegible s expected
  | .call _ target method args, expected =>
      (target.namesClass s || target.isLegible s none && target.holdsLegible s none) &&
        (Expr.areLegible s args (Expr.expectedParams s target method) &&
          (Lowering.callType (Expr.called? s target method) expected).isLegible)

/-- Whether the lines of arguments and the operands that they leave can be read. -/
def Expr.areLegible (s : Scope) : List Expr → List Symbol → Bool
  | [], _ => true
  | arg :: args, params =>
      (arg.isLegible s (params.head?.map (·.type)) &&
        arg.holdsLegible s (params.head?.map (·.type))) && Expr.areLegible s args params.tail

end

/-- Whether the lines of an expression and the operand in the line that it is placed in can be
read. -/
def Expr.isPlacedLegible (s : Scope) (e : Expr) (expected : Option Ty) : Bool :=
  e.isLegible s expected && e.holdsLegible s expected

mutual

/-- Whether the lines of a statement can be read. -/
def Stmt.isLegible (s : Scope) : Stmt → Bool
  | .block _ body => Stmt.areLegible s body
  | .ifThen _ condition thenBranch =>
      condition.isPlacedLegible s (some .boolean) && thenBranch.isLegible s
  | .ifElse _ condition thenBranch elseBranch =>
      condition.isPlacedLegible s (some .boolean) &&
        (thenBranch.isLegible s && elseBranch.isLegible s)
  | .while _ condition body => condition.isPlacedLegible s (some .boolean) && body.isLegible s
  | .expr e => e.isLegible s none
  | .assign _ target value =>
      value.isPlacedLegible s (s.variableType? target) &&
        (s.variableType? target).all Ty.isLegible
  | .assignElement _ target index value =>
      (s.variableType? target).all Ty.isLegible &&
        (index.isPlacedLegible s (some .int) &&
          value.isPlacedLegible s ((s.variableType? target).map (·.element)))
  | .return _ none => true
  | .return _ (some value) =>
      value.isPlacedLegible s (some s.expectedReturn) && s.expectedReturn.isLegible

def Stmt.areLegible (s : Scope) : List Stmt → Bool
  | [] => true
  | stmt :: stmts => stmt.isLegible s && Stmt.areLegible s stmts

end

end Source

namespace Lowering

/-! ## Steps and what can be read of their lines -/

def Line.readable : Line → Bool
  | .code _ i => i.readable
  | .label _ | .text .. => true

variable {α β : Type} {method : String} {m : Lowering α} {f : α → Lowering β} {a : α}
  {owes : α → Bool} {owes' : β → Bool} {holds holds' : Bool} {Q : α → Prop} {Q' : β → Prop}
  {table : SymbolTable} {s : Scope} {e : Expr} {expected : Option Ty}

/-- If the step succeeds in a method, it stays there, its answer satisfies `Q`, and its lines and
what its answer owes can be read exactly if the condition holds. -/
def Writes (method : String) (m : Lowering α) (owes : α → Bool) (holds : Bool) (Q : α → Prop) :
    Prop :=
  ∀ c : Cursor, c.method = method → ∀ a c' w, m.run c = ⟨.ok a, c', w⟩ →
    c'.method = method ∧ Q a ∧ (w.all Line.readable && owes a) = holds

/-- The answer owes nothing. -/
def paid : α → Bool := fun _ => true

namespace Writes

theorem answer (h : Q a) (ho : owes a = holds) : Writes method (pure a) owes holds Q := by
  intro c hc a' c' w hr
  obtain ⟨rfl, rfl, rfl⟩ := Emission.run_pure_ok_iff.1 hr
  exact ⟨hc, h, ho⟩

theorem bind (hm : Writes method m owes holds Q)
    (hf : ∀ a, Q a → Writes method (f a) owes' (owes a && holds') Q') :
    Writes method (m >>= f) owes' (holds && holds') Q' := by
  intro c hc b c' w hr
  obtain ⟨a, c₁, w₁, w₂, hr₁, hr₂, rfl⟩ := Emission.run_bind_ok_iff.1 hr
  obtain ⟨hc₁, ha, first⟩ := hm c hc a c₁ w₁ hr₁
  obtain ⟨hc₂, hb, second⟩ := hf a ha c₁ hc₁ b c' w₂ hr₂
  refine ⟨hc₂, hb, ?_⟩
  calc
    ((w₁ ++ w₂).all Line.readable && owes' b) =
        (w₁.all Line.readable && (owes a && holds')) := by
      rw [List.all_append, Bool.and_assoc, second]
    _ = (holds && holds') := by rw [← Bool.and_assoc, first]

theorem andThen (hm : Writes method m paid holds Q)
    (hf : ∀ a, Q a → Writes method (f a) owes' holds' Q') :
    Writes method (m >>= f) owes' (holds && holds') Q' :=
  hm.bind hf

/-- A first step whose lines can be read. -/
theorem first (hm : Writes method m paid true Q)
    (hf : ∀ a, Q a → Writes method (f a) owes' holds Q') :
    Writes method (m >>= f) owes' holds Q' :=
  hm.andThen hf

/-- A last step that can be read if what is owed can. -/
theorem pay (hm : Writes method m owes holds Q)
    (hf : ∀ a, Q a → Writes method (f a) owes' (owes a) Q') :
    Writes method (m >>= f) owes' holds Q' := by
  have whole : Writes method (m >>= f) owes' (holds && true) Q' :=
    hm.bind fun a ha => (Bool.and_true (owes a)).symm ▸ hf a ha
  rwa [Bool.and_true] at whole

/-- A last step that can be read. -/
theorem done (hm : Writes method m paid holds Q)
    (hf : ∀ a, Q a → Writes method (f a) owes' true Q') :
    Writes method (m >>= f) owes' holds Q' :=
  hm.pay hf

theorem of_eq (hm : Writes method m owes holds Q) (h : holds = holds') :
    Writes method m owes holds' Q :=
  h ▸ hm

theorem mono {Q' : α → Prop} (hm : Writes method m owes holds Q) (h : ∀ a, Q a → Q' a) :
    Writes method m owes holds Q' := by
  intro c hc a c' w hr
  obtain ⟨hc', ha, same⟩ := hm c hc a c' w hr
  exact ⟨hc', h a ha, same⟩

/-- What else is known of the answer. -/
theorem knowing {P : Line → Prop} {owed : α → List Ir.Use} {us : List Ir.Use} {Q' : α → Prop}
    (hm : Writes method m owes holds Q) (h : Emits method P m owed us Q') :
    Writes method m owes holds fun a => Q' a ∧ Q a := by
  intro c hc a c' w hr
  obtain ⟨hc', ha, same⟩ := hm c hc a c' w hr
  exact ⟨hc', ⟨(h c hc a c' w hr).2.1, ha⟩, same⟩

theorem of_silent {P : Line → Prop} {owed : α → List Ir.Use} {us : List Ir.Use}
    (h : Emits method P m owed us Q) (silent : ∀ c, (m.run c).written = []) :
    Writes method m paid true Q := by
  intro c hc a c' w hr
  obtain ⟨hc', ha, -⟩ := h c hc a c' w hr
  have none := silent c
  rw [hr] at none
  obtain rfl : w = [] := none
  exact ⟨hc', ha, rfl⟩

end Writes

theorem emit_writes (i : Ir.Instruction) :
    Writes method (emit i) paid i.readable fun _ => True := by
  intro c hc a c' w hr
  rw [emit_run] at hr
  cases hr
  refine ⟨hc, trivial, ?_⟩
  rw [paid, Bool.and_true, List.all_cons, List.all_nil, Bool.and_true]
  rfl

theorem emitLabel_writes (name : String) :
    Writes method (emitLabel name) paid true fun _ => True := by
  intro c hc a c' w hr
  cases hr
  exact ⟨hc, trivial, rfl⟩

theorem newLabel_writes : Writes method newLabel paid true fun _ => True :=
  .of_silent (newLabel_emits (P := fun _ => True)) fun _ => rfl

theorem lookup_writes (name : String) :
    Writes method (lookup table name) paid true fun found => found = table.lookup method name :=
  .of_silent (lookup_emits (P := fun _ => True) name) fun _ => rfl

theorem need_writes {γ : Type} {error : Error} {o : Option γ} :
    Writes method (Emission.need error o : Lowering γ) paid true fun x => o = some x :=
  .of_silent (need_emits (P := fun _ => True)) fun _ => by cases o <;> rfl

/-- The line that stores the result of an instruction shows its type. -/
theorem bind_writes (rhs : Ir.Instruction) (type : Ty) :
    Writes method (Lowering.bind table rhs type) paid (type.isLegible && rhs.readable) fun v =>
      ∃ n, v = .var (tempName n) type := by
  have named : Writes method (newTemp table) paid true fun name => ∃ n, name = tempName n :=
    .of_silent (newTemp_emits (P := fun _ => True)) fun _ => rfl
  refine named.first fun name hn => ?_
  obtain ⟨n, rfl⟩ := hn
  have line : (Ir.Instruction.assign (.var (tempName n) type.lowered) type.lowered rhs).readable =
      (type.isLegible && rhs.readable) := by
    show (type.lowered.readable && (type.lowered.readable && rhs.readable)) = _
    rw [Ty.readable_lowered, ← Bool.and_assoc, Bool.and_self]
  exact ((emit_writes _).of_eq line).done fun _ _ => .answer ⟨n, rfl⟩ rfl

/-! ## Values and right sides -/

def indexOf? : Ir.Element → Option Ir.Element
  | .item _ index _ => some index
  | .literal .. | .var .. => none

theorem readable_eq (o : Ir.Element) :
    o.readable = (o.type.readable && (indexOf? o).all Ir.Element.readable) := by
  cases o with
  | literal value t => exact (Bool.and_true _).symm
  | var name t => exact (Bool.and_true _).symm
  | item array index t => exact Bool.and_comm _ _

theorem isIndexed_eq (v : Value) : v.isIndexed = (indexOf? v.operand).isSome := by
  unfold Value.isIndexed
  cases v.operand <;> rfl

/-- What a right side owes: an operation has to be read where it is placed. -/
def Rhs.readable : Rhs → Bool
  | .value _ => true
  | .operation i _ => i.readable

/-- The value shows the index that the expression shows; what is known is always read. -/
structure Value.Shown (s : Scope) (e : Expr) (v : Value) : Prop where
  index : (indexOf? v.operand).map Ir.Element.readable =
    e.index?.map fun i => i.leavesLegible s (some .int)
  known : v.literal.isSome → v.operand.readable = true

/-- The right side shows what the expression shows; an operation that can be read shows its type. -/
def Rhs.Shown (s : Scope) (e : Expr) : Rhs → Prop
  | .value v => v.Shown s e
  | .operation i type => e.index? = none ∧ (type.isLegible && i.readable) = i.readable

/-- The type that an operand is written with can be read if the expression leaves one that can. -/
theorem Value.Of.readable_type {v : Value} (h : Value.Of s e expected v) :
    v.operand.type.readable = e.leavesLegible s expected := by
  rw [Expr.leavesLegible, ← h.receiver, ← h.type]
  by_cases hthis : v.operand = thisOperand
  · rw [hthis]
    rfl
  · rw [h.sound.typed.resolve_left hthis, Ty.readable_lowered, beq_eq_false_iff_ne.2 hthis,
      Bool.false_or]

theorem Value.Shown.readable {v : Value} (h : v.Shown s e) (hv : Value.Of s e expected v) :
    v.operand.readable = e.holdsLegible s expected := by
  have index : (indexOf? v.operand).all Ir.Element.readable =
      e.index?.all fun i => i.leavesLegible s (some .int) := by
    have both := congrArg (Option.all id) h.index
    rwa [Option.all_map, Option.all_map] at both
  rw [readable_eq, hv.readable_type, index]
  rfl

/-- A variable or a number shows no index. -/
theorem holds_of_unindexed (h : e.index? = none) :
    e.holdsLegible s expected = e.leavesLegible s expected := by
  rw [Expr.holdsLegible, h]
  exact Bool.and_true _

theorem leaves_of_holds (h : e.holdsLegible s expected = true) :
    e.leavesLegible s expected = true :=
  ((Bool.and_eq_true _ _).mp h).1

/-- What is copied if it has to be, and then shown, is shown as it is held. -/
theorem copies_and_leaves (s : Scope) (e : Expr) (expected : Option Ty) :
    (e.copiesLegible s expected && e.leavesLegible s expected) = e.holdsLegible s expected := by
  unfold Expr.copiesLegible
  cases h : e.index? with
  | none => exact (holds_of_unindexed h).symm
  | some i =>
      show (e.holdsLegible s expected && e.leavesLegible s expected) = _
      cases hh : e.holdsLegible s expected with
      | false => rfl
      | true => exact leaves_of_holds hh

theorem asValue_writes {rhs : Rhs} (h : Rhs.Of s e expected rhs ∧ rhs.Shown s e) :
    Writes method (asValue table rhs) paid rhs.readable fun v =>
      Value.Of s e expected v ∧ v.Shown s e := by
  obtain ⟨of, shown⟩ := h
  refine Writes.knowing ?_ (asValue_emits of)
  cases rhs with
  | value v => exact .answer shown rfl
  | operation i type =>
      refine ((bind_writes i type).of_eq shown.2).mono fun v hv => ?_
      obtain ⟨n, rfl⟩ := hv
      refine ⟨?_, fun h => nomatch h⟩
      rw [shown.1]
      rfl

/-- A variable or a number, which shows its type alone. -/
structure Value.Left (s : Scope) (e : Expr) (expected : Option Ty) (v : Value) : Prop where
  of : Value.Of s e expected v
  readable : v.operand.readable = e.leavesLegible s expected

theorem asOperand_writes {rhs : Rhs} (h : Rhs.Of s e expected rhs ∧ rhs.Shown s e) :
    Writes method (asOperand table rhs) paid (rhs.readable && e.copiesLegible s expected)
      (Value.Left s e expected) := by
  have left : Writes method (asOperand table rhs) paid (rhs.readable && e.copiesLegible s expected)
      fun v => v.operand.readable = e.leavesLegible s expected := by
    refine (asValue_writes h).andThen fun v hv => ?_
    obtain ⟨of, shown⟩ := hv
    have indexed : v.isIndexed = e.index?.isSome := by
      have both := congrArg Option.isSome shown.index
      rwa [Option.isSome_map, Option.isSome_map, ← isIndexed_eq] at both
    rw [indexed, Expr.copiesLegible]
    cases hx : e.index? with
    | none =>
        refine .answer ?_ rfl
        rw [shown.readable of, holds_of_unindexed hx]
    | some i =>
        have other : (v.operand == thisOperand) = false := by
          rw [beq_eq_false_iff_ne]
          intro same
          rw [isIndexed_eq, same, hx] at indexed
          cases indexed
        have type : v.type.isLegible = e.leavesLegible s expected := by
          rw [Expr.leavesLegible, ← of.receiver, other, ← of.type, Bool.false_or]
        have line : (v.type.isLegible && v.operand.readable) = e.holdsLegible s expected := by
          rw [type, shown.readable of]
          cases hh : e.holdsLegible s expected with
          | false => exact Bool.and_false _
          | true => rw [leaves_of_holds hh]; rfl
        show Writes method (Lowering.bind table (.single v.operand) v.type) _ _ _
        refine ((bind_writes _ _).of_eq line).mono fun v' hv' => ?_
        obtain ⟨n, rfl⟩ := hv'
        exact (Ty.readable_lowered _).trans type
  exact (left.knowing (asOperand_emits h.1)).mono fun v hv => ⟨hv.1, hv.2⟩

/-! ## Expressions -/

theorem known_literal {n : Int32} {type : Ty} : (Value.constant n type).operand.readable = true := by
  unfold Value.constant
  split <;> rfl

theorem Rhs.Shown.paren {tag : Tag} {rhs : Rhs} (h : rhs.Shown s e) :
    rhs.Shown s (.paren tag e) := by
  cases rhs with
  | value v => exact ⟨h.index, h.known⟩
  | operation i type => exact h

theorem lowerBinary_shown {tag : Tag} {op : BinaryOp} {lhs rhs : Expr} {left right : Value}
    (hl : left.literal.isSome → left.operand.readable = true)
    (hr : right.literal.isSome → right.operand.readable = true) :
    (lowerBinary op left right).Shown s (.binary tag op lhs rhs) ∧
      (lowerBinary op left right).readable = (left.operand.readable && right.operand.readable) := by
  have legible : op.resultType.isLegible = true := by cases op <;> rfl
  simp only [lowerBinary]
  split
  · rename_i n h
    obtain ⟨a, ha, h⟩ := Option.bind_eq_some_iff.1 h
    obtain ⟨b, hb, -⟩ := Option.bind_eq_some_iff.1 h
    rw [hl (Option.isSome_of_eq_some ha), hr (Option.isSome_of_eq_some hb)]
    refine ⟨⟨?_, fun _ => known_literal⟩, rfl⟩
    unfold Value.constant
    split <;> rfl
  · refine ⟨⟨rfl, ?_⟩, ?_⟩
    · rw [legible, Bool.true_and]
    · show (left.operand.readable && (op.resultType.lowered.readable && right.operand.readable)) = _
      rw [Ty.readable_lowered, legible, Bool.true_and]

theorem lowerNot_shown {tag : Tag} {operand : Expr} {v : Value}
    (hv : v.literal.isSome → v.operand.readable = true) :
    (lowerNot v).Shown s (.not tag operand) ∧ (lowerNot v).readable = v.operand.readable := by
  unfold lowerNot
  split
  · rename_i n h
    exact ⟨⟨rfl, fun _ => rfl⟩, (hv (Option.isSome_of_eq_some h)).symm⟩
  · exact ⟨⟨rfl, rfl⟩, rfl⟩

theorem lowerName_writes {tag : Tag} {name : String} :
    Writes s.method (lowerName s.table name) Rhs.readable
      (!s.isField name || (s.variableType? name).all Ty.isLegible)
      (Rhs.Shown s (.name tag name)) := by
  refine (lookup_writes name).first fun found hfound => ?_
  refine need_writes.first fun x hx => ?_
  have there : s.table.lookup s.method name = some x := by rw [← hfound, hx]
  have type := Scope.variableType_of_lookup there
  have field := Scope.isField_of_lookup there
  rw [field, type]
  show Writes s.method (if x.origin = .field then pure (Rhs.operation _ _)
    else pure (Rhs.value _)) _ _ _
  split
  · rename_i hfield
    have shown : Ir.Instruction.readable
        (.getField thisOperand (.var name x.symbol.type.lowered)) = x.symbol.type.isLegible :=
      Ty.readable_lowered _
    rw [decide_eq_true hfield]
    exact .answer ⟨rfl, by rw [shown, Bool.and_self]⟩ shown
  · rename_i hfield
    rw [decide_eq_false hfield]
    refine .answer ⟨rfl, ?_⟩ rfl
    rintro ⟨⟩

/-- A new variable that an expression leaves shows no index. -/
theorem shown_temp {n : Nat} {type : Ty} (h : e.index? = none) :
    Rhs.Shown s e (.value (.var (tempName n) type)) := by
  refine ⟨?_, fun h => nomatch h⟩
  rw [h]
  rfl

theorem lowerNewObject_writes {tag : Tag} {className : String} :
    Writes s.method (lowerNewObject s.table className) Rhs.readable
      (Ty.ofClass className).isLegible (Rhs.Shown s (.newObject tag className)) := by
  have created : (Ir.Instruction.call ⟨.new, some (.var className (.classRef className)), none, [],
      (Ty.ofClass className).lowered⟩).readable = (Ty.ofClass className).isLegible :=
    Ty.readable_lowered (.ofClass className)
  have twice : (Ty.ofClass className).isLegible =
      (((Ty.ofClass className).isLegible && (Ty.ofClass className).isLegible) &&
        (Ty.ofClass className).isLegible) := by
    rw [Bool.and_self, Bool.and_self]
  rw [twice]
  refine ((bind_writes _ _).of_eq (congrArg (_ && ·) created)).andThen fun v hv => ?_
  obtain ⟨n, rfl⟩ := hv
  have constructed : (Ir.Instruction.call ⟨.invokeSpecial,
      some (Value.var (tempName n) (.ofClass className)).operand, some "<init>", [],
      .void⟩).readable = (Ty.ofClass className).isLegible :=
    (Bool.and_true _).trans (Ty.readable_lowered _)
  exact ((emit_writes _).of_eq constructed).done fun _ _ => .answer (shown_temp rfl) rfl

/-- A call that is stored under a type that can always be read. -/
theorem stored_writes {e : Expr} {c : Ir.Call} {type : Ty} (ht : type.isLegible = true)
    (hx : e.index? = none) :
    Writes s.method (Lowering.bind s.table (.call c) type >>= fun v => pure (Rhs.value v))
      Rhs.readable c.readable (Rhs.Shown s e) := by
  have line : (type.isLegible && (Ir.Instruction.call c).readable) = c.readable := by
    rw [ht]
    rfl
  refine ((bind_writes _ _).of_eq line).done fun v hv => ?_
  obtain ⟨n, rfl⟩ := hv
  exact .answer (shown_temp hx) rfl

theorem invoked_writes (tag : Tag) {target : Expr} {name : String} {args : List Expr} {r : Receiver}
    (hr : Receiver.Of s target r)
    (hargs : Writes s.method
      (lowerArguments s.table args (Expr.expectedParams s target name))
      (fun es => es.all Ir.Element.readable) holds fun _ => True) :
    Writes s.method (do
      let declared := r.signature? s.table name
      let operands ← lowerArguments s.table args ((declared.map (·.params)).getD [])
      let type := callType declared expected
      pure (.operation (.call ⟨r.kind, some r.operand, some name, operands, type.lowered⟩) type))
      Rhs.readable
      (r.operand.readable &&
        (holds && (callType (target.called? s name) expected).isLegible))
      (Rhs.Shown s (.call tag target name args)) := by
  simp only [hr.signature]
  rw [Bool.and_left_comm]
  refine hargs.bind fun es _ => ?_
  have call : (Ir.Instruction.call ⟨r.kind, some r.operand, some name, es,
      (callType (target.called? s name) expected).lowered⟩).readable =
      (r.operand.readable &&
        (es.all Ir.Element.readable && (callType (target.called? s name) expected).isLegible)) := by
    rw [← Ty.readable_lowered]
    rfl
  refine .answer ⟨rfl, ?_⟩ ?_
  · rw [call]
    cases (callType (target.called? s name) expected).isLegible <;> simp
  · rw [Rhs.readable, call, Bool.and_left_comm]

mutual

theorem lowerRhs_writes (ht : s.table.Written) : ∀ (e : Expr) {expected : Option Ty}, e.Named →
    e.Indexable → (∀ t, expected = some t → t.Written) →
    Writes s.method (lowerRhs s.table e expected) Rhs.readable (e.isLegible s expected)
      fun rhs => Rhs.Of s e expected rhs ∧ rhs.Shown s e
  | .int tag n, expected, hn, hi, he => by
      refine Writes.knowing ?_ (lowerRhs_emits ht (.int tag n) true hn hi he)
      rw [lowerRhs, Expr.isLegible]
      exact .answer ⟨rfl, fun _ => rfl⟩ rfl
  | .bool tag b, expected, hn, hi, he => by
      refine Writes.knowing ?_ (lowerRhs_emits ht (.bool tag b) true hn hi he)
      rw [lowerRhs, Expr.isLegible]
      exact .answer ⟨rfl, fun _ => rfl⟩ rfl
  | .this tag, expected, hn, hi, he => by
      refine Writes.knowing ?_ (lowerRhs_emits ht (.this tag) true hn hi he)
      rw [lowerRhs, Expr.isLegible]
      exact .answer ⟨rfl, fun _ => rfl⟩ rfl
  | .name tag name, expected, hn, hi, he => by
      refine Writes.knowing ?_ (lowerRhs_emits ht (.name tag name) true hn hi he)
      rw [lowerRhs, Expr.isLegible]
      exact lowerName_writes
  | .paren tag inner, expected, hn, hi, he => by
      refine Writes.knowing ?_ (lowerRhs_emits ht (.paren tag inner) true hn hi he)
      rw [lowerRhs, Expr.isLegible]
      exact (lowerRhs_writes ht inner hn hi he).mono fun rhs h => h.2.paren
  | .binary tag op lhs rhs, expected, hn, hi, he => by
      refine Writes.knowing ?_ (lowerRhs_emits ht (.binary tag op lhs rhs) true hn hi he)
      rw [lowerRhs, Expr.isLegible]
      have typed := written_expected (written_operandType op)
      refine (lowerRhs_writes ht lhs hn.1 hi.1 typed).bind fun l hl => ?_
      refine (asValue_writes hl).andThen fun left hleft => ?_
      refine (lowerRhs_writes ht rhs hn.2 hi.2 typed).bind fun r hr => ?_
      refine (asValue_writes hr).andThen fun right hright => ?_
      obtain ⟨shown, readable⟩ :=
        @lowerBinary_shown s tag op lhs rhs left right hleft.2.known hright.2.known
      refine .answer shown ?_
      rw [readable, hleft.2.readable hleft.1, hright.2.readable hright.1]
  | .not tag operand, expected, hn, hi, he => by
      refine Writes.knowing ?_ (lowerRhs_emits ht (.not tag operand) true hn hi he)
      rw [lowerRhs, Expr.isLegible]
      have typed := written_expected Ty.written_boolean
      refine (lowerRhs_writes ht operand hn hi typed).bind fun r hr => ?_
      refine (asValue_writes hr).andThen fun v hv => ?_
      obtain ⟨shown, readable⟩ := @lowerNot_shown s tag operand v hv.2.known
      exact .answer shown (readable.trans (hv.2.readable hv.1))
  | .index tag array i, expected, hn, hi, he => by
      refine Writes.knowing ?_ (lowerRhs_emits ht (.index tag array i) true hn hi he)
      rw [lowerRhs, Expr.isLegible, Bool.and_assoc]
      have arrayTyped := written_expected Ty.written_intArray
      have indexTyped := written_expected Ty.written_int
      refine (lowerRhs_writes ht array hn.1 hi.2.1 arrayTyped).bind fun l hl => ?_
      rw [← Bool.and_assoc]
      refine (asOperand_writes hl).andThen fun a ha => ?_
      refine (lowerRhs_writes ht i hn.2 hi.2.2.2 indexTyped).bind fun r hr => ?_
      refine (asOperand_writes hr).done fun i' hi' => ?_
      exact .answer ⟨congrArg some hi'.readable, fun h => nomatch h⟩ rfl
  | .length tag array, expected, hn, hi, he => by
      refine Writes.knowing ?_ (lowerRhs_emits ht (.length tag array) true hn hi he)
      rw [lowerRhs, Expr.isLegible, ← copies_and_leaves]
      have typed := written_expected Ty.written_intArray
      refine (lowerRhs_writes ht array hn hi typed).bind fun r hr => ?_
      rw [← Bool.and_assoc]
      refine (asOperand_writes hr).andThen fun a ha => ?_
      exact (stored_writes rfl rfl).of_eq ((Bool.and_true _).trans ha.readable)
  | .newArray tag size, expected, hn, hi, he => by
      refine Writes.knowing ?_ (lowerRhs_emits ht (.newArray tag size) true hn hi he)
      rw [lowerRhs, Expr.isLegible, ← copies_and_leaves]
      have typed := written_expected Ty.written_int
      refine (lowerRhs_writes ht size hn hi typed).bind fun r hr => ?_
      rw [← Bool.and_assoc]
      refine (asOperand_writes hr).andThen fun n hn => ?_
      refine (stored_writes rfl rfl).of_eq (Eq.trans ?_ hn.readable)
      exact (Bool.and_true _).trans (Bool.and_true _)
  | .newObject tag className, expected, hn, hi, he => by
      refine Writes.knowing ?_ (lowerRhs_emits ht (.newObject tag className) true hn hi he)
      rw [lowerRhs, Expr.isLegible]
      exact lowerNewObject_writes
  | .call tag target name args, expected, hn, hi, he => by
      refine Writes.knowing ?_ (lowerRhs_emits ht (.call tag target name args) true hn hi he)
      rw [lowerRhs, Expr.isLegible]
      have passed := lowerArguments_writes ht args _ hn.2.2 hi.2 (written_of_params ht target name)
      have called := fun (r : Receiver) (hr : Receiver.Of s target r) =>
        @invoked_writes _ s expected tag target name args r hr passed
      have silent : Writes s.method (targetClass? s.table target) paid true _ :=
        .of_silent (targetClass_emits hn.1) fun _ => by
          unfold targetClass?
          cases target.asName? <;> rfl
      refine silent.first fun named hnamed => ?_
      rcases hnamed with ⟨rfl, hvalue⟩ | ⟨className, rfl, hname, hclass, hnames⟩
      · rw [hvalue, Bool.false_or, ← copies_and_leaves, Bool.and_assoc, Bool.and_assoc]
        refine (lowerRhs_writes ht target hn.1 hi.1 untyped).bind fun r hr => ?_
        rw [← Bool.and_assoc]
        refine (asOperand_writes hr).andThen fun v hv => ?_
        rw [← hv.readable]
        refine Writes.first (Q := fun r => r = .ofValue v) (.answer rfl rfl) ?_
        rintro _ rfl
        exact called _ (Receiver.of_value hv.of hvalue)
      · rw [hnames, Bool.true_or, Bool.true_and]
        refine Writes.first (Q := fun r => r = .ofClass className) (.answer rfl rfl) ?_
        rintro _ rfl
        exact called _ (Receiver.of_class hclass hname hnames)

/-- What can be read of the lines of arguments and of the operands that they leave. -/
theorem lowerArguments_writes (ht : s.table.Written) : ∀ (args : List Expr) (params : List Symbol),
    Expr.NamedAll args → Expr.IndexableAll args → (∀ p ∈ params, p.type.Written) →
    Writes s.method (lowerArguments s.table args params) (fun es => es.all Ir.Element.readable)
      (Expr.areLegible s args params) fun _ => True
  | [], params, _, _, _ => .answer trivial rfl
  | arg :: args, params, hn, hi, hp => by
      rw [lowerArguments, Expr.areLegible]
      have typed : ∀ t, params.head?.map (·.type) = some t → t.Written := by
        intro t h
        obtain ⟨p, hhead, rfl⟩ := Option.map_eq_some_iff.1 h
        exact hp p (List.mem_of_head? hhead)
      have others : ∀ p ∈ params.tail, p.type.Written := fun p h => hp p (List.mem_of_mem_tail h)
      rw [← copies_and_leaves, Bool.and_assoc, Bool.and_assoc]
      refine (lowerRhs_writes ht arg hn.1 hi.1 typed).bind fun r hr => ?_
      rw [← Bool.and_assoc]
      refine (asOperand_writes hr).andThen fun v hv => ?_
      rw [← hv.readable, Bool.and_comm]
      refine (lowerArguments_writes ht args params.tail hn.2 hi.2 others).bind fun es _ => ?_
      exact .answer trivial (Bool.and_comm _ _)

end

/-! ## Statements -/

theorem lowerValue_writes (ht : s.table.Written) (hn : e.Named) (hi : e.Indexable)
    (he : ∀ t, expected = some t → t.Written) :
    Writes s.method (lowerValue s.table e expected) paid (e.isLegible s expected) fun v =>
      Value.Of s e expected v ∧ v.Shown s e :=
  (lowerRhs_writes ht e hn hi he).pay fun _ h => asValue_writes h

theorem lowerOperand_writes (ht : s.table.Written) (hn : e.Named) (hi : e.Indexable)
    (he : ∀ t, expected = some t → t.Written) :
    Writes s.method (lowerOperand s.table e expected) paid
      (e.isLegible s expected && e.copiesLegible s expected) (Value.Left s e expected) :=
  (lowerRhs_writes ht e hn hi he).bind fun _ h => asOperand_writes h

/-- The right side as an instruction shows the operand that the expression leaves. -/
theorem instruction_readable {rhs : Rhs} (h : Rhs.Of s e expected rhs ∧ rhs.Shown s e) :
    rhs.instruction.readable = (rhs.readable && e.holdsLegible s expected) := by
  obtain ⟨of, shown⟩ := h
  cases rhs with
  | value v =>
      have known : Value.Of s e expected v :=
        ⟨of.sound, of.type, of.receiver, of.stored, of.held⟩
      exact shown.readable known
  | operation i type =>
      have typed : type.isLegible = e.holdsLegible s expected := by
        rw [holds_of_unindexed shown.1, Expr.leavesLegible, ← of.type, ← of.receiver]
        rfl
      rw [← typed, Bool.and_comm]
      exact shown.2.symm

theorem assign_writes {dest : Ir.Element} {t : Ir.ElementType} {rhs : Rhs}
    (h : Rhs.Of s e expected rhs ∧ rhs.Shown s e) :
    Writes method (emit (.assign dest t rhs.instruction)) paid
      (rhs.readable && (e.holdsLegible s expected && (dest.readable && t.readable)))
      fun _ => True := by
  refine (emit_writes _).of_eq ?_
  show (dest.readable && (t.readable && rhs.instruction.readable)) = _
  rw [instruction_readable h, ← Bool.and_assoc, Bool.and_comm, Bool.and_assoc]

theorem lowerExprStmt_writes (ht : s.table.Written) (hn : e.Named) (hi : e.Indexable) :
    Writes s.method (lowerExprStmt s.table e) paid (e.isLegible s none) fun _ => True := by
  unfold lowerExprStmt
  split
  · rename_i hc
    refine (lowerRhs_writes ht e hn hi untyped).pay fun rhs h => ?_
    obtain ⟨c, type, rfl⟩ := h.1.call hc
    exact emit_writes _
  · exact (lowerValue_writes ht hn hi untyped).done fun _ _ => .answer trivial rfl

theorem lowerAssign_writes (ht : s.table.Written) {target : String} (hn : e.Named)
    (hi : e.Indexable) :
    Writes s.method (lowerAssign s.table target e) paid
      (e.isPlacedLegible s (s.variableType? target) && (s.variableType? target).all Ty.isLegible)
      fun _ => True := by
  refine (lookup_writes target).first fun found hfound => ?_
  refine need_writes.first fun x hx => ?_
  have there : s.table.lookup s.method target = some x := by rw [← hfound, hx]
  have typed := written_expected (SymbolTable.written_of_lookup ht there)
  have type := Scope.variableType_of_lookup there
  rw [type, Expr.isPlacedLegible, Option.all_some, Bool.and_assoc]
  show Writes s.method (if x.origin = .field then _ else _) _ _ _
  split
  · rw [← copies_and_leaves, Bool.and_assoc, ← Bool.and_assoc]
    refine (lowerOperand_writes ht hn hi typed).andThen fun v hv => ?_
    refine (emit_writes _).of_eq ?_
    show (x.symbol.type.lowered.readable && v.operand.readable) = _
    rw [hv.readable, Ty.readable_lowered, Bool.and_comm]
  · refine (lowerRhs_writes ht e hn hi typed).bind fun rhs h => ?_
    refine (assign_writes h).of_eq ?_
    show (_ && (_ && (x.symbol.type.lowered.readable && x.symbol.type.lowered.readable))) = _
    rw [Ty.readable_lowered, Bool.and_self]

theorem lowerAssignElement_writes (ht : s.table.Written) {target : String} {index value : Expr}
    (ha : IsName target) (hn : index.Named) (hn' : value.Named) (hi : index.Indexable)
    (hi' : value.Indexable) :
    Writes s.method (lowerAssignElement s.table target index value) paid
      ((s.variableType? target).all Ty.isLegible && (index.isPlacedLegible s (some .int) &&
        value.isPlacedLegible s ((s.variableType? target).map (·.element))))
      fun _ => True := by
  -- the type of the array is shown where a field is read, and that of its elements in any case
  have order : ((s.variableType? target).all Ty.isLegible && (index.isPlacedLegible s (some .int) &&
      value.isPlacedLegible s ((s.variableType? target).map (·.element)))) =
      ((!s.isField target || (s.variableType? target).all Ty.isLegible) &&
        ((index.isLegible s (some .int) && index.copiesLegible s (some .int)) &&
          (value.isLegible s ((s.variableType? target).map (·.element)) &&
            (value.holdsLegible s ((s.variableType? target).map (·.element)) &&
              ((index.leavesLegible s (some .int) && (s.variableType? target).all Ty.isLegible) &&
                (s.variableType? target).all Ty.isLegible))))) := by
    rw [Expr.isPlacedLegible, Expr.isPlacedLegible, ← copies_and_leaves s index]
    cases (s.variableType? target).all Ty.isLegible
    · simp
    · simp [Bool.and_assoc, Bool.and_comm, Bool.and_left_comm]
  rw [order]
  have known := @lowerName_emits s true default target none ht ha
  refine ((@lowerName_writes s default target).knowing known).bind fun named hnamed => ?_
  obtain ⟨⟨of, found⟩, shown⟩ := hnamed
  refine (asValue_writes ⟨of, shown⟩).andThen fun a h => ?_
  have type : s.variableType? target = some a.type := by
    rw [found, h.1.type, ← of.type]
  have element : a.type.element.isLegible = a.type.isLegible := rfl
  rw [type]
  have typed := written_expected Ty.written_int
  refine (lowerOperand_writes ht hn hi typed).andThen fun i h' => ?_
  refine (lowerRhs_writes ht value hn' hi' (written_expected h.1.sound.type.element)).bind
    fun rhs h'' => ?_
  refine (assign_writes h'').of_eq ?_
  show (_ && (_ && ((i.operand.readable && a.type.element.lowered.readable) &&
    a.type.element.lowered.readable))) = _
  rw [h'.readable, Ty.readable_lowered, element]
  rfl

theorem lowerReturn_writes (ht : s.table.Written) {value : Option Expr}
    (hn : ∀ e, value = some e → e.Named) (hi : ∀ e, value = some e → e.Indexable) :
    Writes s.method (lowerReturn s.table value) paid
      (value.all fun e =>
        e.isPlacedLegible s (some s.expectedReturn) && s.expectedReturn.isLegible)
      fun _ => True := by
  have typed := written_expected (expectedReturn_written ht)
  have current : Writes s.method (Emission.state : Lowering Cursor) paid true _ :=
    .of_silent (state_emits (P := fun _ => True)) fun _ => rfl
  refine current.first fun c hc => ?_
  rw [hc]
  cases value with
  | none => exact emit_writes _
  | some e =>
      rw [Option.all_some, Expr.isPlacedLegible, Bool.and_assoc]
      refine (lowerValue_writes ht (hn e rfl) (hi e rfl) typed).andThen fun v hv => ?_
      refine (emit_writes _).of_eq ?_
      show (s.expectedReturn.lowered.readable && v.operand.readable) = _
      rw [hv.2.readable hv.1, Ty.readable_lowered, Bool.and_comm]

theorem condition_writes (ht : s.table.Written) (hn : e.Named) (hi : e.Indexable)
    (label : String) :
    Writes s.method (lowerValue s.table e (some .boolean) >>= fun c => emitUnless c label) paid
      (e.isPlacedLegible s (some .boolean)) fun _ => True := by
  refine (lowerValue_writes ht hn hi (written_expected Ty.written_boolean)).andThen fun v hv => ?_
  refine (emit_writes _).of_eq ?_
  exact hv.2.readable hv.1

theorem goto_writes (label : String) :
    Writes method (emit (.goto label)) paid true fun _ => True :=
  emit_writes _

mutual

theorem lowerStmt_writes (ht : s.table.Written) : ∀ stmt : Stmt, stmt.Named → stmt.Indexable →
    Writes s.method (lowerStmt s.table stmt) paid (stmt.isLegible s) fun _ => True
  | .block _ body, hn, hi => lowerStmts_writes ht body hn hi
  | .ifThen _ condition thenBranch, hn, hi => by
      rw [lowerStmt, Stmt.isLegible]
      refine newLabel_writes.first fun n _ => ?_
      rw [← bind_assoc]
      refine (condition_writes ht hn.1 hi.1 _).andThen fun _ _ => ?_
      refine (lowerStmt_writes ht thenBranch hn.2 hi.2).done fun _ _ => ?_
      refine (goto_writes _).first fun _ _ => ?_
      exact (emitLabel_writes _).first fun _ _ => emitLabel_writes _
  | .ifElse _ condition thenBranch elseBranch, hn, hi => by
      rw [lowerStmt, Stmt.isLegible]
      refine newLabel_writes.first fun n _ => ?_
      rw [← bind_assoc]
      refine (condition_writes ht hn.1 hi.1 _).andThen fun _ _ => ?_
      refine (lowerStmt_writes ht thenBranch hn.2.1 hi.2.1).andThen fun _ _ => ?_
      refine (goto_writes _).first fun _ _ => ?_
      refine (emitLabel_writes _).first fun _ _ => ?_
      exact (lowerStmt_writes ht elseBranch hn.2.2 hi.2.2).done fun _ _ => emitLabel_writes _
  | .while _ condition body, hn, hi => by
      rw [lowerStmt, Stmt.isLegible]
      refine newLabel_writes.first fun n _ => ?_
      refine (emitLabel_writes _).first fun _ _ => ?_
      rw [← bind_assoc]
      refine (condition_writes ht hn.1 hi.1 _).andThen fun _ _ => ?_
      refine (lowerStmt_writes ht body hn.2 hi.2).done fun _ _ => ?_
      exact (goto_writes _).first fun _ _ => emitLabel_writes _
  | .expr e, hn, hi => lowerExprStmt_writes ht hn hi
  | .assign _ target value, hn, hi => lowerAssign_writes ht hn.2 hi
  | .assignElement _ target index value, hn, hi =>
      lowerAssignElement_writes ht hn.1 hn.2.1 hn.2.2 hi.2.1 hi.2.2
  | .return _ none, _, _ => lowerReturn_writes ht (fun _ h => nomatch h) (fun _ h => nomatch h)
  | .return _ (some value), hn, hi =>
      lowerReturn_writes ht (fun _ h => Option.some.inj h ▸ hn) (fun _ h => Option.some.inj h ▸ hi)

theorem lowerStmts_writes (ht : s.table.Written) : ∀ stmts : List Stmt, Stmt.NamedAll stmts →
    Stmt.IndexableAll stmts →
    Writes s.method (lowerStmts s.table stmts) paid (Stmt.areLegible s stmts) fun _ => True
  | [], _, _ => .answer trivial rfl
  | stmt :: stmts, hn, hi => by
      rw [lowerStmts, Stmt.areLegible]
      exact (lowerStmt_writes ht stmt hn.1 hi.1).andThen fun _ _ =>
        lowerStmts_writes ht stmts hn.2 hi.2

end

theorem lowerBody_writes {m : Source.Method} (ht : table.Written) (hn : Stmt.NamedAll m.body)
    (hi : Stmt.IndexableAll m.body) :
    Writes m.name (lowerBody table m) paid (Stmt.areLegible (.ofMethod table m) m.body)
      fun _ => True := by
  have body := lowerStmts_writes (s := .ofMethod table m) ht m.body hn hi
  refine body.done fun _ _ => ?_
  split
  · exact emit_writes _
  · exact .answer trivial rfl

end Lowering

end JavaMinus
