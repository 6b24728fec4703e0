/-
# The lines of instructions

What a method's lines are like is mostly the same for all instructions: constants, arithmetic,
variables in their registers, and the choice between two constants over labels of its own.
`Permits` asks these pieces of a property of lines in a row, once for all.  The load of the receiver,
a call, a jump to a label of the method and a return are lines of some instructions only, and
`Allows` asks them of the property, for one instruction.  Then the property holds of the lines of the
instruction (`instruction_lines`), and of those of a method if it is so for each of its instructions.
-/
import JavaMinus.Proofs.Assembly.Flow
import JavaMinus.Proofs.Assembly.Uses

namespace JavaMinus

namespace Ir

def Instruction.call? : Instruction → Option Call
  | .call c | .assign _ _ (.call c) => some c
  | _ => none

theorem Instruction.call_cases {i : Instruction} {c : Call} (h : i.call? = some c) :
    i = .call c ∨ ∃ dest t, i = .assign dest t (.call c) := by
  cases i with
  | call =>
      cases h
      exact .inl rfl
  | assign dest t rhs =>
      cases rhs with
      | call =>
          cases h
          exact .inr ⟨dest, t, rfl⟩
      | assign | binary | unary | single | getField | putField | goto | branch | «return»
      | returnVoid => cases h
  | binary | unary | single | getField | putField | goto | branch | «return» | returnVoid => cases h

/-- The way in which a kind of call calls a method. -/
def CallKind.how? : CallKind → Option Assembly.Invocation
  | .invokeSpecial => some .special
  | .invokeVirtual => some .virtual
  | .invokeStatic => some .static
  | _ => none

end Ir

namespace Assembly

open Ir Assembling

/-! ## What instructions write -/

/-- An opcode that goes on at the next one, and needs neither a register nor another method. -/
def Opcode.isNeutral : Opcode → Bool
  | .constant _ | .constantText _ | .arithmetic _ | .loadItem _ | .storeItem _ | .arrayLength
  | .newArray | .newObject _ | .getField .. | .putField .. | .pop => true
  | _ => false

theorem Opcode.quiet_of_isNeutral {op : Opcode} (h : op.isNeutral = true) :
    (CodeLine.op op).fallsThrough = true ∧ op.isReturn = false ∧ op.target? = none := by
  cases op with
  | constant | constantText | arithmetic | loadItem | storeItem | arrayLength | newArray | newObject
  | getField | putField | pop => exact ⟨rfl, rfl, rfl⟩
  | load | store | increment | invoke | goto | branch | returnValue | returnVoid => cases h

def calledClass? (f : Frame) (how : Invocation) (target : Element) : Option String :=
  match how with
  | .special => if target.type = .this then some f.names.super else f.names.owner? target.type
  | .virtual => f.names.owner? target.type
  | .static => some (staticOwner f target)

def invocation? (f : Frame) (c : Call) : Option Opcode := do
  let how ← c.kind.how?
  let target ← c.target
  let method ← c.method
  let className ← calledClass? f how target
  some (.invoke how className method (c.args.map fun e => f.names.descriptor e.type)
    (f.names.descriptor c.returnType))

/-- The opcode that an instruction leaves the method with. -/
def return? : Instruction → Option Opcode
  | .return _ value => some (.returnValue (.ofType value.type))
  | .returnVoid => some .returnVoid
  | _ => none

/-- A property that holds of the pieces which any instruction may be written in. -/
structure Permits (f : Frame) (P : List CodeLine → Prop) : Prop where
  nil : P []
  append : ∀ w w', P w → P w' → P (w ++ w')
  label : ∀ name, P [.label name]
  neutral : ∀ op : Opcode, op.isNeutral = true → P [.op op]
  load : ∀ name s, f.registers.find? name = some s → P [.op (.load (.ofType s.type) s.register)]
  store : ∀ name s, f.registers.find? name = some s → P [.op (.store (.ofType s.type) s.register)]
  increment : ∀ name s amount, f.registers.find? name = some s →
    P [.op (.increment s.register amount)]
  choice : ∀ comparison thenLabel endLabel taken other,
    P [.op (.branch comparison thenLabel), .op (.constant other), .op (.goto endLabel),
      .label thenLabel, .op (.constant taken), .label endLabel]

/-- A property that holds of the lines which not all instructions have. -/
structure Allows (f : Frame) (P : List CodeLine → Prop) (i : Instruction) : Prop where
  receiver : .receiver ∈ i.uses false → P [.op (.load .reference 0)]
  call : ∀ c op, i.call? = some c → invocation? f c = some op → P [.op op]
  jump : ∀ label, i = .goto label → P [.op (.goto label)]
  branch : ∀ label ∈ i.targets, P [.op (.branch .eq label)]
  leave : ∀ op, return? i = some op → P [.op op]

/-- The lines of a successful run have the property. -/
def Lines {α : Type} (P : List CodeLine → Prop) (m : Assembling α) : Prop :=
  ∀ t x t' w, m.run t = ⟨.ok x, t', w⟩ → P w

variable {α β : Type} {f : Frame} {P : List CodeLine → Prop} {m : Assembling α}
  {k : α → Assembling β}

theorem emit_lines {op : Opcode} (h : P [.op op]) : Lines P (emit op) := by
  intro t x t' w run
  obtain ⟨-, -, rfl, -⟩ := emit_ok run
  exact h

theorem fail_lines (e : Error) : Lines P (Emission.fail e : Assembling α) :=
  fun _ _ _ _ run => nomatch run

/-- A value that is needed is there if the step succeeds. -/
theorem need_lines {e : Error} {o : Option α} (hk : ∀ x, o = some x → Lines P (k x)) :
    Lines P (Emission.need e o >>= k) := by
  cases o with
  | none =>
      intro t y t' w run
      obtain ⟨_, _, _, _, run₁, _⟩ := Emission.run_bind_ok_iff.1 run
      cases run₁
  | some x =>
      rw [Emission.need, pure_bind]
      exact hk x rfl

theorem newLabel_lines {k : Nat → Assembling β} (hk : ∀ n, Lines P (k n)) :
    Lines P (newLabel >>= k) := by
  intro t y t' w run
  obtain ⟨n, t₁, w₁, w₂, first, rest, rfl⟩ := Emission.run_bind_ok_iff.1 run
  cases first
  exact hk _ _ y t' w₂ rest

theorem calledClass_lines {how : Invocation} {target : Element} {k : String → Assembling β}
    (hk : ∀ className, calledClass? f how target = some className → Lines P (k className)) :
    Lines P (calledClass f how target >>= k) := by
  cases how with
  | special =>
      show Lines P ((if target.type = .this then _ else owner f target) >>= k)
      split
      · rename_i ht
        rw [pure_bind]
        exact hk _ (if_pos ht)
      · rename_i ht
        exact need_lines fun className h => hk className ((if_neg ht).trans h)
  | virtual => exact need_lines hk
  | static =>
      show Lines P (pure (staticOwner f target) >>= k)
      rw [pure_bind]
      exact hk _ rfl

section Permits

variable (hP : Permits f P)

include hP

theorem pure_lines (x : α) : Lines P (pure x : Assembling α) := by
  intro t y t' w run
  obtain ⟨-, -, rfl⟩ := Emission.run_pure_ok_iff.1 run
  exact hP.nil

theorem Lines.bind (hm : Lines P m) (hk : ∀ x, Lines P (k x)) : Lines P (m >>= k) := by
  intro t y t' w run
  obtain ⟨x, t₁, w₁, w₂, run₁, run₂, rfl⟩ := Emission.run_bind_ok_iff.1 run
  exact hP.append _ _ (hm t x t₁ w₁ run₁) (hk x t₁ y t' w₂ run₂)

theorem neutral_lines {op : Opcode} (h : op.isNeutral = true) : Lines P (emit op) :=
  emit_lines (hP.neutral op h)

theorem emitLabels_lines (names : List String) : Lines P (emitLabels names) := by
  induction names with
  | nil => exact pure_lines hP ()
  | cons name names ih =>
      refine Lines.bind hP ?_ fun _ => ih
      intro t x t' w run
      cases run
      exact hP.label name

/-! ## Operands -/

theorem loadVar_lines {name : String} {t : ElementType}
    (hr : name = "this" ∨ t = .this → P [.op (.load .reference 0)]) :
    Lines P (loadVar f name t) := by
  unfold loadVar
  split
  · rename_i h
    rw [Bool.or_eq_true, decide_eq_true_eq, beq_iff_eq, or_comm] at h
    exact emit_lines (hr h)
  · exact need_lines fun s hs => emit_lines (hP.load name s hs)

theorem load_lines {e : Element} (hr : .receiver ∈ e.uses → P [.op (.load .reference 0)]) :
    Lines P (load f e) := by
  induction e with
  | literal value t =>
      unfold load loadLiteral
      split
      · exact need_lines fun n _ => neutral_lines hP rfl
      · exact neutral_lines hP rfl
  | var name t =>
      refine loadVar_lines hP fun h => hr ?_
      rw [Element.uses, receiverUse, if_pos (by simpa using h)]
      exact List.mem_cons_self
  | item array index t ih =>
      refine need_lines fun s hs => Lines.bind hP (emit_lines (hP.load array s hs)) fun _ => ?_
      refine Lines.bind hP (ih fun h => hr (List.mem_append_right _ h)) fun _ => ?_
      exact neutral_lines hP rfl

theorem loadAll_lines {es : List Element}
    (hr : .receiver ∈ es.flatMap Element.uses → P [.op (.load .reference 0)]) :
    Lines P (loadAll f es) := by
  induction es with
  | nil => exact pure_lines hP ()
  | cons e es ih =>
      rw [List.flatMap_cons] at hr
      refine Lines.bind hP (load_lines hP fun h => hr (List.mem_append_left _ h)) fun _ => ?_
      exact ih fun h => hr (List.mem_append_right _ h)

theorem store_lines (name : String) : Lines P (store f name) :=
  need_lines fun s hs => emit_lines (hP.store name s hs)

/-! ## Operators -/

theorem choose_lines (comparison : Comparison) (thenLabel endLabel : String)
    (taken other : Int32) : Lines P (choose comparison thenLabel endLabel taken other) := by
  intro t x t' w run
  obtain ⟨_, _, _, _, run₁, rest₁, rfl⟩ := Emission.run_bind_ok_iff.1 run
  obtain ⟨_, _, _, _, run₂, rest₂, rfl⟩ := Emission.run_bind_ok_iff.1 rest₁
  obtain ⟨_, _, _, _, run₃, rest₃, rfl⟩ := Emission.run_bind_ok_iff.1 rest₂
  obtain ⟨-, -, rfl, -⟩ := emit_ok run₁
  obtain ⟨-, -, rfl, -⟩ := emit_ok run₂
  obtain ⟨-, -, rfl, -⟩ := emit_ok run₃
  cases rest₃
  exact hP.choice comparison thenLabel endLabel taken other

theorem chooseCompared_lines (comparison : Comparison) (taken other : Int32) :
    Lines P (chooseCompared comparison taken other) :=
  newLabel_lines fun _ => choose_lines hP _ _ _ _ _

theorem applyOperator_lines (op : Operator) : Lines P (applyOperator op) := by
  unfold applyOperator
  split
  · exact neutral_lines hP rfl
  · exact Lines.bind hP (neutral_lines hP rfl) fun _ => chooseCompared_lines hP _ _ _
  · split
    · refine Lines.bind hP (neutral_lines hP rfl) fun _ => ?_
      refine Lines.bind hP (neutral_lines hP rfl) fun _ => ?_
      exact Lines.bind hP (neutral_lines hP rfl) fun _ => chooseCompared_lines hP _ _ _
    · exact fail_lines _

/-! ## Calls -/

theorem invoke_lines {how : Invocation} {c : Call} {wanted : Bool} (hh : c.kind.how? = some how)
    (hr : .receiver ∈ c.uses wanted → P [.op (.load .reference 0)])
    (hc : ∀ op, invocation? f c = some op → P [.op op]) : Lines P (invoke f how c) := by
  refine need_lines fun target ht => need_lines fun method hm => ?_
  refine calledClass_lines fun className hn => ?_
  rw [Call.uses, ht] at hr
  have called : invocation? f c = some (.invoke how className method
      (c.args.map fun e => f.names.descriptor e.type) (f.names.descriptor c.returnType)) := by
    simp only [invocation?, hh, ht, hm, hn, Option.bind_eq_bind, Option.bind_some]
  have passed : Lines P (do
      loadAll f c.args
      emit (.invoke how className method (c.args.map fun e => f.names.descriptor e.type)
        (f.names.descriptor c.returnType))) := by
    refine Lines.bind hP (loadAll_lines hP fun h => hr ?_) fun _ => emit_lines (hc _ called)
    exact List.mem_append_right _ (List.mem_append_left _ h)
  have loaded : Lines P (load f target) :=
    load_lines hP fun h => hr (List.mem_append_left _ h)
  cases how with
  | static => exact passed
  | special | virtual => exact Lines.bind hP loaded fun _ => passed

theorem create_lines {c : Call} {wanted : Bool}
    (hr : .receiver ∈ c.uses wanted → P [.op (.load .reference 0)]) :
    Lines P (create f c) := by
  unfold create
  split
  · exact neutral_lines hP rfl
  · split
    · rename_i size hsize
      refine Lines.bind hP (load_lines hP fun h => hr ?_) fun _ => neutral_lines hP rfl
      rw [Call.uses, hsize, List.flatMap_singleton]
      exact List.mem_append_right _ (List.mem_append_left _ h)
    · exact fail_lines _
  · exact fail_lines _

theorem callBody_lines {c : Call} {wanted : Bool}
    (hr : .receiver ∈ c.uses wanted → P [.op (.load .reference 0)])
    (hc : ∀ op, invocation? f c = some op → P [.op op]) : Lines P (callBody f c) := by
  have loaded : ∀ e, c.target = some e → Lines P (load f e) := by
    intro e he
    refine load_lines hP fun h => hr ?_
    rw [Call.uses, he]
    exact List.mem_append_left _ h
  unfold callBody
  cases hk : c.kind with
  | new => exact create_lines hP hr
  | invokeSpecial => exact invoke_lines hP (by rw [hk]; rfl) hr hc
  | invokeVirtual => exact invoke_lines hP (by rw [hk]; rfl) hr hc
  | invokeStatic => exact invoke_lines hP (by rw [hk]; rfl) hr hc
  | loadConstant => exact need_lines fun e he => loaded e he
  | arrayLength =>
      exact need_lines fun e he => Lines.bind hP (loaded e he) fun _ => neutral_lines hP rfl

theorem call_lines {c : Call} {wanted : Bool}
    (hr : .receiver ∈ c.uses wanted → P [.op (.load .reference 0)])
    (hc : ∀ op, invocation? f c = some op → P [.op op]) : Lines P (call f c wanted) := by
  refine Lines.bind hP (callBody_lines hP hr hc) fun _ => ?_
  split
  · exact pure_lines hP ()
  · exact neutral_lines hP rfl

/-! ## Instructions -/

theorem right_lines {rhs : Instruction} (hrhs : rhs.FormedRight)
    (hr : .receiver ∈ rhs.uses true → P [.op (.load .reference 0)])
    (hc : ∀ c op, rhs = .call c → invocation? f c = some op → P [.op op]) :
    Lines P (lower f true rhs) := by
  cases rhs with
  | binary lhs o rhs =>
      refine Lines.bind hP (load_lines hP fun h => hr (List.mem_append_left _ h)) fun _ => ?_
      refine Lines.bind hP (load_lines hP fun h => hr (List.mem_append_right _ h)) fun _ => ?_
      exact applyOperator_lines hP o.op
  | unary o operand =>
      show Lines P (unary f o.op operand)
      rw [unary, if_pos hrhs.1]
      refine Lines.bind hP (load_lines hP hr) fun _ => ?_
      exact newLabel_lines fun _ => choose_lines hP _ _ _ _ _
  | single operand => exact load_lines hP hr
  | getField object field =>
      refine Lines.bind hP (load_lines hP hr) fun _ => need_lines fun _ _ => ?_
      exact neutral_lines hP rfl
  | call c => exact call_lines hP hr fun op h => hc c op rfl h
  | assign | putField | goto | branch | «return» | returnVoid => exact hrhs.elim

theorem assign_lines {dest : Element} {t : ElementType} {rhs : Instruction}
    (hd : dest.Assignable) (hrhs : rhs.FormedRight) (ha : Allows f P (.assign dest t rhs)) :
    Lines P (lower f false (.assign dest t rhs)) := by
  have right : Lines P (lower f true rhs) := by
    refine right_lines hP hrhs (fun h => ha.receiver (List.mem_append_right _ h)) ?_
    rintro c op rfl h
    exact ha.call c op rfl h
  cases dest with
  | literal value t' => exact hd.elim
  | var name t' =>
      rw [lower]
      split
      · rename_i register amount hi
        obtain ⟨amount', -, hi⟩ := Option.bind_eq_some_iff.1 hi
        obtain ⟨_, -, hi⟩ := Option.bind_eq_some_iff.1 hi
        obtain ⟨s, hs, hi⟩ := Option.bind_eq_some_iff.1 hi
        obtain ⟨_, -, hi⟩ := Option.bind_eq_some_iff.1 hi
        cases hi
        exact emit_lines (hP.increment name s amount hs)
      · exact Lines.bind hP right fun _ => store_lines hP name
  | item array index t' =>
      have used : ∀ u, u ∈ receiverUse (array == "this") ∨ u ∈ index.uses →
          u ∈ Instruction.uses false (.assign (.item array index t') t rhs) :=
        fun u h => List.mem_append_left _ (List.mem_append.2 h)
      rw [lower]
      refine Lines.bind hP (loadVar_lines hP fun h => ha.receiver (used _ (.inl ?_))) fun _ => ?_
      · rw [receiverUse, if_pos (beq_iff_eq.2 (h.resolve_right ElementType.noConfusion))]
        exact List.mem_cons_self
      refine Lines.bind hP (load_lines hP fun h => ha.receiver (used _ (.inr h))) fun _ => ?_
      exact Lines.bind hP right fun _ => neutral_lines hP rfl

/-- The lines of an instruction have a property that permits its pieces and allows its own. -/
theorem instruction_lines {i : Instruction} (hi : i.Formed) (ha : Allows f P i) :
    Lines P (lower f false i) := by
  cases i with
  | assign dest t rhs => exact assign_lines hP hi.1 hi.2 ha
  | call c => exact call_lines hP ha.receiver fun op h => ha.call c op rfl h
  | putField object field value =>
      refine Lines.bind hP (load_lines hP fun h => ha.receiver (List.mem_append_left _ h)) ?_
      refine fun _ => Lines.bind hP (load_lines hP fun h => ha.receiver ?_) ?_
      · exact List.mem_append_right _ h
      · exact fun _ => need_lines fun _ _ => neutral_lines hP rfl
  | goto label => exact emit_lines (ha.jump label rfl)
  | returnVoid => exact emit_lines (ha.leave .returnVoid rfl)
  | «return» t value =>
      exact Lines.bind hP (load_lines hP ha.receiver) fun _ => emit_lines (ha.leave _ rfl)
  | branch condition label =>
      cases condition with
      | unary o operand =>
          obtain ⟨op, t⟩ := o
          obtain ⟨rfl, -⟩ := hi
          refine Lines.bind hP (load_lines hP ha.receiver) fun _ => ?_
          exact emit_lines (ha.branch label List.mem_cons_self)
      | assign | binary | single | call | getField | putField | goto | branch | «return»
      | returnVoid => exact hi.elim
  | binary | unary | single | getField => exact hi.elim

theorem lowerBody_lines {body : List Labeled} (hi : ∀ l ∈ body, l.instruction.Formed)
    (ha : ∀ l ∈ body, Allows f P l.instruction) : Lines P (lowerBody f body) := by
  induction body with
  | nil => exact pure_lines hP ()
  | cons l body ih =>
      obtain ⟨formed, more⟩ := List.forall_mem_cons.1 hi
      obtain ⟨allowed, others⟩ := List.forall_mem_cons.1 ha
      refine Lines.bind hP (emitLabels_lines hP l.labels) fun _ => ?_
      exact Lines.bind hP (instruction_lines hP formed allowed) fun _ => ih more others

/-- The lines of a listed method, a last return aside. -/
theorem method_lines {m : Method} (hi : ∀ l ∈ m.body, l.instruction.Formed)
    (ha : ∀ l ∈ m.body, Allows f P l.instruction) : Lines P (lowerMethod f m) :=
  Lines.bind hP (lowerBody_lines hP hi ha) fun _ => emitLabels_lines hP m.trailing

end Permits

theorem code_of_ofMethod {names : ClassNames} {m : Method} {listing : MethodListing}
    (h : MethodListing.ofMethod names m = .ok listing) :
    ∃ t w, (lowerMethod ⟨names, .ofMethod m⟩ m).run .start = ⟨.ok (), t, w⟩ ∧
      listing.code = w ++ if needsReturn m w then [.op .returnVoid] else [] := by
  rcases hr : (lowerMethod ⟨names, .ofMethod m⟩ m).run .start with ⟨outcome, t, w⟩
  rw [MethodListing.ofMethod, hr] at h
  cases outcome with
  | error e => cases h
  | ok =>
      obtain rfl := Except.ok.inj h
      exact ⟨t, w, rfl, rfl⟩

end Assembly

end JavaMinus
