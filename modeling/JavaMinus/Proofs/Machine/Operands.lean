/-
# Operands and operators on the machine

`read?` says what an operand stands for in a state, by the registers of a frame; an element of an array
is read through the array and the index.  The lines of `load` push that and change nothing else
(`load_performs`).

An operator leaves `compiled?` of the two numbers on top (`applyOperator_performs`): what its opcode
computes, or for comparisons and the conjunction the one of two constants that a branch on a number
chooses (`choose_performs`).
-/
import JavaMinus.Proofs.Ir.Numeral
import JavaMinus.Proofs.Machine.State

namespace JavaMinus.Machine

open Ir Assembly Assembling Evaluation

variable (admits : Kind → Datum → Bool) (f : Frame)

/-! ## Operands -/

/-- What the register of a variable holds. -/
def held? (σ : State) (name : String) : Option Datum := do
  let s ← f.registers.find? name
  (σ.registers s.register).filter (admits (.ofType s.type))

def read? (σ : State) : Element → Option Datum
  | .literal value t => if t.isNumeric then (numeral? value).map .word else some (σ.constants value)
  | .var name t =>
      if t = .this || name == "this" then (σ.registers 0).filter (admits .reference)
      else held? admits f σ name
  | .item array index t => do
      let a ← held? admits f σ array
      let i ← read? σ index
      (element? σ.heap a i).filter (admits (.ofType t))

theorem read?_push (σ : State) (d : Datum) (e : Element) :
    read? admits f (σ.push d) e = read? admits f σ e := by
  induction e with
  | literal | var => rfl
  | item array index t ih =>
      rw [read?, ih]
      rfl

def pushed (σ : State) (o : Option Datum) : Option (Exit × State) :=
  o.map fun d => (.onward, σ.push d)

variable {admits f} {σ σ₁ : State} {outcome : Option (Exit × State)} {α : Type}

theorem Performs.after_push {m : Assembling Unit} {k : Unit → Assembling α} {o : Option Datum}
    {next : Datum → Option (Exit × State)} (hm : Performs admits m σ₁ (pushed σ o))
    (none : Marks m []) (hk : ∀ d, o = some d → Performs admits (k ()) (σ.push d) (next d)) :
    Performs admits (m >>= k) σ₁ (o.bind next) := by
  cases o with
  | none => exact hm.cut fun _ same => nomatch same
  | some d => exact hm.bind none fun _ => hk d rfl

theorem loadSlot_performs {name : String} {s : Slot} (h : f.registers.find? name = some s) :
    Performs admits (loadSlot s) σ (pushed σ (held? admits f σ name)) := by
  have held : held? admits f σ name =
      (σ.registers s.register).filter (admits (.ofType s.type)) := by
    rw [held?, h]
    rfl
  rw [held]
  exact .emit _ σ

theorem loadVar_performs (name : String) (t : ElementType) :
    Performs admits (loadVar f name t) σ (pushed σ (read? admits f σ (.var name t))) := by
  unfold loadVar read?
  split
  · exact .emit _ σ
  · exact .need fun s found => loadSlot_performs found

theorem load_performs (e : Element) :
    ∀ σ, Performs admits (load f e) σ (pushed σ (read? admits f σ e)) := by
  induction e with
  | literal value t =>
      intro σ
      unfold load loadLiteral read?
      split
      · refine .need fun n found => ?_
        rw [found]
        exact .emit _ σ
      · exact .emit _ σ
  | var name t => exact fun σ => loadVar_performs name t
  | item array index t ih =>
      intro σ
      have bound : pushed σ (read? admits f σ (.item array index t)) =
          (held? admits f σ array).bind fun a => (read? admits f (σ.push a) index).bind fun i =>
            pushed σ ((element? σ.heap a i).filter (admits (.ofType t))) := by
        simp only [read?, read?_push, pushed, Option.bind_eq_bind, Option.map_bind, Function.comp_def]
      rw [bound]
      refine .need fun s found => ?_
      refine (loadSlot_performs found).after_push (emit_marks _) fun a _ => ?_
      refine (ih (σ.push a)).after_push (load_marks index) fun i _ => ?_
      exact .emit (.loadItem (.ofType t)) ((σ.push a).push i)

/-! ## A choice of two constants -/

/-- One of two constants, by how a number compares with zero. -/
def chosen? (comparison : Comparison) (taken other : Int32) : Datum → Option Datum
  | .word n => some (.word (if comparison.holds n then taken else other))
  | _ => none

theorem choose_performs_word (comparison : Comparison) {thenLabel endLabel : String}
    (apart : thenLabel ≠ endLabel) (taken other n : Int32) :
    Performs admits (choose comparison thenLabel endLabel taken other) (σ.push (.word n))
      (some (.onward, σ.push (.word (if comparison.holds n then taken else other)))) := by
  intro t x t' w run
  have lines : w = [.op (.branch comparison thenLabel), .op (.constant other), .op (.goto endLabel),
      .label thenLabel, .op (.constant taken), .label endLabel] := by
    obtain ⟨_, t₁, w₁, _, first, rest, rfl⟩ := Emission.run_bind_ok_iff.1 run
    obtain ⟨_, t₂, w₂, _, second, rest', rfl⟩ := Emission.run_bind_ok_iff.1 rest
    obtain ⟨_, t₃, w₃, _, third, marked, rfl⟩ := Emission.run_bind_ok_iff.1 rest'
    obtain ⟨-, -, rfl, -⟩ := emit_ok first
    obtain ⟨-, -, rfl, -⟩ := emit_ok second
    obtain ⟨-, -, rfl, -⟩ := emit_ok third
    cases marked
    rfl
  subst lines
  have branch : Takes admits [.op (.branch comparison thenLabel)] (σ.push (.word n))
      (some (if comparison.holds n then .jump thenLabel else .onward, σ)) := .op _ _
  have push (c : Int32) : Takes admits [.op (.constant c)] σ (some (.onward, σ.push (.word c))) :=
    .op _ σ
  have leave (ρ : State) : Takes admits [.op (.goto endLabel)] ρ (some (.jump endLabel, ρ)) :=
    .op _ ρ
  by_cases holds : comparison.holds n = true
  · -- behind the first label, past the other constant
    rw [if_pos holds] at branch ⊢
    have landed := branch.land [.op (.constant other), .op (.goto endLabel)] List.not_mem_nil
    refine landed.append ((push taken).append (.label endLabel _) fun _ _ => List.not_mem_nil) ?_
    intro name inside
    obtain rfl := List.mem_singleton.1 inside
    exact fun inside => apart (List.mem_singleton.1 inside).symm
  · -- through the other constant, then past the constant that is taken
    rw [if_neg holds] at branch ⊢
    have jumped := (branch.append (push other) fun _ inside => nomatch inside).append
      (leave (σ.push (.word other))) fun _ inside => nomatch inside
    exact jumped.land [.label thenLabel, .op (.constant taken)] fun inside =>
      apart (List.mem_singleton.1 inside).symm

/-- The number on top is replaced by one of two constants. -/
theorem choose_performs (comparison : Comparison) {thenLabel endLabel : String}
    (apart : thenLabel ≠ endLabel) (taken other : Int32) (d : Datum) :
    Performs admits (choose comparison thenLabel endLabel taken other) (σ.push d)
      (pushed σ (chosen? comparison taken other d)) := by
  cases d with
  | word n => exact choose_performs_word comparison apart taken other n
  | reference | null =>
      exact Performs.cut (Performs.emit (.branch comparison thenLabel) _) fun _ same => nomatch same

/-- The labels of two families with one number are two labels. -/
theorem labels_apart {family family' : String} (plain : endsPlain family.toList = true)
    (plain' : endsPlain family'.toList = true) (other : family ≠ family') (n : Nat) :
    family ++ toString n ≠ family' ++ toString n :=
  fun same => other (numbered_injective plain plain' same).1

theorem chooseCompared_performs (comparison : Comparison) (taken other : Int32) (d : Datum) :
    Performs admits (chooseCompared comparison taken other) (σ.push d)
      (pushed σ (chosen? comparison taken other d)) :=
  .newLabel fun n =>
    choose_performs comparison (labels_apart (by decide) (by decide) (by decide) n) taken other d

/-! ## Operators -/

/-- The number that the code of an operator leaves of two numbers; nothing where it traps. -/
def compiled? (op : Operator) (a b : Int32) : Option Int32 :=
  match arithmetic? op, comparison? op with
  | some operation, _ => operation.compute? a b
  | none, some comparison => some (if comparison.holds (a - b) then 1 else 0)
  | none, none =>
      if op = .and then some (if Comparison.lt.holds (a + b - 2) then 0 else 1) else none

/-- An operation on what has to be two numbers. -/
def onWords? (compute? : Int32 → Int32 → Option Int32) : Datum → Datum → Option Datum
  | .word a, .word b => (compute? a b).map .word
  | _, _ => none

theorem arithmetic_performs (operation : Arithmetic) (a b : Datum) :
    Performs admits (emit (.arithmetic operation)) ((σ.push a).push b)
      (pushed σ (onWords? operation.compute? a b)) := by
  have same : step? admits (.arithmetic operation) ((σ.push a).push b) =
      pushed σ (onWords? operation.compute? a b) := by
    cases a with
    | word a =>
        cases b with
        | word b =>
            show (operation.compute? a b).map _ = ((operation.compute? a b).map _).map _
            rw [Option.map_map]
            rfl
        | reference | null => rfl
    | reference | null => cases b <;> rfl
  rw [← same]
  exact .emit _ _

theorem compare_performs {op : Operator} {comparison : Comparison} (plain : arithmetic? op = none)
    (compares : comparison? op = some comparison) (a b : Datum) :
    Performs admits (do
      emit (.arithmetic .subtract)
      chooseCompared comparison 1 0) ((σ.push a).push b)
      (pushed σ (onWords? (compiled? op) a b)) := by
  have left : compiled? op = fun a b => some (if comparison.holds (a - b) then 1 else 0) := by
    funext a b
    rw [compiled?, plain, compares]
  have chosen : pushed σ (onWords? (compiled? op) a b) =
      (onWords? Arithmetic.subtract.compute? a b).bind fun d =>
        pushed σ (chosen? comparison 1 0 d) := by
    rw [left]
    cases a <;> cases b <;> rfl
  rw [chosen]
  exact (arithmetic_performs .subtract a b).after_push (emit_marks _) fun d _ =>
    chooseCompared_performs comparison 1 0 d

theorem conjunction_performs (a b : Datum) :
    Performs admits (do
      emit (.arithmetic .add)
      emit (.constant 2)
      emit (.arithmetic .subtract)
      chooseCompared .lt 0 1) ((σ.push a).push b)
      (pushed σ (onWords? (compiled? .and) a b)) := by
  have chosen : pushed σ (onWords? (compiled? .and) a b) =
      (onWords? Arithmetic.add.compute? a b).bind fun sum =>
        (onWords? Arithmetic.subtract.compute? sum (.word 2)).bind fun d =>
          pushed σ (chosen? .lt 0 1 d) := by
    cases a <;> cases b <;> rfl
  rw [chosen]
  refine (arithmetic_performs .add a b).after_push (emit_marks _) fun sum _ => ?_
  refine (Performs.emit (.constant 2) _).bind (emit_marks _) fun _ => ?_
  exact (arithmetic_performs .subtract sum (.word 2)).after_push (emit_marks _) fun d _ =>
    chooseCompared_performs .lt 0 1 d

/-- The code of an operator replaces the two numbers on top by one. -/
theorem applyOperator_performs (op : Operator) (a b : Datum) :
    Performs admits (applyOperator op) ((σ.push a).push b)
      (pushed σ (onWords? (compiled? op) a b)) := by
  unfold applyOperator
  split
  · rename_i operation direct
    have left : compiled? op = operation.compute? := by
      funext a b
      rw [compiled?, direct]
    rw [left]
    exact arithmetic_performs operation a b
  · exact compare_performs ‹_› ‹_› a b
  · split
    · subst op
      exact conjunction_performs a b
    · exact fun _ _ _ _ run => nomatch run

/-- A binary instruction pushes what the operator leaves of the operands. -/
theorem binary_performs (lhs rhs : Element) (op : Operator) :
    Performs admits (binary f lhs op rhs) σ (pushed σ (do
      let a ← read? admits f σ lhs
      let b ← read? admits f σ rhs
      onWords? (compiled? op) a b)) := by
  have bound : (pushed σ (do
      let a ← read? admits f σ lhs
      let b ← read? admits f σ rhs
      onWords? (compiled? op) a b)) =
      (read? admits f σ lhs).bind fun a => (read? admits f (σ.push a) rhs).bind fun b =>
        pushed σ (onWords? (compiled? op) a b) := by
    simp only [read?_push, pushed, Option.bind_eq_bind, Option.map_bind, Function.comp_def]
  rw [bound]
  refine (load_performs lhs σ).after_push (load_marks lhs) fun a _ => ?_
  refine (load_performs rhs (σ.push a)).after_push (load_marks rhs) fun b _ => ?_
  exact applyOperator_performs op a b

/-- A negation pushes zero for a number that is not zero, and one for zero. -/
theorem unary_performs (operand : Element) (op : Operator) :
    Performs admits (unary f op operand) σ
      (pushed σ ((read? admits f σ operand).bind (chosen? .ne 0 1))) := by
  unfold unary
  split
  · rw [pushed, Option.map_bind]
    refine (load_performs operand σ).after_push (load_marks operand) fun d _ => ?_
    exact .newLabel fun n =>
      choose_performs .ne (labels_apart (by decide) (by decide) (by decide) n) 0 1 d
  · exact fun _ _ _ _ run => nomatch run

/-! ## Instructions that leave a value -/

variable (admits f) in
/-- What the code of an operand, a negation or a binary instruction leaves; nothing where it traps. -/
def result? (σ : State) : Instruction → Option Datum
  | .single operand => read? admits f σ operand
  | .unary _ operand => (read? admits f σ operand).bind (chosen? .ne 0 1)
  | .binary lhs operation rhs => do
      let a ← read? admits f σ lhs
      let b ← read? admits f σ rhs
      onWords? (compiled? operation.op) a b
  | _ => none

/-- The operands of an operand, a negation or a binary instruction. -/
def operandsOf : Instruction → List Element
  | .single operand | .unary _ operand => [operand]
  | .binary lhs _ rhs => [lhs, rhs]
  | _ => []

/-- Whether the instruction is an operand, a negation or a binary instruction. -/
def isOperation : Instruction → Bool
  | .single _ | .unary .. | .binary .. => true
  | _ => false

/-- The code of an operation pushes its result and changes nothing else. -/
theorem lower_performs {i : Instruction} (operation : isOperation i = true) (wanted : Bool) :
    Performs admits (lower f wanted i) σ (pushed σ (result? admits f σ i)) := by
  cases i with
  | single operand => exact load_performs operand σ
  | unary op operand => exact unary_performs operand op.op
  | binary lhs op rhs => exact binary_performs lhs rhs op.op
  | _ => cases operation

theorem State.push_injective {d d' : Datum} (h : σ.push d = σ.push d') : d = d' :=
  (List.cons.inj (congrArg State.stack h)).1

/-- Lines that push a value, run alone. -/
theorem Takes.leaves_pushed_iff {w : List CodeLine} {o : Option Datum}
    (hw : Takes admits w σ (pushed σ o)) (e : Exit) (σ' : State) :
    Leaves admits w σ e σ' ↔ ∃ d, o = some d ∧ e = .onward ∧ σ' = σ.push d := by
  cases o with
  | none =>
      refine iff_of_false hw.not_leaves ?_
      rintro ⟨d, same, -⟩
      exact nomatch same
  | some d =>
      refine (hw.leaves_iff fun _ same => nomatch same).trans ?_
      constructor
      · rintro ⟨rfl, rfl⟩
        exact ⟨d, rfl, rfl, rfl⟩
      · rintro ⟨_, same, rfl, rfl⟩
        cases same
        exact ⟨rfl, rfl⟩

end JavaMinus.Machine
