/-
# The stack machine

A state is what a method has while it runs: its registers, the heap and the operand stack, whose top
comes first.  The opcodes on numbers work on words of 32 bits, which wrap around; a division by zero
traps, and so does an opcode that does not find on the stack what it works on.  Opcodes that enter
another method, leave this one or reach a field have no step here.

The moves come in two kinds, one for numbers and one for references.  What a move of a kind accepts is
left open (`admits`): a machine may look at what it moves, or move whatever it finds.  Everything below
holds for every such machine.

`Runs` follows the lines of a code.  A jump goes on behind the first line with the label, and leaves the
code if no line has it.  A stretch of lines is described by `Takes`: wherever it stands, a run through it
goes on in the same way.  Such descriptions are put together line by line; where a jump lands inside the
stretch, `Takes.land` says so.
-/
import JavaMinus.Assembly.Code
import JavaMinus.Proofs.Assembly.Labels
import JavaMinus.Proofs.Evaluation.Execution

namespace JavaMinus

namespace Assembly

/-- Whether a number compares with zero as asked. -/
def Comparison.holds : Comparison → Int32 → Bool
  | .lt, n => n < 0
  | .le, n => n ≤ 0
  | .gt, n => 0 < n
  | .ge, n => 0 ≤ n
  | .eq, n => n = 0
  | .ne, n => n ≠ 0

/-- What an operation leaves of two numbers; nothing where it traps. -/
def Arithmetic.compute? : Arithmetic → Int32 → Int32 → Option Int32
  | .add, a, b => some (a + b)
  | .subtract, a, b => some (a - b)
  | .multiply, a, b => some (a * b)
  | .divide, a, b => if b = 0 then none else some (a / b)
  | .bitOr, a, b => some (a ||| b)

end Assembly

namespace Machine

open Assembly Evaluation

/-! ## States -/

/-- What a method has while it runs. -/
structure State where
  /-- What the constants that are no numbers stand for. -/
  constants : String → Datum
  registers : Nat → Option Datum
  heap : Heap
  /-- The operand stack, from the top. -/
  stack : List Datum

/-- Where a value can be put. -/
inductive Place where
  | register (number : Nat)
  | element (address index : Nat)
deriving DecidableEq, Repr

/-- The place of an element of an array, if the array has it. -/
def elementPlace? (heap : Heap) : Datum → Datum → Option Place
  | .reference address, .word i =>
      match heap[address]? with
      | some (.array ds) =>
          if 0 ≤ i.toInt ∧ i.toInt.toNat < ds.length then some (.element address i.toInt.toNat)
          else none
      | _ => none
  | _, _ => none

namespace State

/-- The state with one more value on the stack. -/
def push (σ : State) (d : Datum) : State := { σ with stack := d :: σ.stack }

/-- What lies at a place. -/
def at? (σ : State) : Place → Option Datum
  | .register r => σ.registers r
  | .element address i =>
      match σ.heap[address]? with
      | some (.array ds) => ds[i]?
      | _ => none

/-- The state with a value put at a place; where there is no array, nothing is put. -/
def put (σ : State) : Place → Datum → State
  | .register r, d =>
      { σ with registers := fun other => if other = r then some d else σ.registers other }
  | .element address i, d =>
      match σ.heap[address]? with
      | some (.array ds) => { σ with heap := σ.heap.set address (.array (ds.set i d)) }
      | _ => σ

end State

/-- A value has been put at a place: it lies there, and everything else is as it was. -/
structure PutAt (σ σ' : State) (place : Place) (d : Datum) : Prop where
  there : σ'.at? place = some d
  others : ∀ other, other ≠ place → σ'.at? other = σ.at? other
  cells : ∀ address, (∀ i, place ≠ .element address i) → σ'.heap[address]? = σ.heap[address]?
  stack : σ'.stack = σ.stack
  constants : σ'.constants = σ.constants

theorem put_register (σ : State) (r : Nat) (d : Datum) :
    PutAt σ (σ.put (.register r) d) (.register r) d where
  there := if_pos rfl
  others other apart := by
    cases other with
    | register r' => exact if_neg fun same => apart (congrArg Place.register same)
    | element => rfl
  cells _ _ := rfl
  stack := rfl
  constants := rfl

theorem exists_of_elementPlace? {heap : Heap} {array index : Datum} {place : Place}
    (h : elementPlace? heap array index = some place) :
    ∃ address i ds, place = .element address i ∧ heap[address]? = some (.array ds) ∧
      i < ds.length := by
  unfold elementPlace? at h
  split at h
  · split at h
    · split at h
      · cases h
        exact ⟨_, _, _, rfl, ‹_›, ‹_ ∧ _›.2⟩
      · cases h
    · cases h
  · cases h

theorem put_element {σ : State} {address i : Nat} {ds : List Datum}
    (array : σ.heap[address]? = some (.array ds)) (inside : i < ds.length) (d : Datum) :
    PutAt σ (σ.put (.element address i) d) (.element address i) d := by
  have stored : σ.put (.element address i) d =
      { σ with heap := σ.heap.set address (.array (ds.set i d)) } := by
    simp only [State.put, array]
  have here : (σ.heap.set address (.array (ds.set i d)))[address]? = some (.array (ds.set i d)) :=
    List.getElem?_set_self (List.getElem?_eq_some_iff.1 array).1
  have elsewhere {other : Nat} (apart : other ≠ address) :
      (σ.heap.set address (.array (ds.set i d)))[other]? = σ.heap[other]? :=
    List.getElem?_set_ne apart.symm
  rw [stored]
  constructor
  · simp only [State.at?, here]
    exact List.getElem?_set_self inside
  · intro other apart
    cases other with
    | register => rfl
    | element address' i' =>
        by_cases same : address' = address
        · subst same
          have apart' : i' ≠ i := fun same => apart (congrArg (Place.element address') same)
          simp only [State.at?, here, array]
          exact List.getElem?_set_ne apart'.symm
        · simp only [State.at?, elsewhere same]
  · intro other apart
    exact elsewhere fun same => apart i (congrArg (Place.element · i) same.symm)
  · rfl
  · rfl

/-! ## Steps -/

/-- Where a run goes on: at the next line, or behind a label. -/
inductive Exit where
  | onward
  | jump (label : String)
deriving DecidableEq, Repr

/-- What an opcode does to a state, and where the run goes on; nothing where it traps. -/
def step? (admits : Kind → Datum → Bool) (op : Opcode) (σ : State) : Option (Exit × State) :=
  match op, σ.stack with
  | .constant n, _ => some (.onward, σ.push (.word n))
  | .constantText text, _ => some (.onward, σ.push (σ.constants text))
  | .load kind r, _ => ((σ.registers r).filter (admits kind)).map fun d => (.onward, σ.push d)
  | .store kind r, d :: ds =>
      if admits kind d then some (.onward, { σ with stack := ds }.put (.register r) d) else none
  | .increment r amount, _ =>
      match σ.registers r with
      | some (.word n) => some (.onward, σ.put (.register r) (.word (n + amount)))
      | _ => none
  | .arithmetic operation, .word b :: .word a :: ds =>
      (operation.compute? a b).map fun n => (.onward, { σ with stack := .word n :: ds })
  | .loadItem kind, index :: array :: ds =>
      ((element? σ.heap array index).filter (admits kind)).map fun d =>
        (.onward, { σ with stack := d :: ds })
  | .storeItem kind, d :: index :: array :: ds =>
      if admits kind d then
        (elementPlace? σ.heap array index).map fun place =>
          (.onward, { σ with stack := ds }.put place d)
      else none
  | .arrayLength, array :: ds =>
      (elements? σ.heap array).map fun elements =>
        (.onward, { σ with stack := .word (Int32.ofInt elements.length) :: ds })
  | .pop, _ :: ds => some (.onward, { σ with stack := ds })
  | .goto label, _ => some (.jump label, σ)
  | .branch comparison label, .word n :: ds =>
      some (if comparison.holds n then .jump label else .onward, { σ with stack := ds })
  | _, _ => none

/-- The moves of a machine that looks at what it moves. -/
def typed : Kind → Datum → Bool
  | .number, .word _ => true
  | .reference, .reference _ | .reference, .null => true
  | _, _ => false

/-! ## Runs -/

/-- The lines behind a label. -/
def after? (name : String) : List CodeLine → Option (List CodeLine)
  | [] => none
  | .op _ :: rest => after? name rest
  | .label other :: rest => if other = name then some rest else after? name rest

theorem after?_append {name : String} {front : List CodeLine} (h : name ∉ labelsOf front)
    (rest : List CodeLine) : after? name (front ++ rest) = after? name rest := by
  induction front with
  | nil => rfl
  | cons line front ih =>
      cases line with
      | op _ => exact ih h
      | label other =>
          have apart : other ≠ name ∧ name ∉ labelsOf front :=
            ⟨fun same => h (same ▸ List.mem_cons_self), fun inside => h (List.mem_cons_of_mem _ inside)⟩
          rw [List.cons_append, after?, if_neg apart.1]
          exact ih apart.2

theorem after?_eq_none {name : String} {w : List CodeLine} (h : name ∉ labelsOf w) :
    after? name w = none := by
  rw [← List.append_nil w, after?_append h]
  rfl

section

variable (admits : Kind → Datum → Bool)

/-- From lines of a code, a run leaves the code in a state, at its end or by a jump. -/
inductive Runs (all : List CodeLine) : List CodeLine → State → Exit → State → Prop
  | finished (σ : State) : Runs all [] σ .onward σ
  | label {name : String} {rest : List CodeLine} {σ σ' : State} {e : Exit} :
      Runs all rest σ e σ' → Runs all (.label name :: rest) σ e σ'
  | next {op : Opcode} {rest : List CodeLine} {σ σ₁ σ' : State} {e : Exit} :
      step? admits op σ = some (.onward, σ₁) → Runs all rest σ₁ e σ' →
      Runs all (.op op :: rest) σ e σ'
  | jump {op : Opcode} {name : String} {rest next : List CodeLine} {σ σ₁ σ' : State} {e : Exit} :
      step? admits op σ = some (.jump name, σ₁) → after? name all = some next →
      Runs all next σ₁ e σ' → Runs all (.op op :: rest) σ e σ'
  | leave {op : Opcode} {name : String} {rest : List CodeLine} {σ σ₁ : State} :
      step? admits op σ = some (.jump name, σ₁) → after? name all = none →
      Runs all (.op op :: rest) σ (.jump name) σ₁

/-- A run of a code from its first line leaves it in a state, at its end or by a jump. -/
def Leaves (code : List CodeLine) (σ : State) (e : Exit) (σ' : State) : Prop :=
  Runs admits code code σ e σ'

/-- How a run goes on in a code: at given lines, or behind a label; or it has trapped. -/
def Resumes (all back : List CodeLine) (outcome : Option (Exit × State)) (e : Exit) (σ' : State) :
    Prop :=
  match outcome with
  | none => False
  | some (.onward, σ₁) => Runs admits all back σ₁ e σ'
  | some (.jump name, σ₁) =>
      match after? name all with
      | some next => Runs admits all next σ₁ e σ'
      | none => e = .jump name ∧ σ' = σ₁

/-- Wherever the lines stand, if none of their labels stands before them, a run through them from the
state comes to the outcome. -/
def Takes (w : List CodeLine) (σ : State) (outcome : Option (Exit × State)) : Prop :=
  ∀ front back e σ', (∀ name ∈ labelsOf w, name ∉ labelsOf front) →
    (Runs admits (front ++ w ++ back) (w ++ back) σ e σ' ↔
      Resumes admits (front ++ w ++ back) back outcome e σ')

end

variable {admits : Kind → Datum → Bool} {w w' : List CodeLine} {σ σ₁ : State}
  {outcome : Option (Exit × State)} {name : String}

theorem runs_nil_iff {all : List CodeLine} {e : Exit} {σ' : State} :
    Runs admits all [] σ e σ' ↔ e = .onward ∧ σ' = σ := by
  constructor
  · intro run
    cases run
    exact ⟨rfl, rfl⟩
  · rintro ⟨rfl, rfl⟩
    exact .finished _

theorem resumes_of_found {all back next : List CodeLine} {e : Exit} {σ' : State}
    (h : after? name all = some next) :
    Resumes admits all back (some (.jump name, σ₁)) e σ' ↔ Runs admits all next σ₁ e σ' := by
  simp only [Resumes, h]

theorem resumes_of_missing {all back : List CodeLine} {e : Exit} {σ' : State}
    (h : after? name all = none) :
    Resumes admits all back (some (.jump name, σ₁)) e σ' ↔ e = .jump name ∧ σ' = σ₁ := by
  simp only [Resumes, h]

namespace Takes

theorem nil (σ : State) : Takes admits [] σ (some (.onward, σ)) :=
  fun _ _ _ _ _ => Iff.rfl

theorem label (name : String) (σ : State) :
    Takes admits [.label name] σ (some (.onward, σ)) := by
  intro front back e σ' _
  constructor
  · intro run
    cases run with
    | label rest => exact rest
  · exact .label

theorem op (op : Opcode) (σ : State) : Takes admits [.op op] σ (step? admits op σ) := by
  intro front back e σ' _
  constructor
  · intro run
    cases run with
    | next step rest => rw [step]; exact rest
    | jump step found rest => rw [step]; exact (resumes_of_found found).2 rest
    | leave step missing => rw [step]; exact (resumes_of_missing missing).2 ⟨rfl, rfl⟩
  · intro goesOn
    rcases step : step? admits op σ with _ | ⟨_ | name, σ₁⟩
    · rw [step] at goesOn
      exact goesOn.elim
    · rw [step] at goesOn
      exact .next step goesOn
    · rw [step] at goesOn
      cases found : after? name (front ++ [.op op] ++ back) with
      | some next => exact .jump step found ((resumes_of_found found).1 goesOn)
      | none =>
          obtain ⟨rfl, rfl⟩ := (resumes_of_missing found).1 goesOn
          exact .leave step found

theorem append (hw : Takes admits w σ (some (.onward, σ₁))) (hw' : Takes admits w' σ₁ outcome)
    (apart : ∀ name ∈ labelsOf w', name ∉ labelsOf w) : Takes admits (w ++ w') σ outcome := by
  intro front back e σ' free
  have first := hw front (w' ++ back) e σ' fun name inside =>
    free name (labelsOf_append w w' ▸ List.mem_append_left _ inside)
  have second := hw' (front ++ w) back e σ' fun name inside => by
    rw [labelsOf_append, List.mem_append, not_or]
    exact ⟨free name (labelsOf_append w w' ▸ List.mem_append_right _ inside), apart name inside⟩
  simp only [List.append_assoc] at first second ⊢
  exact first.trans second

/-- Lines that are jumped out of, or that trap, do so whatever stands behind them. -/
theorem cut (hw : Takes admits w σ outcome) (left : ∀ σ₁, outcome ≠ some (.onward, σ₁))
    (w' : List CodeLine) : Takes admits (w ++ w') σ outcome := by
  intro front back e σ' free
  have first := hw front (w' ++ back) e σ' fun name inside =>
    free name (labelsOf_append w w' ▸ List.mem_append_left _ inside)
  have same : Resumes admits (front ++ (w ++ w') ++ back) (w' ++ back) outcome e σ' ↔
      Resumes admits (front ++ (w ++ w') ++ back) back outcome e σ' := by
    rcases outcome with _ | ⟨_ | _, σ₁⟩
    · rfl
    · exact absurd rfl (left σ₁)
    · rfl
  simp only [List.append_assoc] at first same ⊢
  exact first.trans same

theorem land (hw : Takes admits w σ (some (.jump name, σ₁))) (w' : List CodeLine)
    (fresh : name ∉ labelsOf (w ++ w')) :
    Takes admits (w ++ w' ++ [.label name]) σ (some (.onward, σ₁)) := by
  intro front back e σ' free
  have jump := hw front (w' ++ [.label name] ++ back) e σ' fun other inside => by
    refine free other ?_
    rw [List.append_assoc, labelsOf_append]
    exact List.mem_append_left _ inside
  have unmarked : name ∉ labelsOf (front ++ (w ++ w')) := by
    rw [labelsOf_append, List.mem_append, not_or]
    refine ⟨free name ?_, fresh⟩
    rw [labelsOf_append]
    exact List.mem_append_right _ List.mem_cons_self
  have found : after? name (front ++ (w ++ w' ++ [.label name]) ++ back) = some back := by
    rw [← List.append_assoc front, List.append_assoc _ [_], after?_append unmarked]
    exact if_pos rfl
  simp only [List.append_assoc] at jump found ⊢
  exact jump.trans (resumes_of_found found)

theorem leaves_iff_resumes (hw : Takes admits w σ outcome) {e : Exit} {σ' : State} :
    Leaves admits w σ e σ' ↔ Resumes admits w [] outcome e σ' := by
  have alone := hw [] [] e σ' fun _ _ => List.not_mem_nil
  simp only [List.nil_append, List.append_nil] at alone
  exact alone

theorem leaves_iff {exit : Exit} (hw : Takes admits w σ (some (exit, σ₁)))
    (outside : ∀ label, exit = .jump label → label ∉ labelsOf w) {e : Exit} {σ' : State} :
    Leaves admits w σ e σ' ↔ e = exit ∧ σ' = σ₁ := by
  refine hw.leaves_iff_resumes.trans ?_
  cases exit with
  | onward => exact runs_nil_iff
  | jump label => exact resumes_of_missing (after?_eq_none (outside label rfl))

theorem not_leaves (hw : Takes admits w σ none) {e : Exit} {σ' : State} :
    ¬ Leaves admits w σ e σ' :=
  fun run => hw.leaves_iff_resumes.1 run

end Takes

/-! ## Steps of the generator -/

/-- The lines that the step writes, if it succeeds, take the state to the outcome. -/
def Performs (admits : Kind → Datum → Bool) {α : Type} (m : Assembling α) (σ : State)
    (outcome : Option (Exit × State)) : Prop :=
  ∀ t x t' w, m.run t = ⟨.ok x, t', w⟩ → Takes admits w σ outcome

namespace Performs

variable {α β : Type} {m : Assembling α} {k : α → Assembling β}

/-- Two steps, the first without labels. -/
theorem bind (hm : Performs admits m σ (some (.onward, σ₁))) (none : Marks m [])
    (hk : ∀ x, Performs admits (k x) σ₁ outcome) : Performs admits (m >>= k) σ outcome := by
  intro t y t₂ w run
  obtain ⟨x, t₁, w₁, w₂, run₁, run₂, rfl⟩ := Emission.run_bind_ok_iff.1 run
  refine (hm _ _ _ _ run₁).append (hk x _ _ _ _ run₂) fun name _ => ?_
  rw [(none _ _ _ _ run₁).2]
  exact List.not_mem_nil

/-- Two steps, the second without labels. -/
theorem «then» (hm : Performs admits m σ (some (.onward, σ₁)))
    (hk : ∀ x, Performs admits (k x) σ₁ outcome) (none : ∀ x, Marks (k x) []) :
    Performs admits (m >>= k) σ outcome := by
  intro t y t₂ w run
  obtain ⟨x, t₁, w₁, w₂, run₁, run₂, rfl⟩ := Emission.run_bind_ok_iff.1 run
  refine (hm _ _ _ _ run₁).append (hk x _ _ _ _ run₂) fun name inside => ?_
  rw [(none x _ _ _ _ run₂).2] at inside
  exact absurd inside List.not_mem_nil

/-- Where the first step is jumped out of or traps, the second does not matter. -/
theorem cut (hm : Performs admits m σ outcome) (left : ∀ σ₁, outcome ≠ some (.onward, σ₁)) :
    Performs admits (m >>= k) σ outcome := by
  intro t y t₂ w run
  obtain ⟨x, t₁, w₁, w₂, run₁, -, rfl⟩ := Emission.run_bind_ok_iff.1 run
  exact (hm _ _ _ _ run₁).cut left w₂

theorem emit (op : Opcode) (σ : State) : Performs admits (Assembling.emit op) σ (step? admits op σ) := by
  intro t x t' w run
  obtain ⟨-, -, rfl, -⟩ := emit_ok run
  exact .op op σ

/-- A value that the rest of the step needs. -/
theorem need {e : Error} {o : Option α} (hk : ∀ x, o = some x → Performs admits (k x) σ outcome) :
    Performs admits (Emission.need e o >>= k) σ outcome := by
  cases o with
  | none => exact fun _ _ _ _ run => nomatch run
  | some x =>
      have here := hk x rfl
      rwa [Emission.need, pure_bind]

theorem newLabel {k : Nat → Assembling β} (hk : ∀ n, Performs admits (k n) σ outcome) :
    Performs admits (Assembling.newLabel >>= k) σ outcome := by
  intro t y t₂ w run
  obtain ⟨n, t₁, w₁, w₂, first, rest, rfl⟩ := Emission.run_bind_ok_iff.1 run
  cases first
  exact hk _ _ _ _ _ rest

end Performs

end Machine

end JavaMinus
