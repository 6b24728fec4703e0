/-
# Assignments on the machine

The code of an assignment puts the value of its right side at the place of its left side, and leaves
everything else as it was (`assignment_puts`).  The value is what the operator computes over the
integers, wrapped around; for the operators on truth values the operands have to be truth values, since
the code of a conjunction compares their sum with two.

Where a constant of one byte is added to a variable, one opcode stands for the four of the plain code.
The plain code does the same there: it would be emitted as well, and it ends in the same state.
-/
import JavaMinus.Proofs.Evaluation.Simulation
import JavaMinus.Proofs.Machine.Operands

namespace JavaMinus

/-- Whether an operand is the receiver, or names it. -/
def Ir.Element.mentionsThis : Element → Bool
  | .literal _ t => t = .this
  | .var name t => t = .this || name == "this"
  | .item array index t => t = .this || array == "this" || index.mentionsThis

namespace Machine

open Ir Assembly Assembling Evaluation

variable (admits : Kind → Datum → Bool) (f : Frame)

/-- What an operation means: what its operator computes over the integers, wrapped around. -/
def meaning? (σ : State) : Instruction → Option Datum
  | .single operand => read? admits f σ operand
  | .unary ⟨.not, _⟩ operand => do
      let d ← read? admits f σ operand
      match d with
      | .word n => some (.word (Int32.ofInt (truth (n = 0))))
      | _ => none
  | .binary lhs operation rhs => do
      let a ← read? admits f σ lhs
      let b ← read? admits f σ rhs
      onWords? (fun a b => (operation.op.compute? a.toInt b.toInt).map Int32.ofInt) a b
  | _ => none

/-- Where an assignment puts its value. -/
def place? (σ : State) : Element → Option Place
  | .literal .. => none
  | .var name _ => (f.registers.find? name).map fun s => .register s.register
  | .item array index _ => do
      let a ← held? admits f σ array
      let i ← read? admits f σ index
      elementPlace? σ.heap a i

/-- Whether the move into the destination accepts the value. -/
def accepts (d : Datum) : Element → Bool
  | .literal .. => true
  | .var name _ => (f.registers.find? name).all fun s => admits (.ofType s.type) d
  | .item _ _ t => admits (.ofType t) d

/-- The operands of a conjunction or a disjunction are truth values. -/
def TruthValued (σ : State) : Instruction → Prop
  | .binary lhs ⟨op, _⟩ rhs =>
      op = .and ∨ op = .or → ∀ operand ∈ [lhs, rhs],
        read? admits f σ operand = some (.word 0) ∨ read? admits f σ operand = some (.word 1)
  | _ => True

/-- Whether the instruction is an operation that does not compare. -/
def isPlain : Instruction → Bool
  | .single _ | .unary .. => true
  | .binary _ ⟨op, _⟩ _ => !op.isRelational
  | _ => false

variable {admits f} {σ : State}

/-! ## Values -/

/-- Of truth values and of all numbers otherwise, an operator that does not compare leaves what it
computes. -/
theorem compiled?_eq {op : Operator} (plain : op.isRelational = false) (binary : op ≠ .not)
    {a b : Int32} (bits : op = .and ∨ op = .or → (a = 0 ∨ a = 1) ∧ (b = 0 ∨ b = 1)) :
    compiled? op a b = (op.compute? a.toInt b.toInt).map Int32.ofInt := by
  cases op with
  | add => exact fold_eq .add a b
  | sub => exact fold_eq .sub a b
  | mul => exact fold_eq .mul a b
  | div => exact fold_eq .div a b
  | and =>
      obtain ⟨rfl | rfl, rfl | rfl⟩ := bits (.inl rfl) <;> decide
  | or =>
      obtain ⟨rfl | rfl, rfl | rfl⟩ := bits (.inr rfl) <;> decide
  | lt | lte | gt | gte | eq | neq => cases plain
  | not => exact absurd rfl binary

/-- A negation leaves one for zero, and zero for every other number. -/
theorem chosen?_not (n : Int32) :
    chosen? .ne 0 1 (.word n) = some (.word (Int32.ofInt (truth (n = 0)))) := by
  by_cases zero : n = 0 <;> simp [chosen?, Comparison.holds, truth, zero]

theorem onWords?_eq_some {compute? : Int32 → Int32 → Option Int32} {a b d : Datum}
    (h : onWords? compute? a b = some d) :
    ∃ x y n, a = .word x ∧ b = .word y ∧ compute? x y = some n ∧ d = .word n := by
  unfold onWords? at h
  split at h
  · obtain ⟨n, hn, rfl⟩ := Option.map_eq_some_iff.1 h
    exact ⟨_, _, n, rfl, rfl, hn, rfl⟩
  · cases h

/-- What an operation that does not compare means is what its code leaves. -/
theorem result?_of_meaning? {rhs : Instruction} (plain : isPlain rhs = true)
    (bits : TruthValued admits f σ rhs) {v : Datum} (hv : meaning? admits f σ rhs = some v) :
    isOperation rhs = true ∧ result? admits f σ rhs = some v := by
  cases rhs with
  | single operand => exact ⟨rfl, hv⟩
  | unary operation operand =>
      refine ⟨rfl, ?_⟩
      obtain ⟨op, type⟩ := operation
      cases op with
      | not =>
          obtain ⟨d, read, negated⟩ := Option.bind_eq_some_iff.1 hv
          cases d with
          | word n =>
              cases negated
              rw [result?, read]
              exact chosen?_not n
          | reference | null => cases negated
      | _ => cases hv
  | binary lhs operation rhs =>
      refine ⟨rfl, ?_⟩
      obtain ⟨op, type⟩ := operation
      obtain ⟨a, left, hv⟩ := Option.bind_eq_some_iff.1 hv
      obtain ⟨b, right, hv⟩ := Option.bind_eq_some_iff.1 hv
      obtain ⟨x, y, n, rfl, rfl, computed, rfl⟩ := onWords?_eq_some hv
      have binary : op ≠ .not := by
        rintro rfl
        cases computed
      have bit {operand : Element} {z : Int32} (read : read? admits f σ operand = some (.word z))
          (h : read? admits f σ operand = some (.word 0) ∨ read? admits f σ operand = some (.word 1)) :
          z = 0 ∨ z = 1 := by
        simpa only [read, Option.some.injEq, Datum.word.injEq] using h
      have same := compiled?_eq (Bool.not_eq_true' _ ▸ plain) binary (a := x) (b := y) fun logical =>
        ⟨bit left (bits logical lhs List.mem_cons_self),
          bit right (bits logical rhs (List.mem_cons_of_mem _ (List.mem_singleton_self _)))⟩
      simp only [result?, left, right, Option.bind_eq_bind, Option.bind_some, onWords?, same, computed,
        Option.map_some]
  | _ => cases plain

/-- The code of an operation that does not compare leaves what the operation means. -/
theorem right_performs {rhs : Instruction} (plain : isPlain rhs = true)
    (bits : TruthValued admits f σ rhs) {v : Datum} (hv : meaning? admits f σ rhs = some v) :
    Performs admits (lower f true rhs) σ (some (.onward, σ.push v)) := by
  obtain ⟨operation, result⟩ := result?_of_meaning? plain bits hv
  have pushes : Performs admits (lower f true rhs) σ (pushed σ (result? admits f σ rhs)) :=
    lower_performs operation true
  rwa [result] at pushes

theorem meaning?_push (d : Datum) (rhs : Instruction) :
    meaning? admits f (σ.push d) rhs = meaning? admits f σ rhs := by
  unfold meaning?
  simp only [read?_push]

theorem TruthValued.push {rhs : Instruction} (h : TruthValued admits f σ rhs) (d : Datum) :
    TruthValued admits f (σ.push d) rhs := by
  unfold TruthValued at h ⊢
  simpa only [read?_push] using h

/-! ## Places -/

theorem store_performs {name : String} {v : Datum} {place : Place} {t : ElementType}
    (hp : place? admits f σ (.var name t) = some place)
    (accepted : accepts admits f v (.var name t) = true) :
    Performs admits (store f name) (σ.push v) (some (.onward, σ.put place v)) := by
  obtain ⟨s, found, rfl⟩ := Option.map_eq_some_iff.1 hp
  refine .need fun s' found' => ?_
  obtain rfl := Option.some.inj (found.symm.trans found')
  have accepted : admits (.ofType s.type) v = true := by
    rwa [accepts, found] at accepted
  have step : step? admits (.store (.ofType s.type) s.register) (σ.push v) =
      some (.onward, σ.put (.register s.register) v) := if_pos accepted
  rw [← step]
  exact .emit _ _

theorem putAt_of_place? {dest : Element} {place : Place} (hp : place? admits f σ dest = some place)
    (v : Datum) : PutAt σ (σ.put place v) place v := by
  cases dest with
  | literal => cases hp
  | var name t =>
      obtain ⟨s, -, rfl⟩ := Option.map_eq_some_iff.1 hp
      exact put_register σ s.register v
  | item array index t =>
      obtain ⟨a, -, hp⟩ := Option.bind_eq_some_iff.1 hp
      obtain ⟨i, -, hp⟩ := Option.bind_eq_some_iff.1 hp
      obtain ⟨address, i, ds, rfl, array, inside⟩ := exists_of_elementPlace? hp
      exact put_element array inside v

theorem held?_eq_read? {array : String} (named : array ≠ "this") (t : ElementType) :
    read? admits f σ (.var array (.array t)) = held? admits f σ array := by
  have plain : ¬ (decide (ElementType.array t = .this) || array == "this") = true := by
    simp [named]
  rw [read?, if_neg plain]

theorem assignItem_performs {array : String} {index : Element} {t type : ElementType}
    {rhs : Instruction} {wanted : Bool} {v : Datum} {place : Place} (named : array ≠ "this")
    (plain : isPlain rhs = true) (bits : TruthValued admits f σ rhs)
    (hv : meaning? admits f σ rhs = some v)
    (hp : place? admits f σ (.item array index t) = some place)
    (accepted : admits (.ofType t) v = true) :
    Performs admits (lower f wanted (.assign (.item array index t) type rhs)) σ
      (some (.onward, σ.put place v)) := by
  obtain ⟨a, here, hp⟩ := Option.bind_eq_some_iff.1 hp
  obtain ⟨i, read, hp⟩ := Option.bind_eq_some_iff.1 hp
  have loadArray : Performs admits (loadVar f array (.array t)) σ (some (.onward, σ.push a)) := by
    have loads : Performs admits (loadVar f array (.array t)) σ _ := loadVar_performs array (.array t)
    rwa [held?_eq_read? named, here] at loads
  have loadIndex : Performs admits (load f index) (σ.push a) (some (.onward, (σ.push a).push i)) := by
    have loads : Performs admits (load f index) (σ.push a) _ := load_performs index (σ.push a)
    rwa [read?_push, read] at loads
  have value : Performs admits (lower f true rhs) ((σ.push a).push i) _ :=
    right_performs plain ((bits.push a).push i) (by rw [meaning?_push, meaning?_push, hv])
  have step : step? admits (.storeItem (.ofType t)) (((σ.push a).push i).push v) =
      some (.onward, σ.put place v) := by
    refine (if_pos accepted).trans ?_
    show (elementPlace? σ.heap a i).map _ = _
    rw [hp]
    rfl
  refine loadArray.bind (loadVar_marks array _) fun _ => ?_
  refine loadIndex.bind (load_marks index) fun _ => ?_
  refine value.then (fun _ => ?_) fun _ => emit_marks _
  rw [← step]
  exact .emit _ _

/-- The code of an assignment to a variable, where it is not shortened. -/
theorem plainAssign_performs {name : String} {t : ElementType} {rhs : Instruction} {v : Datum}
    {place : Place} (plain : isPlain rhs = true) (bits : TruthValued admits f σ rhs)
    (hv : meaning? admits f σ rhs = some v) (hp : place? admits f σ (.var name t) = some place)
    (accepted : accepts admits f v (.var name t) = true) :
    Performs admits (do
      lower f true rhs
      store f name) σ (some (.onward, σ.put place v)) :=
  (right_performs plain bits hv).then (fun _ => store_performs hp accepted) fun _ => store_marks name

/-- A sum of a variable and a constant is written in one of two orders. -/
theorem addedConstant?_eq_some {name : String} {rhs : Instruction} {amount : Int32}
    (h : addedConstant? name rhs = some amount) :
    ∃ constant t type, constant.value? = some amount ∧
      (rhs = .binary (.var name t) ⟨.add, type⟩ constant ∨
        rhs = .binary constant ⟨.add, type⟩ (.var name t)) := by
  have variable_of {e : Element} (is : isVar name e = true) : ∃ t, e = .var name t := by
    cases e with
    | var other t => exact ⟨t, congrArg (Element.var · t) (beq_iff_eq.1 is)⟩
    | literal | item => cases is
  unfold addedConstant? at h
  split at h
  · split at h
    · obtain ⟨t, rfl⟩ := variable_of ‹_›
      exact ⟨_, t, _, h, .inl rfl⟩
    · split at h
      · obtain ⟨t, rfl⟩ := variable_of ‹_›
        exact ⟨_, t, _, h, .inr rfl⟩
      · cases h
  · cases h

theorem increment?_eq_some {name : String} {rhs : Instruction} {register : Nat} {amount : Int32}
    (h : increment? f name rhs = some (register, amount)) :
    addedConstant? name rhs = some amount ∧
      ∃ s, f.registers.find? name = some s ∧ s.register = register := by
  obtain ⟨constant, added, h⟩ := Option.bind_eq_some_iff.1 h
  obtain ⟨_, -, h⟩ := Option.bind_eq_some_iff.1 h
  obtain ⟨s, found, h⟩ := Option.bind_eq_some_iff.1 h
  obtain ⟨_, -, h⟩ := Option.bind_eq_some_iff.1 h
  cases h
  exact ⟨added, s, found, rfl⟩

theorem read_of_value? {constant : Element} {amount : Int32} (h : constant.value? = some amount) :
    read? admits f σ constant = some (.word amount) := by
  cases constant with
  | literal value t =>
      obtain ⟨numeric, number⟩ := Option.ite_none_right_eq_some.1 h
      rw [read?, if_pos numeric, number]
      rfl
  | var | item => cases h

/-- The shortened code of a sum does what the plain code does. -/
theorem increment_performs {name : String} {t : ElementType} {rhs : Instruction} {v : Datum}
    {place : Place} {register : Nat} {amount : Int32}
    (shortened : increment? f name rhs = some (register, amount))
    (own : ∀ operand ∈ operandsOf rhs, operand.mentionsThis = false)
    (hv : meaning? admits f σ rhs = some v) (hp : place? admits f σ (.var name t) = some place) :
    Performs admits (emit (.increment register amount)) σ (some (.onward, σ.put place v)) := by
  obtain ⟨added, s, found, rfl⟩ := increment?_eq_some shortened
  obtain ⟨constant, t', type, value, order⟩ := addedConstant?_eq_some added
  have held_of {a : Datum} {t : ElementType} (notThis : (Element.var name t).mentionsThis = false)
      (read : read? admits f σ (.var name t) = some a) : σ.registers s.register = some a := by
    rw [read?, if_neg (Bool.not_eq_true _ ▸ notThis), held?, found] at read
    exact (Option.filter_eq_some_iff.1 read).1
  have sum : ∃ n : Int32, σ.registers s.register = some (.word n) ∧ v = .word (n + amount) := by
    rcases order with rfl | rfl
    · obtain ⟨a, left, hv⟩ := Option.bind_eq_some_iff.1 hv
      obtain ⟨b, right, hv⟩ := Option.bind_eq_some_iff.1 hv
      obtain ⟨x, y, n, rfl, rfl, computed, rfl⟩ := onWords?_eq_some hv
      cases (read_of_value? value).symm.trans right
      cases computed
      exact ⟨x, held_of (own _ List.mem_cons_self) left, by simp [Int32.ofInt_add]⟩
    · obtain ⟨a, left, hv⟩ := Option.bind_eq_some_iff.1 hv
      obtain ⟨b, right, hv⟩ := Option.bind_eq_some_iff.1 hv
      obtain ⟨x, y, n, rfl, rfl, computed, rfl⟩ := onWords?_eq_some hv
      cases (read_of_value? value).symm.trans left
      cases computed
      have notThis := own _ (List.mem_cons_of_mem _ (List.mem_singleton_self _))
      exact ⟨y, held_of notThis right, by simp [Int32.ofInt_add, Int32.add_comm]⟩
  obtain ⟨n, here, rfl⟩ := sum
  obtain ⟨s', found', rfl⟩ := Option.map_eq_some_iff.1 hp
  obtain rfl := Option.some.inj (found.symm.trans found')
  have step : step? admits (.increment s.register amount) σ =
      some (.onward, σ.put (.register s.register) (.word (n + amount))) := by
    unfold step?
    simp only [here]
  rw [← step]
  exact .emit _ _

/-- Where the code is shortened, the plain code would have been emitted as well. -/
theorem plain_of_increment? {name : String} {rhs : Instruction} {register : Nat} {amount : Int32}
    (shortened : increment? f name rhs = some (register, amount)) (u : Tracker) :
    ∃ u' w, (do
      lower f true rhs
      store f name : Assembling Unit).run u = ⟨.ok (), u', w⟩ := by
  obtain ⟨added, s, found, rfl⟩ := increment?_eq_some shortened
  obtain ⟨constant, t, type, value, order⟩ := addedConstant?_eq_some added
  have there : (f.registers.find? name).isSome := Option.isSome_of_eq_some found
  have loadName {a : Nat} : Ends (load f (.var name t)) a true () (a + 1) :=
    loadVar_ends (.inr (.inr there))
  have loadConstant {a : Nat} : Ends (load f constant) a true () (a + 1) := by
    cases constant with
    | literal text t =>
        obtain ⟨numeric, number⟩ := Option.ite_none_right_eq_some.1 value
        have loads : (Element.literal text t).Loads := ⟨numeric, Option.isSome_of_eq_some number⟩
        exact load_ends loads fun _ inside => nomatch inside
    | var | item => cases value
  have right {a : Nat} : Ends (lower f true rhs) a true () (a + 1) := by
    rcases order with rfl | rfl
    · exact loadName.first (loadConstant.first (arithmetic_ends .add))
    · exact loadConstant.first (loadName.first (arithmetic_ends .add))
  have whole : Ends (do
      lower f true rhs
      store f name : Assembling Unit) u.stack.depth true () u.stack.depth :=
    right.first (store_ends there)
  have succeeds := (whole u rfl).1
  exact ⟨_, _, congrArg (Emitted.mk · _ _) succeeds⟩

/-! ## Assignments -/

theorem not_mentionsThis_of_item {array : String} {index : Element} {t : ElementType}
    (h : (Element.item array index t).mentionsThis = false) : array ≠ "this" := by
  rintro rfl
  simp [Element.mentionsThis] at h

/-- The code of an assignment puts the value of the right side at the place of the left side: every run
of it comes to its end in that state.  A machine that looks at what it moves has to accept the value
there.  Where the code is shortened to one opcode, the plain code would be emitted as well and does the
same. -/
theorem assignment_puts {dest : Element} {type : ElementType} {rhs : Instruction} {wanted : Bool}
    {t t' : Tracker} {x : Unit} {w : List CodeLine}
    (run : (lower f wanted (.assign dest type rhs)).run t = ⟨.ok x, t', w⟩)
    (own : ∀ operand ∈ dest :: operandsOf rhs, operand.mentionsThis = false)
    (plain : isPlain rhs = true) (bits : TruthValued admits f σ rhs) {v : Datum} {place : Place}
    (hv : meaning? admits f σ rhs = some v) (hp : place? admits f σ dest = some place)
    (accepted : accepts admits f v dest = true) :
    PutAt σ (σ.put place v) place v ∧
    (∀ e σ', Leaves admits w σ e σ' ↔ e = .onward ∧ σ' = σ.put place v) ∧
    ∀ name r register amount, dest = .var name r → increment? f name rhs = some (register, amount) →
      w = [.op (.increment register amount)] ∧ ∀ u : Tracker, ∃ u' w',
        (do
          lower f true rhs
          store f name : Assembling Unit).run u = ⟨.ok (), u', w'⟩ ∧
        ∀ e σ', Leaves admits w' σ e σ' ↔ e = .onward ∧ σ' = σ.put place v := by
  have ownRight : ∀ operand ∈ operandsOf rhs, operand.mentionsThis = false :=
    fun operand inside => own operand (List.mem_cons_of_mem _ inside)
  refine ⟨putAt_of_place? hp v, ?_, ?_⟩
  · have performs : Performs admits (lower f wanted (.assign dest type rhs)) σ
        (some (.onward, σ.put place v)) := by
      cases dest with
      | literal => cases hp
      | var name r =>
          unfold lower
          split
          · exact increment_performs ‹_› ownRight hv hp
          · exact plainAssign_performs plain bits hv hp accepted
      | item array index r =>
          exact assignItem_performs (not_mentionsThis_of_item (own _ List.mem_cons_self)) plain bits hv
            hp accepted
    intro e σ'
    exact (performs _ _ _ _ run).leaves_iff fun _ same => nomatch same
  · rintro name r register amount rfl shortened
    constructor
    · unfold lower at run
      rw [shortened] at run
      exact (emit_ok run).2.2.1
    · intro u
      obtain ⟨u', w', ran⟩ := plain_of_increment? shortened u
      have performs := plainAssign_performs plain bits hv hp accepted _ _ _ _ ran
      exact ⟨u', w', ran, fun e σ' => performs.leaves_iff fun _ same => nomatch same⟩

/-- A method with one integer variable. -/
def oneNumber : Frame := ⟨⟨"A", objectClass, []⟩, ⟨[("x", .int32)]⟩⟩

/-- The variable holds the greatest number. -/
def atGreatest : State := ⟨fun _ => .null, fun r => [Datum.word 2147483647][r]?, [], []⟩

/-- The greatest constant that fits the short form is added to the variable. -/
def addGreatest : Instruction :=
  .assign (.var "x" .int32) .int32
    (.binary (.var "x" .int32) ⟨.add, .int32⟩ (.literal "127" .int32))

/-- The short form wraps around. -/
theorem increment_wraps :
    ∃ t w, (lower oneNumber false addGreatest).run .start = ⟨.ok (), t, w⟩ ∧
      w = [.op (.increment 0 127)] ∧
      (∀ operand ∈ [Element.var "x" .int32, .var "x" .int32, .literal "127" .int32],
        operand.mentionsThis = false) ∧
      Leaves typed w atGreatest .onward (atGreatest.put (.register 0) (.word (-2147483522))) := by
  have lowered : (lower oneNumber false addGreatest).run .start = ⟨.ok (), _, _⟩ := rfl
  have own : ∀ operand ∈ [Element.var "x" .int32, .var "x" .int32, .literal "127" .int32],
      operand.mentionsThis = false := by decide
  have value : meaning? typed oneNumber atGreatest
      (.binary (.var "x" .int32) ⟨.add, .int32⟩ (.literal "127" .int32)) =
        some (.word (-2147483522)) := by decide
  have place : place? typed oneNumber atGreatest (.var "x" .int32) = some (.register 0) := rfl
  obtain ⟨-, leaves, short⟩ := assignment_puts lowered own rfl (fun logical => nomatch logical) value
    place rfl
  obtain ⟨shortened, -⟩ := short "x" .int32 0 127 rfl (by decide)
  exact ⟨_, _, lowered, shortened, own, (leaves _ _).2 ⟨rfl, rfl⟩⟩

end Machine

end JavaMinus
