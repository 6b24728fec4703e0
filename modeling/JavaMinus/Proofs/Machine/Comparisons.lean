/-
# Comparisons on the machine

A comparison is the sign of a difference, and the difference wraps around.  Whether two numbers are
equal is read off it all the same, but an order is answered wrongly exactly where the difference of the
two is no word (`holds_sub_iff`), as for the least number and one.  Both ways to lower a comparison go
through the difference, so both are right or wrong together; a comparison of two constants, which is
computed beforehand, is always right.
-/
import JavaMinus.Proofs.Evaluation.Simulation
import JavaMinus.Proofs.Machine.Conditions

namespace JavaMinus.Machine

open Ir Assembly Assembling Evaluation

/-- The difference of the numbers is a word, or the operator only asks whether it is zero. -/
def Exact (op : Operator) (a b : Int32) : Prop :=
  op = .eq ∨ op = .neq ∨ -2147483648 ≤ a.toInt - b.toInt ∧ a.toInt - b.toInt ≤ 2147483647

theorem truth_eq_truth_iff {p q : Prop} [Decidable p] [Decidable q] :
    truth p = truth q ↔ (p ↔ q) := by
  by_cases hp : p <;> by_cases hq : q <;> simp [truth, hp, hq]

theorem holds_iff (comparison : Comparison) (n : Int32) :
    comparison.holds n = true ↔
      match comparison with
      | .lt => n.toInt < 0
      | .le => n.toInt ≤ 0
      | .gt => 0 < n.toInt
      | .ge => 0 ≤ n.toInt
      | .eq => n.toInt = 0
      | .ne => n.toInt ≠ 0 := by
  cases comparison <;>
    simp [Comparison.holds, Int32.lt_iff_toInt_lt, Int32.le_iff_toInt_le, ← Int32.toInt_inj]

/-- The difference of two words, as far as it wraps around. -/
theorem exists_wrapped (a b : Int32) :
    ∃ k : Int, (a - b).toInt = a.toInt - b.toInt + 4294967296 * k ∧
      -2147483648 ≤ (a - b).toInt ∧ (a - b).toInt ≤ 2147483647 ∧
      -4294967295 ≤ a.toInt - b.toInt ∧ a.toInt - b.toInt ≤ 4294967295 := by
  have wrapped : (a - b).toInt = Int.bmod (a.toInt - b.toInt) (2 ^ 32) := Int32.toInt_sub a b
  have lowA := a.le_toInt
  have highA := a.toInt_lt
  have lowB := b.le_toInt
  have highB := b.toInt_lt
  have low := (a - b).le_toInt
  have high := (a - b).toInt_lt
  rw [Int.bmod_def] at wrapped
  split at wrapped
  · exact ⟨-((a.toInt - b.toInt) / 4294967296), by omega⟩
  · exact ⟨-((a.toInt - b.toInt) / 4294967296) - 1, by omega⟩

/-- The wrapped difference compares with zero as the numbers compare, exactly if it has not wrapped or is
only asked whether it is zero. -/
theorem holds_sub_iff {op : Operator} {comparison : Comparison}
    (compares : comparison? op = some comparison) (a b : Int32) :
    op.compute? a.toInt b.toInt = some (truth (comparison.holds (a - b) = true)) ↔ Exact op a b := by
  obtain ⟨k, wrapped, least, greatest, low, high⟩ := exists_wrapped a b
  have ordered {p : Prop} [Decidable p] (h : (p ↔ comparison.holds (a - b) = true) ↔ k = 0)
      (asks : op.compute? a.toInt b.toInt = some (truth p)) (order : op ≠ .eq ∧ op ≠ .neq) :
      op.compute? a.toInt b.toInt = some (truth (comparison.holds (a - b) = true)) ↔
        Exact op a b := by
    rw [asks, Option.some.injEq, truth_eq_truth_iff, h, Exact, or_iff_right order.1,
      or_iff_right order.2]
    omega
  have equal {p : Prop} [Decidable p] (h : p ↔ comparison.holds (a - b) = true)
      (asks : op.compute? a.toInt b.toInt = some (truth p)) (order : op = .eq ∨ op = .neq) :
      op.compute? a.toInt b.toInt = some (truth (comparison.holds (a - b) = true)) ↔
        Exact op a b := by
    rw [asks, Option.some.injEq, truth_eq_truth_iff, Exact]
    exact iff_of_true h (order.elim .inl fun same => .inr (.inl same))
  cases op with
  | lt => cases compares; exact ordered (by rw [holds_iff]; omega) rfl (by decide)
  | lte => cases compares; exact ordered (by rw [holds_iff]; omega) rfl (by decide)
  | gt => cases compares; exact ordered (by rw [holds_iff]; omega) rfl (by decide)
  | gte => cases compares; exact ordered (by rw [holds_iff]; omega) rfl (by decide)
  | eq => cases compares; exact equal (by rw [holds_iff]; omega) rfl (by decide)
  | neq => cases compares; exact equal (by rw [holds_iff]; omega) rfl (by decide)
  | add | sub | mul | div | and | or | not => cases compares

variable {admits : Kind → Datum → Bool} {f : Frame} {σ : State} {label : String}

theorem branch_compared_marks {op : Operator} {comparison : Comparison}
    (compares : comparison? op = some comparison) (type : ElementType) (lhs rhs : Element) :
    Marks (branch f (.binary lhs ⟨op, type⟩ rhs) label) [] := by
  unfold branch
  simp only [compares]
  exact (load_marks lhs).first fun _ => (load_marks rhs).first fun _ => (emit_marks _).first fun _ =>
    emit_marks _

/-- Of two numbers a comparison leaves one or zero, by its test of their difference, and its branch jumps
by the same test. -/
theorem compared_leaves {op : Operator} {comparison : Comparison}
    (compares : comparison? op = some comparison) {type : ElementType} {lhs rhs : Element}
    {a b : Int32} (left : read? admits f σ lhs = some (.word a))
    (right : read? admits f σ rhs = some (.word b)) {wanted : Bool} {t t' u u' : Tracker} {x y : Unit}
    {wv wb : List CodeLine} (hv : (lower f wanted (.binary lhs ⟨op, type⟩ rhs)).run t = ⟨.ok x, t', wv⟩)
    (hb : (branch f (.binary lhs ⟨op, type⟩ rhs) label).run u = ⟨.ok y, u', wb⟩) :
    (∀ d, Leaves admits wv σ .onward (σ.push d) ↔
      d = .word (Int32.ofInt (truth (comparison.holds (a - b) = true)))) ∧
    ((∃ σ', Leaves admits wb σ (.jump label) σ') ↔ comparison.holds (a - b) = true) := by
  have plain : arithmetic? op = none := by cases op <;> first | rfl | cases compares
  have result : result? admits f σ (.binary lhs ⟨op, type⟩ rhs) =
      some (.word (Int32.ofInt (truth (comparison.holds (a - b) = true)))) := by
    simp only [result?, left, right, Option.bind_eq_bind, Option.bind_some, onWords?, compiled?, plain,
      compares, Option.map_some, truth]
    split <;> rfl
  have pushes : Takes admits wv σ _ := lower_performs rfl wanted _ _ _ _ hv
  have branches : Takes admits wb σ _ := branch_compared type compares lhs rhs _ _ _ _ hb
  rw [result] at pushes branches
  have unmarked : label ∉ labelsOf wb := by
    rw [(branch_compared_marks compares type lhs rhs _ _ _ _ hb).2]
    exact List.not_mem_nil
  constructor
  · intro d
    refine (pushes.leaves_pushed_iff _ _).trans ⟨?_, fun same => ⟨_, rfl, rfl, congrArg σ.push same⟩⟩
    rintro ⟨_, left, -, same⟩
    cases left
    exact State.push_injective same
  · have zero : Int32.ofInt (truth (comparison.holds (a - b) = true)) = 0 ↔
        ¬ comparison.holds (a - b) = true := by
      by_cases holds : comparison.holds (a - b) = true <;> simp [truth, holds]
    refine (exists_congr fun σ' => branches.leaves_tested_iff unmarked (.jump label) σ').trans ?_
    constructor
    · rintro ⟨_, n, same, exit, -⟩
      cases same
      by_contra fails
      rw [if_pos (zero.2 fails)] at exit
      cases exit
    · intro holds
      exact ⟨σ, _, rfl, (if_neg fun is => zero.1 is holds).symm, rfl⟩

/-- What a comparison of two numbers leaves is whether it holds, exactly if the difference of the numbers
is a word or only its being zero is asked; its branch jumps as it holds under the same condition; and so
does an order agree with the one that is computed of constants. -/
theorem comparison_exact_iff {op : Operator} (relational : op.isRelational = true)
    {type : ElementType} {lhs rhs : Element} {a b : Int32}
    (left : read? admits f σ lhs = some (.word a)) (right : read? admits f σ rhs = some (.word b))
    {wanted : Bool} {t t' u u' : Tracker} {x y : Unit} {wv wb : List CodeLine}
    (hv : (lower f wanted (.binary lhs ⟨op, type⟩ rhs)).run t = ⟨.ok x, t', wv⟩)
    (hb : (branch f (.binary lhs ⟨op, type⟩ rhs) label).run u = ⟨.ok y, u', wb⟩) :
    ∃ v : Int, op.compute? a.toInt b.toInt = some v ∧
      (Leaves admits wv σ .onward (σ.push (.word (Int32.ofInt v))) ↔ Exact op a b) ∧
      (((∃ σ', Leaves admits wb σ (.jump label) σ') ↔ v = 1) ↔ Exact op a b) ∧
      (op = .lt → ((∃ n, Lowering.fold .lt a b = some n ∧
        Leaves admits wv σ .onward (σ.push (.word n))) ↔ Exact op a b)) := by
  obtain ⟨comparison, compares⟩ : ∃ comparison, comparison? op = some comparison := by
    cases op <;> first | exact ⟨_, rfl⟩ | cases relational
  obtain ⟨v, computed, bit⟩ : ∃ v, op.compute? a.toInt b.toInt = some v ∧ (v = 0 ∨ v = 1) := by
    have bit (p : Prop) [Decidable p] : truth p = 0 ∨ truth p = 1 := by
      by_cases h : p <;> simp [truth, h]
    cases op <;> first | exact ⟨_, rfl, bit _⟩ | cases relational
  obtain ⟨value, jumps⟩ := compared_leaves compares left right hv hb
  have exact_iff : v = truth (comparison.holds (a - b) = true) ↔ Exact op a b := by
    rw [← holds_sub_iff compares, computed, Option.some.injEq]
  have leaves_iff : Leaves admits wv σ .onward (σ.push (.word (Int32.ofInt v))) ↔ Exact op a b := by
    rw [value, ← exact_iff]
    by_cases holds : comparison.holds (a - b) = true <;> rcases bit with rfl | rfl <;>
      simp [truth, holds]
  refine ⟨v, computed, leaves_iff, ?_, fun less => ?_⟩
  · rw [jumps, ← exact_iff]
    by_cases holds : comparison.holds (a - b) = true <;> rcases bit with rfl | rfl <;>
      simp [truth, holds]
  · subst less
    have folded : Lowering.fold .lt a b = some (Int32.ofInt v) := by
      rw [fold_eq, ← compute?_lowered, show Source.BinaryOp.lt.lowered = .lt from rfl, computed]
      rfl
    rw [← leaves_iff, folded]
    constructor
    · rintro ⟨_, same, run⟩
      cases same
      exact run
    · exact fun run => ⟨_, rfl, run⟩

/-- A method with two integer variables in its first two registers. -/
def twoNumbers : Frame := ⟨⟨"A", objectClass, []⟩, ⟨[("a", .int32), ("b", .int32)]⟩⟩

def less : Instruction := .binary (.var "a" .int32) ⟨.lt, .boolean⟩ (.var "b" .int32)

/-- Three is less than five, and is found to be. -/
theorem less_exact :
    ∃ wv wb t t', (lower twoNumbers true less).run .start = ⟨.ok (), t, wv⟩ ∧
      (branch twoNumbers less "Then0").run .start = ⟨.ok (), t', wb⟩ ∧
      Operator.lt.isRelational = true ∧
      Leaves typed wv (holding (.word 3) (.word 5)) .onward
        ((holding (.word 3) (.word 5)).push (.word 1)) ∧
      ∃ σ', Leaves typed wb (holding (.word 3) (.word 5)) (.jump "Then0") σ' := by
  have left : read? typed twoNumbers (holding (.word 3) (.word 5)) (.var "a" .int32) =
      some (.word 3) := rfl
  have right : read? typed twoNumbers (holding (.word 3) (.word 5)) (.var "b" .int32) =
      some (.word 5) := rfl
  have lowered : (lower twoNumbers true less).run .start = ⟨.ok (), _, _⟩ := rfl
  have branched : (branch twoNumbers less "Then0").run .start = ⟨.ok (), _, _⟩ := rfl
  have exact : Exact .lt 3 5 := .inr (.inr (by decide))
  obtain ⟨v, computed, value, jumps, -⟩ := comparison_exact_iff rfl left right lowered branched
  cases computed
  exact ⟨_, _, _, _, lowered, branched, rfl, value.2 exact, (jumps.2 exact).2 rfl⟩

/-- The least number is less than one, but is found not to be; computed beforehand, it is. -/
theorem less_wraps :
    ∃ wv wb t t', (lower twoNumbers true less).run .start = ⟨.ok (), t, wv⟩ ∧
      (branch twoNumbers less "Then0").run .start = ⟨.ok (), t', wb⟩ ∧
      (-2147483648 : Int32).toInt < (1 : Int32).toInt ∧
      Lowering.fold .lt (-2147483648) 1 = some 1 ∧
      Leaves typed wv (holding (.word (-2147483648)) (.word 1)) .onward
        ((holding (.word (-2147483648)) (.word 1)).push (.word 0)) ∧
      ¬ ∃ σ', Leaves typed wb (holding (.word (-2147483648)) (.word 1)) (.jump "Then0") σ' := by
  have left : read? typed twoNumbers (holding (.word (-2147483648)) (.word 1)) (.var "a" .int32) =
      some (.word (-2147483648)) := rfl
  have right : read? typed twoNumbers (holding (.word (-2147483648)) (.word 1)) (.var "b" .int32) =
      some (.word 1) := rfl
  have lowered : (lower twoNumbers true less).run .start = ⟨.ok (), _, _⟩ := rfl
  have branched : (branch twoNumbers less "Then0").run .start = ⟨.ok (), _, _⟩ := rfl
  obtain ⟨value, jumps⟩ := compared_leaves rfl left right lowered branched
  have fails : ¬ Comparison.lt.holds (-2147483648 - 1) = true := by decide
  exact ⟨_, _, _, _, lowered, branched, by decide, by decide, (value _).2 (by decide),
    fun jump => fails (jumps.1 jump)⟩

end JavaMinus.Machine
