/-
# Conditions on the machine

A condition is lowered in two ways, as a value and as a branch.  The branch jumps exactly if the value
is a number other than zero (`branch_performs`).  The two are different code: the branch of a
conjunction tests one operand after the other, with a label of its own to leave by, where the value is
a sum that is compared; the branch of a disjunction jumps twice, where the value is a bitwise or.

So the operands of a conjunction have to be truth values, those of a disjunction numbers, and the label
that is jumped to has to be another than the one that a conjunction leaves by.
-/
import JavaMinus.Proofs.Machine.Operands

namespace JavaMinus.Machine

open Ir Assembly Assembling Evaluation

variable {admits : Kind → Datum → Bool} {f : Frame} {σ : State} {label : String}

/-- Where a run goes on after a branch on a value that it takes from the stack. -/
def tested? (comparison : Comparison) (label : String) (σ : State) : Datum → Option (Exit × State)
  | .word n => some (if comparison.holds n then .jump label else .onward, σ)
  | _ => none

theorem step?_branch (comparison : Comparison) (label : String) (d : Datum) :
    step? admits (.branch comparison label) (σ.push d) = tested? comparison label σ d := by
  cases d <;> rfl

theorem test_performs (comparison : Comparison) (label : String) (d : Datum) :
    Performs admits (emit (.branch comparison label)) (σ.push d) (tested? comparison label σ d) := by
  have one : Performs admits (emit (.branch comparison label)) (σ.push d) _ := .emit _ _
  rwa [step?_branch] at one

theorem tested_of_true {comparison : Comparison} {n : Int32} (h : comparison.holds n = true)
    (label : String) (σ : State) :
    tested? comparison label σ (.word n) = some (.jump label, σ) := by
  rw [tested?, if_pos h]

theorem tested_of_false {comparison : Comparison} {n : Int32} (h : ¬ comparison.holds n = true)
    (label : String) (σ : State) :
    tested? comparison label σ (.word n) = some (.onward, σ) := by
  rw [tested?, if_neg h]

variable (admits f) in
/-- The operands of a conjunction are truth values, and those of a disjunction numbers. -/
def Ready (σ : State) : Instruction → Prop
  | .binary lhs ⟨.and, _⟩ rhs =>
      ∃ a b : Int32, read? admits f σ lhs = some (.word a) ∧ read? admits f σ rhs = some (.word b) ∧
        (a = 0 ∨ a = 1) ∧ (b = 0 ∨ b = 1)
  | .binary lhs ⟨.or, _⟩ rhs =>
      ∃ a b : Int32, read? admits f σ lhs = some (.word a) ∧ read? admits f σ rhs = some (.word b)
  | _ => True

/-! ## The branches -/

theorem branch_single (operand : Element) :
    Performs admits (branch f (.single operand) label) σ
      ((result? admits f σ (.single operand)).bind (tested? .ne label σ)) :=
  (load_performs operand σ).after_push (load_marks operand) fun d _ => test_performs .ne label d

theorem branch_not (type : ElementType) (operand : Element) :
    Performs admits (branch f (.unary ⟨.not, type⟩ operand) label) σ
      ((result? admits f σ (.unary ⟨.not, type⟩ operand)).bind (tested? .ne label σ)) := by
  have same : ∀ d, (chosen? .ne 0 1 d).bind (tested? .ne label σ) = tested? .eq label σ d := by
    intro d
    cases d with
    | word n =>
        by_cases zero : n = 0 <;> simp [chosen?, tested?, Comparison.holds, zero]
    | reference | null => rfl
  rw [result?, Option.bind_assoc, funext same]
  exact (load_performs operand σ).after_push (load_marks operand) fun d _ => test_performs .eq label d

theorem branch_compared {op : Operator} {comparison : Comparison} (type : ElementType)
    (compares : comparison? op = some comparison) (lhs rhs : Element) :
    Performs admits (branch f (.binary lhs ⟨op, type⟩ rhs) label) σ
      ((result? admits f σ (.binary lhs ⟨op, type⟩ rhs)).bind (tested? .ne label σ)) := by
  have plain : arithmetic? op = none := by cases op <;> first | rfl | cases compares
  have same : ∀ a b, (onWords? (compiled? op) a b).bind (tested? .ne label σ) =
      (onWords? Arithmetic.subtract.compute? a b).bind (tested? comparison label σ) := by
    intro a b
    have left : compiled? op = fun a b => some (if comparison.holds (a - b) then 1 else 0) := by
      funext a b
      rw [compiled?, plain, compares]
    rw [left]
    cases a with
    | word a =>
        cases b with
        | word b =>
            by_cases holds : comparison.holds (a - b) <;>
              simp [onWords?, tested?, Arithmetic.compute?, holds] <;> decide
        | reference | null => rfl
    | reference | null => cases b <;> rfl
  have bound : (result? admits f σ (.binary lhs ⟨op, type⟩ rhs)).bind (tested? .ne label σ) =
      (read? admits f σ lhs).bind fun a => (read? admits f (σ.push a) rhs).bind fun b =>
        (onWords? Arithmetic.subtract.compute? a b).bind (tested? comparison label σ) := by
    simp only [result?, read?_push, Option.bind_eq_bind, Option.bind_assoc, same]
  rw [bound]
  unfold branch
  simp only [compares]
  refine (load_performs lhs σ).after_push (load_marks lhs) fun a _ => ?_
  refine (load_performs rhs (σ.push a)).after_push (load_marks rhs) fun b _ => ?_
  exact (arithmetic_performs .subtract a b).after_push (emit_marks _) fun d _ =>
    test_performs comparison label d

theorem branch_or (type : ElementType) {lhs rhs : Element} {a b : Int32}
    (ha : read? admits f σ lhs = some (.word a)) (hb : read? admits f σ rhs = some (.word b)) :
    Performs admits (branch f (.binary lhs ⟨.or, type⟩ rhs) label) σ
      ((result? admits f σ (.binary lhs ⟨.or, type⟩ rhs)).bind (tested? .ne label σ)) := by
  have value : result? admits f σ (.binary lhs ⟨.or, type⟩ rhs) = some (.word (a ||| b)) := by
    simp only [result?, ha, hb]
    rfl
  have left : Performs admits (load f lhs) σ _ := load_performs lhs σ
  have right : Performs admits (load f rhs) σ _ := load_performs rhs σ
  rw [ha] at left
  rw [hb] at right
  have first : Performs admits (emit (.branch .ne label)) (σ.push (.word a)) _ :=
    test_performs .ne label (.word a)
  rw [value]
  refine left.bind (load_marks lhs) fun _ => ?_
  by_cases zero : a = 0
  · have onward : ¬ Comparison.ne.holds a = true := by simp [Comparison.holds, zero]
    have same : a ||| b = b := by rw [zero]; exact Int32.zero_or
    rw [tested_of_false onward] at first
    rw [same]
    exact first.bind (emit_marks _) fun _ => right.bind (load_marks rhs) fun _ =>
      test_performs .ne label (.word b)
  · have left : Comparison.ne.holds a = true := by simp [Comparison.holds, zero]
    have both : Comparison.ne.holds (a ||| b) = true := by simp [Comparison.holds, zero]
    rw [tested_of_true left] at first
    show Performs admits _ _ (tested? .ne label σ (.word (a ||| b)))
    rw [tested_of_true both]
    exact first.cut fun _ same => nomatch same

/-- The lines of a conjunction's branch go past its own label if an operand is zero. -/
theorem takes_and {wl wr : List CodeLine} {a b : Int32} (label otherwise : String)
    (left : Takes admits wl σ (some (.onward, σ.push (.word a)))) (unmarked : labelsOf wl = [])
    (right : Takes admits wr σ (some (.onward, σ.push (.word b)))) (unmarked' : labelsOf wr = []) :
    Takes admits (wl ++ [.op (.branch .eq otherwise)] ++
        (wr ++ [.op (.branch .eq otherwise)] ++ [.op (.goto label)]) ++ [.label otherwise]) σ
      (some (if a = 0 ∨ b = 0 then .onward else .jump label, σ)) := by
  have test (n : Int32) : Takes admits [.op (.branch .eq otherwise)] (σ.push (.word n))
      (some (if n = 0 then .jump otherwise else .onward, σ)) := by
    have one : Takes admits [.op (.branch .eq otherwise)] (σ.push (.word n)) _ := .op _ _
    rw [step?_branch] at one
    by_cases zero : n = 0
    · rw [tested_of_true (by simp [Comparison.holds, zero])] at one
      rwa [if_pos zero]
    · rw [tested_of_false (by simp [Comparison.holds, zero])] at one
      rwa [if_neg zero]
  have plain (w : List CodeLine) (op : Opcode) (h : labelsOf w = []) : labelsOf (w ++ [.op op]) = [] := by
    rw [labelsOf_append, h]
    rfl
  have fresh {name : String} {w : List CodeLine} (h : labelsOf w = []) : name ∉ labelsOf w := by
    rw [h]
    exact List.not_mem_nil
  have first := left.append (test a) fun _ inside => nomatch inside
  have unmarkedFirst := plain wl (.branch .eq otherwise) unmarked
  have unmarkedSecond := plain _ (.goto label) (plain wr (.branch .eq otherwise) unmarked')
  have unmarkedAll : labelsOf (wl ++ [.op (.branch .eq otherwise)] ++
      (wr ++ [.op (.branch .eq otherwise)] ++ [.op (.goto label)])) = [] := by
    rw [labelsOf_append, unmarkedFirst, unmarkedSecond]
    rfl
  by_cases zero : a = 0
  · rw [if_pos zero] at first
    rw [if_pos (.inl zero)]
    exact first.land _ (fresh unmarkedAll)
  · rw [if_neg zero] at first
    have second := right.append (test b) fun _ inside => nomatch inside
    by_cases zero' : b = 0
    · rw [if_pos zero'] at second
      rw [if_pos (.inr zero'), List.append_assoc]
      have landed := second.land [.op (.goto label)] (fresh unmarkedSecond)
      refine first.append landed fun name _ => fresh unmarkedFirst
    · rw [if_neg zero'] at second
      rw [if_neg (not_or.2 ⟨zero, zero'⟩)]
      have leave : Takes admits [.op (.goto label)] σ (some (.jump label, σ)) := .op _ σ
      have jumps := second.append leave fun _ inside => nomatch inside
      refine (first.append jumps fun name _ => fresh unmarkedFirst).cut (fun _ same => nomatch same) _

theorem branch_and (type : ElementType) {lhs rhs : Element} {a b : Int32}
    (ha : read? admits f σ lhs = some (.word a)) (hb : read? admits f σ rhs = some (.word b))
    (bit : a = 0 ∨ a = 1) (bit' : b = 0 ∨ b = 1) :
    Performs admits (branch f (.binary lhs ⟨.and, type⟩ rhs) label) σ
      ((result? admits f σ (.binary lhs ⟨.and, type⟩ rhs)).bind (tested? .ne label σ)) := by
  have value : (result? admits f σ (.binary lhs ⟨.and, type⟩ rhs)).bind (tested? .ne label σ) =
      some (if a = 0 ∨ b = 0 then .onward else .jump label, σ) := by
    have sum : compiled? .and a b = some (if a = 0 ∨ b = 0 then 0 else 1) := by
      rcases bit with rfl | rfl <;> rcases bit' with rfl | rfl <;> decide
    simp only [result?, ha, hb, Option.bind_eq_bind, Option.bind_some, onWords?, sum]
    by_cases zero : a = 0 ∨ b = 0 <;> simp [tested?, Comparison.holds, zero]
  rw [value]
  refine .newLabel fun n => ?_
  intro t x t' w run₁
  obtain ⟨_, t₂, wl, _, first, run₂, rfl⟩ := Emission.run_bind_ok_iff.1 run₁
  obtain ⟨_, t₃, w₁, _, test₁, run₃, rfl⟩ := Emission.run_bind_ok_iff.1 run₂
  obtain ⟨_, t₄, wr, _, second, run₄, rfl⟩ := Emission.run_bind_ok_iff.1 run₃
  obtain ⟨_, t₅, w₂, _, test₂, run₅, rfl⟩ := Emission.run_bind_ok_iff.1 run₄
  obtain ⟨_, t₆, w₃, _, jump, marked, rfl⟩ := Emission.run_bind_ok_iff.1 run₅
  obtain ⟨-, -, rfl, -⟩ := emit_ok test₁
  obtain ⟨-, -, rfl, -⟩ := emit_ok test₂
  obtain ⟨-, -, rfl, -⟩ := emit_ok jump
  cases marked
  have left : Takes admits wl σ _ := load_performs lhs σ _ _ _ _ first
  have right : Takes admits wr σ _ := load_performs rhs σ _ _ _ _ second
  rw [ha] at left
  rw [hb] at right
  have whole := takes_and label ("FalseAND" ++ toString n) left (load_marks lhs _ _ _ _ first).2
    right (load_marks rhs _ _ _ _ second).2
  simpa only [List.append_assoc] using whole

/-- The branch of a condition jumps if its result is a number other than zero, and traps where there is
no number to test. -/
theorem branch_performs {condition : Instruction} (ready : Ready admits f σ condition) :
    Performs admits (branch f condition label) σ
      ((result? admits f σ condition).bind (tested? .ne label σ)) := by
  have refused {o : Option (Exit × State)} {c : Construct} :
      Performs admits (refuse c : Assembling Unit) σ o := fun _ _ _ _ run => nomatch run
  cases condition with
  | single operand => exact branch_single operand
  | unary operation operand =>
      obtain ⟨op, type⟩ := operation
      cases op with
      | not => exact branch_not type operand
      | _ => exact refused
  | binary lhs operation rhs =>
      obtain ⟨op, type⟩ := operation
      cases op with
      | and =>
          obtain ⟨a, b, ha, hb, bit, bit'⟩ := ready
          exact branch_and type ha hb bit bit'
      | or =>
          obtain ⟨a, b, ha, hb⟩ := ready
          exact branch_or type ha hb
      | lt | lte | gt | gte | eq | neq => exact branch_compared type rfl lhs rhs
      | add | sub | mul | div | not => exact refused
  | _ => exact refused

/-! ## The two ways agree -/

/-- Lines that branch on a value, run alone. -/
theorem Takes.leaves_tested_iff {w : List CodeLine} {o : Option Datum}
    (hw : Takes admits w σ (o.bind (tested? .ne label σ))) (foreign : label ∉ labelsOf w) (e : Exit)
    (σ' : State) :
    Leaves admits w σ e σ' ↔
      ∃ n : Int32, o = some (.word n) ∧ e = (if n = 0 then .onward else .jump label) ∧ σ' = σ := by
  rcases o with _ | ⟨n | address | _⟩
  · exact iff_of_false hw.not_leaves fun ⟨_, same, _⟩ => nomatch same
  · have outcome : (some (Datum.word n)).bind (tested? .ne label σ) =
        some (if n = 0 then .onward else .jump label, σ) := by
      by_cases zero : n = 0 <;> simp [tested?, Comparison.holds, zero]
    rw [outcome] at hw
    refine (hw.leaves_iff fun name same => ?_).trans ?_
    · split at same
      · cases same
      · cases same
        exact foreign
    · constructor
      · rintro ⟨rfl, rfl⟩
        exact ⟨n, rfl, rfl, rfl⟩
      · rintro ⟨_, same, rfl, rfl⟩
        cases same
        exact ⟨rfl, rfl⟩
  · exact iff_of_false hw.not_leaves fun ⟨_, same, _⟩ => nomatch same
  · exact iff_of_false hw.not_leaves fun ⟨_, same, _⟩ => nomatch same

/-- A condition that has a branch is an operation, and its operator does not trap on numbers. -/
theorem isOperation_of_branch (admits : Kind → Datum → Bool) (σ : State) {condition : Instruction}
    {t t' : Tracker} {x : Unit} {w : List CodeLine}
    (h : (branch f condition label).run t = ⟨.ok x, t', w⟩) :
    isOperation condition = true ∧
      ((∀ operand ∈ operandsOf condition, ∃ n, read? admits f σ operand = some (.word n)) →
        ∃ n, result? admits f σ condition = some (.word n)) := by
  cases condition with
  | single operand => exact ⟨rfl, fun numbers => numbers operand (List.mem_singleton_self _)⟩
  | unary operation operand =>
      refine ⟨rfl, fun numbers => ?_⟩
      obtain ⟨n, hn⟩ := numbers operand (List.mem_singleton_self _)
      exact ⟨_, by rw [result?, hn]; rfl⟩
  | binary lhs operation rhs =>
      refine ⟨rfl, fun numbers => ?_⟩
      obtain ⟨a, ha⟩ := numbers lhs List.mem_cons_self
      obtain ⟨b, hb⟩ := numbers rhs (List.mem_cons_of_mem _ (List.mem_singleton_self _))
      obtain ⟨op, type⟩ := operation
      have total : ∃ n, compiled? op a b = some n := by
        cases op with
        | add | sub | mul | div | not => exact nomatch h
        | _ => exact ⟨_, rfl⟩
      obtain ⟨n, hn⟩ := total
      refine ⟨n, ?_⟩
      simp only [result?, ha, hb, Option.bind_eq_bind, Option.bind_some, onWords?, hn, Option.map_some]
  | _ => exact nomatch h

/-- The code of a condition as a branch and its code as a value, from a state in which the operands of a
conjunction are truth values and those of a disjunction numbers, and for a label that the branch does
not define itself: the one jumps exactly if the other leaves a number that is not zero.  But for that
value both leave the state as it was, and both come to their end if all operands are numbers. -/
theorem branch_jumps_iff {condition : Instruction} {wanted : Bool} {t t' u u' : Tracker} {x y : Unit}
    {wv wb : List CodeLine} (hv : (lower f wanted condition).run t = ⟨.ok x, t', wv⟩)
    (hb : (branch f condition label).run u = ⟨.ok y, u', wb⟩) (ready : Ready admits f σ condition)
    (foreign : label ∉ labelsOf wb) :
    ((∃ σ', Leaves admits wb σ (.jump label) σ') ↔
      ∃ n : Int32, n ≠ 0 ∧ Leaves admits wv σ .onward (σ.push (.word n))) ∧
    (∀ e σ', Leaves admits wb σ e σ' → (e = .jump label ∨ e = .onward) ∧ σ' = σ) ∧
    (∀ e σ', Leaves admits wv σ e σ' → e = .onward ∧ ∃ d, σ' = σ.push d) ∧
    ((∀ operand ∈ operandsOf condition, ∃ n, read? admits f σ operand = some (.word n)) →
      ∃ n : Int32, Leaves admits wv σ .onward (σ.push (.word n)) ∧
        Leaves admits wb σ (if n = 0 then .onward else .jump label) σ) := by
  obtain ⟨operation, total⟩ := isOperation_of_branch admits σ hb
  have pushes : Takes admits wv σ _ := lower_performs operation wanted _ _ _ _ hv
  have value := pushes.leaves_pushed_iff
  have test := (branch_performs ready _ _ _ _ hb).leaves_tested_iff foreign
  refine ⟨⟨?_, ?_⟩, ?_, ?_, ?_⟩
  · rintro ⟨σ', run⟩
    obtain ⟨n, left, exit, -⟩ := (test _ _).1 run
    refine ⟨n, fun zero => ?_, (value _ _).2 ⟨_, left, rfl, rfl⟩⟩
    rw [if_pos zero] at exit
    cases exit
  · rintro ⟨n, notZero, run⟩
    obtain ⟨d, left, -, same⟩ := (value _ _).1 run
    obtain rfl := State.push_injective same
    exact ⟨σ, (test _ _).2 ⟨n, left, (if_neg notZero).symm, rfl⟩⟩
  · intro e σ' run
    obtain ⟨n, -, rfl, rfl⟩ := (test _ _).1 run
    by_cases zero : n = 0
    · exact ⟨.inr (if_pos zero), rfl⟩
    · exact ⟨.inl (if_neg zero), rfl⟩
  · intro e σ' run
    obtain ⟨d, -, rfl, rfl⟩ := (value _ _).1 run
    exact ⟨rfl, d, rfl⟩
  · intro numbers
    obtain ⟨n, left⟩ := total numbers
    exact ⟨n, (value _ _).2 ⟨_, left, rfl, rfl⟩, (test _ _).2 ⟨n, left, rfl, rfl⟩⟩

/-! ### Two truth values -/

/-- A method with two boolean variables in its first two registers. -/
def twoTruths : Frame := ⟨⟨"A", objectClass, []⟩, ⟨[("a", .boolean), ("b", .boolean)]⟩⟩

/-- A state with two values in its first two registers. -/
def holding (a b : Datum) : State := ⟨fun _ => .null, fun r => [a, b][r]?, [], []⟩

def bothTrue : Instruction := .binary (.var "a" .boolean) ⟨.and, .boolean⟩ (.var "b" .boolean)

/-- The code of the conjunction leaves what it has computed. -/
theorem bothTrue_leaves (a : Int32) (bit : a = 0 ∨ a = 1) :
    Leaves typed ((lower twoTruths true bothTrue).run .start).written (holding (.word a) (.word 1))
      .onward ((holding (.word a) (.word 1)).push (.word a)) := by
  have pushes : Takes typed ((lower twoTruths true bothTrue).run .start).written
      (holding (.word a) (.word 1)) (pushed (holding (.word a) (.word 1))
        (result? typed twoTruths (holding (.word a) (.word 1)) bothTrue)) :=
    lower_performs rfl true .start () _ _ rfl
  refine (pushes.leaves_pushed_iff _ _).2 ⟨.word a, ?_, rfl, rfl⟩
  rcases bit with rfl | rfl <;> rfl

/-- Of true operands the conjunction leaves one, and its branch jumps. -/
theorem conjunction_jumps :
    ∃ wv wb t t', (lower twoTruths true bothTrue).run .start = ⟨.ok (), t, wv⟩ ∧
      (branch twoTruths bothTrue "Then0").run .start = ⟨.ok (), t', wb⟩ ∧
      Leaves typed wv (holding (.word 1) (.word 1)) .onward
        ((holding (.word 1) (.word 1)).push (.word 1)) ∧
      ∃ σ', Leaves typed wb (holding (.word 1) (.word 1)) (.jump "Then0") σ' := by
  have value := bothTrue_leaves 1 (.inr rfl)
  have lowered : (lower twoTruths true bothTrue).run .start = ⟨.ok (), _, _⟩ := rfl
  have branched : (branch twoTruths bothTrue "Then0").run .start = ⟨.ok (), _, _⟩ := rfl
  have ready : Ready typed twoTruths (holding (.word 1) (.word 1)) bothTrue :=
    ⟨1, 1, rfl, rfl, .inr rfl, .inr rfl⟩
  have whole := branch_jumps_iff lowered branched ready (by decide)
  exact ⟨_, _, _, _, lowered, branched, value, whole.1.2 ⟨1, by decide, value⟩⟩

/-- A method with a boolean variable and an object. -/
def truthAndObject : Frame := ⟨⟨"A", objectClass, []⟩, ⟨[("a", .boolean), ("b", .object "A")]⟩⟩

/-- One of the boolean and the object. -/
def eitherTrue : Instruction := .binary (.var "a" .boolean) ⟨.or, .boolean⟩ (.var "b" (.object "A"))

/-- The branch of a conjunction to the label that it defines itself goes on behind the branch whether
its operands are true or not.  The branch of a disjunction jumps for a true operand beside one that is no
number, and no value is left of the two. -/
theorem own_label_or_no_number :
    (∃ wv wb t t', (lower twoTruths true bothTrue).run .start = ⟨.ok (), t, wv⟩ ∧
      (branch twoTruths bothTrue "FalseAND0").run .start = ⟨.ok (), t', wb⟩ ∧
      ∀ a : Int32, a = 0 ∨ a = 1 →
        Leaves typed wv (holding (.word a) (.word 1)) .onward
          ((holding (.word a) (.word 1)).push (.word a)) ∧
        ∀ e σ', Leaves typed wb (holding (.word a) (.word 1)) e σ' ↔
          e = .onward ∧ σ' = holding (.word a) (.word 1)) ∧
    ∃ wv wb t t', (lower truthAndObject true eitherTrue).run .start = ⟨.ok (), t, wv⟩ ∧
      (branch truthAndObject eitherTrue "Then0").run .start = ⟨.ok (), t', wb⟩ ∧
      (∀ operand ∈ operandsOf eitherTrue,
        ∃ d, read? typed truthAndObject (holding (.word 1) .null) operand = some d) ∧
      (∃ σ', Leaves typed wb (holding (.word 1) .null) (.jump "Then0") σ') ∧
      ∀ e σ', ¬ Leaves typed wv (holding (.word 1) .null) e σ' := by
  constructor
  · refine ⟨_, _, _, _, rfl, rfl, fun a bit => ⟨bothTrue_leaves a bit, fun e σ' => ?_⟩⟩
    have ready : Ready typed twoTruths (holding (.word a) (.word 1)) bothTrue :=
      ⟨a, 1, rfl, rfl, bit, .inr rfl⟩
    have whole : Takes typed ((branch twoTruths bothTrue "FalseAND0").run .start).written
        (holding (.word a) (.word 1)) _ := branch_performs ready .start () _ _ rfl
    refine whole.leaves_iff_resumes.trans ?_
    rcases bit with rfl | rfl
    · exact runs_nil_iff
    · exact (resumes_of_found rfl).trans runs_nil_iff
  · refine ⟨_, _, _, _, rfl, rfl, ?_, ⟨_, .next rfl (.leave rfl rfl)⟩, fun e σ' => ?_⟩
    · intro operand inside
      rcases List.mem_cons.1 inside with rfl | inside
      · exact ⟨_, rfl⟩
      · obtain rfl := List.mem_singleton.1 inside
        exact ⟨_, rfl⟩
    · have traps : Takes typed ((lower truthAndObject true eitherTrue).run .start).written
          (holding (.word 1) .null) (pushed (holding (.word 1) .null)
            (result? typed truthAndObject (holding (.word 1) .null) eitherTrue)) :=
        lower_performs rfl true .start () _ _ rfl
      exact traps.not_leaves

end JavaMinus.Machine
