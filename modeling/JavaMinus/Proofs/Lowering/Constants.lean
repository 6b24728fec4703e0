/-
# Constants

An expression leaves a constant exactly if it is built from literals and divides by zero nowhere.
Then it is computed while it is lowered: no line is written, no temporary and no label is used, and
the constant is the value of the expression (`lowerValue_constant_iff`).

The value is told on the integers, which wrap around after every operator (`Expr.constantValue`);
the generator computes on words of 32 bits.  That the two agree rests on `fold_eq`.
-/
import JavaMinus.Proofs.Evaluation.Simulation
import JavaMinus.Source.Occurrence

namespace JavaMinus

namespace Source

/-- The number that a word of 32 bits keeps of an integer. -/
def wrapped (n : Int) : Int := n.bmod Int32.size

namespace Expr

/-- Whether the expression is built from numbers, truth values, parentheses, `!` and operators
only. -/
def isLiteral : Expr → Bool
  | .int .. | .bool .. => true
  | .paren _ inner => inner.isLiteral
  | .not _ operand => operand.isLiteral
  | .binary _ _ lhs rhs => lhs.isLiteral && rhs.isLiteral
  | .name .. | .this _ | .index .. | .length .. | .call .. | .newArray .. | .newObject .. => false

/-- The value of an expression that is built from literals; a truth value is zero or one. -/
def constantValue : Expr → Int
  | .int _ n => n.toInt
  | .bool _ b => truth b
  | .paren _ inner => inner.constantValue
  | .not _ operand => truth (operand.constantValue = 0)
  | .binary _ op lhs rhs =>
      wrapped ((op.compute? lhs.constantValue rhs.constantValue).getD 0)
  | .name .. | .this _ | .index .. | .length .. | .call .. | .newArray .. | .newObject .. => 0

/-- Whether the expression is a division by zero. -/
def dividesByZero : Expr → Bool
  | .binary _ .div _ rhs => rhs.constantValue == 0
  | _ => false

/-- The expression is built from literals, and no part of it divides by zero. -/
def IsConstant (e : Expr) : Prop :=
  e.isLiteral = true ∧ ∀ part ∈ e.occurrences, part.dividesByZero = false

/-- Whether the expression is a truth value by its form, parentheses aside. -/
def isTruth (e : Expr) : Bool :=
  match e.unparen with
  | .bool .. | .not .. | .binary _ .lt _ _ | .binary _ .and _ _ => true
  | _ => false

/-! ## Constants by their form -/

theorem isConstant_int (tag : Tag) (n : Int32) : (Expr.int tag n).IsConstant :=
  ⟨rfl, List.forall_mem_singleton.2 rfl⟩

theorem isConstant_bool (tag : Tag) (b : Bool) : (Expr.bool tag b).IsConstant :=
  ⟨rfl, List.forall_mem_singleton.2 rfl⟩

theorem isConstant_paren_iff {tag : Tag} {inner : Expr} :
    (Expr.paren tag inner).IsConstant ↔ inner.IsConstant := by
  constructor
  · rintro ⟨literal, parts⟩
    exact ⟨literal, (List.forall_mem_cons.1 parts).2⟩
  · rintro ⟨literal, parts⟩
    exact ⟨literal, List.forall_mem_cons.2 ⟨rfl, parts⟩⟩

theorem isConstant_not_iff {tag : Tag} {operand : Expr} :
    (Expr.not tag operand).IsConstant ↔ operand.IsConstant := by
  constructor
  · rintro ⟨literal, parts⟩
    exact ⟨literal, (List.forall_mem_cons.1 parts).2⟩
  · rintro ⟨literal, parts⟩
    exact ⟨literal, List.forall_mem_cons.2 ⟨rfl, parts⟩⟩

/-- The operator computes something on the operands. -/
theorem dividesByZero_binary (tag : Tag) (op : BinaryOp) (lhs rhs : Expr) :
    (Expr.binary tag op lhs rhs).dividesByZero = false ↔
      (op.compute? lhs.constantValue rhs.constantValue).isSome = true := by
  cases op with
  | add | sub | mul | lt | and => simp [dividesByZero, BinaryOp.compute?]
  | div =>
      simp only [dividesByZero, BinaryOp.compute?, beq_eq_false_iff_ne, ne_eq]
      split <;> simp_all

theorem isConstant_binary_iff {tag : Tag} {op : BinaryOp} {lhs rhs : Expr} :
    (Expr.binary tag op lhs rhs).IsConstant ↔ lhs.IsConstant ∧ rhs.IsConstant ∧
      (op.compute? lhs.constantValue rhs.constantValue).isSome = true := by
  unfold IsConstant
  rw [isLiteral, occurrences, List.forall_mem_cons, List.forall_mem_append, dividesByZero_binary,
    Bool.and_eq_true]
  constructor
  · rintro ⟨⟨left, right⟩, computes, leftParts, rightParts⟩
    exact ⟨⟨left, leftParts⟩, ⟨right, rightParts⟩, computes⟩
  · rintro ⟨⟨left, leftParts⟩, ⟨right, rightParts⟩, computes⟩
    exact ⟨⟨left, right⟩, computes, leftParts, rightParts⟩

/-! ## Values -/

theorem truth_cases (p : Prop) [Decidable p] : truth p = 0 ∨ truth p = 1 := by
  unfold truth
  split
  · exact .inr rfl
  · exact .inl rfl

theorem wrapped_truth (p : Prop) [Decidable p] : wrapped (truth p) = truth p := by
  rcases truth_cases p with h | h <;> rw [h] <;> decide

theorem wrapped_constantValue : ∀ e : Expr, wrapped e.constantValue = e.constantValue
  | .int _ n => by
      rw [constantValue, wrapped, ← Int32.toInt_ofInt, Int32.ofInt_toInt]
  | .bool _ b => wrapped_truth (b = true)
  | .paren _ inner => wrapped_constantValue inner
  | .not _ operand => wrapped_truth (operand.constantValue = 0)
  | .binary .. => Int.bmod_bmod
  | .name .. | .this _ | .index .. | .length .. | .call .. | .newArray .. | .newObject .. =>
      Int.zero_bmod

theorem toInt_constantValue (e : Expr) : (Int32.ofInt e.constantValue).toInt = e.constantValue := by
  rw [Int32.toInt_ofInt]
  exact e.wrapped_constantValue

theorem constantValue_of_isTruth : ∀ e : Expr, e.isTruth = true →
    e.constantValue = 0 ∨ e.constantValue = 1
  | .bool _ b, _ => truth_cases b
  | .not _ operand, _ => truth_cases (operand.constantValue = 0)
  | .paren _ inner, h => constantValue_of_isTruth inner h
  | .binary _ .lt lhs rhs, _ => by
      rw [constantValue, BinaryOp.compute?, Option.getD_some, wrapped_truth]
      exact truth_cases _
  | .binary _ .and lhs rhs, _ => by
      rw [constantValue, BinaryOp.compute?, Option.getD_some, wrapped_truth]
      exact truth_cases _
  | .binary _ .add _ _, h | .binary _ .sub _ _, h | .binary _ .mul _ _, h
  | .binary _ .div _ _, h | .int .., h | .name .., h | .this _, h | .index .., h | .length .., h
  | .call .., h | .newArray .., h | .newObject .., h => nomatch h

end Expr

end Source

namespace Lowering

open Source

variable {table : SymbolTable} {c c' : Cursor} {w : List Line}

def constantOf (e : Expr) : Value :=
  if e.isTruth then .bool (e.constantValue != 0) else .int (Int32.ofInt e.constantValue)

def Rhs.isConstant : Rhs → Bool
  | .value v => v.isConstant
  | .operation .. => false

/-! ## Literals become constants -/

theorem literal_constantOf (e : Expr) :
    (constantOf e).literal = some (Int32.ofInt e.constantValue) := by
  unfold constantOf
  split
  · rename_i isTruth
    refine congrArg some ?_
    rcases e.constantValue_of_isTruth isTruth with h | h <;> rw [h] <;> decide
  · rfl

theorem text_constantOf (e : Expr) :
    (constantOf e).text = toString e.constantValue ++ (if e.isTruth then ".bool" else ".i32") := by
  have literal := literal_constantOf e
  unfold constantOf at literal ⊢
  split at literal
  · rename_i isTruth
    rw [if_pos isTruth, if_pos isTruth]
    show toString (Value.ofBool _).toInt ++ "." ++ "bool" = _
    rw [Option.some.inj literal, e.toInt_constantValue, String.append_assoc]
    rfl
  · rename_i other
    rw [if_neg other, if_neg other]
    show toString (Int32.ofInt e.constantValue).toInt ++ "." ++ "i32" = _
    rw [e.toInt_constantValue, String.append_assoc]
    rfl

theorem constant_resultType (tag : Tag) (op : BinaryOp) (lhs rhs : Expr) :
    Value.constant (Int32.ofInt (Expr.binary tag op lhs rhs).constantValue) op.resultType =
      constantOf (.binary tag op lhs rhs) := by
  have boolean : Ty.boolean.isBoolean = true := by decide
  have int : Ty.int.isBoolean = false := by decide
  have word : ∀ n : Int, n = 0 ∨ n = 1 → (Int32.ofInt n != 0) = (n != 0) := by
    rintro n (rfl | rfl) <;> decide
  cases op with
  | add | sub | mul | div =>
      show (if Ty.int.isBoolean = true then Value.bool _ else Value.int _) = Value.int _
      rw [int, if_neg Bool.false_ne_true]
  | lt | and =>
      show (if Ty.boolean.isBoolean = true then Value.bool _ else Value.int _) = Value.bool _
      rw [boolean, if_pos rfl, word _ (Expr.constantValue_of_isTruth _ rfl)]

/-- An operator on two constants that computes something. -/
theorem lowerBinary_constantOf (tag : Tag) {op : BinaryOp} {lhs rhs : Expr}
    (h : (op.compute? lhs.constantValue rhs.constantValue).isSome = true) :
    lowerBinary op (constantOf lhs) (constantOf rhs) =
      .value (constantOf (.binary tag op lhs rhs)) := by
  obtain ⟨n, computed⟩ := Option.isSome_iff_exists.1 h
  have value : (Expr.binary tag op lhs rhs).constantValue = wrapped n := by
    rw [Expr.constantValue, computed, Option.getD_some]
  have word : Int32.ofInt n = Int32.ofInt (wrapped n) := by
    rw [← Int32.toInt_inj, Int32.toInt_ofInt, Int32.toInt_ofInt]
    exact Int.bmod_bmod.symm
  have folded : fold op (Int32.ofInt lhs.constantValue) (Int32.ofInt rhs.constantValue) =
      some (Int32.ofInt (Expr.binary tag op lhs rhs).constantValue) := by
    rw [Evaluation.fold_eq, lhs.toInt_constantValue, rhs.toInt_constantValue, computed, value,
      Option.map_some, word]
  rw [← constant_resultType]
  unfold lowerBinary
  simp only [literal_constantOf, Option.bind_eq_bind, Option.bind_some, folded]

theorem lowerNot_constantOf (tag : Tag) (operand : Expr) :
    lowerNot (constantOf operand) = .value (constantOf (.not tag operand)) := by
  have zero : (Int32.ofInt operand.constantValue == 0) =
      (truth (operand.constantValue = 0) != 0) := by
    by_cases h : operand.constantValue = 0
    · simp [h, truth]
    · have nonzero : Int32.ofInt operand.constantValue ≠ 0 := by
        intro same
        have := congrArg Int32.toInt same
        rw [operand.toInt_constantValue] at this
        exact h this
      simp [h, nonzero, truth]
  unfold lowerNot
  rw [literal_constantOf]
  show Rhs.value (.bool _) = .value (.bool _)
  rw [zero]
  rfl

/-- A constant expression is computed, whatever is expected of it. -/
theorem lowerRhs_of_isConstant : ∀ (e : Expr) (expected : Option Ty), e.IsConstant →
    lowerRhs table e expected = pure (.value (constantOf e))
  | .int _ n, _, _ => by
      rw [lowerRhs, constantOf]
      show _ = pure (Rhs.value (.int (Int32.ofInt n.toInt)))
      rw [Int32.ofInt_toInt]
  | .bool _ b, _, _ => by
      rw [lowerRhs]
      cases b <;> rfl
  | .paren _ inner, expected, h => by
      rw [lowerRhs]
      exact lowerRhs_of_isConstant inner expected (Expr.isConstant_paren_iff.1 h)
  | .not tag operand, _, h => by
      rw [lowerRhs, lowerRhs_of_isConstant operand _ (Expr.isConstant_not_iff.1 h)]
      simp only [pure_bind, asValue, lowerNot_constantOf tag]
  | .binary tag op lhs rhs, _, h => by
      obtain ⟨left, right, computes⟩ := Expr.isConstant_binary_iff.1 h
      rw [lowerRhs, lowerRhs_of_isConstant lhs _ left, lowerRhs_of_isConstant rhs _ right]
      simp only [pure_bind, asValue, lowerBinary_constantOf tag computes]
  | .name .., _, h | .this _, _, h | .index .., _, h | .length .., _, h | .call .., _, h
  | .newArray .., _, h | .newObject .., _, h => nomatch h.1

/-! ## Nothing else does -/

/-- Every answer of the step satisfies `P`. -/
def Gives (P : α → Prop) (m : Lowering α) : Prop :=
  ∀ (c : Cursor) (a : α) (c' : Cursor) (w : List Line), m.run c = ⟨.ok a, c', w⟩ → P a

namespace Gives

variable {α β : Type} {P : α → Prop} {Q : β → Prop}

theorem pure {a : α} (h : P a) : Gives P (Pure.pure a : Lowering α) := by
  intro c a' c' w run
  obtain ⟨rfl, -, -⟩ := Emission.run_pure_ok_iff.1 run
  exact h

theorem bind {m : Lowering α} {f : α → Lowering β} (hm : Gives P m)
    (hf : ∀ a, P a → Gives Q (f a)) : Gives Q (m >>= f) := by
  intro c b c' w run
  obtain ⟨a, c₁, w₁, w₂, first, rest, -⟩ := Emission.run_bind_ok_iff.1 run
  exact hf a (hm c a c₁ w₁ first) c₁ b c' w₂ rest

/-- Whatever the first step answers. -/
theorem after {m : Lowering α} {f : α → Lowering β} (hf : ∀ a, Gives Q (f a)) :
    Gives Q (m >>= f) := by
  intro c b c' w run
  obtain ⟨a, c₁, w₁, w₂, -, rest, -⟩ := Emission.run_bind_ok_iff.1 run
  exact hf a c₁ b c' w₂ rest

end Gives

theorem bind_gives (i : Ir.Instruction) (type : Ty) :
    Gives (fun v => v.isConstant = false) (bind table i type) :=
  .after fun _ => .after fun _ => .pure rfl

theorem asValue_gives (rhs : Rhs) :
    Gives (fun v => v.isConstant = true → rhs = .value v) (asValue table rhs) := by
  cases rhs with
  | value v => exact .pure fun _ => rfl
  | operation i type =>
      intro c v c' w run constant
      rw [bind_gives i type c v c' w run] at constant
      cases constant

theorem lowerName_gives (name : String) :
    Gives (fun rhs => rhs.isConstant = false) (lowerName table name) := by
  refine .after fun _ => .after fun found => ?_
  split
  · exact .pure rfl
  · exact .pure rfl

theorem isConstant_of_lowerNot {v : Value} (h : (lowerNot v).isConstant = true) :
    v.isConstant = true := by
  unfold lowerNot at h
  split at h
  · rename_i n literal
    rw [Value.isConstant, literal]
    rfl
  · cases h

theorem isConstant_of_lowerBinary {op : BinaryOp} {l r : Value}
    (h : (lowerBinary op l r).isConstant = true) : l.isConstant = true ∧ r.isConstant = true := by
  unfold lowerBinary at h
  simp only at h
  split at h
  · rename_i n folded
    obtain ⟨a, left, folded⟩ := Option.bind_eq_some_iff.1 folded
    obtain ⟨b, right, -⟩ := Option.bind_eq_some_iff.1 folded
    exact ⟨Option.isSome_iff_exists.2 ⟨a, left⟩, Option.isSome_iff_exists.2 ⟨b, right⟩⟩
  · cases h

theorem computes_of_lowerBinary {op : BinaryOp} {lhs rhs : Expr}
    (h : (lowerBinary op (constantOf lhs) (constantOf rhs)).isConstant = true) :
    (op.compute? lhs.constantValue rhs.constantValue).isSome = true := by
  unfold lowerBinary at h
  simp only [literal_constantOf, Option.bind_eq_bind, Option.bind_some, Evaluation.fold_eq,
    Expr.toInt_constantValue] at h
  cases computed : op.compute? lhs.constantValue rhs.constantValue with
  | some n => rfl
  | none =>
      rw [computed] at h
      cases h

theorem lowerRhs_gives : ∀ (e : Expr) (expected : Option Ty),
    Gives (fun rhs => rhs.isConstant = true → e.IsConstant ∧ rhs = .value (constantOf e))
      (lowerRhs table e expected)
  | .int tag n, expected => by
      have constant := Expr.isConstant_int tag n
      rw [lowerRhs_of_isConstant _ expected constant]
      exact .pure fun _ => ⟨constant, rfl⟩
  | .bool tag b, expected => by
      have constant := Expr.isConstant_bool tag b
      rw [lowerRhs_of_isConstant _ expected constant]
      exact .pure fun _ => ⟨constant, rfl⟩
  | .paren _ inner, expected => by
      rw [lowerRhs]
      intro c rhs c' w run constant
      obtain ⟨inside, same⟩ := lowerRhs_gives inner expected c rhs c' w run constant
      exact ⟨Expr.isConstant_paren_iff.2 inside, same⟩
  | .not tag operand, _ => by
      rw [lowerRhs]
      refine (lowerRhs_gives operand _).bind fun r hr => (asValue_gives r).bind fun v hv => ?_
      refine .pure fun constant => ?_
      have known := isConstant_of_lowerNot constant
      obtain rfl := hv known
      obtain ⟨inside, same⟩ := hr known
      cases same
      exact ⟨Expr.isConstant_not_iff.2 inside, lowerNot_constantOf tag operand⟩
  | .binary tag op lhs rhs, _ => by
      rw [lowerRhs]
      refine (lowerRhs_gives lhs _).bind fun l hl => (asValue_gives l).bind fun a ha => ?_
      refine (lowerRhs_gives rhs _).bind fun r hr => (asValue_gives r).bind fun b hb => ?_
      refine .pure fun constant => ?_
      obtain ⟨known, known'⟩ := isConstant_of_lowerBinary constant
      obtain rfl := ha known
      obtain rfl := hb known'
      obtain ⟨left, same⟩ := hl known
      obtain ⟨right, same'⟩ := hr known'
      cases same
      cases same'
      have computes := computes_of_lowerBinary constant
      exact ⟨Expr.isConstant_binary_iff.2 ⟨left, right, computes⟩,
        lowerBinary_constantOf tag computes⟩
  | .name _ text, _ => by
      rw [lowerRhs]
      intro c rhs c' w run constant
      rw [lowerName_gives text c rhs c' w run] at constant
      cases constant
  | .this _, _ => by
      rw [lowerRhs]
      exact .pure fun h => absurd h Bool.false_ne_true
  | .index .., _ => by
      rw [lowerRhs]
      exact .after fun _ => .after fun _ => .after fun _ => .after fun _ =>
        .pure fun h => absurd h Bool.false_ne_true
  | .length .., _ | .newArray .., _ => by
      rw [lowerRhs]
      refine .after fun _ => .after fun _ => (bind_gives _ _).bind fun v hv => .pure fun h => ?_
      exact absurd (hv.symm.trans h) Bool.false_ne_true
  | .newObject _ className, _ => by
      rw [lowerRhs]
      refine (bind_gives _ _).bind fun v hv => .after fun _ => .pure fun h => ?_
      exact absurd (hv.symm.trans h) Bool.false_ne_true
  | .call .., _ => by
      rw [lowerRhs]
      refine .after fun named => ?_
      split
      · exact .after fun _ => .after fun _ => .pure fun h => absurd h Bool.false_ne_true
      · exact .after fun _ => .after fun _ => .after fun _ => .after fun _ =>
          .pure fun h => absurd h Bool.false_ne_true

/-- An expression leaves a constant exactly if it is built from literals and no part of it divides
by zero, whatever is expected of it and wherever the generator is.  Then nothing is written and the
cursor stays where it is; the constant is the value of the expression, and it is written as that
number, as a truth value if the expression has the form of one. -/
theorem lowerValue_constant_iff (table : SymbolTable) (e : Expr) (expected : Option Ty)
    (c : Cursor) :
    ((∃ v c' w, (lowerValue table e expected).run c = ⟨.ok v, c', w⟩ ∧ v.isConstant = true) ↔
      e.IsConstant) ∧
    (e.IsConstant → ∃ v n, (lowerValue table e expected).run c = ⟨.ok v, c, []⟩ ∧
      v.literal = some n ∧ n.toInt = e.constantValue ∧
      v.text = toString e.constantValue ++ if e.isTruth then ".bool" else ".i32") := by
  have folds : e.IsConstant →
      (lowerValue table e expected).run c = ⟨.ok (constantOf e), c, []⟩ := by
    intro constant
    rw [lowerValue, lowerRhs_of_isConstant e expected constant, pure_bind]
    rfl
  refine ⟨⟨?_, ?_⟩, ?_⟩
  · rintro ⟨v, c', w, run, known⟩
    obtain ⟨rhs, c₁, w₁, w₂, first, second, -⟩ := Emission.run_bind_ok_iff.1 run
    obtain rfl := asValue_gives rhs c₁ v c' w₂ second known
    exact (lowerRhs_gives e expected c _ c₁ w₁ first known).1
  · intro constant
    refine ⟨_, _, _, folds constant, ?_⟩
    rw [Value.isConstant, literal_constantOf]
    rfl
  · intro constant
    exact ⟨_, _, folds constant, literal_constantOf e, e.toInt_constantValue, text_constantOf e⟩

/-- The least number divided by minus one. -/
def leastByMinusOne : Expr :=
  .binary default .div
    (.paren default
      (.binary default .sub
        (.binary default .sub (.int default 0) (.int default 2147483647)) (.int default 1)))
    (.binary default .sub (.int default 0) (.int default 1))

/-- The least number divided by minus one wraps around to itself. -/
theorem lowerValue_constant_wraps :
    leastByMinusOne.IsConstant ∧
      ∃ v, (lowerValue .empty leastByMinusOne none).run .start = ⟨.ok v, .start, []⟩ ∧
        v.isConstant = true ∧ v.text = "-2147483648.i32" := by
  have constant : leastByMinusOne.IsConstant := ⟨rfl, by decide⟩
  obtain ⟨v, n, run, literal, -, text⟩ :=
    (lowerValue_constant_iff .empty leastByMinusOne none .start).2 constant
  refine ⟨constant, v, run, ?_, ?_⟩
  · rw [Value.isConstant, literal]
    rfl
  · rw [text]
    decide

end Lowering

end JavaMinus
