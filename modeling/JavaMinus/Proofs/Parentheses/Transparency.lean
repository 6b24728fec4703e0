/-
# When parentheses change nothing

Programs that are alike have the same intermediate form.  They are not always checked alike: an
operator in parentheses is asked what it shows by itself, which is the type of its operands, so
`(1 < 2)` is an `int` where `1 < 2` is a `boolean`.  What the checks are told says when this matters
(`agree_iff`): if it is the same for both programs, so are the messages, and if it is not, at most one
of them is accepted.  Nothing more can be said of two programs that are both rejected: they may repeat
each other's messages although the rules that they break are not the same (`storing_rejected`).
-/
import Mathlib
import JavaMinus.Compiler
import JavaMinus.Proofs.Parentheses.Lowering
import JavaMinus.Proofs.Parentheses.Types

namespace JavaMinus

open Source

/-- The answers that the checks of a program ask for, in the order of the text. -/
def Source.Program.told (p : Program) : List (Option Ty) :=
  Analysis.toldIn (SymbolTable.ofProgram p) p.methods

namespace Analysis

/-- The same messages, the same verdict, and the same intermediate form if both are accepted. -/
structure Agree (p p' : Program) : Prop where
  messages : (ofProgram p).reports.map (·.message) = (ofProgram p').reports.map (·.message)
  verdict : (ofProgram p).hasErrors = (ofProgram p').hasErrors
  ir : (ofProgram p).hasErrors = false → (ofProgram p').hasErrors = false →
    Lowering.irText (SymbolTable.ofProgram p) p = Lowering.irText (SymbolTable.ofProgram p') p'

theorem checkMethods_told_eq {table : SymbolTable} {methods methods' : List Method}
    (h : List.Forall₂ Method.Alike methods methods')
    (ha : ∀ m ∈ methods, (Scope.ofMethod table m).AcceptsAll m.body)
    (ha' : ∀ m ∈ methods', (Scope.ofMethod table m).AcceptsAll m.body) :
    toldIn table methods = toldIn table methods' := by
  induction h with
  | nil => rfl
  | @cons m m' ms ms' hm hms ih =>
      have first' := ha' m' List.mem_cons_self
      rw [← ofMethod_alike table hm] at first'
      have rest := ih (fun n hn => ha n (List.mem_cons_of_mem m hn))
        (fun n hn => ha' n (List.mem_cons_of_mem m' hn))
      simp only [toldIn] at rest
      rw [toldIn, toldIn, List.flatMap_cons, List.flatMap_cons, rest, ← ofMethod_alike table hm,
        Scope.toldByAll_eq hm.body (ha m List.mem_cons_self) first']

/-- Accepted programs that are alike are told the same. -/
theorem told_eq_of_no_errors {p p' : Program} (h : p.Alike p') (hp : (ofProgram p).hasErrors = false)
    (hp' : (ofProgram p').hasErrors = false) : p.told = p'.told := by
  have accepts' := accepts_of_no_errors hp'
  change ∀ m ∈ p'.methods, (Scope.ofMethod (SymbolTable.ofProgram p') m).AcceptsAll m.body
    at accepts'
  rw [Program.told, Program.told, ← h.table]
  rw [← h.table] at accepts'
  exact checkMethods_told_eq h.methods (accepts_of_no_errors hp) accepts'

theorem agree_of_told_eq {p p' : Program} (h : p.Alike p') (htold : p.told = p'.told) :
    Agree p p' := by
  rw [Program.told, Program.told, ← h.table] at htold
  have contents : (ofProgram p).reports.map Report.content =
      (ofProgram p').reports.map Report.content := by
    have same := checkMethods_alike h.methods htold
    simp only [ofProgram, ← h.table]
    exact same
  refine ⟨?_, ?_, fun _ _ => Lowering.irText_alike h⟩
  · have messages := congrArg (List.map fun c : Severity × Finding => c.2.message) contents
    rwa [List.map_map, List.map_map] at messages
  · have verdict := congrArg (List.any · fun c : Severity × Finding => c.1 == .error) contents
    rwa [List.any_map, List.any_map] at verdict

/-- Programs that differ in parentheses agree if the checks are told the same about both, and where one
of them is accepted, only then. -/
theorem agree_iff {p p' : Program} (h : p.Alike p') :
    (p.told = p'.told → Agree p p') ∧
      ((ofProgram p).hasErrors = false ∨ (ofProgram p').hasErrors = false →
        (Agree p p' ↔ p.told = p'.told)) := by
  refine ⟨agree_of_told_eq h, fun accepted => ⟨fun agree => ?_, agree_of_told_eq h⟩⟩
  rcases accepted with hp | hp'
  · exact told_eq_of_no_errors h hp (agree.verdict ▸ hp)
  · exact told_eq_of_no_errors h (agree.verdict ▸ hp') hp'

/-- A program of one method, which stores a value in its parameter. -/
def storing (value : Expr) : Program :=
  ⟨[], "A", none, ⟨1, 1⟩, [],
    [⟨"f", .regular false, false, .void, [⟨"b", .boolean, ⟨1, 18⟩⟩], [],
      [.assign ⟨1, 31⟩ "b" value], ⟨1, 29⟩, ⟨1, 11⟩⟩]⟩

/-- The comparison of two numbers, with the first of them at a column. -/
def comparisonAt (column : Nat) : Expr :=
  .binary ⟨2, ⟨1, column⟩⟩ .lt (.int ⟨0, ⟨1, column⟩⟩ 1) (.int ⟨1, ⟨1, column + 4⟩⟩ 2)

theorem storing_alike {e e' : Expr} (h : e.Alike e') : (storing e).Alike (storing e') :=
  ⟨rfl, .cons ⟨rfl, rfl, rfl, .cons (.assign h) .nil⟩ .nil⟩

theorem comparisonAt_alike (column column' : Nat) :
    (comparisonAt column).Alike (comparisonAt column') :=
  .binary .int .int

/-- Parentheses around an operand change nothing. -/
theorem storing_agree :
    (storing (comparisonAt 35)).Alike (storing (.binary ⟨3, ⟨1, 35⟩⟩ .lt
      (.paren ⟨1, ⟨1, 35⟩⟩ (.int ⟨0, ⟨1, 36⟩⟩ 1)) (.int ⟨2, ⟨1, 41⟩⟩ 2))) ∧
    (ofProgram (storing (comparisonAt 35))).hasErrors = false ∧
    Agree (storing (comparisonAt 35)) (storing (.binary ⟨3, ⟨1, 35⟩⟩ .lt
      (.paren ⟨1, ⟨1, 35⟩⟩ (.int ⟨0, ⟨1, 36⟩⟩ 1)) (.int ⟨2, ⟨1, 41⟩⟩ 2))) := by
  have accepted : (ofProgram (storing (comparisonAt 35))).hasErrors = false := by decide +kernel
  refine ⟨storing_alike (.binary (.parenRight .int) .int), accepted, ?_⟩
  refine ((agree_iff (storing_alike (.binary (.parenRight .int) .int))).2 (.inl accepted)).2 ?_
  decide +kernel

/-- A comparison in parentheses is not stored where one without them is. -/
theorem storing_disagree :
    Program.ofText "class A { void f(boolean b) { b = 1 < 2; } }" = .ok (storing (comparisonAt 35)) ∧
    Program.ofText "class A { void f(boolean b) { b = (1 < 2); } }" =
      .ok (storing (.paren ⟨3, ⟨1, 35⟩⟩ (comparisonAt 36))) ∧
    (storing (comparisonAt 35)).Alike (storing (.paren ⟨3, ⟨1, 35⟩⟩ (comparisonAt 36))) ∧
    (ofProgram (storing (comparisonAt 35))).hasErrors = false ∧
    ¬ Agree (storing (comparisonAt 35)) (storing (.paren ⟨3, ⟨1, 35⟩⟩ (comparisonAt 36))) := by
  refine ⟨by cbv, by cbv, storing_alike (.parenRight (comparisonAt_alike 35 36)),
    by decide +kernel, fun agree => ?_⟩
  exact absurd agree.verdict (by decide +kernel)

/-- The element of a new array. -/
def elementAt (index : Expr) : Expr :=
  .index ⟨5, ⟨1, 1⟩⟩ (.newArray ⟨4, ⟨1, 1⟩⟩ (.int ⟨3, ⟨1, 1⟩⟩ 1)) index

/-- Two comparisons, of which one has a truth value as an index on the left, repeat each other's message:
in parentheses the index on the left passes, and the one on the right is found instead. -/
theorem storing_rejected :
    let value (left : Expr) : Expr :=
      .binary ⟨6, ⟨1, 1⟩⟩ .lt (elementAt left) (elementAt (.bool ⟨7, ⟨1, 1⟩⟩ true))
    let plain := storing (value (comparisonAt 1))
    let wrapped := storing (value (.paren ⟨8, ⟨1, 1⟩⟩ (comparisonAt 1)))
    plain.Alike wrapped ∧ plain.told ≠ wrapped.told ∧
      (ofProgram plain).hasErrors = true ∧ Agree plain wrapped := by
  refine ⟨storing_alike (.binary (.index (.newArray .int) (.parenRight (comparisonAt_alike 1 1)))
    (.index (.newArray .int) .bool)), by decide +kernel, by decide +kernel, ?_, ?_, ?_⟩
  · decide +kernel
  · decide +kernel
  · exact fun accepted => absurd accepted (by decide +kernel)

end Analysis

end JavaMinus
