/-
# Conditions of accepted programs

A condition has to be a truth value.  Where a check has passed, no condition is a number, a length,
a creation or a variable of another type, whatever parentheses there are around it.

An operator is checked as a chain, and of the outermost operator the chain only knows what stands on
its left.  So an arithmetic operator passes as a condition if the type of its left operand is not
known, and only then (`passes_condition_iff`); its own type is never asked for.  The type of an
operand is not known if it is an imported name or a call of a method that the class does not declare
(`isForeign_iff`).
-/
import JavaMinus.Proofs.Lowering.Names
import JavaMinus.Proofs.Parentheses.Types
import JavaMinus.Proofs.Source.Shape

namespace JavaMinus

open Source

namespace Source

mutual

def Stmt.conditions : Stmt → List Expr
  | .block _ body => Stmt.conditionsIn body
  | .ifThen _ condition thenBranch => condition :: thenBranch.conditions
  | .ifElse _ condition thenBranch elseBranch =>
      condition :: (thenBranch.conditions ++ elseBranch.conditions)
  | .while _ condition body => condition :: body.conditions
  | .expr _ | .assign .. | .assignElement .. | .return .. => []

def Stmt.conditionsIn : List Stmt → List Expr
  | [] => []
  | stmt :: stmts => stmt.conditions ++ Stmt.conditionsIn stmts

end

/-- Whether the expression shows that it is no truth value, parentheses aside: it is an arithmetic
operator, a number, a length, a creation, or a variable that is declared with another type. -/
def Expr.isNoTruth (s : Scope) (e : Expr) : Bool :=
  match e.unparen with
  | .binary _ op _ _ => op.isArithmetic
  | .int .. | .length .. | .newArray .. | .newObject .. => true
  | .name _ text => (s.variableType? text).any (· != .boolean)
  | .bool .. | .this _ | .not .. | .index .. | .call .. | .paren .. => false

/-- Whether the type of the expression is somebody else's matter, parentheses aside: it is a name
that is not declared, or a call of a method that the class does not declare. -/
def Expr.isForeign (s : Scope) (e : Expr) : Bool :=
  match e.unparen with
  | .name _ text => (s.lookup text).isNone
  | .call _ _ method _ => (s.table.method? method).isNone
  | _ => false

mutual

theorem Stmt.named_conditions : ∀ stmt : Stmt, stmt.Named → ∀ c ∈ stmt.conditions, c.Named
  | .block _ body, h => Stmt.named_conditionsIn body h
  | .ifThen _ _ thenBranch, h => List.forall_mem_cons.2 ⟨h.1, thenBranch.named_conditions h.2⟩
  | .ifElse _ _ thenBranch elseBranch, h => List.forall_mem_cons.2 ⟨h.1, List.forall_mem_append.2
      ⟨thenBranch.named_conditions h.2.1, elseBranch.named_conditions h.2.2⟩⟩
  | .while _ _ body, h => List.forall_mem_cons.2 ⟨h.1, body.named_conditions h.2⟩
  | .expr _, _ | .assign .., _ | .assignElement .., _ | .return .., _ => List.forall_mem_nil _

theorem Stmt.named_conditionsIn : ∀ stmts : List Stmt, Stmt.NamedAll stmts →
    ∀ c ∈ Stmt.conditionsIn stmts, c.Named
  | [], _ => List.forall_mem_nil _
  | stmt :: stmts, h => List.forall_mem_append.2
      ⟨stmt.named_conditions h.1, Stmt.named_conditionsIn stmts h.2⟩

end

end Source

theorem Ty.eq_boolean {t : Ty} (h : t.isBoolean = true) : t = .boolean := by
  simp only [isBoolean, Bool.and_eq_true, beq_iff_eq, Bool.not_eq_true'] at h
  exact congrArg₂ Ty.mk h.1 h.2

theorem Checked.passes_bind_pure_iff {α : Type} {m : Checked α} :
    (m >>= fun _ => (pure () : Checked Unit)).Passes ↔ m.Passes := by
  rw [passes_bind_iff, Passes.eq_1 m, Option.isSome_iff_exists]
  exact exists_congr fun _ => and_iff_left (passes_pure ())

namespace Scope

variable {s : Scope}

/-! ## Every condition is checked -/

mutual

theorem checkCondition_of_accepts : ∀ stmt : Stmt, s.Accepts stmt → ∀ c ∈ stmt.conditions,
    ∃ statement, (s.checkCondition c statement).Passes
  | .block _ body, h => checkCondition_of_acceptsAll body h
  | .ifThen _ _ thenBranch, h => List.forall_mem_cons.2
      ⟨⟨_, h.1⟩, checkCondition_of_accepts thenBranch h.2⟩
  | .ifElse _ _ thenBranch elseBranch, h => List.forall_mem_cons.2
      ⟨⟨_, h.1⟩, List.forall_mem_append.2
        ⟨checkCondition_of_accepts thenBranch h.2.1, checkCondition_of_accepts elseBranch h.2.2⟩⟩
  | .while _ _ body, h => List.forall_mem_cons.2 ⟨⟨_, h.1⟩, checkCondition_of_accepts body h.2⟩
  | .expr _, _ | .assign .., _ | .assignElement .., _ | .return .., _ => List.forall_mem_nil _

theorem checkCondition_of_acceptsAll : ∀ stmts : List Stmt, s.AcceptsAll stmts →
    ∀ c ∈ Stmt.conditionsIn stmts, ∃ statement, (s.checkCondition c statement).Passes
  | [], _ => List.forall_mem_nil _
  | stmt :: stmts, h => List.forall_mem_append.2
      ⟨checkCondition_of_accepts stmt h.1, checkCondition_of_acceptsAll stmts h.2⟩

end

/-! ## Operands of unknown type -/

/-- An operator is told no type of an operand exactly if the operand is foreign. -/
theorem isForeign_iff : ∀ e : Expr, e.isForeign s = true ↔ s.operandType? e = none
  | .name _ text => by
      show (s.lookup text).isNone = true ↔ (s.lookup text).map (·.symbol.type) = none
      rw [Option.isNone_iff_eq_none, Option.map_eq_none_iff]
  | .call _ _ method _ => by
      show (s.table.method? method).isNone = true ↔
        (s.table.method? method).map (·.returnType) = none
      rw [Option.isNone_iff_eq_none, Option.map_eq_none_iff]
  | .paren _ inner => isForeign_iff inner
  | .int .. | .bool .. | .this _ | .binary .. | .not .. | .index .. | .length .. | .newArray ..
  | .newObject .. => ⟨fun h => (nomatch h), fun h => (nomatch h)⟩

theorem checkOperator_passes_iff {link : Link} {left right : Option Ty} :
    (checkOperator link left right).Passes ↔
      (∀ t, left = some t → t = link.op.operandType) ∧
        ∀ t, right = some t → t = link.op.operandType := by
  have fits : ∀ o : Option Ty, o.getD link.op.operandType = link.op.operandType ↔
      ∀ t, o = some t → t = link.op.operandType := by
    intro o
    cases o with
    | none => exact ⟨fun _ _ h => (nomatch h), fun _ => rfl⟩
    | some t =>
        rw [Option.getD_some]
        exact ⟨fun h u hu => Option.some.inj hu ▸ h, fun h => h t rfl⟩
  simp only [checkOperator, ← fits]
  split
  · rename_i other
    refine ⟨fun h => absurd h (Checked.not_passes_fail _ _), fun h => ?_⟩
    exact absurd h (not_and_or.2 other)
  · rename_i same
    rw [not_or, not_not, not_not] at same
    exact ⟨fun _ => same, fun _ => rfl⟩

/-! ## What passes as a condition -/

theorem checkConditionLink_passes_iff {statement : Conditional} {link : Link} {left : Option Ty}
    (arithmetic : link.op.isArithmetic = true) :
    (checkConditionLink (.condition statement) true link left).Passes ↔
      ∀ t, left = some t → t.isBoolean = true := by
  have plain : link.op.isComparison = false := by
    cases hop : link.op with
    | add | sub | mul | div | and => rfl
    | lt =>
        rw [hop] at arithmetic
        cases arithmetic
  cases left with
  | none => exact ⟨fun _ _ h => (nomatch h), fun _ => rfl⟩
  | some t =>
      rw [checkConditionLink, Checked.passes_failIf_iff, plain]
      simp

/-- An arithmetic operator passes as a condition exactly if the type of its left operand is not
known, and the right one, as far as its type is known, is a number. -/
theorem passes_condition_iff {tag : Tag} {op : BinaryOp} {lhs rhs : Expr} {statement : Conditional}
    (arithmetic : op.isArithmetic = true) :
    (s.checkExpr (.binary tag op lhs rhs) (.condition statement)).Passes ↔
      lhs.isForeign s = true ∧ (s.checkExpr lhs .value).Passes ∧ (s.checkExpr rhs .value).Passes ∧
        ∀ t, s.operandType? rhs = some t → t = .int := by
  have operand : op.operandType = .int := by
    cases op with
    | add | sub | mul | div | lt => rfl
    | and => cases arithmetic
  have known : ∀ {t : Ty}, s.operandType? lhs = some t →
      ¬ ((∀ u, s.operandType? lhs = some u → u.isBoolean = true) ∧
        ∀ u, s.operandType? lhs = some u → u = .int) := by
    rintro t ht ⟨isBoolean, isInt⟩
    have here := isBoolean t ht
    rw [isInt t ht] at here
    exact absurd here (by decide)
  rw [checkExpr_binary, Checked.passes_seq_iff, Checked.passes_seq_iff, Checked.passes_seq_iff,
    Checked.passes_bind_pure_iff, checkConditionLink_passes_iff arithmetic,
    checkOperator_passes_iff, operand, isForeign_iff]
  constructor
  · rintro ⟨left, right, isBoolean, isInt, fits⟩
    refine ⟨?_, left, right, fits⟩
    cases ho : s.operandType? lhs with
    | none => rfl
    | some t => exact absurd ⟨isBoolean, isInt⟩ (known ho)
  · rintro ⟨foreign, left, right, fits⟩
    rw [foreign]
    exact ⟨left, right, fun _ h => (nomatch h), fun _ h => (nomatch h), fits⟩

/-- Unless it is an operator or an element of an array, a condition that passes has no type that is
known to be another one. -/
theorem isBoolean_of_checkCondition {c : Expr} {statement : Conditional}
    (passes : (s.checkCondition c statement).Passes) (noOperator : c.unparen.isBinary = false)
    (noElement : isElement c = false) : ∀ t, s.typeOf? c.unparen = some t → t.isBoolean = true := by
  unfold checkCondition at passes
  unfold isElement at noElement
  split at passes
  · rename_i hu
    rw [hu] at noOperator
    cases noOperator
  · rename_i hu
    rw [hu] at noElement
    cases noElement
  · rw [Checked.passes_seq_iff] at passes
    exact rule_of_checkType passes.2

/-- A class that is created has no name of a primitive type. -/
theorem isBoolean_ofClass {className : String} (h : IsName className) :
    (Ty.ofClass className).isBoolean = false := by
  have other : className ≠ "boolean" := by
    rintro rfl
    exact h.free .kBoolean rfl
  simp [Ty.isBoolean, Ty.ofClass, other]

/-- What shows that it is no truth value passes as a condition exactly if it is an arithmetic
operator with a foreign operand on its left. -/
theorem passes_checkCondition_noTruth {c : Expr} {statement : Conditional} (named : c.Named)
    (passes : (s.checkCondition c statement).Passes) :
    c.isNoTruth s = true ↔ ∃ tag op lhs rhs, c.unparen = .binary tag op lhs rhs ∧
      op.isArithmetic = true ∧ lhs.isForeign s = true := by
  have words := unparen_named named
  have rule := isBoolean_of_checkCondition passes
  unfold Expr.isNoTruth
  unfold isElement at rule
  cases hu : c.unparen with
  | binary tag op lhs rhs =>
      unfold checkCondition at passes
      rw [hu] at passes
      constructor
      · intro arithmetic
        refine ⟨tag, op, lhs, rhs, rfl, arithmetic, ?_⟩
        have whole : (s.checkExpr (.binary tag op lhs rhs) (.condition statement)).Passes := by
          rwa [checkExpr]
        exact ((passes_condition_iff arithmetic).1 whole).1
      · rintro ⟨_, _, _, _, ⟨⟩, arithmetic, -⟩
        exact arithmetic
  | int | length | newArray =>
      rw [hu] at rule
      exact absurd (rule rfl rfl _ rfl) (by decide)
  | newObject tag className =>
      rw [hu] at rule words
      have here := rule rfl rfl _ rfl
      rw [isBoolean_ofClass words] at here
      cases here
  | name tag text =>
      rw [hu] at rule
      refine ⟨fun other => ?_, fun ⟨_, _, _, _, h, _⟩ => (nomatch h)⟩
      obtain ⟨t, ht, different⟩ := (Option.any_eq_true _ _).1 other
      rw [Ty.eq_boolean (rule rfl rfl t ht)] at different
      exact absurd different (by decide)
  | bool | this | not | index | call | paren =>
      exact ⟨fun h => (nomatch h), fun ⟨_, _, _, _, h, _⟩ => (nomatch h)⟩

end Scope

namespace Analysis

/-- The conditions of an accepted text.  One that shows that it is no truth value is an arithmetic
operator whose left operand is foreign, and every such operator shows it. -/
theorem conditions_of_no_errors {source : String} {p : Program}
    (parsed : Program.ofText source = .ok p) (accepted : (ofProgram p).hasErrors = false) :
    ∀ m ∈ p.methods, ∀ s, s = Scope.ofMethod (.ofProgram p) m → ∀ c ∈ Stmt.conditionsIn m.body,
      (c.isNoTruth s = true ↔ ∃ tag op lhs rhs, c.unparen = .binary tag op lhs rhs ∧
        op.isArithmetic = true ∧ lhs.isForeign s = true) := by
  rintro m hm s rfl c hc
  have named := Stmt.named_conditionsIn m.body ((Program.named_of_ofText parsed).methods m hm).body
  obtain ⟨statement, passes⟩ :=
    Scope.checkCondition_of_acceptsAll m.body (accepts_of_no_errors accepted m hm) c hc
  exact Scope.passes_checkCondition_noTruth (named c hc) passes

/-- Conditions of all accepted forms, at any depth, and an arithmetic operator inside one. -/
theorem conditions_of_every_form :
    ∃ p, Program.ofText
        "import io; class A { boolean b; void f(boolean[] a) { while (b && 1 < 2 + io.read()) { if (a[0]) { } else if (!(b)) { } } if ((this.g())) { } if (io.ready()) { } } boolean g() { return true; } }" =
          .ok p ∧ (ofProgram p).hasErrors = false ∧
      (p.methods.flatMap fun m => Stmt.conditionsIn m.body).length = 5 ∧
      ∀ m ∈ p.methods, ∀ s, s = Scope.ofMethod (.ofProgram p) m → ∀ c ∈ Stmt.conditionsIn m.body,
        c.isNoTruth s = false ∧ ¬ ∃ tag op lhs rhs, c.unparen = .binary tag op lhs rhs ∧
          op.isArithmetic = true ∧ lhs.isForeign s = true := by
  obtain ⟨p, hp, ht⟩ := Compiler.exists_of_any
    (Program.ofText
      "import io; class A { boolean b; void f(boolean[] a) { while (b && 1 < 2 + io.read()) { if (a[0]) { } else if (!(b)) { } } if ((this.g())) { } if (io.ready()) { } } boolean g() { return true; } }")
    (fun p => !(ofProgram p).hasErrors &&
      (p.methods.flatMap fun m => Stmt.conditionsIn m.body).length == 5 &&
        p.methods.all fun m => (Stmt.conditionsIn m.body).all fun c =>
          !c.isNoTruth (.ofMethod (.ofProgram p) m)) (by decide +kernel)
  simp only [Bool.and_eq_true, Bool.not_eq_true', beq_iff_eq, List.all_eq_true] at ht
  obtain ⟨⟨accepted, count⟩, truths⟩ := ht
  refine ⟨p, hp, accepted, count, ?_⟩
  rintro m hm s rfl c hc
  have truth := truths m hm c hc
  refine ⟨truth, fun foreign => ?_⟩
  have other := (conditions_of_no_errors hp accepted m hm _ rfl c hc).2 foreign
  exact Bool.false_ne_true (truth.symm.trans other)

/-- The sum of what another class answers and one passes as a condition. -/
theorem condition_of_foreign_sum :
    ∃ p m s c, Program.ofText "import io; class A { public void f() { if (io.read() + 1) { } } }" =
          .ok p ∧ (ofProgram p).hasErrors = false ∧ m ∈ p.methods ∧
      s = Scope.ofMethod (.ofProgram p) m ∧ c ∈ Stmt.conditionsIn m.body ∧
      ∃ tag op lhs rhs, c.unparen = .binary tag op lhs rhs ∧ op.isArithmetic = true := by
  obtain ⟨p, hp, ht⟩ := Compiler.exists_of_any
    (Program.ofText "import io; class A { public void f() { if (io.read() + 1) { } } }")
    (fun p => !(ofProgram p).hasErrors && p.methods.any fun m =>
      (Stmt.conditionsIn m.body).any fun c =>
        c.unparen.isBinary && c.isNoTruth (.ofMethod (.ofProgram p) m)) (by decide +kernel)
  simp only [Bool.and_eq_true, Bool.not_eq_true', List.any_eq_true] at ht
  obtain ⟨accepted, m, hm, c, hc, isBinary, other⟩ := ht
  refine ⟨p, m, _, c, hp, accepted, hm, rfl, hc, ?_⟩
  unfold Expr.isNoTruth at other
  cases hu : c.unparen with
  | binary tag op lhs rhs =>
      rw [hu] at other
      exact ⟨tag, op, lhs, rhs, rfl, other⟩
  | int | bool | name | this | not | index | length | call | newArray | newObject | paren =>
      rw [hu] at isBinary
      cases isBinary

end Analysis

end JavaMinus
