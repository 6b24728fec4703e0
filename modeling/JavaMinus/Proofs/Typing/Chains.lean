/-
# Chains of operators by recursion

The analyzer checks a chain of operators in one pass over its links, from the innermost one outwards,
with the type of what stands to the left carried along.  The same check can be read off the tree
(`Analyzer.checkTree`): an operator has its left operand typed, by recursion if that is an operator
again, then its right operand, and then it is held against its own rule.  Only the outermost operator
is asked about its place in a condition.

The two make the same findings in the same order, halt at the same operator and answer with the same
type, from whatever the analyzer has found (`Analyzer.checkChain_recursive`).  That a chain may be
laid out is `Analyzer.checkLinks_layOut`, by induction on what stands to the left; what is left here
is that below the outermost operator the place does not matter.
-/
import JavaMinus.Proofs.Typing.Reporting

namespace JavaMinus

open Source
open Analyzing (make make_pure make_bind after_make after_bind after_pure)

/-! ## The rule of one operator -/

namespace Source.BinaryOp

/-- The type to the left of an operator that keeps it from being a condition: it is known to be no
boolean, and the operator is no comparison. -/
def notBoolean? (op : BinaryOp) (left : Option Ty) : Option Ty :=
  left.filter fun type => op != .lt && !type.isBoolean

/-- Whether an operand is known to have another type than the operator asks for. -/
def rejects (op : BinaryOp) (operand : Option Ty) : Bool :=
  operand.any (· != op.operandType)

theorem rejects_iff (op : BinaryOp) (operand : Option Ty) :
    op.rejects operand = true ↔ operand.getD op.operandType ≠ op.operandType := by
  cases operand with
  | none => simp [rejects]
  | some type => simp [rejects]

end Source.BinaryOp

/-- Neither operand is known to have another type than the operator asks for.  The type of an
operator that passes is noted. -/
def operandsRule (tag : Tag) (op : BinaryOp) (left right : Option Ty) : Checked Ty :=
  if op.rejects left || op.rejects right then
    Checked.fail tag.loc (.operatorCannotBeApplied op.symbol (left.getD op.operandType)
      (right.getD op.operandType))
  else ⟨some op.resultType, ⟨[], [(tag.id, op.resultType)]⟩⟩

/-- The rule of an operator with operands of these types, as far as they are known. -/
def operatorRule (pos : Position) (isOutermost : Bool) (tag : Tag) (op : BinaryOp)
    (left right : Option Ty) : Checked Ty :=
  match pos, isOutermost, op.notBoolean? left with
  | .condition statement, true, some type =>
      Checked.fail tag.loc (.invalidConditionType statement.word type)
  | _, _, _ => operandsRule tag op left right

theorem operandsRule_eq (link : Link) (left right : Option Ty) :
    operandsRule link.tag link.op left right = Scope.checkOperator link left right := by
  simp only [operandsRule, Scope.checkOperator, Bool.or_eq_true, BinaryOp.rejects_iff]
  rfl

theorem operatorRule_inner (pos : Position) (tag : Tag) (op : BinaryOp) (left right : Option Ty) :
    operatorRule pos false tag op left right = operandsRule tag op left right := by
  cases pos <;> rfl

/-- The outermost link of a chain is held against the rule of its operator. -/
theorem operatorRule_outermost (pos : Position) (link : Link) (left right : Option Ty) :
    operatorRule pos true link.tag link.op left right = (do
      Scope.checkConditionLink pos true link left
      Scope.checkOperator link left right) := by
  rw [← operandsRule_eq]
  cases pos with
  | value | arrayBase | arrayIndex => rfl
  | condition statement =>
      cases left with
      | none => rfl
      | some type =>
          simp only [operatorRule, Scope.checkConditionLink, BinaryOp.notBoolean?,
            Option.filter_some, BinaryOp.isComparison, Bool.true_and, Checked.failIf, bne]
          cases (!link.op == .lt) && !type.isBoolean <;> rfl

/-! ## Recursion on the left operand -/

namespace Analyzer

variable (a : Analyzer)

/-- Checks an expression as an operand and answers its type.  An operator has its left operand
checked by recursion, then its right operand, and then it is held against its rule. -/
def checkTree (pos : Position) (isOutermost : Bool) : Expr → Analyzing (Option Ty)
  | .paren _ inner => checkTree pos isOutermost inner
  | .binary tag op lhs rhs => do
      let left ← checkTree pos false lhs
      let right ← a.operandType rhs
      let type ← make (operatorRule pos isOutermost tag op left right)
      pure (some type)
  | e => a.operandType e

/-- Inside a chain, recursion checks the left operand as the pass over the links does. -/
theorem checkTree_inner (pos : Position) : ∀ e : Expr,
    a.checkTree pos false e = a.operandType e
  | .paren _ inner => by
      rw [checkTree, operandType]
      exact checkTree_inner pos inner
  | .binary tag op lhs rhs => by
      rw [checkTree, checkTree_inner pos lhs, operandType, checkChain_eq]
      simp only [operatorRule_inner, operandsRule_eq ⟨tag, op, rhs⟩,
        Scope.checkConditionLink_value, make_pure, bind_assoc, pure_bind]
  | .int .. | .bool .. | .name .. | .this _ | .not .. | .index .. | .length .. | .call ..
  | .newArray .. | .newObject .. => rfl

/-- The pass over the links of a chain is recursion on the left operands. -/
theorem checkTree_outermost (pos : Position) (tag : Tag) (op : BinaryOp) (lhs rhs : Expr) :
    a.checkTree pos true (.binary tag op lhs rhs) =
      a.checkChain tag op lhs rhs pos >>= fun type => pure (some type) := by
  rw [checkTree, checkTree_inner, checkChain_eq]
  simp only [operatorRule_outermost pos ⟨tag, op, rhs⟩, make_bind, bind_assoc]

theorem checkChain_adds (tag : Tag) (op : BinaryOp) (lhs rhs : Expr) (pos : Position)
    (f : Findings) :
    ∃ added : Findings, ((a.checkChain tag op lhs rhs pos).after f).2 = f ++ added := by
  obtain ⟨added, adds, -⟩ := a.checkExpr_reports (.binary tag op lhs rhs) pos f
  refine ⟨added, Eq.trans ?_ adds⟩
  rw [checkExpr, after_bind]
  cases ((a.checkChain tag op lhs rhs pos).after f).1 <;> rfl

end Analyzer

/-! ## The checks that look at nothing noted -/

namespace Scope

variable (s : Scope)

theorem forgetful_operandType (e : Expr) :
    s.forgetful.operandType e = make (s.operandType e) :=
  Analyzing.ext_after fun f =>
    (Analyzer.follows_operandType (s.forgetful_trusts e.occurrences) (fun _ hx => hx)
      (Analyzer.follows_checkExpr (s.forgetful_trusts e.occurrences) e .value fun _ hx => hx)
      f trivial).1

theorem forgetful_checkChain (tag : Tag) (op : BinaryOp) (lhs rhs : Expr) (pos : Position) :
    s.forgetful.checkChain tag op lhs rhs pos = make (s.checkChain tag op lhs rhs pos) := by
  rw [Analyzer.checkChain_eq, checkChain_eq]
  simp only [forgetful_operandType, operandType_eq s lhs, make_bind, make_pure, bind_assoc,
    pure_bind]

/-- For every operator, every place and whatever the analyzer has found, the pass over its chain and
recursion on its left operand add the same findings, reports and noted types alike, and give the same
answer, or none.  So do the checks that look at nothing noted. -/
theorem checkChain_recursive (tag : Tag) (op : BinaryOp) (lhs rhs : Expr) (pos : Position)
    (f : Findings) :
    (∃ outcome added,
      (s.analyzer.checkChain tag op lhs rhs pos).after f = (outcome, f ++ added) ∧
      (s.analyzer.checkTree pos true (.binary tag op lhs rhs)).after f =
        (outcome.map some, f ++ added)) ∧
    (s.forgetful.checkTree pos true (.binary tag op lhs rhs)).after f =
      ((s.checkChain tag op lhs rhs pos).outcome.map some,
        f ++ (s.checkChain tag op lhs rhs pos).found) := by
  have answered : ∀ a : Analyzer, (a.checkTree pos true (.binary tag op lhs rhs)).after f =
      (((a.checkChain tag op lhs rhs pos).after f).1.map some,
        ((a.checkChain tag op lhs rhs pos).after f).2) := by
    intro a
    rw [a.checkTree_outermost, after_bind]
    cases ((a.checkChain tag op lhs rhs pos).after f).1 <;> rfl
  constructor
  · obtain ⟨added, adds⟩ := s.analyzer.checkChain_adds tag op lhs rhs pos f
    refine ⟨((s.analyzer.checkChain tag op lhs rhs pos).after f).1, added, ?_, ?_⟩
    · exact Prod.ext rfl adds
    · rw [answered, adds]
  · rw [answered, forgetful_checkChain, after_make]

end Scope

end JavaMinus
