/-
# Arrays in accepted programs

A check refuses to index what cannot be an array: a number, a truth value, an operator or the
receiver, parentheses aside (`Expr.Indexable`).  An operator in parentheses is asked for its type by
itself first, and can show that of its right operand; that this is no array follows from the check
of the operator, which comes before.  The receiver is no index either, since no class is called
`int`.
-/
import JavaMinus.Proofs.Typing.Passing

namespace JavaMinus

namespace Source

/-- Whether the expression can be the array of an access: a number, a truth value, an operator or
the receiver, parentheses aside, cannot. -/
def Expr.isStored (e : Expr) : Bool :=
  match e.unparen with
  | .int .. | .bool .. | .this _ | .binary .. | .not .. => false
  | _ => true

mutual

/-- What is indexed in the expression can be, and no index is the receiver. -/
def Expr.Indexable : Expr → Prop
  | .int .. | .bool .. | .this _ | .name .. | .newObject .. => True
  | .binary _ _ lhs rhs => lhs.Indexable ∧ rhs.Indexable
  | .not _ operand => operand.Indexable
  | .index _ array i =>
      array.isStored = true ∧ array.Indexable ∧ i.isThis = false ∧ i.Indexable
  | .length _ array => array.Indexable
  | .call _ target _ args => target.Indexable ∧ Expr.IndexableAll args
  | .newArray _ size => size.Indexable
  | .paren _ inner => inner.Indexable

def Expr.IndexableAll : List Expr → Prop
  | [] => True
  | e :: es => e.Indexable ∧ Expr.IndexableAll es

end

mutual

def Stmt.Indexable : Stmt → Prop
  | .block _ body => Stmt.IndexableAll body
  | .ifThen _ condition thenBranch => condition.Indexable ∧ thenBranch.Indexable
  | .ifElse _ condition thenBranch elseBranch =>
      condition.Indexable ∧ thenBranch.Indexable ∧ elseBranch.Indexable
  | .while _ condition body => condition.Indexable ∧ body.Indexable
  | .expr e => e.Indexable
  | .assign _ _ value => value.Indexable
  | .assignElement _ _ index value =>
      index.isThis = false ∧ index.Indexable ∧ value.Indexable
  | .return _ none => True
  | .return _ (some value) => value.Indexable

def Stmt.IndexableAll : List Stmt → Prop
  | [] => True
  | s :: ss => s.Indexable ∧ Stmt.IndexableAll ss

end

/-- The receiver, in parentheses or not, indexes nothing. -/
theorem Expr.indexable_of_isThis : ∀ e : Expr, e.isThis → e.Indexable
  | .this _, _ => trivial
  | .paren _ inner, h => indexable_of_isThis inner h
  | .int .., h | .bool .., h | .name .., h | .binary .., h | .not .., h | .index .., h
  | .length .., h | .call .., h | .newArray .., h | .newObject .., h => nomatch h

/-- An operator shows the type of an array only if its right operand does. -/
theorem Expr.right_of_chainType {lhs : Expr} {left right : Option Ty} {t : Ty}
    (h : chainType? lhs left right = some t) (harray : t.isArray = true) : right = some t := by
  unfold chainType? at h
  split at h
  · split at h
    · cases h
      cases harray
    · split at h
      · cases h
        cases harray
      · split at h
        · exact h
        · cases h
  · split at h
    · exact h
    · cases h

end Source

open Source

namespace Scope

variable (s : Scope)

/-- The right operand of an accepted operator has the type that the operator asks for. -/
theorem right_of_checkOperator {link : Link} {left right : Option Ty}
    (h : (checkOperator link left right).Passes) {t : Ty} (ht : right = some t) :
    t = link.op.operandType := by
  simp only [checkOperator] at h
  split at h
  · exact absurd h (Checked.not_passes_fail _ _)
  · rename_i same
    subst ht
    exact Decidable.byContradiction fun other => same (.inr other)

theorem operandType_isArray (op : BinaryOp) : op.operandType.isArray = false := by
  cases op <;> rfl

theorem resultType_isArray (op : BinaryOp) : op.resultType.isArray = false := by
  cases op <;> rfl

/-- If an accepted expression shows the type of an array by itself, it is a new array. -/
theorem array_of_ownType : ∀ (e : Expr) (pos : Position), (s.checkExpr e pos).Passes →
    ∀ t, e.ownType? = some t → t.isArray = true →
      e.isStored = true ∧ s.operandType? e = some .intArray
  | .newArray .., _, _, _, _, _ => ⟨rfl, rfl⟩
  | .paren _ inner, pos, h, t, ht, harray => by
      rw [checkExpr_paren] at h
      exact array_of_ownType inner pos h t ht harray
  | .binary _ op lhs rhs, pos, h, t, ht, harray => by
      rw [checkExpr_binary] at h
      simp only [Checked.passes_seq_iff] at h
      obtain ⟨-, hrhs, -, hop⟩ := h
      obtain ⟨type, passes, -⟩ := Checked.passes_bind_iff.1 hop
      -- The type of the right operand is not asked for unless it is the one that is shown.
      have right : rhs.ownType? ≠ some t := by
        intro hr
        have there := (array_of_ownType rhs .value hrhs t hr harray).2
        have asked := right_of_checkOperator (Option.isSome_iff_exists.2 ⟨type, passes⟩) there
        have plain := operandType_isArray op
        rw [← asked] at plain
        cases plain
      exact absurd (Expr.right_of_chainType ht harray) right
  | .index _ array _, _, _, t, ht, harray => by
      obtain ⟨type, -, rfl⟩ := Option.map_eq_some_iff.1 ht
      cases harray
  | .bool .., _, _, _, ht, harray | .int .., _, _, _, ht, harray | .not .., _, _, _, ht, harray
  | .length .., _, _, _, ht, harray | .newObject .., _, _, _, ht, harray => by
      cases ht
      cases harray
  | .name .., _, _, _, ht, _ | .this .., _, _, _, ht, _ | .call .., _, _, _, ht, _ => nomatch ht

theorem typeOf_of_unstored : ∀ (e : Expr) (pos : Position), (s.checkExpr e pos).Passes →
    e.isStored = false → ∃ t, s.typeOf? e = some t ∧ t.isArray = false
  | .int .., _, _, _ => ⟨.int, rfl, rfl⟩
  | .bool .., _, _, _ | .not .., _, _, _ => ⟨.boolean, rfl, rfl⟩
  | .this .., _, _, _ => ⟨.ofClass s.table.className, rfl, rfl⟩
  | .binary _ op _ _, _, _, _ => ⟨op.resultType, rfl, resultType_isArray op⟩
  | .paren _ inner, pos, h, hu => by
      rw [checkExpr_paren] at h
      rw [typeOf?]
      cases ho : inner.ownType? with
      | none => exact typeOf_of_unstored inner pos h hu
      | some t =>
          refine ⟨t, rfl, Bool.eq_false_iff.2 fun harray => ?_⟩
          have stored := (s.array_of_ownType inner pos h t ho harray).1
          rw [show inner.isStored = false from hu] at stored
          cases stored
  | .name .., _, _, hu | .index .., _, _, hu | .length .., _, _, hu | .call .., _, _, hu
  | .newArray .., _, _, hu | .newObject .., _, _, hu => nomatch hu

theorem stored_of_checkArray {array : Expr} {pos : Position} {loc : Location}
    (he : (s.checkExpr array pos).Passes) (h : (s.checkArray array loc).Passes) :
    array.isStored = true := by
  cases hs : array.isStored with
  | true => rfl
  | false =>
      obtain ⟨t, ht, plain⟩ := s.typeOf_of_unstored array pos he hs
      unfold checkArray at h
      rw [ht, Checked.passes_failIf_iff, plain] at h
      cases h

theorem typeOf_of_isThis : ∀ e : Expr, e.isThis →
    e.ownType? = none ∧ s.typeOf? e = some (.ofClass s.table.className)
  | .this _, _ => ⟨rfl, rfl⟩
  | .paren _ inner, h => by
      obtain ⟨own, type⟩ := typeOf_of_isThis inner h
      rw [typeOf?, own]
      exact ⟨own, type⟩
  | .int .., h | .bool .., h | .name .., h | .binary .., h | .not .., h | .index .., h
  | .length .., h | .call .., h | .newArray .., h | .newObject .., h => nomatch h

theorem not_isThis_of_checkIndexType (hc : s.table.className ≠ "int") {index : Expr}
    {loc : Location} (h : (s.checkIndexType index loc).Passes) : index.isThis = false := by
  cases hi : index.isThis with
  | false => rfl
  | true =>
      have element : isElement index = false := by
        unfold isElement
        unfold Expr.isThis at hi
        split at hi
        · rename_i hu
          rw [hu]
        · cases hi
      rw [checkIndexType, element, if_neg Bool.false_ne_true, checkType,
        (s.typeOf_of_isThis index hi).2, Checked.passes_failIf_iff, Bool.not_eq_false', Ty.isInt,
        Bool.and_eq_true, beq_iff_eq] at h
      exact absurd h.1 hc

mutual

theorem indexable_of_checkExpr (hc : s.table.className ≠ "int") : ∀ (e : Expr) (pos : Position),
    (s.checkExpr e pos).Passes → e.Indexable
  | .int .., _, _ | .bool .., _, _ | .this _, _, _ | .name .., _, _ | .newObject .., _, _ => trivial
  | .binary _ _ lhs rhs, _, h => by
      rw [checkExpr_binary, Checked.passes_seq_iff, Checked.passes_seq_iff] at h
      exact ⟨indexable_of_checkExpr hc lhs _ h.1, indexable_of_checkExpr hc rhs _ h.2.1⟩
  | .not _ operand, _, h => by
      rw [checkExpr, Checked.passes_seq_iff] at h
      exact indexable_of_checkExpr hc operand _ h.1
  | .index _ array index, _, h => by
      rw [checkExpr, Checked.passes_seq_iff, Checked.passes_seq_iff, Checked.passes_seq_iff] at h
      exact ⟨s.stored_of_checkArray h.1 h.2.1, indexable_of_checkExpr hc array _ h.1,
        s.not_isThis_of_checkIndexType hc h.2.2.2, indexable_of_checkExpr hc index _ h.2.2.1⟩
  | .length _ array, _, h => by
      rw [checkExpr, Checked.passes_seq_iff] at h
      exact indexable_of_checkExpr hc array _ h.1
  | .call _ target method args, _, h => by
      rw [checkExpr_call, checkCallee, Checked.passes_seq_iff, Checked.passes_seq_iff] at h
      refine ⟨?_, indexable_of_checkArguments hc args h.2.1⟩
      split at h
      · rename_i hthis
        exact target.indexable_of_isThis hthis
      · exact indexable_of_checkExpr hc target _ h.1
  | .newArray _ size, _, h => by
      rw [checkExpr, Checked.passes_seq_iff] at h
      exact indexable_of_checkExpr hc size _ h.1
  | .paren _ inner, pos, h => by
      rw [checkExpr] at h
      exact indexable_of_checkExpr hc inner pos h

theorem indexable_of_checkArguments (hc : s.table.className ≠ "int") : ∀ args : List Expr,
    (s.checkArguments args).Passes → Expr.IndexableAll args
  | [], _ => trivial
  | arg :: args, h => by
      rw [checkArguments, Checked.passes_both_iff] at h
      exact ⟨indexable_of_checkExpr hc arg _ h.1, indexable_of_checkArguments hc args h.2⟩

end

/-! ## Statements -/

theorem indexable_of_checkCondition (hc : s.table.className ≠ "int") {condition : Expr}
    {statement : Conditional} (h : (s.checkCondition condition statement).Passes) : condition.Indexable := by
  obtain ⟨pos, passes⟩ := s.passes_of_checkCondition h
  exact s.indexable_of_checkExpr hc condition pos passes

mutual

theorem indexable_of_accepts (hc : s.table.className ≠ "int") : ∀ stmt : Stmt, s.Accepts stmt →
    stmt.Indexable
  | .block _ body, h => indexable_of_acceptsAll hc body h
  | .ifThen _ condition thenBranch, h =>
      ⟨s.indexable_of_checkCondition hc h.1, indexable_of_accepts hc thenBranch h.2⟩
  | .ifElse _ condition thenBranch elseBranch, h =>
      ⟨s.indexable_of_checkCondition hc h.1, indexable_of_accepts hc thenBranch h.2.1,
        indexable_of_accepts hc elseBranch h.2.2⟩
  | .while _ condition body, h =>
      ⟨s.indexable_of_checkCondition hc h.1, indexable_of_accepts hc body h.2⟩
  | .expr e, h => s.indexable_of_checkExpr hc e _ h
  | .assign _ target value, h => by
      rw [Accepts, checkAssign] at h
      split at h
      · exact absurd h (Checked.not_passes_fail _ _)
      · rw [Checked.passes_seq_iff, Checked.passes_seq_iff] at h
        exact s.indexable_of_checkExpr hc value _ h.2.1
  | .assignElement _ target index value, h => by
      rw [Accepts, checkAssignElement] at h
      split at h
      · exact absurd h (Checked.not_passes_fail _ _)
      · simp only [Checked.passes_seq_iff] at h
        exact ⟨s.not_isThis_of_checkIndexType hc h.2.2.2.1,
          s.indexable_of_checkExpr hc index _ h.2.2.1,
          s.indexable_of_checkExpr hc value _ h.2.2.2.2.1⟩
  | .return _ none, _ => trivial
  | .return _ (some value), h => by
      rw [Accepts, checkReturn] at h
      split at h
      · exact absurd h (Checked.not_passes_fail _ _)
      · rw [Checked.passes_seq_iff] at h
        exact s.indexable_of_checkExpr hc value _ h.1

theorem indexable_of_acceptsAll (hc : s.table.className ≠ "int") : ∀ stmts : List Stmt,
    s.AcceptsAll stmts → Stmt.IndexableAll stmts
  | [], _ => trivial
  | stmt :: stmts, h => ⟨indexable_of_accepts hc stmt h.1, indexable_of_acceptsAll hc stmts h.2⟩

end

end Scope

end JavaMinus
