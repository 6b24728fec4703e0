/-
# The receiver in accepted methods

A check refuses fields in static methods, so that what a static method uses of the receiver is what
the word `this` in its body stands for (`receiver_mem_stmts_uses_iff`).  The entry method may not say
it at all (`anyUsesThis_of_acceptsAll`).
-/
import JavaMinus.Proofs.Lowering.Uses
import JavaMinus.Proofs.Typing.Arrays

namespace JavaMinus

open Source Ir

namespace Source

mutual

/-- Whether the receiver occurs in the expression. -/
def Expr.usesThis : Expr → Bool
  | .this _ => true
  | .int .. | .bool .. | .name .. | .newObject .. => false
  | .binary _ _ lhs rhs => lhs.usesThis || rhs.usesThis
  | .not _ operand => operand.usesThis
  | .index _ array i => array.usesThis || i.usesThis
  | .length _ array => array.usesThis
  | .call _ target _ args => target.usesThis || Expr.anyUsesThis args
  | .newArray _ size => size.usesThis
  | .paren _ inner => inner.usesThis

def Expr.anyUsesThis : List Expr → Bool
  | [] => false
  | e :: es => e.usesThis || Expr.anyUsesThis es

end

mutual

/-- Whether the receiver occurs in the statement, other than as the whole of it. -/
def Stmt.usesThis : Stmt → Bool
  | .block _ body => Stmt.anyUsesThis body
  | .ifThen _ condition thenBranch => condition.usesThis || thenBranch.usesThis
  | .ifElse _ condition thenBranch elseBranch =>
      condition.usesThis || (thenBranch.usesThis || elseBranch.usesThis)
  | .while _ condition body => condition.usesThis || body.usesThis
  | .expr e => !e.isThis && e.usesThis
  | .assign _ _ value => value.usesThis
  | .assignElement _ _ index value => index.usesThis || value.usesThis
  | .return _ none => false
  | .return _ (some value) => value.usesThis

def Stmt.anyUsesThis : List Stmt → Bool
  | [] => false
  | s :: ss => s.usesThis || Stmt.anyUsesThis ss

end

theorem Expr.usesThis_of_isThis : ∀ e : Expr, e.isThis → e.usesThis
  | .this _, _ => rfl
  | .paren _ inner, h => usesThis_of_isThis inner h
  | .int .., h | .bool .., h | .name .., h | .binary .., h | .not .., h | .index .., h
  | .length .., h | .call .., h | .newArray .., h | .newObject .., h => nomatch h

theorem Expr.mem_held {e : Expr} : .receiver ∈ e.held ↔ e.isThis = true :=
  mem_receiverUse

end Source

namespace Scope

variable (s : Scope)

theorem not_isField_of_checkName (hs : s.isStatic = true) {name : String} {loc : Location}
    {asArray : Bool} (h : (s.checkName name loc asArray).Passes) : s.isField name = false := by
  unfold checkName at h
  unfold isField
  split at h
  · rename_i hl
    rw [hl]
    rfl
  · rename_i found hl
    split at h
    · exact absurd h (Checked.not_passes_fail _ _)
    · rename_i allowed
      rw [hl]
      exact decide_eq_false fun field => allowed ⟨field, hs⟩

theorem uses_of_isThis : ∀ (e : Expr) (wanted : Bool) (expected : Option Ty), e.isThis →
    e.uses s wanted expected = []
  | .this _, _, _, _ => rfl
  | .paren _ inner, wanted, expected, h => uses_of_isThis inner wanted expected h
  | .int .., _, _, h | .bool .., _, _, h | .name .., _, _, h | .binary .., _, _, h | .not .., _, _, h
  | .index .., _, _, h | .length .., _, _, h | .call .., _, _, h | .newArray .., _, _, h
  | .newObject .., _, _, h => nomatch h

theorem usesThis_of_namesClass : ∀ e : Expr, e.namesClass s = true → e.usesThis = false
  | .name .., _ => rfl
  | .paren _ inner, h => usesThis_of_namesClass inner h
  | .int .., h | .bool .., h | .this _, h | .binary .., h | .not .., h | .index .., h
  | .length .., h | .call .., h | .newArray .., h | .newObject .., h => nomatch h

theorem isThis_eq_false_of_isStored {e : Expr} (h : e.isStored = true) : e.isThis = false := by
  unfold Expr.isStored at h
  unfold Expr.isThis
  split
  · rename_i hu
    rw [hu] at h
    cases h
  · rfl

mutual

/-- In a static method an accepted expression uses the receiver, or is it, exactly if the receiver
occurs in it. -/
theorem receiver_mem_uses_iff (hs : s.isStatic = true) : ∀ (e : Expr) (pos : Position)
    (wanted : Bool) (expected : Option Ty), (s.checkExpr e pos).Passes → e.Indexable →
      (.receiver ∈ e.uses s wanted expected ∨ e.isThis = true ↔ e.usesThis = true)
  | .int .., _, _, _, _, _ | .bool .., _, _, _, _, _ => by
      simp [Expr.uses, Expr.isThis, Expr.unparen, Expr.usesThis]
  | .newObject .., _, _, _, _, _ => by
      simp [Expr.uses, Expr.isThis, Expr.unparen, Expr.usesThis, Expr.created, Expr.constructed]
  | .this _, _, _, _, _, _ => ⟨fun _ => rfl, fun _ => .inr rfl⟩
  | .name _ text, _, _, _, h, _ => by
      rw [checkExpr] at h
      rw [Expr.uses, s.not_isField_of_checkName hs h]
      simp [Expr.isThis, Expr.unparen, Expr.usesThis, receiverUse]
  | .binary _ op lhs rhs, _, _, _, h, hi => by
      rw [checkExpr_binary, Checked.passes_seq_iff, Checked.passes_seq_iff] at h
      have left := receiver_mem_uses_iff hs lhs _ true (some op.operandType) h.1 hi.1
      have right := receiver_mem_uses_iff hs rhs _ true (some op.operandType) h.2.1 hi.2
      refine (or_iff_left Bool.false_ne_true).trans ?_
      simp only [Expr.uses, List.mem_append, Expr.mem_held, Expr.usesThis, Bool.or_eq_true,
        ← left, ← right]
      rw [← or_assoc, or_or_or_comm]
  | .not _ operand, _, _, _, h, hi => by
      rw [checkExpr, Checked.passes_seq_iff] at h
      have inner := receiver_mem_uses_iff hs operand _ true (some .boolean) h.1 hi
      refine (or_iff_left Bool.false_ne_true).trans ?_
      simp only [Expr.uses, List.mem_append, Expr.mem_held, Expr.usesThis, inner]
  | .index _ array index, _, _, _, h, hi => by
      rw [checkExpr, Checked.passes_seq_iff, Checked.passes_seq_iff, Checked.passes_seq_iff] at h
      obtain ⟨stored, indexable, other, indexable'⟩ := hi
      have base := receiver_mem_uses_iff hs array _ true (some .intArray) h.1 indexable
      have at_ := receiver_mem_uses_iff hs index _ true (some .int) h.2.2.1 indexable'
      rw [isThis_eq_false_of_isStored stored] at base
      rw [other] at at_
      rw [or_iff_left Bool.false_ne_true] at base at_
      refine (or_iff_left Bool.false_ne_true).trans ?_
      simp only [Expr.uses, List.mem_append, Expr.usesThis, Bool.or_eq_true, base, at_]
  | .length _ array, _, _, _, h, hi => by
      rw [checkExpr, Checked.passes_seq_iff] at h
      have inner := receiver_mem_uses_iff hs array _ true (some .intArray) h.1 hi
      refine (or_iff_left Bool.false_ne_true).trans ?_
      simp only [Expr.uses, List.mem_append, Expr.mem_held, Expr.usesThis, List.mem_singleton,
        reduceCtorEq, or_false, inner]
  | .newArray _ size, _, _, _, h, hi => by
      rw [checkExpr, Checked.passes_seq_iff] at h
      have inner := receiver_mem_uses_iff hs size _ true (some .int) h.1 hi
      refine (or_iff_left Bool.false_ne_true).trans ?_
      simp only [Expr.uses, List.mem_append, Expr.mem_held, Expr.usesThis, List.mem_singleton,
        reduceCtorEq, or_false, inner]
  | .paren _ inner, pos, wanted, expected, h, hi => by
      rw [checkExpr_paren] at h
      exact receiver_mem_uses_iff hs inner pos wanted expected h hi
  | .call _ target method args, _, _, _, h, hi => by
      rw [checkExpr_call, checkCallee, Checked.passes_seq_iff, Checked.passes_seq_iff] at h
      have passed :=
        receiver_mem_usesIn_iff hs args (Expr.expectedParams s target method) h.2.1 hi.2
      have called : .receiver ∈ (if target.namesClass s then [] else target.uses s true none) ∨
          target.isThis = true ↔ target.usesThis = true := by
        split
        · rename_i named
          rw [s.usesThis_of_namesClass target named]
          refine ⟨?_, fun h => (nomatch h)⟩
          rintro (h | h)
          · cases h
          · rw [← s.usesThis_of_namesClass target named, target.usesThis_of_isThis h]
        · split at h
          · rename_i receiver
            exact ⟨fun _ => target.usesThis_of_isThis receiver, fun _ => .inr receiver⟩
          · exact receiver_mem_uses_iff hs target _ true none h.1 hi.1
      refine (or_iff_left Bool.false_ne_true).trans ?_
      simp only [Expr.uses, List.mem_append, Expr.mem_held, Expr.usesThis, Bool.or_eq_true,
        List.mem_singleton, reduceCtorEq, or_false, ← called, ← passed]
      rw [← or_assoc, or_or_or_comm]

theorem receiver_mem_usesIn_iff (hs : s.isStatic = true) : ∀ (args : List Expr)
    (params : List Symbol), (s.checkArguments args).Passes → Expr.IndexableAll args →
      (.receiver ∈ Expr.usesIn s args params ∨ .receiver ∈ args.flatMap Expr.held ↔
        Expr.anyUsesThis args = true)
  | [], _, _, _ => by simp [Expr.usesIn, Expr.anyUsesThis]
  | arg :: args, params, h, hi => by
      rw [checkArguments, Checked.passes_both_iff] at h
      have first := receiver_mem_uses_iff hs arg _ true (params.head?.map (·.type)) h.1 hi.1
      have others := receiver_mem_usesIn_iff hs args params.tail h.2 hi.2
      simp only [Expr.usesIn, List.flatMap_cons, List.mem_append, Expr.mem_held, Expr.anyUsesThis,
        Bool.or_eq_true, ← first, ← others]
      exact or_or_or_comm

end

/-! ## Statements -/

theorem receiver_mem_placedUses_iff (hs : s.isStatic = true) {e : Expr} {pos : Position}
    {expected : Option Ty} (h : (s.checkExpr e pos).Passes) (hi : e.Indexable) :
    .receiver ∈ e.placedUses s expected ↔ e.usesThis = true := by
  rw [Expr.placedUses, List.mem_append, Expr.mem_held]
  exact s.receiver_mem_uses_iff hs e pos true expected h hi

theorem receiver_mem_condition_iff (hs : s.isStatic = true) {condition : Expr}
    {statement : Conditional} {expected : Option Ty}
    (h : (s.checkCondition condition statement).Passes) (hi : condition.Indexable) :
    .receiver ∈ condition.placedUses s expected ↔ condition.usesThis = true := by
  obtain ⟨pos, passes⟩ := s.passes_of_checkCondition h
  exact s.receiver_mem_placedUses_iff hs passes hi

theorem not_isField_of_checkTarget (hs : s.isStatic = true) {name : String} {loc : Location}
    {found : Lookup} (hl : s.lookup name = some found) (h : (s.checkTarget found name loc).Passes) :
    s.isField name = false := by
  rw [checkTarget, Checked.passes_failIf_iff, hs, Bool.and_true] at h
  rw [isField, hl]
  exact decide_eq_false fun field => Bool.false_ne_true (h.symm.trans (beq_iff_eq.2 field))

mutual

/-- In a static method the lines of an accepted statement use the receiver exactly if the receiver
occurs in the statement, other than as the whole of it. -/
theorem receiver_mem_stmt_uses_iff (hs : s.isStatic = true) : ∀ stmt : Stmt, s.Accepts stmt →
    stmt.Indexable → (.receiver ∈ stmt.uses s ↔ stmt.usesThis = true)
  | .block _ body, h, hi => receiver_mem_stmts_uses_iff hs body h hi
  | .ifThen _ condition thenBranch, h, hi => by
      rw [Stmt.uses, List.mem_append, Stmt.usesThis, Bool.or_eq_true]
      exact or_congr (s.receiver_mem_condition_iff hs h.1 hi.1)
        (receiver_mem_stmt_uses_iff hs thenBranch h.2 hi.2)
  | .ifElse _ condition thenBranch elseBranch, h, hi => by
      rw [Stmt.uses, List.mem_append, List.mem_append, Stmt.usesThis, Bool.or_eq_true,
        Bool.or_eq_true]
      exact or_congr (s.receiver_mem_condition_iff hs h.1 hi.1)
        (or_congr (receiver_mem_stmt_uses_iff hs thenBranch h.2.1 hi.2.1)
          (receiver_mem_stmt_uses_iff hs elseBranch h.2.2 hi.2.2))
  | .while _ condition body, h, hi => by
      rw [Stmt.uses, List.mem_append, Stmt.usesThis, Bool.or_eq_true]
      exact or_congr (s.receiver_mem_condition_iff hs h.1 hi.1)
        (receiver_mem_stmt_uses_iff hs body h.2 hi.2)
  | .expr e, h, hi => by
      have whole := s.receiver_mem_uses_iff hs e .value false none h hi
      rw [Stmt.uses, Stmt.usesThis]
      cases ht : e.isThis with
      | true =>
          rw [s.uses_of_isThis e false none ht]
          exact ⟨fun h => (nomatch h), fun h => (nomatch h)⟩
      | false => rwa [ht, or_iff_left Bool.false_ne_true] at whole
  | .assign loc target value, h, hi => by
      rw [Accepts, checkAssign] at h
      split at h
      · exact absurd h (Checked.not_passes_fail _ _)
      · rename_i found hl
        rw [Checked.passes_seq_iff, Checked.passes_seq_iff] at h
        rw [Stmt.uses, s.not_isField_of_checkTarget hs hl h.1]
        exact s.receiver_mem_placedUses_iff hs h.2.1 hi
  | .assignElement loc target index value, h, hi => by
      obtain ⟨other, index_indexable, value_indexable⟩ := hi
      rw [Accepts, checkAssignElement] at h
      split at h
      · exact absurd h (Checked.not_passes_fail _ _)
      · rename_i found hl
        simp only [Checked.passes_seq_iff] at h
        have position := s.receiver_mem_uses_iff hs index _ true (some .int) h.2.2.1 index_indexable
        rw [other, or_iff_left Bool.false_ne_true] at position
        rw [Stmt.uses, s.not_isField_of_checkTarget hs hl h.1, Stmt.usesThis, Bool.or_eq_true]
        show .receiver ∈ index.uses s true (some .int) ++ value.placedUses s _ ↔ _
        rw [List.mem_append]
        refine or_congr position ?_
        exact s.receiver_mem_placedUses_iff hs h.2.2.2.2.1 value_indexable
  | .return _ none, _, _ => ⟨fun h => (nomatch h), fun h => (nomatch h)⟩
  | .return _ (some value), h, hi => by
      rw [Accepts, checkReturn] at h
      split at h
      · exact absurd h (Checked.not_passes_fail _ _)
      · rw [Checked.passes_seq_iff] at h
        exact s.receiver_mem_placedUses_iff hs h.1 hi

theorem receiver_mem_stmts_uses_iff (hs : s.isStatic = true) : ∀ stmts : List Stmt,
    s.AcceptsAll stmts → Stmt.IndexableAll stmts →
      (.receiver ∈ Stmt.usesIn s stmts ↔ Stmt.anyUsesThis stmts = true)
  | [], _, _ => ⟨fun h => (nomatch h), fun h => (nomatch h)⟩
  | stmt :: stmts, h, hi => by
      rw [Stmt.usesIn, List.mem_append, Stmt.anyUsesThis, Bool.or_eq_true]
      exact or_congr (receiver_mem_stmt_uses_iff hs stmt h.1 hi.1)
        (receiver_mem_stmts_uses_iff hs stmts h.2 hi.2)

end

/-! ## The entry method -/

mutual

/-- The entry method does not say what the receiver is. -/
theorem usesThis_of_checkExpr (hm : s.isMain = true) : ∀ (e : Expr) (pos : Position),
    (s.checkExpr e pos).Passes → e.usesThis = false
  | .int .., _, _ | .bool .., _, _ | .name .., _, _ | .newObject .., _, _ => rfl
  | .this _, _, h => by
      rw [checkExpr, Checked.passes_failIf_iff, hm] at h
      cases h
  | .binary _ _ lhs rhs, _, h => by
      rw [checkExpr_binary, Checked.passes_seq_iff, Checked.passes_seq_iff] at h
      rw [Expr.usesThis, usesThis_of_checkExpr hm lhs _ h.1, usesThis_of_checkExpr hm rhs _ h.2.1]
      rfl
  | .not _ operand, _, h => by
      rw [checkExpr, Checked.passes_seq_iff] at h
      exact usesThis_of_checkExpr hm operand _ h.1
  | .index _ array index, _, h => by
      rw [checkExpr, Checked.passes_seq_iff, Checked.passes_seq_iff, Checked.passes_seq_iff] at h
      rw [Expr.usesThis, usesThis_of_checkExpr hm array _ h.1,
        usesThis_of_checkExpr hm index _ h.2.2.1]
      rfl
  | .length _ array, _, h => by
      rw [checkExpr, Checked.passes_seq_iff] at h
      exact usesThis_of_checkExpr hm array _ h.1
  | .newArray _ size, _, h => by
      rw [checkExpr, Checked.passes_seq_iff] at h
      exact usesThis_of_checkExpr hm size _ h.1
  | .paren _ inner, pos, h => by
      rw [checkExpr_paren] at h
      exact usesThis_of_checkExpr hm inner pos h
  | .call _ target method args, _, h => by
      rw [checkExpr_call, checkCallee, Checked.passes_seq_iff, Checked.passes_seq_iff] at h
      rw [Expr.usesThis, usesThis_of_checkArguments hm args h.2.1, Bool.or_false]
      split at h
      · rw [checkReceiver, if_pos hm] at h
        exact absurd h.1 (Checked.not_passes_fail _ _)
      · exact usesThis_of_checkExpr hm target _ h.1

theorem usesThis_of_checkArguments (hm : s.isMain = true) : ∀ args : List Expr,
    (s.checkArguments args).Passes → Expr.anyUsesThis args = false
  | [], _ => rfl
  | arg :: args, h => by
      rw [checkArguments, Checked.passes_both_iff] at h
      rw [Expr.anyUsesThis, usesThis_of_checkExpr hm arg _ h.1,
        usesThis_of_checkArguments hm args h.2]
      rfl

end

theorem usesThis_of_checkCondition (hm : s.isMain = true) {condition : Expr}
    {statement : Conditional} (h : (s.checkCondition condition statement).Passes) :
    condition.usesThis = false := by
  obtain ⟨pos, passes⟩ := s.passes_of_checkCondition h
  exact s.usesThis_of_checkExpr hm condition pos passes

mutual

theorem usesThis_of_accepts (hm : s.isMain = true) : ∀ stmt : Stmt, s.Accepts stmt →
    stmt.usesThis = false
  | .block _ body, h => anyUsesThis_of_acceptsAll hm body h
  | .ifThen _ condition thenBranch, h => by
      rw [Stmt.usesThis, s.usesThis_of_checkCondition hm h.1,
        usesThis_of_accepts hm thenBranch h.2]
      rfl
  | .ifElse _ condition thenBranch elseBranch, h => by
      rw [Stmt.usesThis, s.usesThis_of_checkCondition hm h.1,
        usesThis_of_accepts hm thenBranch h.2.1, usesThis_of_accepts hm elseBranch h.2.2]
      rfl
  | .while _ condition body, h => by
      rw [Stmt.usesThis, s.usesThis_of_checkCondition hm h.1, usesThis_of_accepts hm body h.2]
      rfl
  | .expr e, h => by
      rw [Stmt.usesThis, s.usesThis_of_checkExpr hm e _ h, Bool.and_false]
  | .assign loc target value, h => by
      rw [Accepts, checkAssign] at h
      split at h
      · exact absurd h (Checked.not_passes_fail _ _)
      · rw [Checked.passes_seq_iff, Checked.passes_seq_iff] at h
        exact s.usesThis_of_checkExpr hm value _ h.2.1
  | .assignElement loc target index value, h => by
      rw [Accepts, checkAssignElement] at h
      split at h
      · exact absurd h (Checked.not_passes_fail _ _)
      · simp only [Checked.passes_seq_iff] at h
        rw [Stmt.usesThis, s.usesThis_of_checkExpr hm index _ h.2.2.1,
          s.usesThis_of_checkExpr hm value _ h.2.2.2.2.1]
        rfl
  | .return _ none, _ => rfl
  | .return _ (some value), h => by
      rw [Accepts, checkReturn, if_pos hm] at h
      exact absurd h (Checked.not_passes_fail _ _)

/-- The body of an entry method that is accepted does not say what the receiver is. -/
theorem anyUsesThis_of_acceptsAll (hm : s.isMain = true) : ∀ stmts : List Stmt,
    s.AcceptsAll stmts → Stmt.anyUsesThis stmts = false
  | [], _ => rfl
  | stmt :: stmts, h => by
      rw [Stmt.anyUsesThis, usesThis_of_accepts hm stmt h.1, anyUsesThis_of_acceptsAll hm stmts h.2]
      rfl

end

end Scope

end JavaMinus
