/-
# Occurrences in accepted programs

Where a statement is accepted, every expression that occurs in it has passed the checks in some
place, or is the receiver of a call, which is not checked as a value
(`Scope.checks_of_acceptsAll`).  And where the names in a statement are names, so they are in what
occurs in it.
-/
import JavaMinus.Proofs.Source.Words
import JavaMinus.Proofs.Typing.Passing
import JavaMinus.Source.Occurrence

namespace JavaMinus

open Source

namespace Source

/-! ## Names -/

mutual

theorem Expr.named_occurrences : ∀ e : Expr, e.Named → ∀ occ ∈ e.occurrences, occ.Named
  | .int .., h | .bool .., h | .name .., h | .this _, h | .newObject .., h =>
      List.forall_mem_singleton.2 h
  | .binary _ _ lhs rhs, h => List.forall_mem_cons.2 ⟨h, List.forall_mem_append.2
      ⟨named_occurrences lhs h.1, named_occurrences rhs h.2⟩⟩
  | .index _ array i, h => List.forall_mem_cons.2 ⟨h, List.forall_mem_append.2
      ⟨named_occurrences array h.1, named_occurrences i h.2⟩⟩
  | .call _ target _ args, h => List.forall_mem_cons.2 ⟨h, List.forall_mem_append.2
      ⟨named_occurrences target h.1, named_occurrencesIn args h.2.2⟩⟩
  | .not _ inner, h | .length _ inner, h | .newArray _ inner, h | .paren _ inner, h =>
      List.forall_mem_cons.2 ⟨h, named_occurrences inner h⟩

theorem Expr.named_occurrencesIn : ∀ es : List Expr, Expr.NamedAll es →
    ∀ occ ∈ Expr.occurrencesIn es, occ.Named
  | [], _ => List.forall_mem_nil _
  | e :: es, h =>
      List.forall_mem_append.2 ⟨named_occurrences e h.1, named_occurrencesIn es h.2⟩

end

mutual

theorem Stmt.named_occurrences : ∀ stmt : Stmt, stmt.Named → ∀ occ ∈ stmt.occurrences, occ.Named
  | .block _ body, h => named_occurrencesIn body h
  | .ifThen _ condition thenBranch, h => List.forall_mem_append.2
      ⟨condition.named_occurrences h.1, named_occurrences thenBranch h.2⟩
  | .ifElse _ condition thenBranch elseBranch, h => List.forall_mem_append.2
      ⟨condition.named_occurrences h.1, List.forall_mem_append.2
        ⟨named_occurrences thenBranch h.2.1, named_occurrences elseBranch h.2.2⟩⟩
  | .while _ condition body, h => List.forall_mem_append.2
      ⟨condition.named_occurrences h.1, named_occurrences body h.2⟩
  | .expr e, h => e.named_occurrences h
  | .assign _ _ value, h => value.named_occurrences h.2
  | .assignElement _ _ index value, h => List.forall_mem_append.2
      ⟨index.named_occurrences h.2.1, value.named_occurrences h.2.2⟩
  | .return _ none, _ => List.forall_mem_nil _
  | .return _ (some value), h => Expr.named_occurrencesIn [value] ⟨h, trivial⟩

theorem Stmt.named_occurrencesIn : ∀ stmts : List Stmt, Stmt.NamedAll stmts →
    ∀ occ ∈ Stmt.occurrencesIn stmts, occ.Named
  | [], _ => List.forall_mem_nil _
  | stmt :: stmts, h =>
      List.forall_mem_append.2 ⟨named_occurrences stmt h.1, named_occurrencesIn stmts h.2⟩

end

theorem Expr.isThis_occurrences : ∀ e : Expr, e.isThis → ∀ occ ∈ e.occurrences, occ.isThis
  | .this _, h => List.forall_mem_singleton.2 h
  | .paren _ inner, h => List.forall_mem_cons.2 ⟨h, isThis_occurrences inner h⟩
  | .int .., h | .bool .., h | .name .., h | .binary .., h | .not .., h | .index .., h
  | .length .., h | .call .., h | .newArray .., h | .newObject .., h => nomatch h

end Source

namespace Scope

variable (s : Scope)

/-! ## Checks -/

/-- The expression passes the checks of some place, or it is the receiver. -/
def Checks (e : Expr) : Prop := e.isThis = true ∨ ∃ pos, (s.checkExpr e pos).Passes

mutual

theorem checks_of_checkExpr : ∀ (e : Expr) (pos : Position), (s.checkExpr e pos).Passes →
    ∀ occ ∈ e.occurrences, s.Checks occ
  | .int .., pos, h | .bool .., pos, h | .name .., pos, h | .this _, pos, h
  | .newObject .., pos, h => List.forall_mem_singleton.2 (.inr ⟨pos, h⟩)
  | .binary tag op lhs rhs, pos, h => by
      refine List.forall_mem_cons.2 ⟨.inr ⟨pos, h⟩, List.forall_mem_append.2 ?_⟩
      rw [checkExpr_binary, Checked.passes_seq_iff, Checked.passes_seq_iff] at h
      exact ⟨checks_of_checkExpr lhs _ h.1, checks_of_checkExpr rhs _ h.2.1⟩
  | .not _ operand, pos, h => by
      refine List.forall_mem_cons.2 ⟨.inr ⟨pos, h⟩, ?_⟩
      rw [checkExpr, Checked.passes_seq_iff] at h
      exact checks_of_checkExpr operand _ h.1
  | .index _ array index, pos, h => by
      refine List.forall_mem_cons.2 ⟨.inr ⟨pos, h⟩, List.forall_mem_append.2 ?_⟩
      rw [checkExpr, Checked.passes_seq_iff, Checked.passes_seq_iff, Checked.passes_seq_iff] at h
      exact ⟨checks_of_checkExpr array _ h.1, checks_of_checkExpr index _ h.2.2.1⟩
  | .length _ array, pos, h => by
      refine List.forall_mem_cons.2 ⟨.inr ⟨pos, h⟩, ?_⟩
      rw [checkExpr, Checked.passes_seq_iff] at h
      exact checks_of_checkExpr array _ h.1
  | .call _ target method args, pos, h => by
      refine List.forall_mem_cons.2 ⟨.inr ⟨pos, h⟩, List.forall_mem_append.2 ?_⟩
      rw [checkExpr_call, checkCallee, Checked.passes_seq_iff, Checked.passes_seq_iff] at h
      refine ⟨?_, checks_of_checkArguments args h.2.1⟩
      split at h
      · rename_i receiver
        exact fun occ hocc => .inl (target.isThis_occurrences receiver occ hocc)
      · exact checks_of_checkExpr target _ h.1
  | .newArray _ size, pos, h => by
      refine List.forall_mem_cons.2 ⟨.inr ⟨pos, h⟩, ?_⟩
      rw [checkExpr, Checked.passes_seq_iff] at h
      exact checks_of_checkExpr size _ h.1
  | .paren _ inner, pos, h => by
      refine List.forall_mem_cons.2 ⟨.inr ⟨pos, h⟩, ?_⟩
      rw [checkExpr_paren] at h
      exact checks_of_checkExpr inner pos h

theorem checks_of_checkArguments : ∀ args : List Expr, (s.checkArguments args).Passes →
    ∀ occ ∈ Expr.occurrencesIn args, s.Checks occ
  | [], _ => List.forall_mem_nil _
  | arg :: args, h => by
      rw [checkArguments, Checked.passes_both_iff] at h
      exact List.forall_mem_append.2
        ⟨checks_of_checkExpr arg _ h.1, checks_of_checkArguments args h.2⟩

end

theorem checks_of_checkCondition {condition : Expr} {statement : Conditional}
    (h : (s.checkCondition condition statement).Passes) :
    ∀ occ ∈ condition.occurrences, s.Checks occ := by
  obtain ⟨pos, passes⟩ := s.passes_of_checkCondition h
  exact s.checks_of_checkExpr condition pos passes

mutual

theorem checks_of_accepts : ∀ stmt : Stmt, s.Accepts stmt → ∀ occ ∈ stmt.occurrences, s.Checks occ
  | .block _ body, h => checks_of_acceptsAll body h
  | .ifThen _ condition thenBranch, h => List.forall_mem_append.2
      ⟨s.checks_of_checkCondition h.1, checks_of_accepts thenBranch h.2⟩
  | .ifElse _ condition thenBranch elseBranch, h => List.forall_mem_append.2
      ⟨s.checks_of_checkCondition h.1, List.forall_mem_append.2
        ⟨checks_of_accepts thenBranch h.2.1, checks_of_accepts elseBranch h.2.2⟩⟩
  | .while _ condition body, h => List.forall_mem_append.2
      ⟨s.checks_of_checkCondition h.1, checks_of_accepts body h.2⟩
  | .expr e, h => s.checks_of_checkExpr e _ h
  | .assign _ target value, h => by
      rw [Accepts, checkAssign] at h
      split at h
      · exact absurd h (Checked.not_passes_fail _ _)
      · rw [Checked.passes_seq_iff, Checked.passes_seq_iff] at h
        exact s.checks_of_checkExpr value _ h.2.1
  | .assignElement _ target index value, h => by
      rw [Accepts, checkAssignElement] at h
      split at h
      · exact absurd h (Checked.not_passes_fail _ _)
      · simp only [Checked.passes_seq_iff] at h
        exact List.forall_mem_append.2 ⟨s.checks_of_checkExpr index _ h.2.2.1,
          s.checks_of_checkExpr value _ h.2.2.2.2.1⟩
  | .return _ none, _ => List.forall_mem_nil _
  | .return _ (some value), h => by
      rw [Accepts, checkReturn] at h
      split at h
      · exact absurd h (Checked.not_passes_fail _ _)
      · rw [Checked.passes_seq_iff] at h
        exact List.forall_mem_append.2
          ⟨s.checks_of_checkExpr value _ h.1, List.forall_mem_nil _⟩

/-- What occurs in accepted statements passes the checks, or is the receiver. -/
theorem checks_of_acceptsAll : ∀ stmts : List Stmt, s.AcceptsAll stmts →
    ∀ occ ∈ Stmt.occurrencesIn stmts, s.Checks occ
  | [], _ => List.forall_mem_nil _
  | stmt :: stmts, h => List.forall_mem_append.2
      ⟨checks_of_accepts stmt h.1, checks_of_acceptsAll stmts h.2⟩

end

end Scope

end JavaMinus
