/-
# Checks that pass

A check passes if it answers.  One that does not pass has reported an error (`Checked.Shows`), so in
a program without errors every check has passed; `Scope.Accepts` says that of a statement and the
statements in it, and `Analysis.accepts_of_no_errors` of the bodies of a program.
-/
import JavaMinus.Proofs.Typing.Recursion

namespace JavaMinus

open Source

namespace Source.BinaryOp

theorem operandType_cases (op : BinaryOp) : op.operandType = .int ∨ op.operandType = .boolean := by
  cases op <;> decide

theorem resultType_cases (op : BinaryOp) : op.resultType = .int ∨ op.resultType = .boolean := by
  cases op <;> decide

end Source.BinaryOp

namespace Checked

variable {α β : Type}

/-- The check answers. -/
def Passes (m : Checked α) : Prop := m.outcome.isSome

/-- A halt shows in the reports. -/
def Shows (m : Checked α) : Prop := m.outcome = none → m.found.reports.any (·.isError)

theorem passes_pure (a : α) : (pure a : Checked α).Passes := rfl

theorem not_passes_fail (loc : Location) (finding : Finding) :
    ¬ (fail loc finding : Checked α).Passes := by
  simp [Passes, fail, halt]

theorem passes_failIf_iff {broken : Bool} {loc : Location} {finding : Finding} :
    (failIf broken loc finding).Passes ↔ broken = false := by
  cases broken with
  | false => simp [failIf, passes_pure]
  | true => simp [failIf, not_passes_fail]

theorem passes_haltOn_iff {reports : List Report} : (haltOn reports).Passes ↔ reports = [] := by
  cases reports with
  | nil => simp [haltOn, passes_pure]
  | cons r rs => simp [haltOn, halt, Passes]

theorem passes_bind_iff {m : Checked α} {f : α → Checked β} :
    (m >>= f).Passes ↔ ∃ a, m.outcome = some a ∧ (f a).Passes := by
  simp only [Passes, outcome_bind]
  cases m.outcome <;> simp

/-- For a check that only passes or halts, the answer carries nothing. -/
theorem passes_seq_iff {m : Checked Unit} {n : Checked β} :
    (m >>= fun _ => n).Passes ↔ m.Passes ∧ n.Passes := by
  rw [passes_bind_iff, exists_and_right, ← Option.isSome_iff_exists, ← Passes]

theorem passes_both_iff {m n : Checked Unit} : (both m n).Passes ↔ m.Passes ∧ n.Passes := by
  simp only [Passes, both]
  cases m.outcome <;> simp

/-! ## Every halt shows -/

theorem Shows.pure (a : α) : (pure a : Checked α).Shows := fun h => nomatch h

theorem Shows.fail (loc : Location) (finding : Finding) : (fail loc finding : Checked α).Shows :=
  fun _ => rfl

theorem Shows.failIf (broken : Bool) (loc : Location) (finding : Finding) :
    (failIf broken loc finding).Shows := by
  cases broken with
  | false => exact Shows.pure ()
  | true => exact Shows.fail loc finding

theorem Shows.note (id : Nat) (type : Ty) : (note id type).Shows := fun h => nomatch h

theorem Shows.haltOn {reports : List Report} (h : ∀ r ∈ reports, r.isError) :
    (haltOn reports).Shows := by
  cases reports with
  | nil => exact Shows.pure ()
  | cons r rs =>
      intro _
      simp [Checked.haltOn, halt, h r List.mem_cons_self]

theorem Shows.bind {m : Checked α} {f : α → Checked β} (hm : m.Shows) (hf : ∀ a, (f a).Shows) :
    (m >>= f).Shows := by
  intro h
  cases ho : m.outcome with
  | none => rw [bind_of_halted ho]; exact hm ho
  | some a =>
      rw [outcome_bind, ho] at h
      rw [bind_of_outcome ho, Findings.reports_append, List.any_append, hf a h, Bool.or_true]

theorem Shows.both {m n : Checked Unit} (hm : m.Shows) (hn : n.Shows) : (both m n).Shows := by
  intro h
  simp only [Checked.both, Findings.reports_append, List.any_append, Bool.or_eq_true] at h ⊢
  cases ho : m.outcome with
  | none => exact Or.inl (hm ho)
  | some a => exact Or.inr (hn (by simpa [ho] using h))

theorem Shows.passes {m : Checked α} (hm : m.Shows)
    (h : m.found.reports.any (·.isError) = false) : m.Passes := by
  cases ho : m.outcome with
  | none => rw [hm ho] at h; exact absurd h (by decide)
  | some a => simp [Passes, ho]

end Checked

namespace Scope

variable (s : Scope)

theorem checkName_shows (name : String) (loc : Location) (asArray : Bool) :
    (s.checkName name loc asArray).Shows := by
  unfold checkName
  split
  · split
    · exact .pure ()
    · exact .fail _ _
  · split
    · exact .fail _ _
    · split
      · exact .fail _ _
      · exact .pure ()

theorem checkType_shows (e : Expr) (rule : Ty → Bool) (loc : Location) (finding : Ty → Finding) :
    (s.checkType e rule loc finding).Shows := by
  unfold checkType
  split
  · exact .failIf _ _ _
  · exact .pure ()

theorem checkArray_shows (array : Expr) (loc : Location) : (s.checkArray array loc).Shows := by
  unfold checkArray
  split
  · split
    · exact .fail _ _
    · exact .pure ()
  · exact .failIf _ _ _

theorem checkIndexType_shows (index : Expr) (loc : Location) :
    (s.checkIndexType index loc).Shows := by
  unfold checkIndexType
  split
  · exact .pure ()
  · exact s.checkType_shows _ _ _ _

theorem checkReceiver_shows (loc : Location) (method : String) :
    (s.checkReceiver loc method).Shows := by
  unfold checkReceiver
  split
  · exact .fail _ _
  · split
    · exact .fail _ _
    · exact .pure ()

theorem argumentMismatches_isError (method : String) (index : Nat) (args : List Expr)
    (params : List Symbol) : ∀ r ∈ s.argumentMismatches method index args params, r.isError := by
  fun_induction argumentMismatches s method index args params with
  | case1 _ _ _ _ _ _ _ ih => exact ih
  | case2 _ _ _ _ _ _ _ _ ih => exact ih
  | case3 _ _ _ _ _ _ _ _ ih => exact ih
  | case4 _ _ _ _ _ _ _ _ _ _ ih =>
      intro r hr
      rcases List.mem_cons.1 hr with rfl | hr
      · rfl
      · exact ih r hr
  | case5 => simp

theorem checkSignature_shows (loc : Location) (target : Expr) (method : String)
    (args : List Expr) : (s.checkSignature loc target method args).Shows := by
  unfold checkSignature
  split
  · split
    · split
      · exact .fail _ _
      · exact .haltOn (s.argumentMismatches_isError _ _ _ _)
    · exact .pure ()
  · exact .failIf _ _ _

theorem checkConditionLink_shows (pos : Position) (isOutermost : Bool) (link : Link)
    (left : Option Ty) : (checkConditionLink pos isOutermost link left).Shows := by
  unfold checkConditionLink
  split
  · exact .failIf _ _ _
  · exact .pure ()

theorem checkOperator_shows (link : Link) (left right : Option Ty) :
    (checkOperator link left right).Shows := by
  simp only [checkOperator]
  split
  · exact .fail _ _
  · exact .bind (.note _ _) fun _ => .pure _

mutual

theorem checkExpr_shows : ∀ (e : Expr) (pos : Position), (s.checkExpr e pos).Shows
  | .int .., _ | .bool .., _ | .newObject .., _ => by
      rw [checkExpr]
      exact .pure ()
  | .name .., _ => by
      rw [checkExpr]
      exact s.checkName_shows _ _ _
  | .this _, _ => by
      rw [checkExpr]
      exact .failIf _ _ _
  | .binary _ _ lhs rhs, pos => by
      rw [checkExpr_binary]
      exact .bind (checkExpr_shows lhs _) fun _ => .bind (checkExpr_shows rhs _) fun _ =>
        .bind (checkConditionLink_shows _ _ _ _) fun _ =>
          .bind (checkOperator_shows _ _ _) fun _ => .pure ()
  | .not _ operand, _ => by
      rw [checkExpr]
      exact .bind (checkExpr_shows operand _) fun _ => s.checkType_shows _ _ _ _
  | .index _ array index, _ => by
      rw [checkExpr]
      exact .bind (checkExpr_shows array _) fun _ => .bind (s.checkArray_shows _ _) fun _ =>
        .bind (checkExpr_shows index _) fun _ => s.checkIndexType_shows _ _
  | .length _ array, _ => by
      rw [checkExpr]
      exact .bind (checkExpr_shows array _) fun _ => s.checkType_shows _ _ _ _
  | .call _ target method args, _ => by
      rw [checkExpr_call, checkCallee]
      refine .bind ?_ fun _ => .bind (checkArguments_shows args) fun _ =>
        s.checkSignature_shows _ _ _ _
      split
      · exact s.checkReceiver_shows _ _
      · exact checkExpr_shows target _
  | .newArray _ size, _ => by
      rw [checkExpr]
      exact .bind (checkExpr_shows size _) fun _ => s.checkType_shows _ _ _ _
  | .paren _ inner, pos => by
      rw [checkExpr]
      exact checkExpr_shows inner pos

theorem checkArguments_shows : ∀ args : List Expr, (s.checkArguments args).Shows
  | [] => by
      rw [checkArguments]
      exact .pure ()
  | arg :: args => by
      rw [checkArguments]
      exact .both (checkExpr_shows arg _) (checkArguments_shows args)

end

/-! ## Statements -/

theorem checkCondition_shows (condition : Expr) (statement : Conditional) :
    (s.checkCondition condition statement).Shows := by
  unfold checkCondition
  split
  · rename_i tag op lhs rhs _
    have whole := s.checkExpr_shows (.binary tag op lhs rhs) (.condition statement)
    rwa [checkExpr] at whole
  · exact s.checkExpr_shows _ _
  · exact .bind (s.checkExpr_shows _ _) fun _ => s.checkType_shows _ _ _ _

theorem checkAssign_shows (loc : Location) (target : String) (value : Expr) :
    (s.checkAssign loc target value).Shows := by
  unfold checkAssign
  split
  · exact .fail _ _
  · exact .bind (.failIf _ _ _) fun _ => .bind (s.checkExpr_shows _ _) fun _ =>
      s.checkType_shows _ _ _ _

theorem checkElementTarget_shows (target : String) (type : Ty) (loc : Location) :
    (checkElementTarget target type loc).Shows := by
  unfold checkElementTarget
  split
  · exact .fail _ _
  · exact .failIf _ _ _

theorem checkAssignElement_shows (loc : Location) (target : String) (index value : Expr) :
    (s.checkAssignElement loc target index value).Shows := by
  unfold checkAssignElement
  split
  · exact .fail _ _
  · exact .bind (.failIf _ _ _) fun _ => .bind (checkElementTarget_shows _ _ _) fun _ =>
      .bind (s.checkExpr_shows _ _) fun _ => .bind (s.checkIndexType_shows _ _) fun _ =>
        .bind (s.checkExpr_shows _ _) fun _ => s.checkType_shows _ _ _ _

theorem checkReturn_shows (loc : Location) (value : Option Expr) :
    (s.checkReturn loc value).Shows := by
  unfold checkReturn
  split
  · exact .fail _ _
  · split
    · exact .failIf _ _ _
    · exact .bind (s.checkExpr_shows _ _) fun _ => s.checkType_shows _ _ _ _

theorem passes_of_checkCondition {condition : Expr} {statement : Conditional}
    (h : (s.checkCondition condition statement).Passes) :
    ∃ pos, (s.checkExpr condition pos).Passes := by
  unfold checkCondition at h
  split at h
  · rename_i tag op lhs rhs hc
    refine ⟨.condition statement, ?_⟩
    rw [← checkExpr_unparen, hc]
    rwa [checkExpr]
  · rename_i hc
    refine ⟨.value, ?_⟩
    rwa [← checkExpr_unparen, hc]
  · rw [Checked.passes_seq_iff, checkExpr_unparen] at h
    exact ⟨.value, h.1⟩

mutual

/-- The checks of a statement and of the statements in it pass. -/
def Accepts : Stmt → Prop
  | .block _ body => AcceptsAll body
  | .ifThen _ condition thenBranch =>
      (s.checkCondition condition .whenTrue).Passes ∧ Accepts thenBranch
  | .ifElse _ condition thenBranch elseBranch =>
      (s.checkCondition condition .whenTrue).Passes ∧ Accepts thenBranch ∧ Accepts elseBranch
  | .while _ condition body => (s.checkCondition condition .whileTrue).Passes ∧ Accepts body
  | .expr e => (s.checkExpr e .value).Passes
  | .assign loc target value => (s.checkAssign loc target value).Passes
  | .assignElement loc target index value =>
      (s.checkAssignElement loc target index value).Passes
  | .return loc value => (s.checkReturn loc value).Passes

def AcceptsAll : List Stmt → Prop
  | [] => True
  | stmt :: stmts => Accepts stmt ∧ AcceptsAll stmts

end

mutual

theorem accepts_of_no_errors : ∀ stmt : Stmt,
    (s.checkStmt stmt).reports.any (·.isError) = false → s.Accepts stmt
  | .block _ body, h => acceptsAll_of_no_errors body h
  | .ifThen _ condition thenBranch, h => by
      simp only [checkStmt, Findings.reports_append, List.any_append, Bool.or_eq_false_iff] at h
      exact ⟨(s.checkCondition_shows _ _).passes h.1, accepts_of_no_errors thenBranch h.2⟩
  | .ifElse _ condition thenBranch elseBranch, h => by
      simp only [checkStmt, Findings.reports_append, List.any_append, Bool.or_eq_false_iff] at h
      exact ⟨(s.checkCondition_shows _ _).passes h.1, accepts_of_no_errors thenBranch h.2.1,
        accepts_of_no_errors elseBranch h.2.2⟩
  | .while _ condition body, h => by
      simp only [checkStmt, Findings.reports_append, List.any_append, Bool.or_eq_false_iff] at h
      exact ⟨(s.checkCondition_shows _ _).passes h.1, accepts_of_no_errors body h.2⟩
  | .expr e, h => (s.checkExpr_shows e .value).passes h
  | .assign .., h => (s.checkAssign_shows _ _ _).passes h
  | .assignElement .., h => (s.checkAssignElement_shows _ _ _ _).passes h
  | .return .., h => (s.checkReturn_shows _ _).passes h

theorem acceptsAll_of_no_errors : ∀ stmts : List Stmt,
    (s.checkStmts stmts).reports.any (·.isError) = false → s.AcceptsAll stmts
  | [], _ => trivial
  | stmt :: stmts, h => by
      simp only [checkStmts, Findings.reports_append, List.any_append, Bool.or_eq_false_iff] at h
      exact ⟨accepts_of_no_errors stmt h.1, acceptsAll_of_no_errors stmts h.2⟩

end

end Scope

namespace Analysis

theorem acceptsAll_of_checkMethods (table : SymbolTable) : ∀ methods : List Method,
    (checkMethods table methods).reports.any (·.isError) = false →
      ∀ m ∈ methods, (Scope.ofMethod table m).AcceptsAll m.body
  | [], _, _, hm => nomatch hm
  | m :: ms, h, m', hm => by
      simp only [checkMethods, Findings.reports_append, List.any_append,
        Bool.or_eq_false_iff] at h
      rcases List.mem_cons.1 hm with rfl | hm
      · exact Scope.acceptsAll_of_no_errors _ _ h.1
      · exact acceptsAll_of_checkMethods table ms h.2 m' hm

/-- In a program without errors the checks of every body pass. -/
theorem accepts_of_no_errors {p : Program} (h : (ofProgram p).hasErrors = false) :
    ∀ m ∈ p.methods, (Scope.ofMethod (ofProgram p).table m).AcceptsAll m.body :=
  acceptsAll_of_checkMethods _ _ h

end Analysis

end JavaMinus
