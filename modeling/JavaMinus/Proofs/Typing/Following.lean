/-
# The analyzer follows the checks

Where the analyzer tells the types of its scope, each of its steps is the check of the same name
with its findings added.  What has been noted has a part in how types are told, so this holds from
findings with the right types, and every step has to leave the right types again (`Follows`).

What right means is left open.  `Analyzer.Trusts` names the two things that are asked of it: with
the right types the analyzer tells the types of the scope, and the type of an operator may be noted.
-/
import JavaMinus.Proofs.Typing.Stepwise
import JavaMinus.Source.Occurrence

namespace JavaMinus

open Source
open Analyzing (make make_pure after_pure after_bind after_make after_both)

/-! ## Rules note nothing -/

namespace Checked

variable {α : Type} {n : Nat}

/-- The check notes nothing, halts exactly if it reports, and reports `n` times at most. -/
structure Judges (n : Nat) (m : Checked α) : Prop where
  notes : m.found.types = []
  halts : m.outcome.isSome ↔ m.found.reports = []
  few : m.found.reports.length ≤ n

theorem Judges.pure (a : α) : (pure a : Checked α).Judges n :=
  ⟨rfl, iff_of_true rfl rfl, Nat.zero_le n⟩

theorem Judges.fail (loc : Location) (finding : Finding) :
    (fail loc finding : Checked α).Judges 1 :=
  ⟨rfl, iff_of_false (nomatch ·) (nomatch ·), Nat.le_refl 1⟩

theorem Judges.failIf (broken : Bool) (loc : Location) (finding : Finding) :
    (failIf broken loc finding).Judges 1 := by
  cases broken with
  | false => exact .pure ()
  | true => exact .fail loc finding

theorem Judges.haltOn (reports : List Report) : (haltOn reports).Judges reports.length := by
  cases reports with
  | nil => exact .pure ()
  | cons r rs => exact ⟨rfl, iff_of_false (nomatch ·) (nomatch ·), Nat.le_refl _⟩

theorem Judges.mono {m : Checked α} {n' : Nat} (h : m.Judges n) (le : n ≤ n') : m.Judges n' :=
  ⟨h.notes, h.halts, Nat.le_trans h.few le⟩

end Checked

section Rules

variable (s : Scope)

theorem checkName_judges (name : String) (loc : Location) (asArray : Bool) :
    (s.checkName name loc asArray).Judges 1 := by
  unfold Scope.checkName
  split
  · split
    · exact .pure ()
    · exact .fail _ _
  · split
    · exact .fail _ _
    · split
      · exact .fail _ _
      · exact .pure ()

theorem checkReceiver_judges (loc : Location) (method : String) :
    (s.checkReceiver loc method).Judges 1 := by
  unfold Scope.checkReceiver
  split
  · exact .fail _ _
  · split
    · exact .fail _ _
    · exact .pure ()

theorem checkConditionLink_judges (pos : Position) (isOutermost : Bool) (link : Link)
    (left : Option Ty) : (Scope.checkConditionLink pos isOutermost link left).Judges 1 := by
  unfold Scope.checkConditionLink
  split
  · exact .failIf _ _ _
  · exact .pure ()

theorem checkElementTarget_judges (target : String) (type : Ty) (loc : Location) :
    (Scope.checkElementTarget target type loc).Judges 1 := by
  unfold Scope.checkElementTarget
  split
  · exact .fail _ _
  · exact .failIf _ _ _

theorem typeRule_judges (told : Option Ty) (rule : Ty → Bool) (loc : Location)
    (finding : Ty → Finding) : (typeRule told rule loc finding).Judges 1 := by
  unfold typeRule
  split
  · exact .failIf _ _ _
  · exact .pure ()

theorem arrayRule_judges (told : Option Ty) (array : Expr) (loc : Location) :
    (arrayRule told array loc).Judges 1 := by
  unfold arrayRule
  split
  · split
    · exact .fail _ _
    · exact .pure ()
  · exact .failIf _ _ _

theorem mismatches_length_le (tell : Expr → Option Ty) (method : String) (index : Nat)
    (args : List Expr) (params : List Symbol) :
    (mismatches tell method index args params).length ≤ args.length := by
  fun_induction mismatches tell method index args params with
  | case1 _ _ _ _ _ _ _ ih => exact Nat.le_succ_of_le ih
  | case2 _ _ _ _ _ _ _ _ ih => exact Nat.le_succ_of_le ih
  | case3 _ _ _ _ _ _ _ _ ih => exact Nat.le_succ_of_le ih
  | case4 _ _ _ _ _ _ _ _ _ _ ih => exact Nat.succ_le_succ ih
  | case5 => exact Nat.zero_le _

theorem signatureRule_judges (tell : Expr → Option Ty) (loc : Location) (target : Expr)
    (method : String) (args : List Expr) :
    (signatureRule s tell loc target method args).Judges (max 1 args.length) := by
  unfold signatureRule
  split
  · split
    · split
      · exact (Checked.Judges.fail _ _).mono (Nat.le_max_left _ _)
      · exact (Checked.Judges.haltOn _).mono
          (Nat.le_trans (mismatches_length_le _ _ _ _ _) (Nat.le_max_right _ _))
    · exact .pure ()
  · exact (Checked.Judges.failIf _ _ _).mono (Nat.le_max_left _ _)

/-- Told the types of the scope, the arguments mismatch as they do for the checks. -/
theorem mismatches_of_told {tell : Expr → Option Ty} (method : String) :
    ∀ (index : Nat) (args : List Expr) (params : List Symbol),
      (∀ arg ∈ args, tell arg = s.typeOf? arg) →
      mismatches tell method index args params = s.argumentMismatches method index args params
  | index, arg :: args, param :: params, told => by
      obtain ⟨first, others⟩ := List.forall_mem_cons.1 told
      rw [mismatches, first, mismatches_of_told method (index + 1) args params others]
      rfl
  | _, [], _, _ | _, _ :: _, [], _ => by simp only [mismatches, Scope.argumentMismatches]

theorem signatureRule_of_told {tell : Expr → Option Ty} (loc : Location) (target : Expr)
    (method : String) {args : List Expr} (told : ∀ arg ∈ args, tell arg = s.typeOf? arg) :
    signatureRule s tell loc target method args = s.checkSignature loc target method args := by
  unfold signatureRule
  simp only [mismatches_of_told s method 0 args _ told]
  rfl

end Rules

/-! ## Steps that follow a check -/

variable {Right : List (Nat × Ty) → Prop} {α β : Type}

/-- From findings with the right types, the step is the check with its findings added, and the types
are right again. -/
def Follows (Right : List (Nat × Ty) → Prop) (m : Analyzing α) (n : Checked α) : Prop :=
  ∀ f : Findings, Right f.types →
    m.after f = (n.outcome, f ++ n.found) ∧ Right (f ++ n.found).types

namespace Follows

theorem make_quiet {n : Checked α} (quiet : n.found.types = []) : Follows Right (make n) n := by
  intro f right
  refine ⟨after_make n f, ?_⟩
  rwa [Findings.append_def, quiet, List.append_nil]

theorem judges {n : Checked α} {k : Nat} (h : n.Judges k) : Follows Right (make n) n :=
  make_quiet h.notes

theorem pure (x : α) : Follows Right (pure x) (pure x) := by
  rw [← make_pure]
  exact make_quiet rfl

theorem bind {m : Analyzing α} {n : Checked α} {g : α → Analyzing β} {h : α → Checked β}
    (first : Follows Right m n) (next : ∀ x, Follows Right (g x) (h x)) :
    Follows Right (m >>= g) (n >>= h) := by
  intro f right
  obtain ⟨run, right'⟩ := first f right
  rw [after_bind, run]
  cases answer : n.outcome with
  | none =>
      rw [Checked.bind_of_halted answer]
      exact ⟨rfl, right'⟩
  | some x =>
      rw [Checked.bind_of_outcome answer, ← Findings.append_assoc]
      exact next x _ right'

theorem both {m m' : Analyzing Unit} {n n' : Checked Unit} (first : Follows Right m n)
    (second : Follows Right m' n') : Follows Right (Analyzing.both m m') (Checked.both n n') := by
  intro f right
  obtain ⟨run, right'⟩ := first f right
  obtain ⟨run', right''⟩ := second _ right'
  rw [after_both, run, run', Findings.append_assoc]
  exact ⟨rfl, Findings.append_assoc .. ▸ right''⟩

/-- A rule about types that are told now. -/
theorem asking {a : Analyzer} {rule : (Expr → Option Ty) → Checked α} {n : Checked α}
    (told : ∀ types, Right types → rule (a.tell types) = n) (quiet : n.found.types = []) :
    Follows Right (do let tell ← a.telling; make (rule tell)) n := by
  intro f right
  rw [after_bind, Analyzer.after_telling]
  show (make (rule (a.tell f.types))).after f = _ ∧ _
  rw [told _ right]
  exact make_quiet quiet f right

end Follows

/-- From findings with the right types, certain findings are added, and the types are right
again. -/
def Adds (Right : List (Nat × Ty) → Prop) (run : Findings → Findings) (added : Findings) : Prop :=
  ∀ f : Findings, Right f.types → run f = f ++ added ∧ Right (f ++ added).types

theorem Adds.nothing : Adds Right id .none := fun f right => by
  rw [Findings.append_none]
  exact ⟨rfl, right⟩

theorem Adds.next {run run' : Findings → Findings} {added added' : Findings}
    (first : Adds Right run added) (second : Adds Right run' added') :
    Adds Right (fun f => run' (run f)) (added ++ added') := by
  intro f right
  obtain ⟨eq, right'⟩ := first f right
  obtain ⟨eq', right''⟩ := second _ right'
  rw [← Findings.append_assoc]
  exact ⟨(congrArg run' eq).trans eq', right''⟩

theorem Follows.adds {m : Analyzing Unit} {n : Checked Unit} (h : Follows Right m n) :
    Adds Right (fun f => (m.after f).2) n.found := by
  intro f right
  obtain ⟨run, right'⟩ := h f right
  exact ⟨congrArg Prod.snd run, right'⟩

/-! ## Expressions -/

theorem Source.Expr.mem_occurrencesIn {arg x : Expr} : ∀ {args : List Expr}, arg ∈ args →
    x ∈ arg.occurrences → x ∈ Expr.occurrencesIn args
  | _ :: _, .head _, hx => List.mem_append_left _ hx
  | _ :: _, .tail _ harg, hx => List.mem_append_right _ (mem_occurrencesIn harg hx)

/-- What occurs inside the parentheses occurs in the expression. -/
theorem Source.Expr.mem_occurrences_unparen {x : Expr} : ∀ e : Expr,
    x ∈ e.unparen.occurrences → x ∈ e.occurrences
  | .paren _ inner, hx => List.mem_cons_of_mem _ (mem_occurrences_unparen inner hx)
  | .int .., hx | .bool .., hx | .name .., hx | .this _, hx | .binary .., hx | .not .., hx
  | .index .., hx | .length .., hx | .call .., hx | .newArray .., hx | .newObject .., hx => hx

theorem Scope.checkExpr_operands (s : Scope) (tag : Tag) (op : BinaryOp) (lhs rhs : Expr)
    (pos : Position) :
    s.checkExpr (.binary tag op lhs rhs) pos = (do
      let left ← s.operandType lhs
      let right ← s.operandType rhs
      checkConditionLink pos true ⟨tag, op, rhs⟩ left
      let _ ← checkOperator ⟨tag, op, rhs⟩ left right
      pure ()) := by
  rw [checkExpr_binary, operandType_eq s lhs, operandType_eq s rhs]
  simp only [bind_assoc, pure_bind]

namespace Analyzer

variable {a : Analyzer} {U : List Expr}

/-- With the right types the analyzer tells the types of the scope, as far as the parts of an
expression are among those looked at, and the types of the operators among them may be noted. -/
structure Trusts (a : Analyzer) (Right : List (Nat × Ty) → Prop) (U : List Expr) : Prop where
  told : ∀ types, Right types → ∀ e : Expr, (∀ x ∈ e.occurrences, x ∈ U) →
    a.tell types e = a.scope.typeOf? e
  noted : ∀ types, Right types → ∀ tag op lhs rhs, .binary tag op lhs rhs ∈ U →
    Right (types ++ [(tag.id, op.resultType)])

theorem operandIn_of_told {tell : Expr → Option Ty}
    (told : ∀ e : Expr, (∀ x ∈ e.occurrences, x ∈ U) → tell e = a.scope.typeOf? e) :
    ∀ e : Expr, (∀ x ∈ e.occurrences, x ∈ U) →
      a.scope.operandIn tell e = a.scope.operandType? e
  | .paren _ inner, within => operandIn_of_told told inner (List.forall_mem_cons.1 within).2
  | .name .., _ | .call .., _ | .index .., _ | .binary .., _ => rfl
  | .int .., within | .bool .., within | .this _, within | .not .., within | .length .., within
  | .newArray .., within | .newObject .., within => told _ within

section Trusting

variable (trusts : a.Trusts Right U)
include trusts

theorem follows_checkType {e : Expr} (within : ∀ x ∈ e.occurrences, x ∈ U) (rule : Ty → Bool)
    (loc : Location) (finding : Ty → Finding) :
    Follows Right (a.checkType e rule loc finding) (a.scope.checkType e rule loc finding) :=
  .asking (fun types right => by rw [trusts.told types right e within]; rfl)
    (typeRule_judges _ _ _ _).notes

theorem follows_checkArray {array : Expr} (within : ∀ x ∈ array.occurrences, x ∈ U)
    (loc : Location) : Follows Right (a.checkArray array loc) (a.scope.checkArray array loc) :=
  .asking (fun types right => by rw [trusts.told types right array within]; rfl)
    (arrayRule_judges _ _ _).notes

theorem follows_checkIndexType {index : Expr} (within : ∀ x ∈ index.occurrences, x ∈ U)
    (loc : Location) :
    Follows Right (a.checkIndexType index loc) (a.scope.checkIndexType index loc) := by
  unfold checkIndexType Scope.checkIndexType
  split
  · exact .pure ()
  · exact follows_checkType trusts within _ _ _

theorem follows_checkSignature {args : List Expr}
    (within : ∀ x ∈ Expr.occurrencesIn args, x ∈ U) (loc : Location) (target : Expr)
    (method : String) :
    Follows Right (a.checkSignature loc target method args)
      (a.scope.checkSignature loc target method args) := by
  have told : ∀ types, Right types → signatureRule a.scope (a.tell types) loc target method args =
      a.scope.checkSignature loc target method args := fun types right =>
    signatureRule_of_told _ loc target method fun arg harg =>
      trusts.told types right arg fun x hx => within x (Expr.mem_occurrencesIn harg hx)
  refine .asking told ?_
  rw [← signatureRule_of_told a.scope loc target method (fun _ _ => rfl)]
  exact (signatureRule_judges _ _ _ _ _ _).notes

theorem follows_checkOperator {tag : Tag} {op : BinaryOp} {lhs rhs : Expr}
    (here : .binary tag op lhs rhs ∈ U) (left right : Option Ty) :
    Follows Right (make (Scope.checkOperator ⟨tag, op, rhs⟩ left right))
      (Scope.checkOperator ⟨tag, op, rhs⟩ left right) := by
  intro f types
  refine ⟨after_make _ f, ?_⟩
  simp only [Scope.checkOperator]
  split
  · exact ((List.append_nil f.types).symm ▸ types : Right (f.types ++ []))
  · exact trusts.noted f.types types tag op lhs rhs here

/-- An operand that is checked alike is told alike. -/
theorem follows_operandType {e : Expr} (within : ∀ x ∈ e.occurrences, x ∈ U)
    (check : Follows Right (a.checkExpr e .value) (a.scope.checkExpr e .value)) :
    Follows Right (a.operandType e) (a.scope.operandType e) := by
  rw [operandType_eq, Scope.operandType_eq]
  refine check.bind fun _ => ?_
  simp only [← make_pure]
  refine .asking (fun types right => ?_) rfl
  rw [operandIn_of_told (trusts.told types right) e within]

end Trusting

mutual

theorem follows_checkExpr (trusts : a.Trusts Right U) : ∀ (e : Expr) (pos : Position),
    (∀ x ∈ e.occurrences, x ∈ U) → Follows Right (a.checkExpr e pos) (a.scope.checkExpr e pos)
  | .int .., _, _ | .bool .., _, _ | .newObject .., _, _ => by
      rw [checkExpr, Scope.checkExpr]
      exact .pure ()
  | .name .., _, _ => by
      rw [checkExpr, Scope.checkExpr]
      exact .judges (checkName_judges _ _ _ _)
  | .this _, _, _ => by
      rw [checkExpr, Scope.checkExpr]
      exact .judges (.failIf _ _ _)
  | .binary tag op lhs rhs, pos, within => by
      obtain ⟨here, parts⟩ := List.forall_mem_cons.1 within
      obtain ⟨left, right⟩ := List.forall_mem_append.1 parts
      rw [checkExpr_binary, Scope.checkExpr_operands]
      exact (follows_operandType trusts left (follows_checkExpr trusts lhs _ left)).bind fun _ =>
        (follows_operandType trusts right (follows_checkExpr trusts rhs _ right)).bind fun _ =>
          (Follows.judges (checkConditionLink_judges _ _ _ _)).bind fun _ =>
            (follows_checkOperator trusts here _ _).bind fun _ => .pure ()
  | .not _ operand, _, within => by
      have parts := (List.forall_mem_cons.1 within).2
      rw [checkExpr, Scope.checkExpr]
      exact (follows_checkExpr trusts operand _ parts).bind fun _ =>
        follows_checkType trusts parts _ _ _
  | .index _ array index, _, within => by
      obtain ⟨left, right⟩ := List.forall_mem_append.1 (List.forall_mem_cons.1 within).2
      rw [checkExpr, Scope.checkExpr]
      exact (follows_checkExpr trusts array _ left).bind fun _ =>
        (follows_checkArray trusts left _).bind fun _ =>
          (follows_checkExpr trusts index _ right).bind fun _ =>
            follows_checkIndexType trusts right _
  | .length _ array, _, within => by
      have parts := (List.forall_mem_cons.1 within).2
      rw [checkExpr, Scope.checkExpr]
      exact (follows_checkExpr trusts array _ parts).bind fun _ =>
        follows_checkType trusts parts _ _ _
  | .call _ target method args, _, within => by
      obtain ⟨left, right⟩ := List.forall_mem_append.1 (List.forall_mem_cons.1 within).2
      rw [checkExpr_call, Scope.checkExpr_call, checkCallee, Scope.checkCallee]
      refine Follows.bind ?_ fun _ => (follows_checkArguments trusts args right).bind fun _ =>
        follows_checkSignature trusts right _ _ _
      split
      · exact .judges (checkReceiver_judges _ _ _)
      · exact follows_checkExpr trusts target _ left
  | .newArray _ size, _, within => by
      have parts := (List.forall_mem_cons.1 within).2
      rw [checkExpr, Scope.checkExpr]
      exact (follows_checkExpr trusts size _ parts).bind fun _ =>
        follows_checkType trusts parts _ _ _
  | .paren _ inner, pos, within => by
      rw [checkExpr_paren, Scope.checkExpr_paren]
      exact follows_checkExpr trusts inner pos (List.forall_mem_cons.1 within).2

theorem follows_checkArguments (trusts : a.Trusts Right U) : ∀ args : List Expr,
    (∀ x ∈ Expr.occurrencesIn args, x ∈ U) →
    Follows Right (a.checkArguments args) (a.scope.checkArguments args)
  | [], _ => by
      rw [checkArguments, Scope.checkArguments]
      exact .pure ()
  | arg :: args, within => by
      obtain ⟨first, others⟩ := List.forall_mem_append.1 within
      rw [checkArguments, Scope.checkArguments]
      exact (follows_checkExpr trusts arg _ first).both (follows_checkArguments trusts args others)

end

/-! ## Statements -/

theorem follows_checkStored (trusts : a.Trusts Right U) {value : Expr}
    (within : ∀ x ∈ value.occurrences, x ∈ U) (type : Ty) (loc : Location) :
    Follows Right (a.checkStored value type loc) (a.scope.checkStored value type loc) :=
  follows_checkType trusts within _ _ _

theorem follows_checkCondition (trusts : a.Trusts Right U) {condition : Expr}
    (within : ∀ x ∈ condition.occurrences, x ∈ U) (statement : Conditional) :
    Follows Right (a.checkCondition condition statement)
      (a.scope.checkCondition condition statement) := by
  have inside : ∀ x ∈ condition.unparen.occurrences, x ∈ U := fun x hx =>
    within x (Expr.mem_occurrences_unparen _ hx)
  unfold checkCondition Scope.checkCondition
  cases hu : condition.unparen with
  | binary tag op lhs rhs =>
      have whole := follows_checkExpr trusts _ (.condition statement) inside
      rwa [hu, checkExpr, Scope.checkExpr] at whole
  | index tag array index =>
      have whole := follows_checkExpr trusts _ .value inside
      rwa [hu] at whole
  | int | bool | name | this | not | length | call | newArray | newObject | paren =>
      rw [hu] at inside
      exact (follows_checkExpr trusts _ _ inside).bind fun _ =>
        follows_checkType trusts inside _ _ _

theorem follows_checkAssign (trusts : a.Trusts Right U) (loc : Location) (target : String)
    {value : Expr} (within : ∀ x ∈ value.occurrences, x ∈ U) :
    Follows Right (a.checkAssign loc target value) (a.scope.checkAssign loc target value) := by
  unfold checkAssign Scope.checkAssign
  cases a.scope.lookup target with
  | none => exact .judges (.fail _ _)
  | some found =>
      exact (Follows.judges (.failIf _ _ _)).bind fun _ =>
        (follows_checkExpr trusts value _ within).bind fun _ =>
          follows_checkStored trusts within _ _

theorem follows_checkAssignElement (trusts : a.Trusts Right U) (loc : Location) (target : String)
    {index value : Expr} (left : ∀ x ∈ index.occurrences, x ∈ U)
    (right : ∀ x ∈ value.occurrences, x ∈ U) :
    Follows Right (a.checkAssignElement loc target index value)
      (a.scope.checkAssignElement loc target index value) := by
  unfold checkAssignElement Scope.checkAssignElement
  cases a.scope.lookup target with
  | none => exact .judges (.fail _ _)
  | some found =>
      exact (Follows.judges (.failIf _ _ _)).bind fun _ =>
        (Follows.judges (checkElementTarget_judges _ _ _)).bind fun _ =>
          (follows_checkExpr trusts index _ left).bind fun _ =>
            (follows_checkIndexType trusts left _).bind fun _ =>
              (follows_checkExpr trusts value _ right).bind fun _ =>
                follows_checkStored trusts right _ _

theorem follows_checkReturn (trusts : a.Trusts Right U) (loc : Location) {value : Option Expr}
    (within : ∀ x ∈ Expr.occurrencesIn value.toList, x ∈ U) :
    Follows Right (a.checkReturn loc value) (a.scope.checkReturn loc value) := by
  unfold checkReturn Scope.checkReturn
  split
  · exact .judges (.fail _ _)
  · cases value with
    | none => exact .judges (.failIf _ _ _)
    | some e =>
        have inside := (List.forall_mem_append.1 within).1
        exact (follows_checkExpr trusts e _ inside).bind fun _ =>
          follows_checkType trusts inside _ _ _

mutual

theorem checkStmt_adds (trusts : a.Trusts Right U) : ∀ stmt : Stmt,
    (∀ x ∈ stmt.occurrences, x ∈ U) → Adds Right (a.checkStmt stmt) (a.scope.checkStmt stmt)
  | .block _ body, within => checkStmts_adds trusts body within
  | .ifThen _ condition thenBranch, within => by
      obtain ⟨test, branch⟩ := List.forall_mem_append.1 within
      exact (follows_checkCondition trusts test _).adds.next
        (checkStmt_adds trusts thenBranch branch)
  | .ifElse _ condition thenBranch elseBranch, within => by
      obtain ⟨test, branches⟩ := List.forall_mem_append.1 within
      obtain ⟨branch, other⟩ := List.forall_mem_append.1 branches
      exact (follows_checkCondition trusts test _).adds.next
        ((checkStmt_adds trusts thenBranch branch).next (checkStmt_adds trusts elseBranch other))
  | .while _ condition body, within => by
      obtain ⟨test, loop⟩ := List.forall_mem_append.1 within
      exact (follows_checkCondition trusts test _).adds.next
        (checkStmt_adds trusts body loop)
  | .expr e, within => (follows_checkExpr trusts e _ within).adds
  | .assign _ _ _, within => (follows_checkAssign trusts _ _ within).adds
  | .assignElement _ _ _ _, within => by
      obtain ⟨left, right⟩ := List.forall_mem_append.1 within
      exact (follows_checkAssignElement trusts _ _ left right).adds
  | .return _ _, within => (follows_checkReturn trusts _ within).adds

/-- Statements in a row add what their checks find, from findings with the right types. -/
theorem checkStmts_adds (trusts : a.Trusts Right U) : ∀ stmts : List Stmt,
    (∀ x ∈ Stmt.occurrencesIn stmts, x ∈ U) →
    Adds Right (a.checkStmts stmts) (a.scope.checkStmts stmts)
  | [], _ => Adds.nothing
  | stmt :: stmts, within => by
      obtain ⟨first, others⟩ := List.forall_mem_append.1 within
      exact (checkStmt_adds trusts stmt first).next (checkStmts_adds trusts stmts others)

end

end Analyzer

end JavaMinus
