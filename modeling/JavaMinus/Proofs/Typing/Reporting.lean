/-
# Halts and reports

A check of an expression halts exactly if it reports.  It does so from whatever findings the
analyzer has, and whatever types have been noted in them: a step only adds findings, and it answers
exactly if there are no reports among those that it adds (`Reports`).

A check halts at the first report, but for the arguments of a call, which are all checked.  So the
number of reports is bounded by the arguments that stand beside each other (`Expr.maxReports`), and
it is one where no call has two arguments.
-/
import JavaMinus.Proofs.Typing.Following

namespace JavaMinus

open Source
open Analyzing (make make_pure after_pure after_bind after_make after_both)

namespace Source

mutual

/-- How many reports the check of an expression can make before it halts. -/
def Expr.maxReports : Expr → Nat
  | .int .. | .bool .. | .name .. | .this _ | .newObject .. => 1
  | .binary _ _ lhs rhs => max lhs.maxReports (max rhs.maxReports 1)
  | .not _ e | .length _ e | .newArray _ e => max e.maxReports 1
  | .index _ array i => max array.maxReports (max i.maxReports 1)
  | .call _ target _ args =>
      max (max 1 target.maxReports) (max (Expr.maxReportsIn args) (max 1 args.length))
  | .paren _ inner => inner.maxReports

/-- How many reports the checks of arguments can make together. -/
def Expr.maxReportsIn : List Expr → Nat
  | [] => 0
  | e :: es => e.maxReports + Expr.maxReportsIn es

end

/-- The number of arguments, if the expression is a call. -/
def Expr.argumentCount : Expr → Nat
  | .call _ _ _ args => args.length
  | .int .. | .bool .. | .name .. | .this _ | .binary .. | .not .. | .index .. | .length ..
  | .newArray .. | .newObject .. | .paren .. => 0

mutual

/-- Where no call has two arguments, a check makes one report at most. -/
theorem Expr.maxReports_le_one : ∀ e : Expr, (∀ x ∈ e.occurrences, x.argumentCount ≤ 1) →
    e.maxReports ≤ 1
  | .int .., _ | .bool .., _ | .name .., _ | .this _, _ | .newObject .., _ => Nat.le_refl 1
  | .binary _ _ lhs rhs, h => by
      obtain ⟨left, right⟩ := List.forall_mem_append.1 (List.forall_mem_cons.1 h).2
      exact Nat.max_le.2 ⟨maxReports_le_one lhs left,
        Nat.max_le.2 ⟨maxReports_le_one rhs right, Nat.le_refl 1⟩⟩
  | .not _ e, h | .length _ e, h | .newArray _ e, h =>
      Nat.max_le.2 ⟨maxReports_le_one e (List.forall_mem_cons.1 h).2, Nat.le_refl 1⟩
  | .index _ array i, h => by
      obtain ⟨left, right⟩ := List.forall_mem_append.1 (List.forall_mem_cons.1 h).2
      exact Nat.max_le.2 ⟨maxReports_le_one array left,
        Nat.max_le.2 ⟨maxReports_le_one i right, Nat.le_refl 1⟩⟩
  | .call _ target _ args, h => by
      obtain ⟨here, parts⟩ := List.forall_mem_cons.1 h
      obtain ⟨left, right⟩ := List.forall_mem_append.1 parts
      exact Nat.max_le.2 ⟨Nat.max_le.2 ⟨Nat.le_refl 1, maxReports_le_one target left⟩,
        Nat.max_le.2 ⟨maxReportsIn_le_one args here right, Nat.max_le.2 ⟨Nat.le_refl 1, here⟩⟩⟩
  | .paren _ inner, h => maxReports_le_one inner (List.forall_mem_cons.1 h).2

theorem Expr.maxReportsIn_le_one : ∀ args : List Expr, args.length ≤ 1 →
    (∀ x ∈ Expr.occurrencesIn args, x.argumentCount ≤ 1) → Expr.maxReportsIn args ≤ 1
  | [], _, _ => Nat.zero_le 1
  | [arg], _, h => maxReports_le_one arg (List.forall_mem_append.1 h).1

end

end Source

/-! ## What a step reports -/

variable {α β : Type} {n n' : Nat}

/-- From all findings, the step adds findings, answers exactly if there is no report among them, and
reports `n` times at most. -/
def Reports (n : Nat) (m : Analyzing α) : Prop :=
  ∀ f, ∃ added : Findings, (m.after f).2 = f ++ added ∧
    ((m.after f).1.isSome ↔ added.reports = []) ∧ added.reports.length ≤ n

namespace Reports

theorem make {m : Checked α} (h : m.outcome.isSome ↔ m.found.reports = [])
    (few : m.found.reports.length ≤ n) : Reports n (make m) :=
  fun f => ⟨m.found, by rw [after_make], h, few⟩

theorem judges {m : Checked α} (h : m.Judges n) : Reports n (Analyzing.make m) :=
  make h.halts h.few

theorem pure (x : α) : Reports n (pure x) := by
  rw [← make_pure]
  exact judges (.pure x)

theorem mono {m : Analyzing α} (h : Reports n m) (le : n ≤ n') : Reports n' m := by
  intro f
  obtain ⟨added, adds, halts, few⟩ := h f
  exact ⟨added, adds, halts, Nat.le_trans few le⟩

theorem bind {m : Analyzing α} {g : α → Analyzing β} (first : Reports n m)
    (next : ∀ x, Reports n' (g x)) : Reports (max n n') (m >>= g) := by
  intro f
  obtain ⟨added, adds, halts, few⟩ := first f
  rw [after_bind]
  cases answer : (m.after f).1 with
  | none =>
      rw [answer] at halts
      exact ⟨added, adds, halts, Nat.le_trans few (Nat.le_max_left _ _)⟩
  | some x =>
      have silent : added.reports = [] := halts.1 (Option.isSome_of_eq_some answer)
      obtain ⟨added', adds', halts', few'⟩ := next x (m.after f).2
      have reports : (added ++ added').reports = added'.reports := by
        rw [Findings.reports_append, silent, List.nil_append]
      refine ⟨added ++ added', ?_, ?_, ?_⟩
      · rw [← Findings.append_assoc, ← adds]
        exact adds'
      · rw [reports]
        exact halts'
      · rw [reports]
        exact Nat.le_trans few' (Nat.le_max_right _ _)

/-- Of two steps that are both taken, each one reports. -/
theorem both {m m' : Analyzing Unit} (first : Reports n m) (second : Reports n' m') :
    Reports (n + n') (Analyzing.both m m') := by
  intro f
  obtain ⟨added, adds, halts, few⟩ := first f
  obtain ⟨added', adds', halts', few'⟩ := second (m.after f).2
  rw [after_both]
  refine ⟨added ++ added', ?_, ?_, ?_⟩
  · rw [← Findings.append_assoc, ← adds, adds']
  · rw [Findings.reports_append, List.append_eq_nil_iff, ← halts, ← halts']
    cases (m.after f).1 <;> simp
  · rw [Findings.reports_append, List.length_append]
    exact Nat.add_le_add few few'

end Reports

/-! ## Expressions -/

namespace Analyzer

variable (a : Analyzer)

theorem telling_reports {g : (Expr → Option Ty) → Analyzing β} (next : ∀ tell, Reports n (g tell)) :
    Reports n (a.telling >>= g) := by
  intro f
  rw [after_bind, after_telling]
  exact next _ f

theorem checkType_reports (e : Expr) (rule : Ty → Bool) (loc : Location) (finding : Ty → Finding) :
    Reports 1 (a.checkType e rule loc finding) :=
  a.telling_reports fun _ => .judges (typeRule_judges _ _ _ _)

theorem checkArray_reports (array : Expr) (loc : Location) : Reports 1 (a.checkArray array loc) :=
  a.telling_reports fun _ => .judges (arrayRule_judges _ _ _)

theorem checkIndexType_reports (index : Expr) (loc : Location) :
    Reports 1 (a.checkIndexType index loc) := by
  unfold checkIndexType
  split
  · exact .pure ()
  · exact a.checkType_reports _ _ _ _

theorem checkSignature_reports (loc : Location) (target : Expr) (method : String)
    (args : List Expr) : Reports (max 1 args.length) (a.checkSignature loc target method args) :=
  a.telling_reports fun _ => .judges (signatureRule_judges _ _ _ _ _ _)

theorem checkOperator_reports (link : Link) (left right : Option Ty) :
    Reports 1 (make (Scope.checkOperator link left right)) := by
  simp only [Scope.checkOperator]
  split
  · exact .judges (.fail _ _)
  · exact .make (iff_of_true rfl rfl) (Nat.zero_le 1)

theorem operandType_reports {e : Expr} (h : Reports n (a.checkExpr e .value)) :
    Reports n (a.operandType e) := by
  rw [operandType_eq]
  exact (h.bind fun _ => a.telling_reports fun _ => .pure (n := 0) _).mono (by omega)

mutual

theorem checkExpr_reports : ∀ (e : Expr) (pos : Position),
    Reports e.maxReports (a.checkExpr e pos)
  | .int .., _ | .bool .., _ | .newObject .., _ => by
      rw [checkExpr]
      exact .pure ()
  | .name .., _ => by
      rw [checkExpr]
      exact .judges (checkName_judges _ _ _ _)
  | .this _, _ => by
      rw [checkExpr]
      exact .judges (.failIf _ _ _)
  | .binary _ _ lhs rhs, _ => by
      rw [checkExpr_binary]
      refine Reports.mono ((a.operandType_reports (checkExpr_reports lhs _)).bind fun _ =>
        (a.operandType_reports (checkExpr_reports rhs _)).bind fun _ =>
          (Reports.judges (checkConditionLink_judges _ _ _ _)).bind fun _ =>
            (checkOperator_reports _ _ _).bind fun _ => .pure (n := 0) ()) ?_
      rw [Expr.maxReports]
      omega
  | .not _ operand, _ => by
      rw [checkExpr]
      exact (checkExpr_reports operand _).bind fun _ => a.checkType_reports _ _ _ _
  | .index _ array index, _ => by
      rw [checkExpr]
      refine Reports.mono ((checkExpr_reports array _).bind fun _ =>
        (a.checkArray_reports _ _).bind fun _ => (checkExpr_reports index _).bind fun _ =>
          a.checkIndexType_reports _ _) ?_
      rw [Expr.maxReports]
      omega
  | .length _ array, _ => by
      rw [checkExpr]
      exact (checkExpr_reports array _).bind fun _ => a.checkType_reports _ _ _ _
  | .call _ target method args, _ => by
      rw [checkExpr_call, checkCallee]
      refine Reports.bind ?_ fun _ => (checkArguments_reports args).bind fun _ =>
        a.checkSignature_reports _ _ _ _
      split
      · exact (Reports.judges (checkReceiver_judges _ _ _)).mono (Nat.le_max_left _ _)
      · exact (checkExpr_reports target _).mono (Nat.le_max_right _ _)
  | .newArray _ size, _ => by
      rw [checkExpr]
      exact (checkExpr_reports size _).bind fun _ => a.checkType_reports _ _ _ _
  | .paren _ inner, pos => by
      rw [checkExpr_paren]
      exact checkExpr_reports inner pos

theorem checkArguments_reports : ∀ args : List Expr,
    Reports (Expr.maxReportsIn args) (a.checkArguments args)
  | [] => by
      rw [checkArguments]
      exact .pure ()
  | arg :: args => by
      rw [checkArguments]
      exact (checkExpr_reports arg _).both (checkArguments_reports args)

end

end Analyzer

/-! ## Halts -/

/-- The outcome of a check of the expression is told by the reports that it makes: it answers
exactly if there are none, and if it halts there is one, and no other unless a call in the
expression has two arguments or more. -/
structure Source.Expr.ToldBy (e : Expr) (outcome : Option Unit) (reports : List Report) :
    Prop where
  answers : outcome = some () ↔ reports = []
  halts : outcome = none → 1 ≤ reports.length ∧
    ((∀ x ∈ e.occurrences, x.argumentCount ≤ 1) → reports.length = 1)

theorem Source.Expr.toldBy_of_few {e : Expr} {outcome : Option Unit} {reports : List Report}
    (answers : outcome.isSome ↔ reports = []) (few : reports.length ≤ e.maxReports) :
    e.ToldBy outcome reports := by
  refine ⟨by rw [← answers]; cases outcome <;> simp, fun halted => ?_⟩
  have some : 1 ≤ reports.length := by
    rw [Nat.one_le_iff_ne_zero, Ne, List.length_eq_zero_iff, ← answers, halted]
    exact Bool.false_ne_true
  exact ⟨some, fun narrow => Nat.le_antisymm (Nat.le_trans few (e.maxReports_le_one narrow)) some⟩

theorem Scope.forgetful_trusts (s : Scope) (U : List Expr) :
    s.forgetful.Trusts (fun _ => True) U :=
  ⟨fun _ _ _ _ => rfl, fun _ _ _ _ _ _ _ => trivial⟩

/-- Without a look at what has been noted, the analyzer makes the checks. -/
theorem Scope.forgetful_checkExpr (s : Scope) (e : Expr) (pos : Position) :
    s.forgetful.checkExpr e pos = make (s.checkExpr e pos) :=
  Analyzing.ext_after fun f =>
    (Analyzer.follows_checkExpr (s.forgetful_trusts e.occurrences) e pos (fun _ hx => hx)
      f trivial).1

/-- The check of an expression only adds reports, from whatever the analyzer has found, and they
tell whether it halts; and so do those of the check that looks at nothing noted. -/
theorem Scope.checkExpr_toldBy (s : Scope) (e : Expr) (pos : Position) :
    (∀ f : Findings, ∃ added : List Report,
      ((s.analyzer.checkExpr e pos).after f).2.reports = f.reports ++ added ∧
      e.ToldBy ((s.analyzer.checkExpr e pos).after f).1 added) ∧
    e.ToldBy (s.checkExpr e pos).outcome (s.checkExpr e pos).found.reports := by
  constructor
  · intro f
    obtain ⟨added, adds, answers, few⟩ := s.analyzer.checkExpr_reports e pos f
    exact ⟨added.reports, congrArg Findings.reports adds, Expr.toldBy_of_few answers few⟩
  · obtain ⟨added, adds, answers, few⟩ := s.forgetful.checkExpr_reports e pos .none
    rw [s.forgetful_checkExpr, after_make] at adds answers
    have same : (s.checkExpr e pos).found = added := adds
    rw [same]
    exact Expr.toldBy_of_few answers few

end JavaMinus
