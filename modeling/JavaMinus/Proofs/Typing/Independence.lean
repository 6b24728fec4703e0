/-
# Statements are analyzed independently

The analyzer carries its findings from one statement to the next, and looks at the types it has
noted before it tells one.  All the same the statements do not depend on each other: the reports
about a program are those that each statement gets from an analyzer that starts afresh
(`Analyzer.statements_independent`).

Two facts carry this.  Whatever is noted under the number of an expression of the program is the
result type of an operator with that number (`NotedRightly`), which the checks keep; and no two
expressions of a program that is read have the same number.  So a type that was noted is the one
that the scope tells anyway, and the analyzer follows the checks.
-/
import Mathlib.Data.List.Nodup
import JavaMinus.Proofs.Lowering.Names
import JavaMinus.Proofs.Source.Numbering
import JavaMinus.Proofs.Typing.Following

namespace JavaMinus

open Source

/-! ## Parts of statements -/

namespace Source

theorem Expr.mem_occurrences_self (e : Expr) : e ∈ e.occurrences := by
  cases e <;> exact List.mem_cons_self

mutual

/-- A statement and the statements in it. -/
def Stmt.parts : Stmt → List Stmt
  | .block loc body => .block loc body :: Stmt.partsIn body
  | .ifThen loc condition thenBranch => .ifThen loc condition thenBranch :: thenBranch.parts
  | .ifElse loc condition thenBranch elseBranch =>
      .ifElse loc condition thenBranch elseBranch :: (thenBranch.parts ++ elseBranch.parts)
  | .while loc condition body => .while loc condition body :: body.parts
  | .expr e => [.expr e]
  | .assign loc target value => [.assign loc target value]
  | .assignElement loc target index value => [.assignElement loc target index value]
  | .return loc value => [.return loc value]

def Stmt.partsIn : List Stmt → List Stmt
  | [] => []
  | stmt :: stmts => stmt.parts ++ Stmt.partsIn stmts

end

mutual

theorem Stmt.occurrences_of_parts {x : Expr} : ∀ stmt : Stmt, ∀ part ∈ stmt.parts,
    x ∈ part.occurrences → x ∈ stmt.occurrences
  | .block _ body => List.forall_mem_cons.2 ⟨id, Stmt.occurrences_of_partsIn body⟩
  | .ifThen _ _ thenBranch => List.forall_mem_cons.2 ⟨id, fun part hp hx =>
      List.mem_append_right _ (Stmt.occurrences_of_parts thenBranch part hp hx)⟩
  | .ifElse _ _ thenBranch elseBranch => List.forall_mem_cons.2 ⟨id,
      List.forall_mem_append.2
        ⟨fun part hp hx => List.mem_append_right _ (List.mem_append_left _
            (Stmt.occurrences_of_parts thenBranch part hp hx)),
          fun part hp hx => List.mem_append_right _ (List.mem_append_right _
            (Stmt.occurrences_of_parts elseBranch part hp hx))⟩⟩
  | .while _ _ body => List.forall_mem_cons.2 ⟨id, fun part hp hx =>
      List.mem_append_right _ (Stmt.occurrences_of_parts body part hp hx)⟩
  | .expr _ | .assign .. | .assignElement .. | .return .. => List.forall_mem_singleton.2 id

theorem Stmt.occurrences_of_partsIn {x : Expr} : ∀ stmts : List Stmt, ∀ part ∈ Stmt.partsIn stmts,
    x ∈ part.occurrences → x ∈ Stmt.occurrencesIn stmts
  | [] => List.forall_mem_nil _
  | stmt :: stmts => List.forall_mem_append.2
      ⟨fun part hp hx => List.mem_append_left _ (Stmt.occurrences_of_parts stmt part hp hx),
        fun part hp hx => List.mem_append_right _ (Stmt.occurrences_of_partsIn stmts part hp hx)⟩

end

theorem Program.mem_occurrences {p : Program} {m : Method} (hm : m ∈ p.methods) {x : Expr}
    (hx : x ∈ Stmt.occurrencesIn m.body) : x ∈ p.occurrences :=
  List.mem_flatMap.2 ⟨m, hm, hx⟩

end Source

/-! ## What is noted is right -/

/-- Under the number of an expression that is looked at, only the result type of an operator with
that number is noted. -/
def NotedRightly (U : List Expr) (types : List (Nat × Ty)) : Prop :=
  ∀ entry ∈ types, ∀ e ∈ U, e.id = entry.1 →
    ∃ tag op lhs rhs, e = .binary tag op lhs rhs ∧ entry.2 = op.resultType

theorem notedRightly_nil (U : List Expr) : NotedRightly U [] := List.forall_mem_nil _

theorem mem_of_noted {types : List (Nat × Ty)} {id : Nat} {t : Ty} (h : noted? types id = some t) :
    (id, t) ∈ types := by
  obtain ⟨before, after, split, -⟩ := List.lookup_eq_some_iff.1 h
  rw [← List.mem_reverse, split]
  exact List.mem_append_right _ List.mem_cons_self

namespace NotedRightly

variable {U : List Expr} {types : List (Nat × Ty)} (right : NotedRightly U types)
include right

theorem resultType {e : Expr} (here : e ∈ U) {t : Ty} (h : noted? types e.id = some t) :
    ∃ tag op lhs rhs, e = .binary tag op lhs rhs ∧ t = op.resultType :=
  right (e.id, t) (mem_of_noted h) e here rfl

theorem noted_none {e : Expr} (here : e ∈ U) (other : e.isBinary = false) :
    noted? types e.id = none := by
  cases h : noted? types e.id with
  | none => rfl
  | some t =>
      obtain ⟨tag, op, lhs, rhs, rfl, -⟩ := right.resultType here h
      cases other

/-- With the right types noted, the analyzer tells the types of the scope. -/
theorem typeIn?_eq (s : Scope) : ∀ e : Expr, (∀ x ∈ e.occurrences, x ∈ U) →
    s.typeIn? types e = s.typeOf? e
  | .binary tag op lhs rhs, within => by
      rw [Scope.typeIn?, Scope.typeOf?]
      cases h : noted? types (Expr.binary tag op lhs rhs).id with
      | none => rfl
      | some t =>
          have here := within _ (Expr.mem_occurrences_self _)
          obtain ⟨_, _, _, _, same, rfl⟩ := right.resultType here h
          cases same
          rfl
  | .index tag array i, within => by
      have inside := typeIn?_eq s array
        (List.forall_mem_append.1 (List.forall_mem_cons.1 within).2).1
      rw [Scope.typeIn?, right.noted_none (within _ (Expr.mem_occurrences_self _)) rfl,
        Option.none_or, inside, Scope.typeOf?]
  | .paren tag inner, within => by
      have inside := typeIn?_eq s inner (List.forall_mem_cons.1 within).2
      rw [Scope.typeIn?, right.noted_none (within _ (Expr.mem_occurrences_self _)) rfl,
        Option.none_or, inside, Scope.typeOf?]
  | .int .., within | .bool .., within | .name .., within | .this _, within | .not .., within
  | .length .., within | .call .., within | .newArray .., within | .newObject .., within => by
      have unnoted := right.noted_none (within _ (Expr.mem_occurrences_self _)) rfl
      simp only [Scope.typeIn?, Scope.typeOf?, unnoted, Option.none_or]

/-- The result type of an operator may be noted where all numbers are different. -/
theorem note (distinct : (U.map Expr.id).Nodup) {tag : Tag} {op : BinaryOp} {lhs rhs : Expr}
    (here : .binary tag op lhs rhs ∈ U) : NotedRightly U (types ++ [(tag.id, op.resultType)]) := by
  refine List.forall_mem_append.2 ⟨right, List.forall_mem_singleton.2 fun e he same => ?_⟩
  exact ⟨tag, op, lhs, rhs, List.inj_on_of_nodup_map distinct he here same, rfl⟩

end NotedRightly

/-! ## The analyzer of a scope -/

/-- The reports about a statement alone, from an analyzer that has found nothing yet. -/
def Scope.freshReports (s : Scope) (stmt : Stmt) : List Report :=
  (s.analyzer.checkStmt stmt .none).reports

/-- The reports about a condition alone. -/
def Scope.freshConditionReports (s : Scope) (condition : Expr) (statement : Conditional) :
    List Report :=
  ((s.analyzer.checkCondition condition statement).after .none).2.reports

/-- The reports about a statement are put together from those about its parts, in their order. -/
def Scope.Composes (s : Scope) : Stmt → Prop
  | .block loc body => s.freshReports (.block loc body) = body.flatMap s.freshReports
  | .ifThen loc condition thenBranch =>
      s.freshReports (.ifThen loc condition thenBranch) =
        s.freshConditionReports condition .whenTrue ++ s.freshReports thenBranch
  | .ifElse loc condition thenBranch elseBranch =>
      s.freshReports (.ifElse loc condition thenBranch elseBranch) =
        s.freshConditionReports condition .whenTrue ++
          (s.freshReports thenBranch ++ s.freshReports elseBranch)
  | .while loc condition body =>
      s.freshReports (.while loc condition body) =
        s.freshConditionReports condition .whileTrue ++ s.freshReports body
  | .expr _ | .assign .. | .assignElement .. | .return .. => True

namespace Analyzer

variable {U : List Expr} {s : Scope}

theorem analyzer_trusts (s : Scope) (distinct : (U.map Expr.id).Nodup) :
    s.analyzer.Trusts (NotedRightly U) U :=
  ⟨fun _ right => right.typeIn?_eq s, fun _ right _ _ _ _ here => right.note distinct here⟩

section Distinct

variable (distinct : (U.map Expr.id).Nodup)
include distinct

theorem freshReports_eq {stmt : Stmt} (within : ∀ x ∈ stmt.occurrences, x ∈ U) :
    s.freshReports stmt = (s.checkStmt stmt).reports := by
  have adds := checkStmt_adds (analyzer_trusts s distinct) stmt within .none (notedRightly_nil U)
  exact congrArg Findings.reports adds.1

theorem freshConditionReports_eq {condition : Expr}
    (within : ∀ x ∈ condition.occurrences, x ∈ U) (statement : Conditional) :
    s.freshConditionReports condition statement =
      (s.checkCondition condition statement).found.reports := by
  have adds := (follows_checkCondition (analyzer_trusts s distinct) within statement).adds .none
    (notedRightly_nil U)
  exact congrArg Findings.reports adds.1

theorem flatMap_freshReports {stmts : List Stmt}
    (within : ∀ x ∈ Stmt.occurrencesIn stmts, x ∈ U) :
    stmts.flatMap s.freshReports = (s.checkStmts stmts).reports := by
  induction stmts with
  | nil => rfl
  | cons stmt stmts ih =>
      obtain ⟨first, others⟩ := List.forall_mem_append.1 within
      rw [List.flatMap_cons, freshReports_eq distinct first, ih others, Scope.checkStmts,
        Findings.reports_append]

theorem composes {stmt : Stmt} (within : ∀ x ∈ stmt.occurrences, x ∈ U) : s.Composes stmt := by
  have whole := freshReports_eq (s := s) distinct within
  cases stmt with
  | block loc body =>
      rw [Scope.Composes, whole, flatMap_freshReports distinct within]
      rfl
  | ifThen loc condition thenBranch =>
      obtain ⟨test, branch⟩ := List.forall_mem_append.1 within
      rw [Scope.Composes, whole, freshConditionReports_eq distinct test,
        freshReports_eq distinct branch]
      rfl
  | ifElse loc condition thenBranch elseBranch =>
      obtain ⟨test, branches⟩ := List.forall_mem_append.1 within
      obtain ⟨branch, other⟩ := List.forall_mem_append.1 branches
      rw [Scope.Composes, whole, freshConditionReports_eq distinct test,
        freshReports_eq distinct branch, freshReports_eq distinct other]
      rfl
  | «while» loc condition body =>
      obtain ⟨test, loop⟩ := List.forall_mem_append.1 within
      rw [Scope.Composes, whole, freshConditionReports_eq distinct test,
        freshReports_eq distinct loop]
      rfl
  | expr | assign | assignElement | «return» => trivial

theorem checkMethods_adds (table : SymbolTable) {ms : List Method}
    (within : ∀ m ∈ ms, ∀ x ∈ Stmt.occurrencesIn m.body, x ∈ U) :
    Adds (NotedRightly U) (checkMethods table ms) (Analysis.checkMethods table ms) := by
  induction ms with
  | nil => exact .nothing
  | cons m ms ih =>
      obtain ⟨first, others⟩ := List.forall_mem_cons.1 within
      exact (checkStmts_adds (analyzer_trusts _ distinct) m.body first).next (ih others)

theorem flatMap_checkMethods (table : SymbolTable) {ms : List Method}
    (within : ∀ m ∈ ms, ∀ x ∈ Stmt.occurrencesIn m.body, x ∈ U) :
    (ms.flatMap fun m => m.body.flatMap (Scope.ofMethod table m).freshReports) =
      (Analysis.checkMethods table ms).reports := by
  induction ms with
  | nil => rfl
  | cons m ms ih =>
      obtain ⟨first, others⟩ := List.forall_mem_cons.1 within
      rw [List.flatMap_cons, flatMap_freshReports distinct first, ih others,
        Analysis.checkMethods, Findings.reports_append]

end Distinct

/-- The analyzer finds in a program that is read what the checks of its statements find, and its
reports are those about each statement alone, in the order of the methods and of their bodies.  The
reports about a statement at any depth are those of its check, and are put together from those about
its parts. -/
theorem statements_independent {ts : List Lexeme} {p : Program}
    (parsed : Program.ofLexemes ts = .ok p) :
    ofProgram p = ⟨(Analysis.ofProgram p).reports, (Analysis.ofProgram p).types⟩ ∧
    (ofProgram p).reports =
      (p.methods.flatMap fun m => m.body.flatMap (Scope.ofMethod (.ofProgram p) m).freshReports) ∧
    ∀ m ∈ p.methods, ∀ s, s = Scope.ofMethod (.ofProgram p) m → ∀ stmt ∈ Stmt.partsIn m.body,
      s.freshReports stmt = (s.checkStmt stmt).reports ∧ s.Composes stmt := by
  have distinct := Program.nodup_of_ofLexemes parsed
  have within : ∀ m ∈ p.methods, ∀ x ∈ Stmt.occurrencesIn m.body, x ∈ p.occurrences :=
    fun m hm x hx => Program.mem_occurrences hm hx
  have run : ofProgram p = ⟨(Analysis.ofProgram p).reports, (Analysis.ofProgram p).types⟩ :=
    (checkMethods_adds distinct (.ofProgram p) within .none (notedRightly_nil _)).1
  refine ⟨run, ?_, ?_⟩
  · rw [run, flatMap_checkMethods distinct (.ofProgram p) within]
    rfl
  · rintro m hm s rfl stmt hstmt
    have inside : ∀ x ∈ stmt.occurrences, x ∈ p.occurrences := fun x hx =>
      within m hm x (Stmt.occurrences_of_partsIn m.body stmt hstmt hx)
    exact ⟨freshReports_eq distinct inside, composes distinct inside⟩

/-- Seven reports about statements at several depths, from two methods. -/
theorem statements_independent_of_each_other :
    ∃ ts p, lex "class A { int n; public void f(int x) { if (x) { y = 1; { x = true; } } else this.g(x + 1 && x); while (z < 2) x = x + 1; } public static int g(int[] a) { a[a[0] + 1] = n; return a; } }" =
          .ok ts ∧ Program.ofLexemes ts = .ok p ∧ (ofProgram p).reports.length = 7 ∧
      (ofProgram p).reports = (p.methods.flatMap fun m =>
        m.body.flatMap (Scope.ofMethod (.ofProgram p) m).freshReports) := by
  obtain ⟨p, hp, ht⟩ := Compiler.exists_of_any
    (Program.ofText "class A { int n; public void f(int x) { if (x) { y = 1; { x = true; } } else this.g(x + 1 && x); while (z < 2) x = x + 1; } public static int g(int[] a) { a[a[0] + 1] = n; return a; } }")
    (fun p => (Analysis.ofProgram p).reports.length == 7) (by decide +kernel)
  obtain ⟨ts, lexed, parsed⟩ := exists_of_bind hp
  obtain ⟨run, reports, -⟩ := statements_independent parsed
  refine ⟨ts, p, lexed, parsed, ?_, reports⟩
  rw [run]
  exact eq_of_beq ht

end Analyzer

end JavaMinus
