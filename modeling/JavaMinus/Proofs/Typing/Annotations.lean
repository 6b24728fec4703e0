/-
# The types that are noted

What the analysis notes of a program are the result types of its operators, each under the number of
its operator and each once.  Where a check passes it has noted every operator in what it looked at,
operands before the operator (`Expr.operatorTypes`); where it halts it has noted some of them, in the
same order.  `Noted` carries both through the checks, and for an accepted program the first alternative
holds of every body (`Analyzer.annotations_exact`).

That a number belongs to one operator only is a fact about programs that are read: no two of their
expressions have the same number.
-/
import JavaMinus.Proofs.Typing.Independence

namespace JavaMinus

open Source

namespace Source

/-! ## The operators of a tree -/

mutual

/-- The operators in an expression with their result types, each after its operands. -/
def Expr.operatorTypes : Expr → List (Nat × Ty)
  | .int .. | .bool .. | .name .. | .this _ | .newObject .. => []
  | .binary tag op lhs rhs =>
      lhs.operatorTypes ++ (rhs.operatorTypes ++ [(tag.id, op.resultType)])
  | .not _ e | .length _ e | .newArray _ e | .paren _ e => e.operatorTypes
  | .index _ array i => array.operatorTypes ++ i.operatorTypes
  | .call _ target _ args => target.operatorTypes ++ Expr.operatorTypesIn args

def Expr.operatorTypesIn : List Expr → List (Nat × Ty)
  | [] => []
  | e :: es => e.operatorTypes ++ Expr.operatorTypesIn es

end

mutual

/-- The operators in a statement with their result types, in the order of the text. -/
def Stmt.operatorTypes : Stmt → List (Nat × Ty)
  | .block _ body => Stmt.operatorTypesIn body
  | .ifThen _ condition thenBranch => condition.operatorTypes ++ thenBranch.operatorTypes
  | .ifElse _ condition thenBranch elseBranch =>
      condition.operatorTypes ++ (thenBranch.operatorTypes ++ elseBranch.operatorTypes)
  | .while _ condition body => condition.operatorTypes ++ body.operatorTypes
  | .expr e => e.operatorTypes
  | .assign _ _ value => value.operatorTypes
  | .assignElement _ _ index value => index.operatorTypes ++ value.operatorTypes
  | .return _ value => Expr.operatorTypesIn value.toList

def Stmt.operatorTypesIn : List Stmt → List (Nat × Ty)
  | [] => []
  | stmt :: stmts => stmt.operatorTypes ++ Stmt.operatorTypesIn stmts

end

/-- The operators in the bodies of methods with their result types. -/
def Method.operatorTypesIn (ms : List Method) : List (Nat × Ty) :=
  ms.flatMap fun m => Stmt.operatorTypesIn m.body

/-- The number and the result type of an operator. -/
def Expr.operatorType? : Expr → Option (Nat × Ty)
  | .binary tag op _ _ => some (tag.id, op.resultType)
  | .int .. | .bool .. | .name .. | .this _ | .not .. | .index .. | .length .. | .call ..
  | .newArray .. | .newObject .. | .paren .. => none

theorem Expr.operatorType?_eq_some {e : Expr} {entry : Nat × Ty}
    (h : e.operatorType? = some entry) :
    ∃ tag op lhs rhs, e = .binary tag op lhs rhs ∧ entry = (tag.id, op.resultType) := by
  cases e with
  | binary tag op lhs rhs => exact ⟨tag, op, lhs, rhs, rfl, (Option.some.inj h).symm⟩
  | int | bool | name | this | not | index | length | call | newArray | newObject | paren =>
      cases h

theorem Expr.operatorTypes_unparen : ∀ e : Expr, e.unparen.operatorTypes = e.operatorTypes
  | .paren _ inner => operatorTypes_unparen inner
  | .int .. | .bool .. | .name .. | .this _ | .binary .. | .not .. | .index .. | .length ..
  | .call .. | .newArray .. | .newObject .. => rfl

theorem Expr.operatorTypes_of_isThis {e : Expr} (h : e.isThis = true) : e.operatorTypes = [] := by
  rw [← operatorTypes_unparen]
  unfold isThis at h
  split at h
  · rename_i receiver
    rw [receiver]
    rfl
  · cases h

mutual

theorem Expr.operatorTypes_perm : ∀ e : Expr,
    e.operatorTypes.Perm (e.occurrences.filterMap Expr.operatorType?)
  | .int .. | .bool .. | .name .. | .this _ | .newObject .. => .refl _
  | .binary tag op lhs rhs => by
      rw [operatorTypes, occurrences, List.filterMap_cons, operatorType?, List.filterMap_append,
        ← List.append_assoc]
      exact List.perm_append_comm.trans
        ((lhs.operatorTypes_perm.append rhs.operatorTypes_perm).cons _)
  | .not _ e | .length _ e | .newArray _ e | .paren _ e => e.operatorTypes_perm
  | .index _ array i => by
      rw [operatorTypes, occurrences, List.filterMap_cons, operatorType?, List.filterMap_append]
      exact array.operatorTypes_perm.append i.operatorTypes_perm
  | .call _ target _ args => by
      rw [operatorTypes, occurrences, List.filterMap_cons, operatorType?, List.filterMap_append]
      exact target.operatorTypes_perm.append (Expr.operatorTypesIn_perm args)

theorem Expr.operatorTypesIn_perm : ∀ es : List Expr,
    (Expr.operatorTypesIn es).Perm ((Expr.occurrencesIn es).filterMap Expr.operatorType?)
  | [] => .refl _
  | e :: es => by
      rw [Expr.operatorTypesIn, Expr.occurrencesIn, List.filterMap_append]
      exact e.operatorTypes_perm.append (Expr.operatorTypesIn_perm es)

end

mutual

theorem Stmt.operatorTypes_perm : ∀ stmt : Stmt,
    stmt.operatorTypes.Perm (stmt.occurrences.filterMap Expr.operatorType?)
  | .block _ body => Stmt.operatorTypesIn_perm body
  | .ifThen _ condition thenBranch => by
      rw [operatorTypes, occurrences, List.filterMap_append]
      exact condition.operatorTypes_perm.append thenBranch.operatorTypes_perm
  | .ifElse _ condition thenBranch elseBranch => by
      rw [operatorTypes, occurrences, List.filterMap_append, List.filterMap_append]
      exact condition.operatorTypes_perm.append
        (thenBranch.operatorTypes_perm.append elseBranch.operatorTypes_perm)
  | .while _ condition body => by
      rw [operatorTypes, occurrences, List.filterMap_append]
      exact condition.operatorTypes_perm.append body.operatorTypes_perm
  | .expr e => e.operatorTypes_perm
  | .assign _ _ value => value.operatorTypes_perm
  | .assignElement _ _ index value => by
      rw [operatorTypes, occurrences, List.filterMap_append]
      exact index.operatorTypes_perm.append value.operatorTypes_perm
  | .return _ value => Expr.operatorTypesIn_perm value.toList

theorem Stmt.operatorTypesIn_perm : ∀ stmts : List Stmt,
    (Stmt.operatorTypesIn stmts).Perm ((Stmt.occurrencesIn stmts).filterMap Expr.operatorType?)
  | [] => .refl _
  | stmt :: stmts => by
      rw [Stmt.operatorTypesIn, Stmt.occurrencesIn, List.filterMap_append]
      exact stmt.operatorTypes_perm.append (Stmt.operatorTypesIn_perm stmts)

end

/-- Whatever their order, these are the operators that occur in the bodies. -/
theorem Program.operatorTypes_perm (p : Program) :
    (Method.operatorTypesIn p.methods).Perm (p.occurrences.filterMap Expr.operatorType?) := by
  unfold Method.operatorTypesIn Program.occurrences
  induction p.methods with
  | nil => exact .refl _
  | cons m ms ih =>
      rw [List.flatMap_cons, List.flatMap_cons, List.filterMap_append]
      exact (Stmt.operatorTypesIn_perm m.body).append ih

end Source

/-! ## What a check notes -/

/-- Of what there is to note something has been noted, in its order, and all of it where the checks
passed. -/
structure Noted (passed : Prop) (noted all : List (Nat × Ty)) : Prop where
  sublist : noted.Sublist all
  complete : passed → noted = all

namespace Noted

variable {P Q : Prop} {xs ys all more : List (Nat × Ty)}

theorem append (first : Noted P xs all) (second : Noted Q ys more) :
    Noted (P ∧ Q) (xs ++ ys) (all ++ more) :=
  ⟨first.sublist.append second.sublist, fun h =>
    congrArg₂ _ (first.complete h.1) (second.complete h.2)⟩

theorem mono (h : Noted P xs all) (imp : Q → P) : Noted Q xs all :=
  ⟨h.sublist, fun q => h.complete (imp q)⟩

end Noted

namespace Checked

variable {α β : Type} {all more : List (Nat × Ty)}

/-- The check notes some of the types, and all of them if it passes. -/
def Notes (m : Checked α) (all : List (Nat × Ty)) : Prop := Noted m.Passes m.found.types all

theorem Notes.nothing {m : Checked α} (h : m.found.types = []) : m.Notes [] :=
  ⟨h ▸ .slnil, fun _ => h⟩

theorem Notes.pure (a : α) : (pure a : Checked α).Notes [] := .nothing rfl

theorem Notes.judges {n : Nat} {m : Checked α} (h : m.Judges n) : m.Notes [] := .nothing h.notes

theorem Notes.fail (loc : Location) (finding : Finding) : (fail loc finding : Checked α).Notes all :=
  ⟨List.nil_sublist _, fun h => absurd h (not_passes_fail loc finding)⟩

theorem Notes.bind {m : Checked α} {f : α → Checked β} (first : m.Notes all)
    (next : ∀ a, (f a).Notes more) : (m >>= f).Notes (all ++ more) := by
  cases ho : m.outcome with
  | none =>
      rw [bind_of_halted ho]
      exact ⟨first.sublist.trans (List.sublist_append_left _ _), fun h => nomatch h⟩
  | some a =>
      have passed : m.Passes := Option.isSome_of_eq_some ho
      rw [bind_of_outcome ho]
      exact (first.append (next a)).mono fun h => ⟨passed, h⟩

theorem Notes.after {m : Checked α} {f : α → Checked β} (first : m.Notes [])
    (next : ∀ a, (f a).Notes all) : (m >>= f).Notes all :=
  first.bind next

theorem Notes.before {m : Checked α} {f : α → Checked β} (first : m.Notes all)
    (next : ∀ a, (f a).Notes []) : (m >>= f).Notes all := by
  have whole := first.bind next
  rwa [List.append_nil] at whole

theorem Notes.both {m n : Checked Unit} (first : m.Notes all) (second : n.Notes more) :
    (both m n).Notes (all ++ more) :=
  (Noted.append first second).mono passes_both_iff.1

end Checked

open Checked (Notes)

namespace Scope

variable (s : Scope)

theorem checkType_notes (e : Expr) (rule : Ty → Bool) (loc : Location) (finding : Ty → Finding) :
    (s.checkType e rule loc finding).Notes [] :=
  .judges (typeRule_judges (s.typeOf? e) rule loc finding)

theorem checkIndexType_notes (index : Expr) (loc : Location) :
    (s.checkIndexType index loc).Notes [] := by
  unfold checkIndexType
  split
  · exact .pure ()
  · exact s.checkType_notes _ _ _ _

theorem checkSignature_notes (loc : Location) (target : Expr) (method : String)
    (args : List Expr) : (s.checkSignature loc target method args).Notes [] := by
  rw [← signatureRule_of_told s loc target method (fun _ _ => rfl)]
  exact .judges (signatureRule_judges _ _ _ _ _ _)

theorem checkOperator_notes (link : Link) (left right : Option Ty) :
    (checkOperator link left right).Notes [(link.tag.id, link.op.resultType)] := by
  simp only [checkOperator]
  split
  · exact .fail _ _
  · exact ⟨.refl _, fun _ => rfl⟩

mutual

theorem checkExpr_notes : ∀ (e : Expr) (pos : Position), (s.checkExpr e pos).Notes e.operatorTypes
  | .int .., _ | .bool .., _ | .newObject .., _ => by
      rw [checkExpr]
      exact .pure ()
  | .name .., _ => by
      rw [checkExpr]
      exact .judges (checkName_judges _ _ _ _)
  | .this _, _ => by
      rw [checkExpr]
      exact .judges (.failIf _ _ _)
  | .binary _ _ lhs rhs, _ => by
      rw [checkExpr_binary]
      exact (checkExpr_notes lhs _).bind fun _ => (checkExpr_notes rhs _).bind fun _ =>
        (Notes.judges (checkConditionLink_judges _ _ _ _)).after fun _ =>
          (checkOperator_notes _ _ _).before fun _ => .pure ()
  | .not _ operand, _ => by
      rw [checkExpr]
      exact (checkExpr_notes operand _).before fun _ => s.checkType_notes _ _ _ _
  | .index _ array index, _ => by
      rw [checkExpr]
      exact (checkExpr_notes array _).bind fun _ =>
        (Notes.judges (arrayRule_judges (s.typeOf? array) _ _)).after fun _ =>
          (checkExpr_notes index _).before fun _ => s.checkIndexType_notes _ _
  | .length _ array, _ => by
      rw [checkExpr]
      exact (checkExpr_notes array _).before fun _ => s.checkType_notes _ _ _ _
  | .call _ target method args, _ => by
      rw [checkExpr_call, checkCallee]
      refine Notes.bind ?_ fun _ => (checkArguments_notes args).before fun _ =>
        s.checkSignature_notes _ _ _ _
      split
      · rename_i receiver
        rw [Expr.operatorTypes_of_isThis receiver]
        exact .judges (checkReceiver_judges _ _ _)
      · exact checkExpr_notes target _
  | .newArray _ size, _ => by
      rw [checkExpr]
      exact (checkExpr_notes size _).before fun _ => s.checkType_notes _ _ _ _
  | .paren _ inner, pos => by
      rw [checkExpr_paren]
      exact checkExpr_notes inner pos

theorem checkArguments_notes : ∀ args : List Expr,
    (s.checkArguments args).Notes (Expr.operatorTypesIn args)
  | [] => by
      rw [checkArguments]
      exact .pure ()
  | arg :: args => by
      rw [checkArguments]
      exact (checkExpr_notes arg _).both (checkArguments_notes args)

end

/-! ## Statements -/

theorem checkCondition_notes (condition : Expr) (statement : Conditional) :
    (s.checkCondition condition statement).Notes condition.operatorTypes := by
  have inside := s.checkExpr_notes condition.unparen
  rw [condition.operatorTypes_unparen] at inside
  unfold checkCondition
  split
  · rename_i hu
    have whole := inside (.condition statement)
    rwa [hu, checkExpr] at whole
  · rename_i hu
    have whole := inside .value
    rwa [hu] at whole
  · exact (inside .value).before fun _ => s.checkType_notes _ _ _ _

theorem checkAssign_notes (loc : Location) (target : String) (value : Expr) :
    (s.checkAssign loc target value).Notes value.operatorTypes := by
  unfold checkAssign
  split
  · exact .fail _ _
  · exact (Notes.judges (.failIf _ _ _)).after fun _ =>
      (s.checkExpr_notes value _).before fun _ => s.checkType_notes _ _ _ _

theorem checkAssignElement_notes (loc : Location) (target : String) (index value : Expr) :
    (s.checkAssignElement loc target index value).Notes
      (index.operatorTypes ++ value.operatorTypes) := by
  unfold checkAssignElement
  split
  · exact .fail _ _
  · exact (Notes.judges (.failIf _ _ _)).after fun _ =>
      (Notes.judges (checkElementTarget_judges _ _ _)).after fun _ =>
        (s.checkExpr_notes index _).bind fun _ => (s.checkIndexType_notes _ _).after fun _ =>
          (s.checkExpr_notes value _).before fun _ => s.checkType_notes _ _ _ _

theorem checkReturn_notes (loc : Location) (value : Option Expr) :
    (s.checkReturn loc value).Notes (Expr.operatorTypesIn value.toList) := by
  unfold checkReturn
  split
  · exact .fail _ _
  · cases value with
    | none => exact .judges (.failIf _ _ _)
    | some e =>
        have whole := (s.checkExpr_notes e .value).before fun _ =>
          s.checkType_notes e
            (fun found => found == s.expectedReturn || s.isExternalCall e) loc
            (.incompatibleReturnType s.method s.expectedReturn)
        rwa [Option.toList_some, Expr.operatorTypesIn, Expr.operatorTypesIn, List.append_nil]

mutual

theorem checkStmt_notes : ∀ stmt : Stmt,
    Noted (s.Accepts stmt) (s.checkStmt stmt).types stmt.operatorTypes
  | .block _ body => checkStmts_notes body
  | .ifThen _ condition thenBranch =>
      (s.checkCondition_notes condition _).append (checkStmt_notes thenBranch)
  | .ifElse _ condition thenBranch elseBranch =>
      (s.checkCondition_notes condition _).append
        ((checkStmt_notes thenBranch).append (checkStmt_notes elseBranch))
  | .while _ condition body =>
      (s.checkCondition_notes condition _).append (checkStmt_notes body)
  | .expr e => s.checkExpr_notes e _
  | .assign _ _ _ => s.checkAssign_notes _ _ _
  | .assignElement _ _ _ _ => s.checkAssignElement_notes _ _ _ _
  | .return _ _ => s.checkReturn_notes _ _

theorem checkStmts_notes : ∀ stmts : List Stmt,
    Noted (s.AcceptsAll stmts) (s.checkStmts stmts).types (Stmt.operatorTypesIn stmts)
  | [] => ⟨.refl _, fun _ => rfl⟩
  | stmt :: stmts => (checkStmt_notes stmt).append (checkStmts_notes stmts)

end

end Scope

/-! ## Programs -/

namespace Analysis

theorem checkMethods_notes (table : SymbolTable) : ∀ ms : List Method,
    Noted (∀ m ∈ ms, (Scope.ofMethod table m).AcceptsAll m.body) (checkMethods table ms).types
      (Method.operatorTypesIn ms)
  | [] => ⟨.refl _, fun _ => rfl⟩
  | m :: ms => (((Scope.ofMethod table m).checkStmts_notes m.body).append
      (checkMethods_notes table ms)).mono List.forall_mem_cons.1

/-- The analysis notes some operators of a program, and all of them if it breaks no rule. -/
theorem types_noted (p : Program) :
    Noted ((ofProgram p).hasErrors = false) (ofProgram p).types
      (Method.operatorTypesIn p.methods) :=
  (checkMethods_notes (.ofProgram p) p.methods).mono accepts_of_no_errors

/-- What is noted of a program is the number and the result type of one of its operators. -/
theorem operator_of_mem_types {p : Program} {entry : Nat × Ty}
    (h : entry ∈ (ofProgram p).types) :
    ∃ tag op lhs rhs, .binary tag op lhs rhs ∈ p.occurrences ∧
      entry = (tag.id, op.resultType) := by
  have noted := p.operatorTypes_perm.mem_iff.1 ((types_noted p).sublist.subset h)
  obtain ⟨e, he, shown⟩ := List.mem_filterMap.1 noted
  obtain ⟨tag, op, lhs, rhs, rfl, same⟩ := Expr.operatorType?_eq_some shown
  exact ⟨tag, op, lhs, rhs, he, same⟩

section Distinct

variable {p : Program} (distinct : (p.occurrences.map Expr.id).Nodup)
include distinct

/-- Where all expressions have different numbers, no number is noted twice. -/
theorem nodup_types : ((ofProgram p).types.map Prod.fst).Nodup := by
  have numbers : (p.occurrences.filterMap Expr.operatorType?).map Prod.fst =
      (p.occurrences.filter fun e => e.operatorType?.isSome).map Expr.id := by
    induction p.occurrences with
    | nil => rfl
    | cons e es ih =>
        cases e <;> simp only [List.filterMap_cons, List.filter_cons, Expr.operatorType?,
          Option.isSome_some, Option.isSome_none, if_true, Bool.false_eq_true, if_false,
          List.map_cons, ih]
        rfl
  refine List.Nodup.sublist ((types_noted p).sublist.map Prod.fst) ?_
  rw [(p.operatorTypes_perm.map Prod.fst).nodup_iff, numbers]
  exact distinct.sublist (List.filter_sublist.map Expr.id)

/-- Then what has been noted under a number is what is found there. -/
theorem noted?_of_mem {entry : Nat × Ty} (h : entry ∈ (ofProgram p).types) :
    noted? (ofProgram p).types entry.1 = some entry.2 := by
  cases found : noted? (ofProgram p).types entry.1 with
  | none =>
      have absent := List.lookup_eq_none_iff.1 found entry (List.mem_reverse.2 h)
      simp at absent
  | some t =>
      have same := List.inj_on_of_nodup_map (nodup_types distinct) h (mem_of_noted found) rfl
      rw [same]

/-- Then the analyzer, which looks at what it has noted, finds what the checks find. -/
theorem analyzer_finds :
    Analyzer.ofProgram p = ⟨(ofProgram p).reports, (ofProgram p).types⟩ :=
  (Analyzer.checkMethods_adds distinct (.ofProgram p)
    (fun _ hm _ hx => Program.mem_occurrences hm hx) .none (notedRightly_nil _)).1

end Distinct

/-- The types that are noted of a program that is read, by the analyzer and by the checks alike.  Each
belongs to one expression, an operator, and is that of its result, and no expression has two.  If the
program breaks no rule, every operator at any depth has one. -/
theorem annotations_exact {ts : List Lexeme} {p : Program}
    (parsed : Program.ofLexemes ts = .ok p) :
    Analyzer.ofProgram p = ⟨(ofProgram p).reports, (ofProgram p).types⟩ ∧
    (∀ entry ∈ (ofProgram p).types, ∃ tag op lhs rhs,
      .binary tag op lhs rhs ∈ p.occurrences ∧
      entry = (tag.id, match op with
        | .add | .sub | .mul | .div => .int
        | .lt | .and => .boolean) ∧
      ∀ e ∈ p.occurrences, e.id = entry.1 → e = .binary tag op lhs rhs) ∧
    ((ofProgram p).types.map Prod.fst).Nodup ∧
    ((ofProgram p).hasErrors = false →
      (ofProgram p).types = Method.operatorTypesIn p.methods ∧
      ∀ tag op lhs rhs, .binary tag op lhs rhs ∈ p.occurrences →
        noted? (ofProgram p).types tag.id = some op.resultType) := by
  have distinct := Program.nodup_of_ofLexemes parsed
  refine ⟨analyzer_finds distinct, ?_, nodup_types distinct, ?_⟩
  · intro entry hentry
    obtain ⟨tag, op, lhs, rhs, here, rfl⟩ := operator_of_mem_types hentry
    refine ⟨tag, op, lhs, rhs, here, ?_, fun e he same => ?_⟩
    · cases op <;> rfl
    · exact List.inj_on_of_nodup_map distinct he here same
  · intro accepted
    have all := (types_noted p).complete accepted
    refine ⟨all, fun tag op lhs rhs here => ?_⟩
    have noted : (tag.id, op.resultType) ∈ (ofProgram p).types := by
      rw [all, p.operatorTypes_perm.mem_iff]
      exact List.mem_filterMap.2 ⟨_, here, rfl⟩
    exact noted?_of_mem distinct noted

/-- Operators in a size, an index, an argument, a receiver, a condition, under a negation, in
parentheses and to the right of another one. -/
theorem annotations_exact_of_every_place :
    ∃ ts p, lex "class A { public int g(int x) { return x; } public int f(int x, boolean b) { int[] a; a = new int[x + 1]; a[x - 1] = a[2 * (x + 3)]; while (!(x < 1 && b)) x = this.g(x / 2).g(0); return x + a[0] * 4; } }" =
          .ok ts ∧ Program.ofLexemes ts = .ok p ∧ (ofProgram p).hasErrors = false ∧
      (ofProgram p).types.length = 9 ∧
      (ofProgram p).types = Method.operatorTypesIn p.methods ∧
      ∀ tag op lhs rhs, .binary tag op lhs rhs ∈ p.occurrences →
        noted? (ofProgram p).types tag.id = some op.resultType := by
  obtain ⟨p, hp, ht⟩ := Compiler.exists_of_any
    (Program.ofText "class A { public int g(int x) { return x; } public int f(int x, boolean b) { int[] a; a = new int[x + 1]; a[x - 1] = a[2 * (x + 3)]; while (!(x < 1 && b)) x = this.g(x / 2).g(0); return x + a[0] * 4; } }")
    (fun p => !(ofProgram p).hasErrors && (ofProgram p).types.length == 9) (by decide +kernel)
  simp only [Bool.and_eq_true, Bool.not_eq_true', beq_iff_eq] at ht
  obtain ⟨ts, lexed, parsed⟩ := exists_of_bind hp
  obtain ⟨-, -, -, complete⟩ := annotations_exact parsed
  exact ⟨ts, p, lexed, parsed, ht.1, ht.2, complete ht.1⟩

end Analysis

end JavaMinus
