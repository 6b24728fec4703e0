/-
# Types of returned values

A `return` is checked against the type that the table has for the method's name, and its value is
lowered where that type is expected.  The value then has the type, or is an operator in a method
that returns a number or a truth value (`loweredType_of_checkReturn`), with two exceptions: an
element of an array whose type the checks cannot tell is lowered as an integer, and the result of a
call to an imported class is taken on trust, also where the class has imported its own name.
-/
import JavaMinus.Proofs.Lowering.Returns
import JavaMinus.Proofs.Typing.Agreement
import JavaMinus.Proofs.Typing.Arguments

namespace JavaMinus

open Source

/-- The types of integers and of truth values. -/
def Ty.isNumber (t : Ty) : Bool := t == .int || t == .boolean

theorem Ty.eq_of_isNumber {t : Ty} (h : t.isNumber = true) : t = .int ∨ t = .boolean := by
  rwa [isNumber, Bool.or_eq_true, beq_iff_eq, beq_iff_eq] at h

namespace Source

mutual

theorem Stmt.valueNames_of_returned {e : Expr} : ∀ stmt : Stmt, some e ∈ stmt.returned →
    e.valueNames ⊆ stmt.valueNames
  | .block _ body, h => Stmt.valueNames_of_returnedIn body h
  | .ifThen _ _ thenBranch, h =>
      List.Subset.trans (thenBranch.valueNames_of_returned h) (List.subset_append_right _ _)
  | .ifElse _ _ thenBranch elseBranch, h => by
      refine List.Subset.trans ?_ (List.subset_append_right _ _)
      rcases List.mem_append.1 h with h | h
      · exact List.Subset.trans (thenBranch.valueNames_of_returned h) (List.subset_append_left _ _)
      · exact List.Subset.trans (elseBranch.valueNames_of_returned h) (List.subset_append_right _ _)
  | .while _ _ body, h =>
      List.Subset.trans (body.valueNames_of_returned h) (List.subset_append_right _ _)
  | .return _ value, h => by
      obtain rfl := List.mem_singleton.1 h
      exact List.subset_append_left _ _
  | .expr _, h | .assign .., h | .assignElement .., h => absurd h List.not_mem_nil

/-- The names in a returned expression are among those that the statements use. -/
theorem Stmt.valueNames_of_returnedIn {e : Expr} : ∀ stmts : List Stmt,
    some e ∈ Stmt.returnedIn stmts → e.valueNames ⊆ Stmt.valueNamesIn stmts
  | stmt :: stmts, h => by
      rcases List.mem_append.1 h with h | h
      · exact List.Subset.trans (stmt.valueNames_of_returned h) (List.subset_append_left _ _)
      · exact List.Subset.trans (Stmt.valueNames_of_returnedIn stmts h)
          (List.subset_append_right _ _)
  | [], h => absurd h List.not_mem_nil

end

end Source

namespace Scope

variable {s : Scope}

mutual

theorem checkReturn_of_accepts : ∀ stmt : Stmt, s.Accepts stmt → ∀ value ∈ stmt.returned,
    ∃ loc, (s.checkReturn loc value).Passes
  | .block _ body, h => checkReturn_of_acceptsAll body h
  | .ifThen _ _ thenBranch, h => checkReturn_of_accepts thenBranch h.2
  | .ifElse _ _ thenBranch elseBranch, h => List.forall_mem_append.2
      ⟨checkReturn_of_accepts thenBranch h.2.1, checkReturn_of_accepts elseBranch h.2.2⟩
  | .while _ _ body, h => checkReturn_of_accepts body h.2
  | .return loc _, h => List.forall_mem_singleton.2 ⟨loc, h⟩
  | .expr _, _ | .assign .., _ | .assignElement .., _ => List.forall_mem_nil _

theorem checkReturn_of_acceptsAll : ∀ stmts : List Stmt, s.AcceptsAll stmts →
    ∀ value ∈ Stmt.returnedIn stmts, ∃ loc, (s.checkReturn loc value).Passes
  | [], _ => List.forall_mem_nil _
  | stmt :: stmts, h => List.forall_mem_append.2
      ⟨checkReturn_of_accepts stmt h.1, checkReturn_of_acceptsAll stmts h.2⟩

end

/-- Nothing is returned without a value, but where the name of the type is `void`. -/
theorem isVoid_of_checkReturn {loc : Location} (h : (s.checkReturn loc none).Passes) :
    s.isMain = false ∧ s.expectedReturn.isVoid = true := by
  rw [checkReturn] at h
  split at h
  · exact absurd h (Checked.not_passes_fail _ _)
  · rename_i other
    exact ⟨Bool.eq_false_iff.2 other, by simpa using Checked.passes_failIf_iff.1 h⟩

theorem rule_of_checkReturn {loc : Location} {e : Expr} (h : (s.checkReturn loc (some e)).Passes) :
    s.isMain = false ∧ (s.checkExpr e .value).Passes ∧
      ∀ t, s.typeOf? e = some t → t = s.expectedReturn ∨ s.isExternalCall e = true := by
  rw [checkReturn] at h
  split at h
  · exact absurd h (Checked.not_passes_fail _ _)
  · rename_i other
    rw [Checked.passes_seq_iff] at h
    refine ⟨Bool.eq_false_iff.2 other, h.1, fun t ht => ?_⟩
    have rule := rule_of_checkType h.2 t ht
    rwa [Bool.or_eq_true, beq_iff_eq] at rule

theorem called?_of_isImportedTarget {target : Expr} (method : String)
    (other : s.table.hasImport s.table.className = false) (h : s.isImportedTarget target = true) :
    Expr.called? s target method = none := by
  rw [Expr.called?, Expr.signature?, if_neg]
  intro own
  cases names : target.namesClass s with
  | true =>
      rw [names, if_pos rfl] at own
      cases own
  | false =>
      rw [names, if_neg Bool.false_ne_true, Option.some.injEq] at own
      cases hname : target.asName? with
      | none => simp [isImportedTarget, hname] at h
      | some text =>
          have declared : s.isDeclaredTarget target = true := by
            rw [Expr.namesClass, hname] at names
            rw [isDeclaredTarget, hname]
            exact Option.isNone_eq_false_iff.1 names
          obtain ⟨t, is⟩ := exists_isVariable target declared
          obtain ⟨text, hname, type⟩ := is.named
          simp only [isImportedTarget, hname, type, Bool.and_eq_true] at h
          rw [← is.lowered none, own] at h
          exact absurd h.2 (Bool.eq_false_iff.1 other)

/-- An operator is lowered as a number or a truth value, in parentheses or not. -/
theorem isNumber_loweredType (expected : Option Ty) : ∀ e : Expr, e.unparen.isBinary = true →
    (e.loweredType s expected).isNumber = true
  | .binary _ op _ _, _ => by cases op <;> rfl
  | .paren _ inner, h => isNumber_loweredType expected inner h
  | .int .., h | .bool .., h | .name .., h | .this _, h | .not .., h | .index .., h | .length .., h
  | .call .., h | .newArray .., h | .newObject .., h => nomatch h

theorem resultType?_of_unparen : ∀ e : Expr, e.unparen.isBinary = false → e.resultType? = none
  | .paren _ inner, h => resultType?_of_unparen inner h
  | .binary .., h => nomatch h
  | .int .., _ | .bool .., _ | .name .., _ | .this _, _ | .not .., _ | .index .., _
  | .length .., _ | .call .., _ | .newArray .., _ | .newObject .., _ => rfl

/-- The types of a returned expression that has passed its check: the one that is expected, or, of
an operator, a number or a truth value, and so is what is expected. -/
theorem loweredType_of_checkReturn (other : s.table.hasImport s.table.className = false) :
    ∀ e : Expr, (∀ n ∈ e.valueNames, (s.lookup n).isSome) → (s.checkExpr e .value).Passes →
      (∀ t, s.typeOf? e = some t → t = s.expectedReturn ∨ s.isExternalCall e = true) →
      (isElement e = true →
        ∃ t, s.typeOf? e = some t ∧ e.isAgreed s (some s.expectedReturn) = true) →
      e.loweredType s (some s.expectedReturn) = s.expectedReturn ∨
        ((e.loweredType s (some s.expectedReturn)).isNumber = true ∧
          s.expectedReturn.isNumber = true)
  | .name tag text, declared, _, rule, _ => by
      obtain ⟨found, hfound⟩ := Option.isSome_iff_exists.1 (declared text List.mem_cons_self)
      have type : s.variableType? text = some found.symbol.type := by
        rw [variableType?, SymbolTable.variableType?,
          show s.table.lookup s.method text = _ from hfound,
          Option.map_some]
      refine .inl ?_
      rw [Expr.loweredType, type]
      exact (rule _ type).resolve_right Bool.false_ne_true
  | .index tag array i, _, passes, rule, told => by
      obtain ⟨t, type, agreed⟩ := told rfl
      refine .inl ?_
      rw [(loweredType_eq_iff _ _ (.inr ⟨_, passes⟩) type).2 agreed]
      exact (rule t type).resolve_right Bool.false_ne_true
  | .call tag target method args, _, _, rule, _ => by
      refine .inl ?_
      cases declared : s.table.returnType? method with
      | none => exact loweredType_call_unknown tag target method args _ declared
      | some t =>
          rw [loweredType_call tag target method args _ declared]
          rcases rule t declared with rfl | external
          · exact ite_self _
          · rw [called?_of_isImportedTarget method other external]
            rfl
  | .binary tag op lhs rhs, _, _, rule, _ => by
      refine .inl ?_
      exact (rule op.resultType rfl).resolve_right Bool.false_ne_true
  | .paren tag inner, declared, passes, rule, told => by
      cases hb : inner.unparen.isBinary with
      | true =>
          refine .inr ⟨?_, ?_⟩
          · exact isNumber_loweredType _ (.paren tag inner) hb
          · have external := isExternalCall_of_operator (s := s) (.paren tag inner) hb
            rcases typeOf?_of_operator (.paren tag inner) _ passes hb with type | type
            · have same := (rule _ type).resolve_right (by rw [external]; exact Bool.false_ne_true)
              rw [← same]
              rfl
            · have same := (rule _ type).resolve_right (by rw [external]; exact Bool.false_ne_true)
              rw [← same]
              rfl
      | false =>
          rw [typeOf?_paren (isBinary_of_unparen hb)] at rule
          rw [checkExpr_paren] at passes
          refine loweredType_of_checkReturn other inner declared passes rule fun element => ?_
          obtain ⟨t, type, agreed⟩ := told element
          rw [typeOf?_paren (isBinary_of_unparen hb)] at type
          rw [Expr.isAgreed, resultType?_of_unparen inner hb] at agreed
          exact ⟨t, type, agreed⟩
  | .int .., _, _, rule, _ | .bool .., _, _, rule, _ | .this _, _, _, rule, _
  | .not .., _, _, rule, _ | .length .., _, _, rule, _ | .newArray .., _, _, rule, _
  | .newObject .., _, _, rule, _ =>
      .inl ((rule _ rfl).resolve_right Bool.false_ne_true)

end Scope

end JavaMinus
