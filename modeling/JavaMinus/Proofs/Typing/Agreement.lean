/-
# Where checks and lowering agree on types

The checks take the type of an expression from `Scope.typeOf?`, the generator lowers it under
`Expr.loweredType`, and neither asks the other.  In an accepted program the two are the same but for
two forms, which `Expr.isAgreed` finds:

    (a < b)     The checks ask the parentheses for what stands in them by itself first, and by itself
                an operator has the type of its operands; the generator takes parentheses off.
    x.f()       The checks look for `f` by its name, whatever `x` is; the generator first asks whether
                `x` is an object of the own class, and if not returns what the context expects.

An access to an array hands on what its array is.
-/
import JavaMinus.Proofs.Lowering.Names
import JavaMinus.Proofs.Lowering.Places
import JavaMinus.Proofs.Parentheses.Types
import JavaMinus.Proofs.Typing.Occurrences

namespace JavaMinus

open Source

theorem Ty.eq_of_element {t u : Ty} (ht : t.isArray = true) (hu : u.isArray = true)
    (h : t.element = u.element) : t = u := by
  cases t
  cases u
  cases ht
  cases hu
  cases h
  rfl

namespace Source

/-- The type of the operator that an expression is, parentheses aside. -/
def Expr.resultType? : Expr → Option Ty
  | .binary _ op _ _ => some op.resultType
  | .paren _ inner => inner.resultType?
  | _ => none

/-- Whether the type that the checks ask for is the one under which the expression is lowered where
its context expects a type. -/
def Expr.isAgreed (s : Scope) : Expr → Option Ty → Bool
  | .paren _ inner, expected =>
      match inner.resultType? with
      | some t => inner.ownType?.all (· == t)
      | none => inner.isAgreed s expected
  | .call _ target method _, expected =>
      (Expr.called? s target method).isSome ||
        (s.table.returnType? method).all (· == expected.getD .void)
  | .index _ array _, _ => array.isAgreed s (some .intArray)
  | .int .., _ | .bool .., _ | .name .., _ | .this _, _ | .binary .., _ | .not .., _
  | .length .., _ | .newArray .., _ | .newObject .., _ => true

end Source

namespace Scope

variable {s : Scope}

/-! ## Operators in parentheses -/

theorem isBinary_of_resultType {e : Expr} (h : e.resultType? = none) : e.isBinary = false := by
  cases e with
  | binary => cases h
  | int | bool | name | this | not | index | length | call | newArray | newObject | paren => rfl

theorem typeOf?_paren_operator (tag : Tag) : ∀ (e : Expr) {t : Ty}, e.resultType? = some t →
    s.typeOf? (.paren tag e) = some (e.ownType?.getD t)
  | .binary _ op lhs rhs, t, h => by
      cases h
      rw [typeOf?]
      cases (Expr.binary _ op lhs rhs).ownType? <;> rfl
  | .paren tag' inner, t, h => by
      rw [typeOf?, typeOf?_paren_operator tag' inner h, Expr.ownType?]
      cases inner.ownType? <;> rfl
  | .int .., _, h | .bool .., _, h | .name .., _, h | .this _, _, h | .not .., _, h
  | .index .., _, h | .length .., _, h | .call .., _, h | .newArray .., _, h
  | .newObject .., _, h => nomatch h

theorem loweredType_operator : ∀ (e : Expr) (expected : Option Ty) {t : Ty},
    e.resultType? = some t → e.loweredType s expected = t
  | .binary .., _, _, h => Option.some.inj h
  | .paren _ inner, expected, _, h => loweredType_operator inner expected h
  | .int .., _, _, h | .bool .., _, _, h | .name .., _, _, h | .this _, _, _, h | .not .., _, _, h
  | .index .., _, _, h | .length .., _, _, h | .call .., _, _, h | .newArray .., _, _, h
  | .newObject .., _, _, h => nomatch h

/-! ## Calls -/

/-- A call is lowered under the type that its method returns, or under the one that is expected. -/
theorem loweredType_call (tag : Tag) (target : Expr) (method : String) (args : List Expr)
    (expected : Option Ty) {t : Ty} (ht : s.table.returnType? method = some t) :
    (Expr.call tag target method args).loweredType s expected =
      if (Expr.called? s target method).isSome then t else expected.getD .void := by
  show Lowering.callType (Expr.called? s target method) expected = _
  cases hc : Expr.called? s target method with
  | none => rfl
  | some signature =>
      rw [SymbolTable.returnType?, Lowering.method_of_called hc] at ht
      exact Option.some.inj ht

/-- A call of a method that the class does not have is lowered under the type that is expected. -/
theorem loweredType_call_unknown (tag : Tag) (target : Expr) (method : String) (args : List Expr)
    (expected : Option Ty) (h : s.table.returnType? method = none) :
    (Expr.call tag target method args).loweredType s expected = expected.getD .void := by
  show Lowering.callType (Expr.called? s target method) expected = _
  cases hc : Expr.called? s target method with
  | none => rfl
  | some signature =>
      rw [SymbolTable.returnType?, Lowering.method_of_called hc] at h
      cases h

/-! ## Arrays -/

/-- An expression that the checks take for an array is lowered as one where one is expected. -/
theorem isArray_loweredType : ∀ (e : Expr) {t : Ty}, e.unparen.isBinary = false →
    s.typeOf? e = some t → t.isArray = true → (e.loweredType s (some .intArray)).isArray = true
  | .name _ text, t, _, h, harray => by
      rw [Expr.loweredType, show s.variableType? text = some t from h]
      exact harray
  | .paren tag inner, t, hu, h, harray => by
      have plain : inner.isBinary = false := isBinary_of_unparen (e := inner) hu
      rw [typeOf?_paren plain] at h
      exact isArray_loweredType inner hu h harray
  | .call tag target method args, t, _, h, harray => by
      rw [loweredType_call tag target method args _ h]
      split
      · exact harray
      · rfl
  | .newArray .., _, _, _, _ => rfl
  | .index tag array i, t, _, h, harray => by
      -- An element is no array, whichever way its type is told.
      have element : ∃ u : Ty, t = u.element := by
        rcases Option.or_eq_some_iff.1 h with h | ⟨-, h⟩
        · obtain ⟨u, -, rfl⟩ := Option.map_eq_some_iff.1 h
          exact ⟨u, rfl⟩
        · obtain ⟨u, -, rfl⟩ := Option.map_eq_some_iff.1 h
          exact ⟨u, rfl⟩
      obtain ⟨u, rfl⟩ := element
      cases harray
  | .int .., _, _, h, harray | .bool .., _, _, h, harray | .this _, _, _, h, harray
  | .not .., _, _, h, harray | .length .., _, _, h, harray | .newObject .., _, _, h, harray => by
      cases h
      cases harray
  | .binary .., _, hu, _, _ => nomatch hu

/-! ## Agreement -/

/-- Where an expression has passed the checks, the types agree exactly in the forms that agree. -/
theorem loweredType_eq_iff : ∀ (e : Expr) (expected : Option Ty) {t : Ty}, s.Checks e →
    s.typeOf? e = some t → (e.loweredType s expected = t ↔ e.isAgreed s expected = true)
  | .name _ text, expected, t, _, h => by
      rw [Expr.loweredType, show s.variableType? text = some t from h]
      exact iff_of_true rfl rfl
  | .paren tag inner, expected, t, hc, h => by
      rw [Expr.loweredType, Expr.isAgreed]
      cases hr : inner.resultType? with
      | some u =>
          rw [typeOf?_paren_operator tag inner hr, Option.some.injEq] at h
          subst h
          rw [loweredType_operator inner expected hr]
          cases inner.ownType? with
          | none => exact iff_of_true rfl rfl
          | some own => exact eq_comm.trans beq_iff_eq.symm
      | none =>
          rw [typeOf?_paren (isBinary_of_resultType hr)] at h
          refine loweredType_eq_iff inner expected (hc.imp id fun passes => ?_) h
          obtain ⟨pos, passes⟩ := passes
          exact ⟨pos, s.checkExpr_paren .. ▸ passes⟩
  | .call tag target method args, expected, t, _, h => by
      have returns : s.table.returnType? method = some t := h
      rw [loweredType_call tag target method args expected returns, Expr.isAgreed, returns]
      cases (Expr.called? s target method).isSome with
      | true => exact iff_of_true rfl rfl
      | false => exact eq_comm.trans beq_iff_eq.symm
  | .index tag array i, expected, t, hc, h => by
      obtain receiver | ⟨pos, passes⟩ := hc
      · cases receiver
      rw [checkExpr] at passes
      simp only [Checked.passes_seq_iff] at passes
      obtain ⟨harray, isArray, -, -⟩ := passes
      have hu := array_not_operator harray isArray
      rw [typeOf?_index (isBinary_of_unparen hu)] at h
      obtain ⟨u, type, rfl⟩ := Option.map_eq_some_iff.1 h
      have known := isArray_of_checkArray isArray type
      have lowered := isArray_loweredType array hu type known
      have elements : (array.loweredType s (some .intArray)).element = u.element ↔
          array.loweredType s (some .intArray) = u :=
        ⟨Ty.eq_of_element lowered known, congrArg Ty.element⟩
      exact elements.trans (loweredType_eq_iff array _ (.inr ⟨_, harray⟩) type)
  | .int .., _, _, _, h | .bool .., _, _, _, h | .this _, _, _, _, h | .binary .., _, _, _, h
  | .not .., _, _, _, h | .length .., _, _, _, h | .newArray .., _, _, _, h
  | .newObject .., _, _, _, h => iff_of_true (Option.some.inj h) rfl

/-! ## Places -/

/-- Whether the checks can tell the type of an expression. -/
def hasType (s : Scope) (e : Expr) : Bool := (s.typeOf? e).isSome

theorem untyped_of_namesClass : ∀ e : Expr, e.namesClass s = true →
    e.ownType? = none ∧ s.typeOf? e = none ∧ e.occurrences.filter s.hasType = []
  | .name tag text, h => by
      have undeclared : s.typeOf? (.name tag text) = none := by
        rw [typeOf?, variableType?, SymbolTable.variableType?,
          show s.table.lookup s.method text = none from Option.isNone_iff_eq_none.1 h]
        rfl
      refine ⟨rfl, undeclared, List.filter_eq_nil_iff.2 (List.forall_mem_singleton.2 ?_)⟩
      rw [hasType, undeclared]
      exact Bool.false_ne_true
  | .paren tag inner, h => by
      obtain ⟨own, type, others⟩ := untyped_of_namesClass inner h
      have untyped : s.typeOf? (.paren tag inner) = none := by
        rw [typeOf?, own, type]
        rfl
      refine ⟨own, untyped, ?_⟩
      rw [Expr.occurrences, List.filter_cons_of_neg, others]
      rw [hasType, untyped]
      exact Bool.false_ne_true
  | .int .., h | .bool .., h | .this _, h | .binary .., h | .not .., h | .index .., h
  | .length .., h | .call .., h | .newArray .., h | .newObject .., h => nomatch h

/-- The expressions of a list of places that have a type. -/
def typedPlaces (s : Scope) (xs : List (Expr × Option Ty)) : List Expr :=
  (xs.map Prod.fst).filter s.hasType

theorem typedPlaces_append (xs ys : List (Expr × Option Ty)) :
    s.typedPlaces (xs ++ ys) = s.typedPlaces xs ++ s.typedPlaces ys := by
  rw [typedPlaces, List.map_append, List.filter_append]
  rfl

theorem typedPlaces_cons {e : Expr} {expected : Option Ty} {xs : List (Expr × Option Ty)}
    {es : List Expr} (h : s.typedPlaces xs = es.filter s.hasType) :
    s.typedPlaces ((e, expected) :: xs) = (e :: es).filter s.hasType := by
  rw [typedPlaces, List.map_cons, List.filter_cons, List.filter_cons, ← h]
  rfl

theorem typedPlaces_both {xs ys : List (Expr × Option Ty)} {es es' : List Expr}
    (hx : s.typedPlaces xs = es.filter s.hasType) (hy : s.typedPlaces ys = es'.filter s.hasType) :
    s.typedPlaces (xs ++ ys) = (es ++ es').filter s.hasType := by
  rw [typedPlaces_append, hx, hy, List.filter_append]

mutual

theorem typedPlaces_lowerings : ∀ (e : Expr) (expected : Option Ty),
    s.typedPlaces (e.lowerings s expected) = e.occurrences.filter s.hasType
  | .int .., _ | .bool .., _ | .name .., _ | .this _, _ | .newObject .., _ => rfl
  | .binary _ _ lhs rhs, _ =>
      typedPlaces_cons (typedPlaces_both (typedPlaces_lowerings lhs _) (typedPlaces_lowerings rhs _))
  | .index _ array i, _ =>
      typedPlaces_cons (typedPlaces_both (typedPlaces_lowerings array _) (typedPlaces_lowerings i _))
  | .not _ inner, _ | .length _ inner, _ | .newArray _ inner, _ | .paren _ inner, _ =>
      typedPlaces_cons (typedPlaces_lowerings inner _)
  | .call _ target method args, _ => by
      refine typedPlaces_cons (typedPlaces_both ?_ (typedPlaces_loweringsIn args _))
      split
      · rename_i names
        rw [(untyped_of_namesClass target names).2.2]
        rfl
      · exact typedPlaces_lowerings target none

theorem typedPlaces_loweringsIn : ∀ (args : List Expr) (params : List Symbol),
    s.typedPlaces (Expr.loweringsIn s args params) = (Expr.occurrencesIn args).filter s.hasType
  | [], _ => rfl
  | arg :: args, _ =>
      typedPlaces_both (typedPlaces_lowerings arg _) (typedPlaces_loweringsIn args _)

end

mutual

theorem typedPlaces_of_stmt : ∀ stmt : Stmt,
    s.typedPlaces (stmt.lowerings s) = stmt.occurrences.filter s.hasType
  | .block _ body => typedPlaces_of_stmts body
  | .ifThen _ condition thenBranch =>
      typedPlaces_both (typedPlaces_lowerings condition _) (typedPlaces_of_stmt thenBranch)
  | .ifElse _ condition thenBranch elseBranch =>
      typedPlaces_both (typedPlaces_lowerings condition _)
        (typedPlaces_both (typedPlaces_of_stmt thenBranch) (typedPlaces_of_stmt elseBranch))
  | .while _ condition body =>
      typedPlaces_both (typedPlaces_lowerings condition _) (typedPlaces_of_stmt body)
  | .expr e => typedPlaces_lowerings e none
  | .assign _ _ value => typedPlaces_lowerings value _
  | .assignElement _ _ index value =>
      typedPlaces_both (typedPlaces_lowerings index _) (typedPlaces_lowerings value _)
  | .return _ none => rfl
  | .return _ (some value) => by
      rw [Stmt.lowerings, typedPlaces_lowerings, Stmt.occurrences, Option.toList_some,
        Expr.occurrencesIn, Expr.occurrencesIn, List.append_nil]

/-- What is lowered are the expressions that occur, as far as their types can be told. -/
theorem typedPlaces_of_stmts : ∀ stmts : List Stmt,
    s.typedPlaces (Stmt.loweringsIn s stmts) = (Stmt.occurrencesIn stmts).filter s.hasType
  | [] => rfl
  | stmt :: stmts => typedPlaces_both (typedPlaces_of_stmt stmt) (typedPlaces_of_stmts stmts)

end

theorem occurs_of_lowered {stmts : List Stmt} {x : Expr × Option Ty}
    (hx : x ∈ Stmt.loweringsIn s stmts) {t : Ty} (h : s.typeOf? x.1 = some t) :
    x.1 ∈ Stmt.occurrencesIn stmts := by
  have typed : s.hasType x.1 = true := Option.isSome_of_eq_some h
  have placed : x.1 ∈ s.typedPlaces (Stmt.loweringsIn s stmts) :=
    List.mem_filter.2 ⟨List.mem_map_of_mem hx, typed⟩
  rw [typedPlaces_of_stmts] at placed
  exact List.mem_of_mem_filter placed

end Scope

namespace Lowering

theorem Looks.succeeds {α : Type} {table : SymbolTable} {method : String} {names : List String}
    {m : Lowering α} (hm : Looks table method names m)
    (declared : ∀ n ∈ names, (table.lookup method n).isSome) {c : Cursor}
    (hc : c.method = method) : ∃ a c' w, m.run c = ⟨.ok a, c', w⟩ := by
  obtain ⟨-, explained⟩ := hm.of_declared declared c hc
  rcases run : m.run c with ⟨outcome, c', w⟩
  rw [run] at explained
  cases outcome with
  | ok a => exact ⟨a, c', w, rfl⟩
  | error e =>
      obtain ⟨u, hu, -⟩ := explained
      cases hu

end Lowering

namespace Analysis

open Lowering

variable {p : Program} {m : Method} {s : Scope}

/-- The types of an accepted program.  What is lowered with a body are, as far as the checks can tell
their types, the expressions that occur in it; and each leaves an operand of the type that the
checks ask for exactly if it is of a form that agrees, taken by itself and in the lines of the
body. -/
theorem types_agree_iff (h : (ofProgram p).hasErrors = false) (hm : m ∈ p.methods)
    (hs : s = Scope.ofMethod (.ofProgram p) m) :
    s.typedPlaces (Stmt.loweringsIn s m.body) = (Stmt.occurrencesIn m.body).filter s.hasType ∧
    (∀ x ∈ Stmt.loweringsIn s m.body, ∀ t, s.typeOf? x.1 = some t →
      (∀ n ∈ x.1.valueNames, (s.lookup n).isSome) → ∀ c : Cursor, c.method = m.name →
        ∃ v c' w, (lowerOperand s.table x.1 x.2).run c = ⟨.ok v, c', w⟩ ∧
          (v.type = t ↔ x.1.isAgreed s x.2 = true)) ∧
    ((∀ n ∈ Stmt.valueNamesIn m.body, (s.lookup n).isSome) → ∀ c : Cursor, c.method = m.name →
      ∃ c' w, (lowerBody s.table m).run c = ⟨.ok (), c', w⟩ ∧
        ∀ x ∈ Stmt.loweringsIn s m.body, ∃ t, LoweredIn s w x t ∧
          ∀ t', s.typeOf? x.1 = some t' → (t = t' ↔ x.1.isAgreed s x.2 = true)) := by
  have accepts : s.AcceptsAll m.body := hs ▸ accepts_of_no_errors h m hm
  have here : s.method = m.name := congrArg Scope.method hs
  have agree : ∀ x ∈ Stmt.loweringsIn s m.body, ∀ t, s.typeOf? x.1 = some t →
      (x.1.loweredType s x.2 = t ↔ x.1.isAgreed s x.2 = true) := by
    intro x hx t ht
    have checks := s.checks_of_acceptsAll m.body accepts x.1 (Scope.occurs_of_lowered hx ht)
    exact Scope.loweredType_eq_iff x.1 x.2 checks ht
  refine ⟨Scope.typedPlaces_of_stmts m.body, ?_, ?_⟩
  · intro x hx t ht declared c hc
    have inside : c.method = s.method := hc.trans here.symm
    obtain ⟨v, c', w, run⟩ := (lowerOperand_looks x.1 x.2).succeeds declared inside
    obtain ⟨-, -, type⟩ := lowerOperand_covers x.1 x.2 c v c' w inside run
    exact ⟨v, c', w, run, type ▸ agree x hx t ht⟩
  · intro declared c hc
    have inside : c.method = s.method := hc.trans here.symm
    have targets : ∀ n ∈ Stmt.targetsIn m.body, (s.table.lookup s.method n).isSome :=
      hs ▸ (known_of_no_errors h).1 m hm
    obtain ⟨a, c', w, run⟩ := (lowerBody_looks targets).succeeds declared inside
    obtain ⟨-, lowered, -⟩ := lowerBody_covers m c a c' w inside run
    exact ⟨c', w, run, fun x hx => ⟨_, lowered x hx, agree x hx⟩⟩

/-- Operators and calls in parentheses, an element of an array, and a call to another class. -/
theorem types_agree_of_every_form :
    ∃ p m s, Program.ofText
        "import io; class A { int n; public int f(int[] a) { int x; x = (n + a[0]) - (this.f(a)); if (!(true && x < 9)) io.put(x); else x = io.get(); return x; } }" =
          .ok p ∧ (ofProgram p).hasErrors = false ∧ m ∈ p.methods ∧
      s = Scope.ofMethod (.ofProgram p) m ∧ (s.typedPlaces (Stmt.loweringsIn s m.body)).length = 20 ∧
      ∀ c : Cursor, c.method = m.name → ∃ c' w, (lowerBody s.table m).run c = ⟨.ok (), c', w⟩ ∧
        ∀ x ∈ Stmt.loweringsIn s m.body, ∃ t, LoweredIn s w x t ∧
          ∀ t', s.typeOf? x.1 = some t' → t = t' := by
  obtain ⟨p, hp, ht⟩ := Compiler.exists_of_any
    (Program.ofText
      "import io; class A { int n; public int f(int[] a) { int x; x = (n + a[0]) - (this.f(a)); if (!(true && x < 9)) io.put(x); else x = io.get(); return x; } }")
    (fun p => !(ofProgram p).hasErrors && p.methods.any fun m =>
      let s := Scope.ofMethod (.ofProgram p) m
      (s.typedPlaces (Stmt.loweringsIn s m.body)).length == 20 &&
        ((Stmt.valueNamesIn m.body).all fun n => (s.lookup n).isSome) &&
          (Stmt.loweringsIn s m.body).all fun x => x.1.isAgreed s x.2) (by decide +kernel)
  rw [Bool.and_eq_true, Bool.not_eq_true', List.any_eq_true] at ht
  obtain ⟨accepted, m, hm, ht⟩ := ht
  simp only [Bool.and_eq_true, beq_iff_eq, List.all_eq_true] at ht
  obtain ⟨⟨count, declared⟩, agreed⟩ := ht
  refine ⟨p, m, _, hp, accepted, hm, rfl, count, fun c hc => ?_⟩
  obtain ⟨c', w, run, lowered⟩ := (types_agree_iff accepted hm rfl).2.2 declared c hc
  refine ⟨c', w, run, fun x hx => ?_⟩
  obtain ⟨t, there, agree⟩ := lowered x hx
  exact ⟨t, there, fun t' ht' => (agree t' ht').2 (agreed x hx)⟩

/-- A comparison in parentheses is a number for the checks, and a truth value for the generator. -/
theorem types_disagree_of_comparison_in_parentheses :
    ∃ p m s x v c' w, Program.ofText
        "class A { public int g(int x) { return x; } public int f() { return this.g((1 < 2)); } }" =
          .ok p ∧ (ofProgram p).hasErrors = false ∧ m ∈ p.methods ∧
      s = Scope.ofMethod (.ofProgram p) m ∧ x ∈ Stmt.loweringsIn s m.body ∧
      x.1 ∈ Stmt.occurrencesIn m.body ∧ s.typeOf? x.1 = some .int ∧
      (lowerOperand s.table x.1 x.2).run ⟨0, m.name, 0, 0⟩ = ⟨.ok v, c', w⟩ ∧ v.type = .boolean := by
  obtain ⟨p, hp, ht⟩ := Compiler.exists_of_any
    (Program.ofText
      "class A { public int g(int x) { return x; } public int f() { return this.g((1 < 2)); } }")
    (fun p => !(ofProgram p).hasErrors && p.methods.any fun m =>
      let s := Scope.ofMethod (.ofProgram p) m
      (Stmt.loweringsIn s m.body).any fun x => s.typeOf? x.1 == some .int &&
        ((lowerOperand s.table x.1 x.2).run ⟨0, m.name, 0, 0⟩).outcome.toOption.any
          (·.type == .boolean)) (by decide +kernel)
  rw [Bool.and_eq_true, Bool.not_eq_true', List.any_eq_true] at ht
  obtain ⟨accepted, m, hm, ht⟩ := ht
  obtain ⟨x, hx, ht⟩ := List.any_eq_true.1 ht
  rw [Bool.and_eq_true, beq_iff_eq] at ht
  obtain ⟨type, lowered⟩ := ht
  rcases run : (lowerOperand (.ofProgram p) x.1 x.2).run ⟨0, m.name, 0, 0⟩ with ⟨outcome, c', w⟩
  rw [show (Scope.ofMethod (.ofProgram p) m).table = .ofProgram p from rfl, run] at lowered
  have occurs := Scope.occurs_of_lowered hx type
  cases outcome with
  | error e => cases lowered
  | ok v =>
      exact ⟨p, m, _, x, v, c', w, hp, accepted, hm, rfl, hx, occurs, type, run, eq_of_beq lowered⟩

end Analysis

end JavaMinus
