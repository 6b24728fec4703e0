/-
# Calls and signatures

A call on an object of the own class matches if the class declares the method and the arguments are
passed under the descriptors of its parameters (`Expr.matchesSignature`).  The checks see to that
only where they look: at a call on the receiver or on something declared, and there at the arguments
whose type they tell as lowering does (`matchesSignature_of_isSettled`).  A call on a new object, on
the result of another call or on an element of an array goes unchecked, though it is made to the
class all the same.
-/
import JavaMinus.Proofs.Assembly.Owners
import JavaMinus.Proofs.Typing.Arguments
import JavaMinus.Proofs.Typing.Scoping

namespace JavaMinus

open Source

namespace Source

/-- Whether there is an argument for each parameter, passed under its descriptor.  Where the checks
have looked, a plain argument is. -/
def Expr.arePassed (s : Scope) (names : Assembly.ClassNames) (checked : Bool) :
    List Expr → List Symbol → Bool
  | [], [] => true
  | arg :: args, param :: params =>
      (checked && arg.isPlain s ||
          names.descriptor (arg.operandType s (some param.type)) ==
            names.descriptor param.type.read) &&
        arePassed s names checked args params
  | _, _ => false

/-- Whether the expression, if it is a call on an object of the own class, calls a method that the
class declares, with the arguments that it takes. -/
def Expr.matchesSignature (s : Scope) (names : Assembly.ClassNames) : Expr → Bool
  | .call _ target method args =>
      !target.isOwn s || (s.table.method? method).any fun signature =>
        Expr.arePassed s names (target.isChecked s) args signature.params
  | _ => true

/-- Whether the checks see to it that the expression, if it is a call on an object of the own class,
matches: they look at its arguments, and all of them are plain. -/
def Expr.isSettled (s : Scope) : Expr → Bool
  | .call _ target _ args => target.isChecked s && args.all (·.isPlain s)
  | _ => true

/-- The expression is a call of a method, with arguments of such descriptors, on an object of the
own class.  It matches no signature, and the checks do not see to it. -/
def Expr.Escapes (s : Scope) (names : Assembly.ClassNames) (name : String)
    (params : List Assembly.Descriptor) (e : Expr) : Prop :=
  ∃ tag target args, e = .call tag target name args ∧ target.isOwn s = true ∧
    (Expr.operandTypes s args (Expr.expectedParams s target name)).map names.descriptor = params ∧
    e.matchesSignature s names = false ∧ e.isSettled s = false

end Source

def Assembly.ClassNames.descriptors (names : ClassNames) (params : List Symbol) :
    List Descriptor :=
  params.map fun param => names.descriptor param.type.read

namespace Scope

variable {s : Scope} {names : Assembly.ClassNames}

/-! ## Arguments -/

theorem arePassed_iff : ∀ (args : List Expr) (params : List Symbol),
    Expr.arePassed s names false args params = true ↔
      (Expr.operandTypes s args params).map names.descriptor = names.descriptors params
  | [], [] => by simp [Expr.arePassed, Expr.operandTypes, Assembly.ClassNames.descriptors]
  | [], _ :: _ => by simp [Expr.arePassed, Expr.operandTypes, Assembly.ClassNames.descriptors]
  | _ :: _, [] => by simp [Expr.arePassed, Expr.operandTypes, Assembly.ClassNames.descriptors]
  | arg :: args, param :: params => by
      have more := arePassed_iff args params
      unfold Assembly.ClassNames.descriptors at more ⊢
      rw [Expr.arePassed, Bool.false_and, Bool.false_or, Bool.and_eq_true, beq_iff_eq, more,
        Expr.operandTypes, List.map_cons, List.map_cons, List.cons.injEq]
      rfl

theorem arePassed_of_checked {method : String} : ∀ (args : List Expr) (params : List Symbol)
    (n : Nat), s.argumentMismatches method n args params = [] →
      Expr.arePassed s names true args params = Expr.arePassed s names false args params
  | [], [], _, _ | [], _ :: _, _, _ | _ :: _, [], _, _ => rfl
  | arg :: args, param :: params, n, h => by
      obtain ⟨first, more⟩ := argument_of_mismatches h
      rw [Expr.arePassed, Expr.arePassed, arePassed_of_checked args params (n + 1) more]
      congr 1
      cases hp : arg.isPlain s with
      | false => rfl
      | true =>
          have other := not_isThis_of_isPlain arg hp
          have told := first.resolve_left fun this => Bool.noConfusion (other.symm.trans this)
          have type : arg.operandType s (some param.type) = param.type.read := by
            rw [Expr.operandType, other, if_neg Bool.false_ne_true,
              loweredType_of_isPlain arg hp told]
          simp [type]

/-- In an accepted call it makes no difference which arguments the checks have looked at. -/
theorem arePassed_of_checkExpr {tag : Tag} {target : Expr} {method : String} {args : List Expr}
    {pos : Position} {signature : Signature}
    (h : (s.checkExpr (.call tag target method args) pos).Passes)
    (hm : s.table.method? method = some signature) :
    Expr.arePassed s names (target.isChecked s) args signature.params =
      Expr.arePassed s names false args signature.params := by
  cases hc : target.isChecked s with
  | false => rfl
  | true => exact arePassed_of_checked args signature.params 0 (arguments_of_checkExpr h hm hc).2

/-- Plain arguments of a call that the checks have looked at are passed, if there are enough. -/
theorem arePassed_of_isPlain : ∀ (args : List Expr) (params : List Symbol),
    args.all (·.isPlain s) = true → args.length = params.length →
      Expr.arePassed s names true args params = true
  | [], [], _, _ => rfl
  | [], _ :: _, _, h | _ :: _, [], _, h => nomatch h
  | arg :: args, param :: params, hp, h => by
      rw [List.all_cons, Bool.and_eq_true] at hp
      rw [Expr.arePassed, hp.1, arePassed_of_isPlain args params hp.2 (Nat.succ.inj h)]
      rfl

/-! ## Calls -/

/-- A target that is imported is a name. -/
theorem not_isThis_of_isImportedTarget {target : Expr} (h : s.isImportedTarget target = true) :
    target.isThis = false := by
  unfold Expr.isThis
  split
  · rename_i hu
    simp [isImportedTarget, Expr.asName?, hu] at h
  · rfl

theorem hasImport_of_namesClass : ∀ (e : Expr) (pos : Position), e.namesClass s = true →
    (s.checkExpr e pos).Passes → ∃ text, e.asName? = some text ∧ s.table.hasImport text = true
  | .name _ text, _, named, h => by
      rw [Scope.checkExpr] at h
      have undeclared : ¬ (s.lookup text).isSome := by
        rw [Option.isSome_iff_ne_none, not_not]
        exact Option.isNone_iff_eq_none.1 named
      exact ⟨text, rfl, (s.known_of_checkName h).resolve_left undeclared⟩
  | .paren _ inner, pos, named, h => by
      rw [Scope.checkExpr_paren] at h
      exact hasImport_of_namesClass inner pos named h
  | .int .., _, named, _ | .bool .., _, named, _ | .this _, _, named, _ | .binary .., _, named, _
  | .not .., _, named, _ | .index .., _, named, _ | .length .., _, named, _
  | .call .., _, named, _ | .newArray .., _, named, _ | .newObject .., _, named, _ => nomatch named

/-- The method of an accepted call that the checks look at is declared, if the class stands alone. -/
theorem declared_of_isChecked (alone : s.table.StandsAlone) {tag : Tag} {target : Expr}
    {method : String} {args : List Expr} {pos : Position}
    (h : (s.checkExpr (.call tag target method args) pos).Passes) (own : target.isOwn s = true)
    (checked : target.isChecked s = true) :
    ∃ signature, s.table.method? method = some signature := by
  cases declared : s.table.method? method with
  | some signature => exact ⟨signature, rfl⟩
  | none =>
      -- A call of a method that is not declared has to be made on what is imported.
      rw [checkExpr_call, Checked.passes_seq_iff, Checked.passes_seq_iff, checkSignature, declared,
        Checked.passes_failIf_iff, alone.superClass] at h
      have foreign : (target.isThis || target.asName?.isSome) = true →
          s.isImportedTarget target = true := by
        intro seen
        simpa [seen] using h.2.2
      rw [Expr.isChecked, Bool.or_eq_true] at checked
      rcases checked with this | variable_
      · have other := not_isThis_of_isImportedTarget (foreign (by rw [this]; rfl))
        cases other.symm.trans this
      · obtain ⟨t, is⟩ := exists_isVariable target variable_
        obtain ⟨text, hname, type⟩ := is.named
        have imported := foreign (by rw [hname]; exact Bool.or_true _)
        simp only [isImportedTarget, hname, type, Bool.and_eq_true] at imported
        rw [← is.lowered none, loweredType_of_isOwn own] at imported
        exact absurd imported.2 (Bool.eq_false_iff.1 alone.notImported)

theorem matchesSignature_of_isSettled (alone : s.table.StandsAlone) {tag : Tag} {target : Expr}
    {method : String} {args : List Expr} {pos : Position}
    (h : (s.checkExpr (.call tag target method args) pos).Passes)
    (settled : (Expr.call tag target method args).isSettled s = true) :
    (Expr.call tag target method args).matchesSignature s names = true := by
  rw [Expr.isSettled, Bool.and_eq_true] at settled
  rw [Expr.matchesSignature]
  cases own : target.isOwn s with
  | false => rfl
  | true =>
      obtain ⟨signature, declared⟩ := declared_of_isChecked alone h own settled.1
      have enough := (arguments_of_checkExpr h declared settled.1).1
      rw [declared, Option.any_some, settled.1, arePassed_of_isPlain args _ settled.2 enough]
      rfl

theorem escapes_of_not_matches (alone : s.table.StandsAlone) {tag : Tag} {target : Expr}
    {method : String} {args : List Expr} {pos : Position}
    (h : (s.checkExpr (.call tag target method args) pos).Passes)
    (other : (Expr.call tag target method args).matchesSignature s names = false) :
    (Expr.call tag target method args).Escapes s names method
      ((Expr.operandTypes s args (Expr.expectedParams s target method)).map names.descriptor) := by
  refine ⟨tag, target, args, rfl, ?_, rfl, other, ?_⟩
  · rw [Expr.matchesSignature, Bool.or_eq_false_iff, Bool.not_eq_false'] at other
    exact other.1
  · rw [← Bool.not_eq_true]
    intro settled
    rw [matchesSignature_of_isSettled alone h settled] at other
    cases other

end Scope

end JavaMinus
