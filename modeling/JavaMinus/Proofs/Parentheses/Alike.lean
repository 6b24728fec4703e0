/-
# Trees that differ in parentheses

Two trees are alike if they agree but for parentheses and for the tags and places of their parts.
Wrapping an expression, wherever it stands, gives a tree that is alike; so does wrapping several, or
taking parentheses off.

What is read off the shape of an expression inside its parentheses is the same for both.
-/
import JavaMinus.Typing.SymbolTable
import Mathlib.Data.List.Forall2

namespace JavaMinus

namespace Source

mutual

/-- The expressions agree, parentheses and tags aside. -/
inductive Expr.Alike : Expr → Expr → Prop
  | parenLeft {t e e'} : Expr.Alike e e' → Expr.Alike (.paren t e) e'
  | parenRight {t e e'} : Expr.Alike e e' → Expr.Alike e (.paren t e')
  | int {t t' n} : Expr.Alike (.int t n) (.int t' n)
  | bool {t t' b} : Expr.Alike (.bool t b) (.bool t' b)
  | name {t t' n} : Expr.Alike (.name t n) (.name t' n)
  | this {t t'} : Expr.Alike (.this t) (.this t')
  | binary {t t' op lhs lhs' rhs rhs'} : Expr.Alike lhs lhs' → Expr.Alike rhs rhs' →
      Expr.Alike (.binary t op lhs rhs) (.binary t' op lhs' rhs')
  | not {t t' e e'} : Expr.Alike e e' → Expr.Alike (.not t e) (.not t' e')
  | index {t t' a a' i i'} : Expr.Alike a a' → Expr.Alike i i' →
      Expr.Alike (.index t a i) (.index t' a' i')
  | length {t t' a a'} : Expr.Alike a a' → Expr.Alike (.length t a) (.length t' a')
  | call {t t' e e' m es es'} : Expr.Alike e e' → Expr.AlikeAll es es' →
      Expr.Alike (.call t e m es) (.call t' e' m es')
  | newArray {t t' e e'} : Expr.Alike e e' → Expr.Alike (.newArray t e) (.newArray t' e')
  | newObject {t t' c} : Expr.Alike (.newObject t c) (.newObject t' c)

/-- The expressions in two rows agree pairwise. -/
inductive Expr.AlikeAll : List Expr → List Expr → Prop
  | nil : Expr.AlikeAll [] []
  | cons {e e' es es'} : Expr.Alike e e' → Expr.AlikeAll es es' →
      Expr.AlikeAll (e :: es) (e' :: es')

end

mutual

/-- The statements agree, parentheses, tags and places aside. -/
inductive Stmt.Alike : Stmt → Stmt → Prop
  | block {l l' ss ss'} : Stmt.AlikeAll ss ss' → Stmt.Alike (.block l ss) (.block l' ss')
  | ifThen {l l' c c' s s'} : Expr.Alike c c' → Stmt.Alike s s' →
      Stmt.Alike (.ifThen l c s) (.ifThen l' c' s')
  | ifElse {l l' c c' s s' r r'} : Expr.Alike c c' → Stmt.Alike s s' → Stmt.Alike r r' →
      Stmt.Alike (.ifElse l c s r) (.ifElse l' c' s' r')
  | while {l l' c c' s s'} : Expr.Alike c c' → Stmt.Alike s s' →
      Stmt.Alike (.while l c s) (.while l' c' s')
  | expr {e e'} : Expr.Alike e e' → Stmt.Alike (.expr e) (.expr e')
  | assign {l l' n e e'} : Expr.Alike e e' → Stmt.Alike (.assign l n e) (.assign l' n e')
  | assignElement {l l' n i i' e e'} : Expr.Alike i i' → Expr.Alike e e' →
      Stmt.Alike (.assignElement l n i e) (.assignElement l' n i' e')
  | returnNothing {l l'} : Stmt.Alike (.return l none) (.return l' none)
  | returnValue {l l' e e'} : Expr.Alike e e' →
      Stmt.Alike (.return l (some e)) (.return l' (some e'))

/-- The statements in two rows agree pairwise. -/
inductive Stmt.AlikeAll : List Stmt → List Stmt → Prop
  | nil : Stmt.AlikeAll [] []
  | cons {s s' ss ss'} : Stmt.Alike s s' → Stmt.AlikeAll ss ss' →
      Stmt.AlikeAll (s :: ss) (s' :: ss')

end

/-- The methods have the same head and kind, and bodies that agree. -/
structure Method.Alike (m m' : Method) : Prop where
  name : m.name = m'.name
  kind : m.kind = m'.kind
  returnType : m.returnType = m'.returnType
  body : Stmt.AlikeAll m.body m'.body

/-- The programs declare the same, and their methods agree one by one. -/
structure Program.Alike (p p' : Program) : Prop where
  table : SymbolTable.ofProgram p = SymbolTable.ofProgram p'
  methods : List.Forall₂ Method.Alike p.methods p'.methods

namespace Expr

mutual

theorem Alike.refl : ∀ e : Expr, e.Alike e
  | .int .. => .int
  | .bool .. => .bool
  | .name .. => .name
  | .this _ => .this
  | .binary _ _ lhs rhs => .binary (Alike.refl lhs) (Alike.refl rhs)
  | .not _ e => .not (Alike.refl e)
  | .index _ a i => .index (Alike.refl a) (Alike.refl i)
  | .length _ a => .length (Alike.refl a)
  | .call _ e _ es => .call (Alike.refl e) (AlikeAll.refl es)
  | .newArray _ e => .newArray (Alike.refl e)
  | .newObject .. => .newObject
  | .paren _ e => .parenLeft (.parenRight (Alike.refl e))

theorem AlikeAll.refl : ∀ es : List Expr, AlikeAll es es
  | [] => .nil
  | e :: es => .cons (Alike.refl e) (AlikeAll.refl es)

end

mutual

theorem Alike.symm : ∀ {e e' : Expr}, e.Alike e' → e'.Alike e
  | _, _, .parenLeft h => .parenRight h.symm
  | _, _, .parenRight h => .parenLeft h.symm
  | _, _, .int => .int
  | _, _, .bool => .bool
  | _, _, .name => .name
  | _, _, .this => .this
  | _, _, .binary h h' => .binary h.symm h'.symm
  | _, _, .not h => .not h.symm
  | _, _, .index h h' => .index h.symm h'.symm
  | _, _, .length h => .length h.symm
  | _, _, .call h h' => .call h.symm h'.symm
  | _, _, .newArray h => .newArray h.symm
  | _, _, .newObject => .newObject

theorem AlikeAll.symm : ∀ {es es' : List Expr}, AlikeAll es es' → AlikeAll es' es
  | _, _, .nil => .nil
  | _, _, .cons h h' => .cons h.symm h'.symm

end

theorem AlikeAll.length_eq : ∀ {es es' : List Expr}, AlikeAll es es' → es.length = es'.length
  | _, _, .nil => rfl
  | _, _, .cons _ h => congrArg (· + 1) h.length_eq

/-! ## What shows inside the parentheses -/

theorem unparen_ne_paren : ∀ (e : Expr) {t : Tag} {inner : Expr}, e.unparen ≠ .paren t inner
  | .paren _ e, _, _ => unparen_ne_paren e
  | .int .., _, _ | .bool .., _, _ | .name .., _, _ | .this .., _, _ | .binary .., _, _
  | .not .., _, _ | .index .., _, _ | .length .., _, _ | .call .., _, _ | .newArray .., _, _
  | .newObject .., _, _ => Expr.noConfusion

/-- Inside their parentheses, expressions that are alike are alike. -/
theorem Alike.unparen : ∀ {e e' : Expr}, e.Alike e' → e.unparen.Alike e'.unparen
  | _, _, .parenLeft h => h.unparen
  | _, _, .parenRight h => h.unparen
  | _, _, .int => .int
  | _, _, .bool => .bool
  | _, _, .name => .name
  | _, _, .this => .this
  | _, _, .binary h h' => .binary h h'
  | _, _, .not h => .not h
  | _, _, .index h h' => .index h h'
  | _, _, .length h => .length h
  | _, _, .call h h' => .call h h'
  | _, _, .newArray h => .newArray h
  | _, _, .newObject => .newObject

/-- What is read off the outermost form of an expression, parentheses aside, is the same for
expressions that are alike. -/
theorem Alike.eq_of_form {β : Type} {f : Expr → β} (paren : ∀ t e, f (.paren t e) = f e)
    (int : ∀ t t' n, f (.int t n) = f (.int t' n))
    (bool : ∀ t t' b, f (.bool t b) = f (.bool t' b))
    (name : ∀ t t' n, f (.name t n) = f (.name t' n)) (this : ∀ t t', f (.this t) = f (.this t'))
    (binary : ∀ t t' op l l' r r', f (.binary t op l r) = f (.binary t' op l' r'))
    (not : ∀ t t' e e', f (.not t e) = f (.not t' e'))
    (index : ∀ t t' a a' i i', f (.index t a i) = f (.index t' a' i'))
    (length : ∀ t t' a a', f (.length t a) = f (.length t' a'))
    (call : ∀ t t' e e' m es es', f (.call t e m es) = f (.call t' e' m es'))
    (newArray : ∀ t t' e e', f (.newArray t e) = f (.newArray t' e'))
    (newObject : ∀ t t' c, f (.newObject t c) = f (.newObject t' c)) :
    ∀ {e e' : Expr}, e.Alike e' → f e = f e' := by
  intro e e' h
  have inside := h.unparen
  rw [← apply_unparen f paren e, ← apply_unparen f paren e']
  generalize hd : e.unparen = d at inside
  generalize hd' : e'.unparen = d' at inside
  cases inside with
  | parenLeft _ => exact absurd hd (unparen_ne_paren e)
  | parenRight _ => exact absurd hd' (unparen_ne_paren e')
  | int => exact int _ _ _
  | bool => exact bool _ _ _
  | name => exact name _ _ _
  | this => exact this _ _
  | binary _ _ => exact binary _ _ _ _ _ _ _
  | not _ => exact not _ _ _ _
  | index _ _ => exact index _ _ _ _ _ _
  | length _ => exact length _ _ _ _
  | call _ _ => exact call _ _ _ _ _ _ _
  | newArray _ => exact newArray _ _ _ _
  | newObject => exact newObject _ _ _

theorem Alike.isThis_eq {e e' : Expr} (h : e.Alike e') : e.isThis = e'.isThis := by
  refine h.eq_of_form ?_ ?_ ?_ ?_ ?_ ?_ ?_ ?_ ?_ ?_ ?_ ?_ <;> intros <;> rfl

theorem Alike.asName?_eq {e e' : Expr} (h : e.Alike e') : e.asName? = e'.asName? := by
  refine h.eq_of_form ?_ ?_ ?_ ?_ ?_ ?_ ?_ ?_ ?_ ?_ ?_ ?_ <;> intros <;> rfl

end Expr

end Source

end JavaMinus
