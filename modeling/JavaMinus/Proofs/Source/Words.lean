/-
# Words

The names of a program are words: a character that can begin a name, and then characters that can
stand inside one.  No reserved word is a name.

A token can be written if it is a name in this sense, a number without sign, a keyword or a mark
(`Token.Writable`).
-/
import JavaMinus.Source.Declaration

namespace JavaMinus

namespace Character

/-- A letter of ASCII, the underscore or the dollar sign. -/
def beginsWord (c : Char) : Bool :=
  'a' ≤ c ∧ c ≤ 'z' ∨ 'A' ≤ c ∧ c ≤ 'Z' ∨ c = '_' ∨ c = '$'

/-- Characters with which a word can begin, and digits behind the first one. -/
def isWord : List Char → Bool
  | [] => false
  | c :: cs => beginsWord c && cs.all fun d => beginsWord d || '0' ≤ d && d ≤ '9'

/-! The readers of both texts have the same words. -/

theorem beginsWord_eq : beginsWord = startsName := by
  funext c
  have letter : c.isAlpha = (decide ('A' ≤ c ∧ c ≤ 'Z') ||
      decide ('a' ≤ c) && decide (c ≤ 'z')) := rfl
  rw [Bool.eq_iff_iff, beginsWord, startsName, decide_eq_true_iff, letter]
  simp only [Bool.or_eq_true, Bool.and_eq_true, decide_eq_true_eq, beq_iff_eq, or_assoc]
  exact or_left_comm

theorem isWord_cons (c : Char) (cs : List Char) :
    isWord (c :: cs) = (startsName c && cs.all continuesName) := by
  rw [isWord, beginsWord_eq]
  rfl

end Character

/-- A word that is not reserved. -/
structure Source.IsName (s : String) : Prop where
  word : Character.isWord s.toList = true
  free : ∀ k : Source.Keyword, k.word ≠ s

/-- The name of the type is a name, or the word of a primitive type. -/
def Ty.Named (t : Ty) : Prop :=
  t.name = "int" ∨ t.name = "boolean" ∨ t.name = "void" ∨ Source.IsName t.name

namespace Source

/-! ## Trees whose names are names -/

mutual

def Expr.Named : Expr → Prop
  | .int .. | .bool .. | .this _ => True
  | .name _ text => IsName text
  | .binary _ _ lhs rhs => lhs.Named ∧ rhs.Named
  | .not _ operand => operand.Named
  | .index _ array i => array.Named ∧ i.Named
  | .length _ array => array.Named
  | .call _ target method args => target.Named ∧ IsName method ∧ Expr.NamedAll args
  | .newArray _ size => size.Named
  | .newObject _ className => IsName className
  | .paren _ inner => inner.Named

def Expr.NamedAll : List Expr → Prop
  | [] => True
  | e :: es => e.Named ∧ Expr.NamedAll es

end

mutual

def Stmt.Named : Stmt → Prop
  | .block _ body => Stmt.NamedAll body
  | .ifThen _ condition thenBranch => condition.Named ∧ thenBranch.Named
  | .ifElse _ condition thenBranch elseBranch =>
      condition.Named ∧ thenBranch.Named ∧ elseBranch.Named
  | .while _ condition body => condition.Named ∧ body.Named
  | .expr e => e.Named
  | .assign _ target value => IsName target ∧ value.Named
  | .assignElement _ target index value => IsName target ∧ index.Named ∧ value.Named
  | .return _ none => True
  | .return _ (some value) => value.Named

def Stmt.NamedAll : List Stmt → Prop
  | [] => True
  | s :: ss => s.Named ∧ Stmt.NamedAll ss

end

def Declaration.Named (d : Declaration) : Prop := IsName d.name ∧ d.type.Named

structure Method.Named (m : Method) : Prop where
  name : IsName m.name
  returnType : m.returnType.Named
  params : ∀ d ∈ m.params, d.Named
  locals : ∀ d ∈ m.locals, d.Named
  body : Stmt.NamedAll m.body

/-- The names in the program are names; an import has at least one part. -/
structure Program.Named (p : Program) : Prop where
  imports : ∀ i ∈ p.imports, i.path ≠ [] ∧ ∀ part ∈ i.path, IsName part
  className : IsName p.className
  superClass : ∀ name, p.superClass = some name → IsName name
  fields : ∀ d ∈ p.fields, d.Named
  methods : ∀ m ∈ p.methods, m.Named

/-- A step of a reading that does not fail, and the steps after it. -/
theorem exists_of_bind {ε α β : Type} {r : Except ε α} {f : α → Except ε β} {b : β}
    (h : (r >>= f) = .ok b) : ∃ a, r = .ok a ∧ f a = .ok b := by
  cases r with
  | error e => cases h
  | ok a => exact ⟨a, rfl, h⟩

theorem unparen_named {e : Expr} (h : e.Named) : e.unparen.Named := by
  rw [Expr.apply_unparen Expr.Named fun _ _ => by rw [Expr.Named]]
  exact h

theorem asName_named {e : Expr} {name : String} (h : e.Named) (hname : e.asName? = some name) :
    IsName name := by
  have inside := unparen_named h
  unfold Expr.asName? at hname
  split at hname
  · rename_i hu
    cases hname
    rw [hu] at inside
    exact inside
  · cases hname

/-! ## Tokens that can be written -/

/-- The token can be written: a name is one, and a number has no sign. -/
def Token.Writable : Token → Prop
  | .name text => IsName text
  | .integer value => 0 ≤ value.toInt
  | .keyword _ | .mark _ => True
  | .endOfText => False

def Spellable (ts : List Token) : Prop := ∀ t ∈ ts, t.Writable

@[simp] theorem spellable_nil : Spellable [] := fun _ h => absurd h List.not_mem_nil

@[simp] theorem spellable_cons {t : Token} {ts : List Token} :
    Spellable (t :: ts) ↔ t.Writable ∧ Spellable ts :=
  List.forall_mem_cons

@[simp] theorem spellable_append {us vs : List Token} :
    Spellable (us ++ vs) ↔ Spellable us ∧ Spellable vs :=
  List.forall_mem_append

theorem spellable_flatMap {α : Type} {xs : List α} {f : α → List Token}
    (h : ∀ x ∈ xs, Spellable (f x)) : Spellable (xs.flatMap f) := by
  intro t ht
  obtain ⟨x, hx, ht⟩ := List.mem_flatMap.1 ht
  exact h x hx t ht

@[simp] theorem writable_mark (m : Mark) : (Token.mark m).Writable := trivial

@[simp] theorem writable_keyword (k : Keyword) : (Token.keyword k).Writable := trivial

@[simp] theorem writable_name {text : String} : (Token.name text).Writable ↔ IsName text := Iff.rfl

theorem Keyword.ofWord?_eq_none_iff {w : String} :
    Keyword.ofWord? w = none ↔ ∀ k : Keyword, k.word ≠ w := by
  rw [Keyword.ofWord?, List.find?_eq_none]
  exact ⟨fun h k same => h k k.mem_all (beq_iff_eq.2 same), fun h k _ same => h k (beq_iff_eq.1 same)⟩

theorem ofWord_word (k : Keyword) : Token.ofWord k.word = .keyword k := by
  cases k <;> decide

theorem isWord_word (k : Keyword) : Character.isWord k.word.toList = true := by
  cases k <;> decide

theorem ofWord_of_isName {text : String} (h : IsName text) : Token.ofWord text = .name text := by
  rw [Token.ofWord, Keyword.ofWord?_eq_none_iff.2 h.free]

theorem ofWord_writable {w : String} (hw : Character.isWord w.toList = true) :
    (Token.ofWord w).Writable := by
  rw [Token.ofWord]
  split
  · trivial
  · rename_i free
    exact ⟨hw, Keyword.ofWord?_eq_none_iff.1 free⟩

theorem ofNat_writable {n : Nat} (small : n ≤ 2147483647) :
    (Token.integer (Int32.ofNat n)).Writable := by
  show 0 ≤ (Int32.ofNat n).toInt
  rw [Int32.toInt_ofNat_of_lt (by omega)]
  exact Int.natCast_nonneg n

/-- The token can be written, or the text ends with it. -/
def Token.Written (t : Token) : Prop := t = .endOfText ∨ t.Writable

end Source

end JavaMinus
