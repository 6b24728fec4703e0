/-
# The grammar of expressions

`Derives` is the grammar itself, with no reader in it.  A chain of a level may begin with a chain of
the same level and so may a postfix form, which is what hangs every operator and every selector on
all that stands before it; the right operand of an operator is of the next level.

Trees are compared up to tags, so a derivation is of a tree whose tags are all the default one.

The grammar alone says which tokens a tree has and which trees there are: `tokens_eq` and `leans`.
-/
import JavaMinus.Source.Expression

namespace JavaMinus.Source

/-! ## Trees without tags -/

mutual

/-- The tree with every tag replaced by the default one. -/
def Expr.untagged : Expr → Expr
  | .int _ value => .int default value
  | .bool _ value => .bool default value
  | .name _ text => .name default text
  | .this _ => .this default
  | .binary _ op lhs rhs => .binary default op lhs.untagged rhs.untagged
  | .not _ operand => .not default operand.untagged
  | .index _ array i => .index default array.untagged i.untagged
  | .length _ array => .length default array.untagged
  | .call _ target method args => .call default target.untagged method (Expr.untaggedAll args)
  | .newArray _ size => .newArray default size.untagged
  | .newObject _ className => .newObject default className
  | .paren _ inner => .paren default inner.untagged

/-- The trees with every tag replaced by the default one. -/
def Expr.untaggedAll : List Expr → List Expr
  | [] => []
  | e :: es => e.untagged :: Expr.untaggedAll es

end

/-! ## The tokens of a tree -/

def BinaryOp.mark : BinaryOp → Mark
  | .add => .plus
  | .sub => .minus
  | .mul => .star
  | .div => .slash
  | .lt => .less
  | .and => .andAnd

theorem BinaryOp.mark_injective : Function.Injective BinaryOp.mark := by
  intro op op' h
  cases op <;> cases op' <;> first | rfl | cases h

mutual

/-- The tokens of the tree, in order. -/
def Expr.tokens : Expr → List Token
  | .int _ value => [.integer value]
  | .bool _ true => [.keyword .kTrue]
  | .bool _ false => [.keyword .kFalse]
  | .name _ text => [.name text]
  | .this _ => [.keyword .kThis]
  | .binary _ op lhs rhs => lhs.tokens ++ .mark op.mark :: rhs.tokens
  | .not _ operand => .mark .bang :: operand.tokens
  | .index _ array i => array.tokens ++ .mark .lbracket :: (i.tokens ++ [.mark .rbracket])
  | .length _ array => array.tokens ++ [.mark .dot, .keyword .kLength]
  | .call _ target method args =>
      target.tokens ++
        .mark .dot :: .name method :: .mark .lparen :: (Expr.tokensOf args ++ [.mark .rparen])
  | .newArray _ size =>
      .keyword .kNew :: .keyword .kInt :: .mark .lbracket :: (size.tokens ++ [.mark .rbracket])
  | .newObject _ className =>
      [.keyword .kNew, .name className, .mark .lparen, .mark .rparen]
  | .paren _ inner => .mark .lparen :: (inner.tokens ++ [.mark .rparen])

/-- The tokens of the trees, with commas between them. -/
def Expr.tokensOf : List Expr → List Token
  | [] => []
  | [e] => e.tokens
  | e :: e' :: es => e.tokens ++ .mark .comma :: Expr.tokensOf (e' :: es)

end

/-! ## The shape of a tree -/

def BinaryOp.level : BinaryOp → Level
  | .and => .conjunction
  | .lt => .comparison
  | .add | .sub => .sum
  | .mul | .div => .product

/-- How loosely the root of the tree binds; only operators with two operands bind loosely. -/
def Expr.height : Expr → Nat
  | .binary _ op _ _ => op.level.height
  | _ => 0

mutual

/-- Under an operator, the tree on the right binds more tightly than the operator does, and the tree
on the left at least as tightly. -/
def Expr.Leans : Expr → Prop
  | .int .. | .bool .. | .name .. | .this _ | .newObject .. => True
  | .binary _ op lhs rhs =>
      lhs.height ≤ op.level.height ∧ rhs.height < op.level.height ∧ lhs.Leans ∧ rhs.Leans
  | .not _ operand => operand.Leans
  | .index _ array i => array.Leans ∧ i.Leans
  | .length _ array => array.Leans
  | .call _ target _ args => target.Leans ∧ Expr.LeanAll args
  | .newArray _ size => size.Leans
  | .paren _ inner => inner.Leans

def Expr.LeanAll : List Expr → Prop
  | [] => True
  | e :: es => e.Leans ∧ Expr.LeanAll es

end

/-! ## The grammar -/

inductive Phrase where
  | chain (l : Level)
  | unary
  | postfixed
  | primary
deriving DecidableEq, Repr

namespace Phrase

/-- An expression is a chain of the loosest level. -/
def expression : Phrase := .chain .conjunction

/-- How loosely the root of such a phrase may bind. -/
def height : Phrase → Nat
  | .chain l => l.height
  | _ => 0

end Phrase

/-- What stands on the right of an operator of the level. -/
def Level.next : Level → Phrase
  | .conjunction => .chain .comparison
  | .comparison => .chain .sum
  | .sum => .chain .product
  | .product => .unary

mutual

/-- The tokens are a phrase of the kind, with the tree. -/
inductive Derives : Phrase → List Token → Expr → Prop
  | single {l w e} : Derives l.next w e → Derives (.chain l) w e
  | operator {l op u v lhs rhs} :
      op.level = l → Derives (.chain l) u lhs → Derives l.next v rhs →
        Derives (.chain l) (u ++ .mark op.mark :: v) (.binary default op lhs rhs)
  | bare {w e} : Derives .postfixed w e → Derives .unary w e
  | not {w e} : Derives .unary w e → Derives .unary (.mark .bang :: w) (.not default e)
  | base {w e} : Derives .primary w e → Derives .postfixed w e
  | index {u v e i} :
      Derives .postfixed u e → Derives .expression v i →
        Derives .postfixed (u ++ .mark .lbracket :: (v ++ [.mark .rbracket])) (.index default e i)
  | length {u e} :
      Derives .postfixed u e →
        Derives .postfixed (u ++ [.mark .dot, .keyword .kLength]) (.length default e)
  | call {u v e method args} :
      Derives .postfixed u e → DerivesArguments v args →
        Derives .postfixed
          (u ++ .mark .dot :: .name method :: .mark .lparen :: (v ++ [.mark .rparen]))
          (.call default e method args)
  | int (value) : Derives .primary [.integer value] (.int default value)
  | true : Derives .primary [.keyword .kTrue] (.bool default .true)
  | false : Derives .primary [.keyword .kFalse] (.bool default .false)
  | this : Derives .primary [.keyword .kThis] (.this default)
  | name (text) : Derives .primary [.name text] (.name default text)
  | paren {w e} :
      Derives .expression w e →
        Derives .primary (.mark .lparen :: (w ++ [.mark .rparen])) (.paren default e)
  | newArray {w e} :
      Derives .expression w e →
        Derives .primary
          (.keyword .kNew :: .keyword .kInt :: .mark .lbracket :: (w ++ [.mark .rbracket]))
          (.newArray default e)
  | newObject (className) :
      Derives .primary [.keyword .kNew, .name className, .mark .lparen, .mark .rparen]
        (.newObject default className)

/-- The tokens are the arguments of a call, with commas between them. -/
inductive DerivesArguments : List Token → List Expr → Prop
  | none : DerivesArguments [] []
  | last {w e} : Derives .expression w e → DerivesArguments w [e]
  | more {u v e e' es} :
      Derives .expression u e → DerivesArguments v (e' :: es) →
        DerivesArguments (u ++ .mark .comma :: v) (e :: e' :: es)

end

/-! ## What the grammar says of a tree -/

theorem Level.height_next (l : Level) : l.next.height + 1 = l.height := by
  cases l <;> rfl

mutual

theorem Derives.tokens_eq {n : Phrase} {w : List Token} {e : Expr} :
    Derives n w e → e.tokens = w
  | .single h => h.tokens_eq
  | .operator _ hl hr => by rw [Expr.tokens, hl.tokens_eq, hr.tokens_eq]
  | .bare h => h.tokens_eq
  | .not h => by rw [Expr.tokens, h.tokens_eq]
  | .base h => h.tokens_eq
  | .index he hi => by rw [Expr.tokens, he.tokens_eq, hi.tokens_eq]
  | .length he => by rw [Expr.tokens, he.tokens_eq]
  | .call he hargs => by rw [Expr.tokens, he.tokens_eq, hargs.tokens_eq]
  | .int _ | .true | .false | .this | .name _ | .newObject _ => by simp only [Expr.tokens]
  | .paren h => by rw [Expr.tokens, h.tokens_eq]
  | .newArray h => by rw [Expr.tokens, h.tokens_eq]

theorem DerivesArguments.tokens_eq {w : List Token} {es : List Expr} :
    DerivesArguments w es → Expr.tokensOf es = w
  | .none => by rw [Expr.tokensOf]
  | .last h => by rw [Expr.tokensOf, h.tokens_eq]
  | .more h hs => by rw [Expr.tokensOf, h.tokens_eq, hs.tokens_eq]

end

/-- The root of a tree binds at least as tightly as the phrase that it is derived from. -/
theorem Derives.height_le {n : Phrase} {w : List Token} {e : Expr} :
    Derives n w e → e.height ≤ n.height
  | @Derives.single l _ _ h => by
      have := h.height_le
      have := l.height_next
      rw [Phrase.height]
      omega
  | .operator hop _ _ => by
      rw [Expr.height, hop]
      exact Nat.le_refl _
  | .bare h => h.height_le
  | .base h => h.height_le
  | .not _ | .index _ _ | .length _ | .call _ _ => Nat.zero_le _
  | .int _ | .true | .false | .this | .name _ | .paren _ | .newArray _ | .newObject _ =>
      Nat.zero_le _

mutual

theorem Derives.leans {n : Phrase} {w : List Token} {e : Expr} : Derives n w e → e.Leans
  | .single h => h.leans
  | @Derives.operator l _ _ _ _ _ hop hl hr => by
      rw [Expr.Leans, hop]
      have hright := hr.height_le
      have := l.height_next
      exact ⟨hl.height_le, by omega, hl.leans, hr.leans⟩
  | .bare h => h.leans
  | .base h => h.leans
  | .not h => by rw [Expr.Leans]; exact h.leans
  | .index he hi => by rw [Expr.Leans]; exact ⟨he.leans, hi.leans⟩
  | .length he => by rw [Expr.Leans]; exact he.leans
  | .call he hargs => by rw [Expr.Leans]; exact ⟨he.leans, hargs.leans⟩
  | .int _ | .true | .false | .this | .name _ | .newObject _ => by simp only [Expr.Leans]
  | .paren h => by rw [Expr.Leans]; exact h.leans
  | .newArray h => by rw [Expr.Leans]; exact h.leans

theorem DerivesArguments.leans {w : List Token} {es : List Expr} :
    DerivesArguments w es → Expr.LeanAll es
  | .none => by simp only [Expr.LeanAll]
  | .last h => by simpa only [Expr.LeanAll, and_true] using h.leans
  | .more h hs => by rw [Expr.LeanAll]; exact ⟨h.leans, hs.leans⟩

end

theorem Derives.begins {n : Phrase} {w : List Token} {e : Expr} :
    Derives n w e → ∃ t, w.head? = some t ∧ t ≠ .mark .rparen
  | .single h | .bare h | .base h => h.begins
  | .operator _ h _ | .index h _ | .length h | .call h _ => by
      obtain ⟨t, ht, hne⟩ := h.begins
      exact ⟨t, by rw [List.head?_append, ht, Option.some_or], hne⟩
  | .not _ | .int _ | .true | .false | .this | .name _ | .paren _ | .newArray _ | .newObject _ =>
      ⟨_, rfl, by simp⟩

theorem DerivesArguments.begins {w : List Token} {es : List Expr} (h : DerivesArguments w es)
    (hne : es ≠ []) : ∃ t, w.head? = some t ∧ t ≠ .mark .rparen := by
  cases h with
  | none => exact absurd rfl hne
  | last h => exact h.begins
  | more h _ =>
      obtain ⟨t, ht, hne⟩ := h.begins
      exact ⟨t, by rw [List.head?_append, ht, Option.some_or], hne⟩

end JavaMinus.Source
