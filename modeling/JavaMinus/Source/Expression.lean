/-
# Reading expressions

From the loosest to the tightest binding:

    && | < | + - | * /            chains of operators, all to the left
    !                             before its operand
    [e]  .length  .name(args)     after their operand
    literals, names, this, (e), new int[e], new Name()

One function reads a chain for every level, with the level as an argument.  An expression is given
its number when its last token has been read, so the parts of an expression come before it.  The
place of a chain is that of its first operand, and the place of `[e]`, `.length` and a call is that
of the bracket or the dot.
-/
import JavaMinus.Source.Input

namespace JavaMinus.Source

/-- The levels of the operators with two operands, the loosest first. -/
inductive Level where
  | conjunction
  | comparison
  | sum
  | product
deriving DecidableEq, Repr

namespace Level

/-- How many levels bind at least as tightly. -/
def height : Level → Nat
  | .conjunction => 4
  | .comparison => 3
  | .sum => 2
  | .product => 1

def operator? : Level → Token → Option BinaryOp
  | .conjunction, .mark .andAnd => some .and
  | .comparison, .mark .less => some .lt
  | .sum, .mark .plus => some .add
  | .sum, .mark .minus => some .sub
  | .product, .mark .star => some .mul
  | .product, .mark .slash => some .div
  | _, _ => none

theorem height_le (l : Level) : l.height ≤ 4 := by
  cases l <;> decide

end Level

/-- An expression of one token. -/
def leaf (ts : List Lexeme) (k n : Nat) (h : ts.length < n) (loc : Location) (node : Tag → Expr) :
    Reading Expr n :=
  .ok ⟨node ⟨k, loc⟩, ⟨ts, k + 1⟩, h⟩

mutual

def expression (i : Input) : Reading Expr i.size :=
  chain .conjunction i
termination_by 16 * i.size + 11
decreasing_by all_goals (simp only [Level.height]; omega)

/-- An operand of the level and the operators of the level that follow it. -/
def chain (l : Level) (i : Input) : Reading Expr i.size := do
  let first ← operand l i
  have := first.shorter
  let p ← operators l first.value first.rest
  .ok (p.within first.shorter)
termination_by 16 * i.size + 2 * l.height + 2
decreasing_by all_goals omega

/-- An operand of the level: a chain of the next level. -/
def operand (l : Level) (i : Input) : Reading Expr i.size :=
  match l with
  | .conjunction => chain .comparison i
  | .comparison => chain .sum i
  | .sum => chain .product i
  | .product => unary i
termination_by 16 * i.size + 2 * l.height + 1
decreasing_by all_goals (simp only [Level.height]; omega)

/-- The operators of the level after a left operand, with their right operands. -/
def operators (l : Level) (lhs : Expr) (i : Input) : Reading Expr (i.size + 1) :=
  match i with
  | ⟨t :: ts, k⟩ =>
      match l.operator? t.token with
      | some op => do
          let rhs ← operand l ⟨ts, k⟩
          have := rhs.shorter
          let node := finish rhs lhs.loc fun tag e => .binary tag op lhs e
          let p ← operators l node.value node.rest
          .ok (p.within (Nat.succ_le_succ (Nat.le_of_lt (Nat.lt_succ_of_lt rhs.shorter))))
      | none => .ok ⟨lhs, ⟨t :: ts, k⟩, Nat.lt_succ_self _⟩
  | i => .ok ⟨lhs, i, Nat.lt_succ_self _⟩
termination_by 16 * i.size + 10
decreasing_by
  all_goals
    have := l.height_le
    simp only [Input.size, List.length_cons, finish] at *
    omega

/-- A negation, or an operand with what follows it. -/
def unary (i : Input) : Reading Expr i.size :=
  match i with
  | ⟨⟨.mark .bang, loc⟩ :: ts, k⟩ => do
      let e ← unary ⟨ts, k⟩
      .ok ((finish e loc .not).within (Nat.le_succ _))
  | i => do
      let base ← primary i
      have := base.shorter
      let p ← selectors base.value base.rest
      .ok (p.within base.shorter)
termination_by 16 * i.size + 2
decreasing_by all_goals (simp only [Input.size, List.length_cons] at *; omega)

/-- The brackets, lengths and calls after an operand. -/
def selectors (e : Expr) (i : Input) : Reading Expr (i.size + 1) :=
  match i with
  | ⟨⟨.mark .lbracket, loc⟩ :: ts, k⟩ => do
      let inner ← expression ⟨ts, k⟩
      let index ← close inner .rbracket "Expected ']' after array index"
      have := index.shorter
      let node := finish index loc fun tag i => .index tag e i
      let p ← selectors node.value node.rest
      .ok (p.within (Nat.succ_le_succ (Nat.le_of_lt (Nat.lt_succ_of_lt index.shorter))))
  | ⟨⟨.mark .dot, loc⟩ :: ⟨.keyword .kLength, _⟩ :: ts, k⟩ => do
      let p ← selectors (.length ⟨k, loc⟩ e) ⟨ts, k + 1⟩
      .ok (p.within (Nat.succ_le_succ (Nat.le_of_lt (Nat.lt_succ_of_lt (Nat.lt_succ_self _)))))
  | ⟨⟨.mark .dot, loc⟩ :: ts, k⟩ => do
      let word ← Input.expectName ⟨ts, k⟩ "Expected method name after '.'"
      let method ← close word .lparen "Expected '(' after method name"
      have := method.shorter
      let args ← arguments method.rest
      have := args.shorter
      let node := finish args loc fun tag as => .call tag e method.value as
      let p ← selectors node.value node.rest
      .ok (p.within (Nat.succ_le_succ
        (Nat.le_of_lt (Nat.lt_succ_of_lt (Nat.lt_trans args.shorter method.shorter)))))
  | i => .ok ⟨e, i, Nat.lt_succ_self _⟩
termination_by 16 * i.size + 10
decreasing_by all_goals (simp only [Input.size, List.length_cons, finish] at *; omega)

/-- The arguments of a call and the parenthesis that closes them. -/
def arguments (i : Input) : Reading (List Expr) i.size :=
  match i with
  | ⟨⟨.mark .rparen, _⟩ :: ts, k⟩ => .ok ⟨[], ⟨ts, k⟩, Input.size_lt_succ ts k⟩
  | i => someArguments i
termination_by 16 * i.size + 13
decreasing_by all_goals omega

/-- One argument or more, and the parenthesis that closes them. -/
def someArguments (i : Input) : Reading (List Expr) i.size := do
  let arg ← expression i
  match arg with
  | ⟨e, ⟨⟨.mark .comma, _⟩ :: ts, k⟩, h⟩ =>
      let more ← someArguments ⟨ts, k⟩
      .ok ((more.map (e :: ·)).within (Nat.le_of_lt (Nat.lt_trans (Nat.lt_succ_self _) h)))
  | arg => close (arg.map ([·])) .rparen "Expected ')' after arguments"
termination_by 16 * i.size + 12
decreasing_by all_goals (simp only [Input.size, List.length_cons] at *; omega)

/-- A literal, a name, the receiver, an expression in parentheses, or a creation. -/
def primary (i : Input) : Reading Expr i.size :=
  match i with
  | ⟨⟨.integer value, loc⟩ :: ts, k⟩ => leaf ts k _ (Input.size_lt_succ ts k) loc (.int · value)
  | ⟨⟨.keyword .kTrue, loc⟩ :: ts, k⟩ => leaf ts k _ (Input.size_lt_succ ts k) loc (.bool · true)
  | ⟨⟨.keyword .kFalse, loc⟩ :: ts, k⟩ => leaf ts k _ (Input.size_lt_succ ts k) loc (.bool · false)
  | ⟨⟨.keyword .kThis, loc⟩ :: ts, k⟩ => leaf ts k _ (Input.size_lt_succ ts k) loc .this
  | ⟨⟨.name text, loc⟩ :: ts, k⟩ => leaf ts k _ (Input.size_lt_succ ts k) loc (.name · text)
  | ⟨⟨.mark .lparen, loc⟩ :: ts, k⟩ => do
      let inner ← expression ⟨ts, k⟩
      let e ← close inner .rparen "Expected ')' after expression"
      .ok ((finish e loc .paren).within (Nat.le_succ _))
  | ⟨⟨.keyword .kNew, loc⟩ :: ts, k⟩ => do
      let e ← creation loc ⟨ts, k⟩
      .ok (e.within (Nat.le_succ _))
  | i => .error (i.mismatch "Expected expression")
termination_by 16 * i.size + 1
decreasing_by all_goals (simp only [Input.size, List.length_cons]; omega)

/-- What follows the word `new`. -/
def creation (loc : Location) (i : Input) : Reading Expr i.size :=
  match i with
  | ⟨⟨.keyword .kInt, _⟩ :: ts, k⟩ => do
      let opening ← Input.expectMark ⟨ts, k⟩ .lbracket "Expected '[' after 'new int'"
      have := opening.shorter
      let inner ← expression opening.rest
      let size ← close inner .rbracket "Expected ']' after array size"
      .ok ((finish size loc .newArray).within
        (Nat.le_of_lt (Nat.lt_trans opening.shorter (Nat.lt_succ_self _))))
  | i => do
      let word ← i.expectName "Expected class name after 'new'"
      let opening ← close word .lparen "Expected '(' after class name"
      let e ← close opening .rparen "Expected ')' in object creation"
      .ok (finish e loc .newObject)
termination_by 16 * i.size
decreasing_by all_goals (simp only [Input.size, List.length_cons] at *; omega)

end

end JavaMinus.Source
