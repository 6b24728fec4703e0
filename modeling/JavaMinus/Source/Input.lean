/-
# The input of the program parser

What is left to read: the tokens from here on and the number of the next expression.  The list ends
with the token for the end of the text, so the place of a mistake is that of the first token left.

The readers of single tokens are here; the three modules after this one read expressions,
statements and declarations with them.
-/
import JavaMinus.Error
import JavaMinus.Parsed
import JavaMinus.Source.Program
import JavaMinus.Source.Token

namespace JavaMinus.Source

/-- The tokens left and the next expression number. -/
structure Input where
  tokens : List Lexeme
  nextId : Nat

namespace Input

/-- The number of tokens left. -/
def size (i : Input) : Nat := i.tokens.length

/-- What follows a token is smaller by one. -/
theorem size_lt_succ (ts : List Lexeme) (k : Nat) : size ⟨ts, k⟩ < size ⟨ts, k⟩ + 1 :=
  Nat.lt_succ_self _

def token (i : Input) : Token :=
  match i.tokens with
  | l :: _ => l.token
  | [] => .endOfText

/-- The place of the token to be read next. -/
def loc (i : Input) : Location :=
  match i.tokens with
  | l :: _ => l.loc
  | [] => ⟨0, 0⟩

/-- The error that the next token breaks a rule. -/
def mismatch (i : Input) (rule : String) : Error :=
  .grammar i.loc (.mismatch rule i.token.text)

end Input

/-- A reader's answer, with fewer than `n` tokens left, or the place where it failed. -/
abbrev Reading (α : Type) (n : Nat) : Type :=
  Except Error (Parsed Input.size n α)

namespace Input

/-- Reads one token that has to be `t`. -/
def expect (i : Input) (t : Token) (rule : String) : Reading Token i.size :=
  match i with
  | ⟨l :: ls, k⟩ =>
      if l.token = t then
        .ok ⟨t, ⟨ls, k⟩, Nat.lt_succ_self _⟩
      else
        .error (mismatch ⟨l :: ls, k⟩ rule)
  | ⟨[], k⟩ => .error (mismatch ⟨[], k⟩ rule)

def expectMark (i : Input) (m : Mark) (rule : String) : Reading Token i.size :=
  i.expect (.mark m) rule

def expectName (i : Input) (rule : String) : Reading String i.size :=
  match i with
  | ⟨⟨.name text, _⟩ :: ls, k⟩ => .ok ⟨text, ⟨ls, k⟩, Nat.lt_succ_self _⟩
  | i => .error (i.mismatch rule)

end Input

def close {n : Nat} {α : Type} (p : Parsed Input.size n α) (m : Mark) (rule : String) :
    Reading α n := do
  let c ← p.rest.expectMark m rule
  .ok ⟨p.value, c.rest, Nat.lt_trans c.shorter p.shorter⟩

/-- Makes an expression of a part read, under the next number. -/
def finish {n : Nat} {α : Type} (p : Parsed Input.size n α) (loc : Location)
    (node : Tag → α → Expr) : Parsed Input.size n Expr :=
  ⟨node ⟨p.rest.nextId, loc⟩ p.value, ⟨p.rest.tokens, p.rest.nextId + 1⟩, p.shorter⟩

end JavaMinus.Source
