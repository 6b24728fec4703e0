/-
# Reading statements

A statement is recognised by its first token, except for three forms that begin with a name:
`name = value;`, `name[index] = value;` and an expression statement.  The first of them shows in the
second token; the other two begin with an expression and are told apart by what follows it.

A declaration is no statement.  Where a statement is expected and a declaration begins, the error
says where declarations are allowed.
-/
import JavaMinus.Source.Expression

namespace JavaMinus.Source

/-- Whether a declaration of a local variable begins here: a primitive type, or two names in a row
with or without a pair of brackets between them. -/
def startsDeclaration : List Lexeme → Bool
  | ⟨.keyword .kInt, _⟩ :: _ => true
  | ⟨.keyword .kBoolean, _⟩ :: _ => true
  | ⟨.name _, _⟩ :: ⟨.name _, _⟩ :: _ => true
  | ⟨.name _, _⟩ :: ⟨.mark .lbracket, _⟩ :: ⟨.mark .rbracket, _⟩ :: ⟨.name _, _⟩ :: _ => true
  | _ => false

/-- Whether the tokens begin with a name and the mark of an assignment. -/
def startsAssignment : List Lexeme → Bool
  | ⟨.name _, _⟩ :: ⟨.mark .assign, _⟩ :: _ => true
  | _ => false

def condition (i : Input) (opening closing : String) : Reading Expr i.size := do
  let mark ← i.expectMark .lparen opening
  let inner ← expression mark.rest
  let p ← close inner .rparen closing
  .ok (p.within (Nat.le_of_lt mark.shorter))

/-- What follows the word `return`. -/
def returned (loc : Location) (i : Input) : Reading Stmt i.size :=
  match i with
  | ⟨⟨.mark .semicolon, _⟩ :: ts, k⟩ => .ok ⟨.return loc none, ⟨ts, k⟩, Input.size_lt_succ ts k⟩
  | i => do
      let value ← expression i
      let p ← close value .semicolon "Expected ';' after return"
      .ok (p.map fun e => .return loc (some e))

def assignment (i : Input) : Reading Stmt i.size := do
  let target ← i.expectName "Expected assignment target"
  let mark ← close target (.assign) "Expected '='"
  let value ← expression mark.rest
  let p ← close value .semicolon "Expected ';' after assignment"
  .ok ((p.map (.assign i.loc mark.value)).within (Nat.le_of_lt mark.shorter))

/-- The array and the index of an expression that stands before an assignment mark. -/
def elementTarget (e : Expr) (after : Input) : Except Error (String × Expr) :=
  match e with
  | .index _ array index =>
      match array.asName? with
      | some name => .ok (name, index)
      | none => .error (after.mismatch "Array assignment target must be a variable")
  | _ => .error (after.mismatch "Invalid assignment target")

def expressionStatement (i : Input) : Reading Stmt i.size := do
  let first ← expression i
  match first with
  | ⟨e, ⟨⟨.mark .assign, loc⟩ :: ts, k⟩, h⟩ =>
      let (target, index) ← elementTarget e ⟨⟨.mark .assign, loc⟩ :: ts, k⟩
      let value ← expression ⟨ts, k⟩
      let p ← close value .semicolon "Expected ';' after assignment"
      .ok ((p.map (.assignElement i.loc target index)).within
        (Nat.le_of_lt (Nat.lt_trans (Nat.lt_succ_self _) h)))
  | first => do
      let p ← close first .semicolon "Expected ';' after expression"
      .ok (p.map .expr)

def plainStatement (i : Input) : Reading Stmt i.size :=
  if startsAssignment i.tokens then assignment i
  else if startsDeclaration i.tokens then
    .error (i.mismatch "Variable declarations are only allowed at the top of a method body")
  else expressionStatement i

mutual

def statement (i : Input) : Reading Stmt i.size :=
  match i with
  | ⟨⟨.mark .lbrace, loc⟩ :: ts, k⟩ => do
      let body ← statements ⟨ts, k⟩
      let p ← close body .rbrace "Expected '\x7d' after block"
      .ok (p.map (.block loc))
  | ⟨⟨.keyword .kIf, loc⟩ :: ts, k⟩ => do
      let guard ← condition ⟨ts, k⟩ "Expected '(' after 'if'" "Expected ')' after if condition"
      have := guard.shorter
      let p ← branches loc guard.value guard.rest
      .ok (p.within (Nat.le_of_lt (Nat.lt_succ_of_lt guard.shorter)))
  | ⟨⟨.keyword .kWhile, loc⟩ :: ts, k⟩ => do
      let guard ← condition ⟨ts, k⟩ "Expected '(' after 'while'"
        "Expected ')' after while condition"
      have := guard.shorter
      let body ← statement guard.rest
      .ok ((body.map (.while loc guard.value)).within
        (Nat.le_of_lt (Nat.lt_succ_of_lt guard.shorter)))
  | ⟨⟨.keyword .kReturn, loc⟩ :: ts, k⟩ => do
      let p ← returned loc ⟨ts, k⟩
      .ok (p.within (Nat.le_succ _))
  | i => plainStatement i
termination_by 4 * i.size
decreasing_by all_goals (simp only [Input.size, List.length_cons] at *; omega)

/-- The branches of a conditional; a word `else` belongs to the nearest one. -/
def branches (loc : Location) (guard : Expr) (i : Input) : Reading Stmt i.size := do
  let first ← statement i
  match first with
  | ⟨thenBranch, ⟨⟨.keyword .kElse, _⟩ :: ts, k⟩, h⟩ =>
      let second ← statement ⟨ts, k⟩
      .ok ((second.map (.ifElse loc guard thenBranch)).within
        (Nat.le_of_lt (Nat.lt_trans (Nat.lt_succ_self _) h)))
  | first => .ok (first.map (.ifThen loc guard))
termination_by 4 * i.size + 1
decreasing_by all_goals (simp only [Input.size, List.length_cons] at *; omega)

/-- The statements up to a closing brace or the end of the text. -/
def statements (i : Input) : Reading (List Stmt) (i.size + 1) :=
  match i.token with
  | .mark .rbrace => .ok ⟨[], i, Nat.lt_succ_self _⟩
  | .endOfText => .ok ⟨[], i, Nat.lt_succ_self _⟩
  | _ => do
      let first ← statement i
      have := first.shorter
      let more ← statements first.rest
      .ok ((more.map (first.value :: ·)).within
        (Nat.succ_le_succ (Nat.le_of_lt first.shorter)))
termination_by 4 * i.size + 1
decreasing_by all_goals omega

end

end JavaMinus.Source
