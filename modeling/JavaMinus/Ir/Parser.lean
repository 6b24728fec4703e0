/-
# Reading the intermediate form

An instruction is an assignment if there is a `:=` before its semicolon; that is looked for first,
because instruction names are not reserved and a variable may be called `goto` or `ret`.  A word is
an instruction name only where the next token is the one that must follow it, and a modifier only
where another name follows.

Labels stand before the instruction they mark; those after the last one are kept apart.
-/
import JavaMinus.Ir.Lexer
import JavaMinus.Parsed

namespace JavaMinus.Ir

/-- A reader's answer, with fewer than `n` tokens left, or the line where it failed. -/
abbrev Reading (α : Type) (n : Nat) : Type :=
  Except Error (@Parsed (List Lexeme) List.length n α)

/-! ## Single tokens -/

/-- The token to be read next. -/
def next : List Lexeme → Token
  | l :: _ => l.token
  | [] => .endOfText

/-- The line of the token to be read next. -/
def lineOf : List Lexeme → Nat
  | l :: _ => l.line
  | [] => 1

/-- The error that the next token breaks a rule. -/
def mismatch (ts : List Lexeme) (rule : String) : Error :=
  .intermediate (lineOf ts) (.mismatch rule (next ts).text)

/-- Reads one mark. -/
def expect (m : Mark) (rule : String) (ts : List Lexeme) : Reading Unit ts.length :=
  match ts with
  | l :: ts =>
      if l.token = .mark m then .ok ⟨(), ts, Nat.lt_succ_self _⟩
      else .error (mismatch (l :: ts) rule)
  | [] => .error (mismatch [] rule)

def expectName (rule : String) (ts : List Lexeme) : Reading String ts.length :=
  match ts with
  | ⟨.name text, _⟩ :: ts => .ok ⟨text, ts, Nat.lt_succ_self _⟩
  | ts => .error (mismatch ts rule)

/-- Goes on after a part read. -/
def andThen {α β : Type} {n : Nat} (p : @Parsed (List Lexeme) List.length n α)
    (f : (ts : List Lexeme) → Reading β ts.length) : Reading β n := do
  let q ← f p.rest
  .ok (q.within (Nat.le_of_lt p.shorter))

def close {α : Type} {n : Nat} (p : @Parsed (List Lexeme) List.length n α) (m : Mark)
    (rule : String) : Reading α n := do
  let q ← andThen p (expect m rule)
  .ok (q.map fun _ => p.value)

/-! ## Types and operands -/

@[grind =] def typeText (ts : List Lexeme) : Reading ElementType ts.length :=
  match ts with
  | ⟨.name "array", _⟩ :: ⟨.mark .dot, _⟩ :: ts => do
      let element ← typeText ts
      .ok ((element.map .array).within (Nat.le_trans (Nat.le_succ _) (Nat.le_succ _)))
  | ⟨.name "array", _⟩ :: ts => .error (mismatch ts "Expected array element type")
  | ⟨.name word, _⟩ :: ts => .ok ⟨.ofWord word, ts, Nat.lt_succ_self _⟩
  | ts => .error (mismatch ts "Expected type name")

/-- A dot and a type. -/
def suffix (ts : List Lexeme) : Reading ElementType ts.length := do
  let dot ← expect .dot "Expected type suffix" ts
  andThen dot typeText

/-- A dot and a type if there is a dot; what they say is dropped. -/
def droppedSuffix (ts : List Lexeme) : Reading Unit (ts.length + 1) :=
  match ts with
  | ⟨.mark .dot, line⟩ :: us => do
      let type ← suffix (⟨.mark .dot, line⟩ :: us)
      .ok ((type.map fun _ => ()).within (Nat.le_succ _))
  | ts => .ok ⟨(), ts, Nat.lt_succ_self _⟩

/-- A name that is an operand of its own: the receiver, a variable with its type, or a class. -/
def nameOperand (name : String) (ts : List Lexeme) : Reading Element (ts.length + 1) :=
  if name = "this" then do
    let rest ← droppedSuffix ts
    .ok (rest.map fun _ => .var name .this)
  else
    match ts with
    | ⟨.mark .dot, line⟩ :: us => do
        let type ← suffix (⟨.mark .dot, line⟩ :: us)
        .ok ((type.map (.var name)).within (Nat.le_succ _))
    | ts => .ok ⟨.var name (.classRef name), ts, Nat.lt_succ_self _⟩

/-- An operand. -/
@[grind =] def element (ts : List Lexeme) : Reading Element ts.length :=
  match ts with
  | ⟨.integer digits, _⟩ :: ts => do
      let type ← suffix ts
      .ok ((type.map (.literal digits)).within (Nat.le_succ _))
  | ⟨.quoted text, _⟩ :: ts => do
      let rest ← droppedSuffix ts
      .ok (rest.map fun _ => .literal (Token.quote text) .string)
  | ⟨.name name, _⟩ :: ⟨.mark .lbracket, line⟩ :: ts =>
      if name = "this" then nameOperand name (⟨.mark .lbracket, line⟩ :: ts)
      else do
        let inner ← element ts
        let index ← close inner .rbracket "Expected ']' after index"
        let type ← andThen index suffix
        .ok ((type.map (.item name index.value)).within
          (Nat.le_trans (Nat.le_succ _) (Nat.le_succ _)))
  | ⟨.name name, _⟩ :: ts => nameOperand name ts
  | ts => .error (mismatch ts "Expected operand")

/-- Operands, each after a comma. -/
def moreElements (ts : List Lexeme) : Reading (List Element) (ts.length + 1) :=
  match ts with
  | ⟨.mark .comma, _⟩ :: ts => do
      let first ← element ts
      have := first.shorter
      let more ← moreElements first.rest
      .ok ((more.map (first.value :: ·)).within
        (Nat.succ_le_succ (Nat.le_of_lt (Nat.lt_succ_of_lt first.shorter))))
  | ts => .ok ⟨[], ts, Nat.lt_succ_self _⟩
termination_by ts.length
decreasing_by all_goals (simp only [List.length_cons] at *; omega)

/-! ## Instructions -/

/-- What a new array has for a target: the word `array`, if a comma follows. -/
def callTarget (kind : CallKind) (ts : List Lexeme) : Reading (Option Element) ts.length :=
  match kind, ts with
  | .new, ⟨.name "array", _⟩ :: ⟨.mark .comma, line⟩ :: ts =>
      .ok ⟨none, ⟨.mark .comma, line⟩ :: ts, Nat.lt_succ_self _⟩
  | _, ts => do
      let target ← element ts
      .ok (target.map some)

/-- The name of the method, in quotes, if the instruction calls one. -/
def callMethod (kind : CallKind) (ts : List Lexeme) :
    Reading (Option String) (ts.length + 1) :=
  if kind.isInvocation then do
    let comma ← expect .comma "Expected method name" ts
    match comma with
    | ⟨(), ⟨.quoted text, _⟩ :: us, h⟩ =>
        .ok ⟨some text, us, Nat.lt_succ_of_lt (Nat.lt_trans (Nat.lt_succ_self _) h)⟩
    | comma => .error (mismatch comma.rest "Expected quoted method name")
  else .ok ⟨none, ts, Nat.lt_succ_self _⟩

/-- What follows the opening parenthesis of a call. -/
def callAfter (kind : CallKind) (ts : List Lexeme) : Reading Instruction ts.length := do
  let target ← callTarget kind ts
  let method ← callMethod kind target.rest
  let args ← moreElements method.rest
  let closing ← expect .rparen "Expected ')' after call arguments" args.rest
  let type ← suffix closing.rest
  .ok ⟨.call ⟨kind, target.value, method.value, args.value, type.value⟩, type.rest, by
    have := target.shorter
    have := method.shorter
    have := args.shorter
    have := closing.shorter
    have := type.shorter
    omega⟩

/-- What follows the opening parenthesis of a field's reading. -/
def getFieldAfter (ts : List Lexeme) : Reading Instruction ts.length := do
  let object ← element ts
  let first ← close object .comma "Expected field operand"
  let field ← andThen first element
  let closing ← close field .rparen "Expected ')'"
  let type ← andThen closing suffix
  .ok (type.map fun _ => .getField object.value field.value)

/-- What follows the opening parenthesis of a field's writing. -/
def putFieldAfter (ts : List Lexeme) : Reading Instruction ts.length := do
  let object ← element ts
  let first ← close object .comma "Expected field operand"
  let field ← andThen first element
  let second ← close field .comma "Expected value operand"
  let value ← andThen second element
  let closing ← close value .rparen "Expected ')'"
  let type ← andThen closing suffix
  .ok (type.map fun _ => .putField object.value field.value value.value)

/-- A negation, two operands with an operator between, or one operand. -/
def operation (ts : List Lexeme) : Reading Instruction ts.length :=
  match ts with
  | ⟨.operator op, line⟩ :: ts =>
      if op = .not then do
        let type ← suffix ts
        let operand ← andThen type element
        .ok ((operand.map (.unary ⟨op, type.value⟩)).within (Nat.le_succ _))
      else .error (mismatch (⟨.operator op, line⟩ :: ts) "Unexpected operator")
  | ts => do
      let lhs ← element ts
      match lhs with
      | ⟨l, ⟨.operator op, _⟩ :: us, h⟩ => do
          let type ← suffix us
          let rhs ← andThen type element
          .ok ((rhs.map (.binary l ⟨op, type.value⟩)).within
            (Nat.le_of_lt (Nat.lt_trans (Nat.lt_succ_self _) h)))
      | lhs => .ok (lhs.map .single)

/-- The right side of an assignment, also an instruction of its own. -/
@[grind =] def rightSide (ts : List Lexeme) : Reading Instruction ts.length :=
  match ts with
  | ⟨.name word, line⟩ :: ⟨.mark .lparen, line'⟩ :: us =>
      match CallKind.ofWord? word with
      | some kind => do
          let p ← callAfter kind us
          .ok (p.within (Nat.le_trans (Nat.le_succ _) (Nat.le_succ _)))
      | none =>
          if word = "getfield" then do
            let p ← getFieldAfter us
            .ok (p.within (Nat.le_trans (Nat.le_succ _) (Nat.le_succ _)))
          else if word = "putfield" then do
            let p ← putFieldAfter us
            .ok (p.within (Nat.le_trans (Nat.le_succ _) (Nat.le_succ _)))
          else operation (⟨.name word, line⟩ :: ⟨.mark .lparen, line'⟩ :: us)
  | ts => operation ts

/-- Whether there is a `:=` before the next semicolon, closing brace or the end. -/
def isAssignment : List Lexeme → Bool
  | ⟨.mark .colonEq, _⟩ :: _ => true
  | ⟨.mark .semicolon, _⟩ :: _ => false
  | ⟨.mark .rbrace, _⟩ :: _ => false
  | ⟨.endOfText, _⟩ :: _ => false
  | _ :: ts => isAssignment ts
  | [] => false

def assignment (ts : List Lexeme) : Reading Instruction ts.length := do
  let dest ← element ts
  let mark ← close dest .colonEq "Expected ':='"
  let type ← andThen mark suffix
  let rhs ← andThen type rightSide
  .ok (rhs.map (.assign dest.value type.value))

/-- What follows the opening parenthesis of a branch. -/
def branchAfter (ts : List Lexeme) : Reading Instruction ts.length := do
  let inner ← operation ts
  let condition ← close inner .rparen "Expected ')' after condition"
  match condition with
  | ⟨c, ⟨.name "goto", _⟩ :: us, h⟩ =>
      let label ← expectName "Expected branch label" us
      .ok ((label.map (.branch c)).within (Nat.le_of_lt (Nat.lt_trans (Nat.lt_succ_self _) h)))
  | condition => .error (mismatch condition.rest "Expected 'goto' after condition")

/-- What follows the word `ret`. -/
def returnAfter (ts : List Lexeme) : Reading Instruction ts.length := do
  let type ← suffix ts
  if next type.rest = .mark .semicolon then
    if type.value = .void then .ok (type.map fun _ => .returnVoid)
    else .error (mismatch type.rest "Missing return value")
  else
    let value ← andThen type element
    .ok (value.map (.return type.value))

@[grind =] def plainInstruction (ts : List Lexeme) : Reading Instruction ts.length :=
  match ts with
  | ⟨.name "goto", _⟩ :: ⟨.name label, _⟩ :: us =>
      .ok ⟨.goto label, us, Nat.lt_succ_of_lt (Nat.lt_succ_self _)⟩
  | ⟨.name "if", _⟩ :: ⟨.mark .lparen, _⟩ :: us => do
      let p ← branchAfter us
      .ok (p.within (Nat.le_trans (Nat.le_succ _) (Nat.le_succ _)))
  | ⟨.name "ret", _⟩ :: ⟨.mark .dot, line⟩ :: us => do
      let p ← returnAfter (⟨.mark .dot, line⟩ :: us)
      .ok (p.within (Nat.le_succ _))
  | ts => rightSide ts

def instruction (ts : List Lexeme) : Reading Instruction ts.length :=
  if isAssignment ts then assignment ts else plainInstruction ts

def labels : List Lexeme → List String × List Lexeme
  | ⟨.name label, _⟩ :: ⟨.mark .colon, _⟩ :: ts => (label :: (labels ts).1, (labels ts).2)
  | ts => ([], ts)

theorem labels_length_le (ts : List Lexeme) : (labels ts).2.length ≤ ts.length := by
  fun_induction labels ts with
  | case1 => simp_all; omega
  | case2 => exact Nat.le_refl _

/-- The instructions of a body with their labels, the labels after them, and the brace. -/
def bodyAfter (ts : List Lexeme) : Reading (List Labeled × List String) ts.length :=
  match next (labels ts).2 with
  | .mark .rbrace => do
      let closing ← expect .rbrace "Expected '\x7d' after method body" (labels ts).2
      .ok ((closing.map fun _ => ([], (labels ts).1)).within (labels_length_le ts))
  | .endOfText => .error (mismatch (labels ts).2 "Unterminated method body")
  | _ => do
      let inner ← instruction (labels ts).2
      let first ← close inner .semicolon "Expected ';' after instruction"
      have := labels_length_le ts
      have := first.shorter
      let more ← bodyAfter first.rest
      .ok ((more.map fun (ls, trailing) => (⟨(labels ts).1, first.value⟩ :: ls, trailing)).within
        (Nat.le_trans (Nat.le_of_lt first.shorter) (labels_length_le ts)))
termination_by ts.length

/-! ## Members and units -/

/-- What modifiers say; of the access words the last one counts. -/
structure Modifiers where
  access : Access
  isStatic : Bool
  isFinal : Bool

/-- What one more modifier word says; nothing if the word is no modifier. -/
def Modifiers.add? (m : Modifiers) (word : String) : Option Modifiers :=
  match Access.ofWord? word with
  | some access => some { m with access := access }
  | none =>
      if word = "static" then some { m with isStatic := true }
      else if word = "final" then some { m with isFinal := true }
      else none

/-- The modifiers in any order; the last of several names is no modifier. -/
def modifiers : List Lexeme → Modifiers → Modifiers × List Lexeme
  | ⟨.name word, line⟩ :: ⟨.name word', line'⟩ :: ts, m =>
      match m.add? word with
      | some m' => modifiers (⟨.name word', line'⟩ :: ts) m'
      | none => (m, ⟨.name word, line⟩ :: ⟨.name word', line'⟩ :: ts)
  | ts, m => (m, ts)

theorem modifiers_length_le (ts : List Lexeme) (m : Modifiers) :
    (modifiers ts m).2.length ≤ ts.length := by
  fun_induction modifiers ts m with
  | case1 m line word word' line' ts m' h ih => simp_all; omega
  | case2 => exact Nat.le_refl _
  | case3 => exact Nat.le_refl _

def noModifiers : Modifiers := ⟨.defaultAccess, false, false⟩

def field (ts : List Lexeme) : Reading Field ts.length := do
  let m := (modifiers ts noModifiers).1
  let name ← expectName "Expected field name" (modifiers ts noModifiers).2
  let type ← andThen name suffix
  let closing ← close type .semicolon "Expected ';' after field"
  .ok ((closing.map fun t => ⟨name.value, m.access, m.isStatic, m.isFinal, t⟩).within
    (modifiers_length_le ts noModifiers))

/-- The parameters of a method and the parenthesis that closes them. -/
def parameters (ts : List Lexeme) : Reading (List Element) ts.length :=
  match ts with
  | ⟨.mark .rparen, _⟩ :: ts => .ok ⟨[], ts, Nat.lt_succ_self _⟩
  | ts => do
      let first ← element ts
      let more ← moreElements first.rest
      let closing ← expect .rparen "Expected ')' after parameters" more.rest
      .ok ⟨first.value :: more.value, closing.rest, by
        have := first.shorter
        have := more.shorter
        have := closing.shorter
        omega⟩

def methodAfter (m : Modifiers) (isConstructor : Bool) (ts : List Lexeme) :
    Reading Method ts.length := do
  let word ← expectName "Expected method name" ts
  let name ← close word .lparen "Expected '(' after method name"
  let params ← andThen name parameters
  let type ← andThen params suffix
  let opening ← close type .lbrace "Expected '\x7b' before method body"
  let body ← andThen opening bodyAfter
  .ok (body.map fun (instructions, trailing) =>
    { name := name.value
      access := m.access
      isStatic := m.isStatic
      isFinal := m.isFinal
      isConstructor := isConstructor
      params := params.value
      returnType := type.value
      body := instructions
      trailing := trailing })

def method (ts : List Lexeme) : Reading Method ts.length := do
  let p ← methodAfter (modifiers ts noModifiers).1 false (modifiers ts noModifiers).2
  .ok (p.within (modifiers_length_le ts noModifiers))

/-- A constructor has no modifiers and is public. -/
def constructor (ts : List Lexeme) : Reading Method ts.length :=
  methodAfter ⟨.publicAccess, false, false⟩ true ts

/-- The members up to the brace that closes the class. -/
def members (ts : List Lexeme) : Reading (List Field × List Method) ts.length :=
  match ts with
  | ⟨.mark .rbrace, _⟩ :: ts => .ok ⟨([], []), ts, Nat.lt_succ_self _⟩
  | ts => do
      let dot ← expect .dot "Expected class member" ts
      let directive ← andThen dot (expectName "Expected member directive")
      have := directive.shorter
      if directive.value = "field" then
        let f ← andThen directive field
        have := f.shorter
        let more ← members f.rest
        .ok ((more.map fun (fs, ms) => (f.value :: fs, ms)).within (Nat.le_of_lt f.shorter))
      else if directive.value = "method" then
        let m ← andThen directive method
        have := m.shorter
        let more ← members m.rest
        .ok ((more.map fun (fs, ms) => (fs, m.value :: ms)).within (Nat.le_of_lt m.shorter))
      else if directive.value = "construct" then
        let m ← andThen directive constructor
        have := m.shorter
        let more ← members m.rest
        .ok ((more.map fun (fs, ms) => (fs, m.value :: ms)).within (Nat.le_of_lt m.shorter))
      else
        .error (mismatch directive.rest s!"Unknown directive '.{directive.value}'")
termination_by ts.length

/-- The dotted parts of an import after the first, and the semicolon. -/
def importParts (ts : List Lexeme) : Reading (List String) ts.length :=
  match ts with
  | ⟨.mark .dot, _⟩ :: ts => do
      let part ← expectName "Expected identifier after '.'" ts
      have := part.shorter
      let more ← importParts part.rest
      .ok ((more.map (part.value :: ·)).within
        (Nat.le_of_lt (Nat.lt_succ_of_lt part.shorter)))
  | ts => do
      let closing ← expect .semicolon "Expected ';' after import" ts
      .ok (closing.map fun _ => [])
termination_by ts.length
decreasing_by all_goals (simp only [List.length_cons] at *; omega)

/-- The imports at the head of a unit. -/
def imports (ts : List Lexeme) : Reading (List String) (ts.length + 1) :=
  match ts with
  | ⟨.name "import", _⟩ :: ts => do
      let first ← expectName "Expected import path" ts
      let parts ← andThen first importParts
      have := parts.shorter
      let more ← imports parts.rest
      .ok ((more.map (".".intercalate (first.value :: parts.value) :: ·)).within
        (Nat.succ_le_succ (Nat.le_of_lt (Nat.lt_succ_of_lt parts.shorter))))
  | ts => .ok ⟨[], ts, Nat.lt_succ_self _⟩
termination_by ts.length
decreasing_by all_goals (simp only [List.length_cons] at *; omega)

def parentClass (ts : List Lexeme) : Reading (Option String) (ts.length + 1) :=
  match ts with
  | ⟨.name "extends", _⟩ :: ts => do
      let name ← expectName "Expected superclass name" ts
      .ok ((name.map some).within (Nat.le_trans (Nat.le_succ _) (Nat.le_succ _)))
  | ts => .ok ⟨none, ts, Nat.lt_succ_self _⟩

/-- The unit that a list of tokens spells. -/
def ClassUnit.ofLexemes (ts : List Lexeme) : Except Error ClassUnit := do
  let head ← Ir.imports ts
  let (m, us) := modifiers head.rest noModifiers
  let name ← expectName "Expected class name" us
  let parent ← parentClass name.rest
  let opening ← expect .lbrace "Expected '\x7b' after class header" parent.rest
  let body ← members opening.rest
  if next body.rest ≠ .endOfText then
    throw (mismatch body.rest "Expected end of input after class")
  .ok {
    imports := head.value
    name := name.value
    access := m.access
    superClass := parent.value
    fields := body.value.1
    methods := body.value.2 }

def ClassUnit.ofText (source : String) : Except Error ClassUnit := do
  ClassUnit.ofLexemes (← lex source)

end JavaMinus.Ir
