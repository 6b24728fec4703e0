/-
# Reading declarations

Imports, the class, its fields and methods, and whole programs.

A member of the class is a method or a field.  Which of the two shows only after its modifiers, its
type and its name, so these are looked at first and then read for good.  The entry method is the
static method `main` that returns nothing and has one parameter, an array of strings.
-/
import JavaMinus.Source.Lexer
import JavaMinus.Source.Statement

namespace JavaMinus.Source

/-! ## Types and variables -/

/-- The name of a type that begins with the token. -/
def typeName? : Token → Option String
  | .keyword .kInt => some "int"
  | .keyword .kBoolean => some "boolean"
  | .keyword .kVoid => some "void"
  | .name text => some text
  | _ => none

/-- A type, with a pair of brackets if it is an array. -/
def typeOf (i : Input) : Reading Ty i.size :=
  match i with
  | ⟨t :: ⟨.mark .lbracket, opening⟩ :: ⟨.mark .rbracket, closing⟩ :: ts, k⟩ =>
      match typeName? t.token with
      | some name =>
          .ok ⟨⟨name, true⟩, ⟨ts, k⟩,
            Nat.lt_succ_of_lt (Nat.lt_succ_of_lt (Nat.lt_succ_self _))⟩
      | none =>
          .error (Input.mismatch
            ⟨t :: ⟨.mark .lbracket, opening⟩ :: ⟨.mark .rbracket, closing⟩ :: ts, k⟩
            "Expected type")
  | ⟨t :: ts, k⟩ =>
      match typeName? t.token with
      | some name => .ok ⟨⟨name, false⟩, ⟨ts, k⟩, Input.size_lt_succ ts k⟩
      | none => .error (Input.mismatch ⟨t :: ts, k⟩ "Expected type")
  | i => .error (i.mismatch "Expected type")

def typed (i : Input) (rule : String) : Reading Declaration i.size := do
  let type ← typeOf i
  let name ← type.rest.expectName rule
  .ok ((name.map fun n => ⟨n, type.value, i.loc⟩).within (Nat.le_of_lt type.shorter))

/-- A field or a local variable. -/
def variableDeclaration (i : Input) : Reading Declaration i.size := do
  let d ← typed i "Expected variable name"
  close d .semicolon "Expected ';' after variable declaration"

/-! ## Methods -/

/-- What the modifiers before a member say; of `public` and `private` the last one counts. -/
structure Modifiers where
  isPublic : Bool
  isStatic : Bool

/-- The modifiers, in any order and number. -/
def modifiers : List Lexeme → Modifiers → Modifiers × List Lexeme
  | ⟨.keyword .kPublic, _⟩ :: ts, m => modifiers ts { m with isPublic := true }
  | ⟨.keyword .kPrivate, _⟩ :: ts, m => modifiers ts { m with isPublic := false }
  | ⟨.keyword .kStatic, _⟩ :: ts, m => modifiers ts { m with isStatic := true }
  | ts, m => (m, ts)

theorem modifiers_length_le (ts : List Lexeme) (m : Modifiers) :
    (modifiers ts m).2.length ≤ ts.length := by
  fun_induction modifiers ts m <;> simp_all <;> omega

def Input.skipModifiers (i : Input) : Input :=
  ⟨(modifiers i.tokens ⟨false, false⟩).2, i.nextId⟩

theorem Input.skipModifiers_size_le (i : Input) : i.skipModifiers.size ≤ i.size :=
  modifiers_length_le _ _

/-- One parameter or more, and the parenthesis that closes them. -/
def someParameters (i : Input) : Reading (List Declaration) i.size := do
  let first ← typed i "Expected parameter name"
  match first with
  | ⟨d, ⟨⟨.mark .comma, _⟩ :: ts, k⟩, h⟩ =>
      let more ← someParameters ⟨ts, k⟩
      .ok ((more.map (d :: ·)).within (Nat.le_of_lt (Nat.lt_trans (Nat.lt_succ_self _) h)))
  | first => close (first.map ([·])) .rparen "Expected ')' after parameters"
termination_by i.size
decreasing_by all_goals (simp only [Input.size, List.length_cons] at *; omega)

/-- The parameters of a method and the parenthesis that closes them. -/
def parameters (i : Input) : Reading (List Declaration) i.size :=
  match i with
  | ⟨⟨.mark .rparen, _⟩ :: ts, k⟩ => .ok ⟨[], ⟨ts, k⟩, Input.size_lt_succ ts k⟩
  | i => someParameters i

/-- The local variables and the statements of a body, up to a closing brace or the end of the
text. -/
def bodyItems (i : Input) : Reading (List Declaration × List Stmt) (i.size + 1) :=
  match i.token with
  | .mark .rbrace => .ok ⟨([], []), i, Nat.lt_succ_self _⟩
  | .endOfText => .ok ⟨([], []), i, Nat.lt_succ_self _⟩
  | _ =>
      if startsDeclaration i.tokens then do
        let d ← variableDeclaration i
        have := d.shorter
        let more ← bodyItems d.rest
        .ok ((more.map fun (ds, ss) => (d.value :: ds, ss)).within
          (Nat.succ_le_succ (Nat.le_of_lt d.shorter)))
      else do
        let s ← statement i
        have := s.shorter
        let more ← bodyItems s.rest
        .ok ((more.map fun (ds, ss) => (ds, s.value :: ss)).within
          (Nat.succ_le_succ (Nat.le_of_lt s.shorter)))
termination_by i.size

/-- The kind of a method, from its signature. -/
def methodKind (name : String) (isStatic : Bool) (returnType : Ty) (params : List Declaration) :
    MethodKind :=
  if name = "main" ∧ isStatic ∧ returnType.isVoid ∧ params.map (·.type) = [.stringArray] then
    .main
  else
    .regular isStatic

def method (i : Input) : Reading Method i.size := do
  let (mods, ts) := modifiers i.tokens ⟨false, false⟩
  let returnType ← typeOf i.skipModifiers
  let word ← returnType.rest.expectName "Expected method name"
  let name ← close word .lparen "Expected '(' after method name"
  let params ← parameters name.rest
  let opening ← params.rest.expectMark .lbrace "Expected '\x7b' before method body"
  let items ← bodyItems opening.rest
  let body ← close items .rbrace "Expected '\x7d' after method body"
  .ok ⟨{
      name := name.value
      kind := methodKind name.value mods.isStatic returnType.value params.value
      isPublic := mods.isPublic
      returnType := returnType.value
      params := params.value
      locals := body.value.1
      body := body.value.2
      bodyLoc := params.rest.loc
      loc := i.loc }, body.rest, by
    have := i.skipModifiers_size_le
    have := returnType.shorter
    have := name.shorter
    have := params.shorter
    have := opening.shorter
    have := body.shorter
    omega⟩

/-! ## The class and the program -/

/-- Whether the member that begins here is a method; fails where it is neither a method nor a
field. -/
def isMethod (i : Input) : Except Error Bool :=
  if i.skipModifiers.token = .keyword .kVoid then .ok true
  else do
    let member ← typed i.skipModifiers "Expected member name"
    .ok (member.rest.token = .mark .lparen)

/-- A field, its modifiers left out. -/
def field (i : Input) : Reading Declaration i.size := do
  let d ← variableDeclaration i.skipModifiers
  .ok (d.within i.skipModifiers_size_le)

/-- The fields and methods up to a closing brace or the end of the text. -/
def members (i : Input) : Reading (List Declaration × List Method) (i.size + 1) :=
  match i.token with
  | .mark .rbrace => .ok ⟨([], []), i, Nat.lt_succ_self _⟩
  | .endOfText => .ok ⟨([], []), i, Nat.lt_succ_self _⟩
  | _ => do
      if ← isMethod i then
        let m ← method i
        have := m.shorter
        let more ← members m.rest
        .ok ((more.map fun (fs, ms) => (fs, m.value :: ms)).within
          (Nat.succ_le_succ (Nat.le_of_lt m.shorter)))
      else
        let d ← field i
        have := d.shorter
        let more ← members d.rest
        .ok ((more.map fun (fs, ms) => (d.value :: fs, ms)).within
          (Nat.succ_le_succ (Nat.le_of_lt d.shorter)))
termination_by i.size

/-- The dotted parts of an import after the first, and the semicolon. -/
def importParts (i : Input) : Reading (List String) i.size :=
  match i with
  | ⟨⟨.mark .dot, _⟩ :: ts, k⟩ => do
      let part ← Input.expectName ⟨ts, k⟩ "Expected identifier after '.' in import"
      have := part.shorter
      let more ← importParts part.rest
      .ok ((more.map (part.value :: ·)).within
        (Nat.le_of_lt (Nat.lt_succ_of_lt part.shorter)))
  | i => do
      let mark ← i.expectMark .semicolon "Expected ';' after import"
      .ok (mark.map fun _ => [])
termination_by i.size
decreasing_by all_goals (simp only [Input.size, List.length_cons] at *; omega)

/-- The imports at the head of a program. -/
def importList (i : Input) : Reading (List Import) (i.size + 1) :=
  match i with
  | ⟨⟨.keyword .kImport, loc⟩ :: ts, k⟩ => do
      let first ← Input.expectName ⟨ts, k⟩ "Expected import path"
      let parts ← importParts first.rest
      have := first.shorter
      have := parts.shorter
      let more ← importList parts.rest
      .ok ((more.map (⟨first.value :: parts.value, loc⟩ :: ·)).within (by
        simp only [Input.size, List.length_cons] at *
        omega))
  | i => .ok ⟨[], i, Nat.lt_succ_self _⟩
termination_by i.size
decreasing_by all_goals (simp only [Input.size, List.length_cons] at *; omega)

/-- The word `public`, which a class may have and which says nothing. -/
def Input.skipPublic (i : Input) : Input :=
  match i with
  | ⟨⟨.keyword .kPublic, _⟩ :: ts, k⟩ => ⟨ts, k⟩
  | i => i

def parentClass (i : Input) : Reading (Option String) (i.size + 1) :=
  match i with
  | ⟨⟨.keyword .kExtends, _⟩ :: ts, k⟩ => do
      let name ← Input.expectName ⟨ts, k⟩ "Expected superclass name"
      .ok ((name.map some).within
        (Nat.le_of_lt (Nat.lt_succ_of_lt (Nat.lt_succ_self _))))
  | i => .ok ⟨none, i, Nat.lt_succ_self _⟩

/-- The class after the imports, and nothing after it. -/
def classAfter (imports : List Import) (i : Input) : Except Error Program := do
  let word ← i.skipPublic.expect (.keyword .kClass) "Expected 'class' keyword"
  let name ← word.rest.expectName "Expected class name"
  let parent ← parentClass name.rest
  let opening ← parent.rest.expectMark .lbrace "Expected '\x7b' after class declaration"
  let items ← members opening.rest
  let body ← items.rest.expectMark .rbrace "Expected '\x7d' after class body"
  if body.rest.token ≠ .endOfText then
    throw (body.rest.mismatch "Expected end of file after class declaration")
  .ok {
    imports := imports
    className := name.value
    superClass := parent.value
    loc := i.loc
    fields := items.value.1
    methods := items.value.2 }

/-- The program that a list of tokens spells. -/
def Program.ofLexemes (ts : List Lexeme) : Except Error Program := do
  let head ← importList ⟨ts, 0⟩
  classAfter head.value head.rest

def Program.ofText (source : String) : Except Error Program := do
  Program.ofLexemes (← lex source)

end JavaMinus.Source
