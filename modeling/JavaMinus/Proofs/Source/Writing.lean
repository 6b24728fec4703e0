/-
# Writing programs

The tokens of a program in one order: the imports, the head of the class, all fields and then all
methods; of a method its modifiers and its head, all local variables and then the statements.  An
expression has just the parentheses that its tree has.  The text that is written has the tokens with
a blank after each.

Such a text is cut into the tokens again (`lex_spelled`), if its names are names and its numbers have
no sign: a blank sets every token off from the next.
-/
import JavaMinus.Proofs.Source.Grammar
import JavaMinus.Proofs.Source.Lexing

namespace JavaMinus

def Ty.tokens (t : Ty) : List Source.Token :=
  .ofWord t.name :: if t.isArray then [.mark .lbracket, .mark .rbracket] else []

namespace Source

/-! ## Trees without tags and places -/

mutual

/-- The statement with every tag and place replaced by the default one. -/
def Stmt.untagged : Stmt → Stmt
  | .block _ body => .block default (Stmt.untaggedAll body)
  | .ifThen _ condition thenBranch => .ifThen default condition.untagged thenBranch.untagged
  | .ifElse _ condition thenBranch elseBranch =>
      .ifElse default condition.untagged thenBranch.untagged elseBranch.untagged
  | .while _ condition body => .while default condition.untagged body.untagged
  | .expr e => .expr e.untagged
  | .assign _ target value => .assign default target value.untagged
  | .assignElement _ target index value =>
      .assignElement default target index.untagged value.untagged
  | .return _ value => .return default (value.map Expr.untagged)

/-- The statements with every tag and place replaced by the default one. -/
def Stmt.untaggedAll : List Stmt → List Stmt
  | [] => []
  | s :: ss => s.untagged :: Stmt.untaggedAll ss

end

def Declaration.untagged (d : Declaration) : Declaration := { d with loc := default }

/-- The method with every tag and place replaced by the default one. -/
def Method.untagged (m : Method) : Method :=
  { m with
    params := m.params.map Declaration.untagged
    locals := m.locals.map Declaration.untagged
    body := Stmt.untaggedAll m.body
    bodyLoc := default
    loc := default }

def Import.untagged (i : Import) : Import := { i with loc := default }

/-- The program with every tag and place replaced by the default one. -/
def Program.untagged (p : Program) : Program :=
  { p with
    imports := p.imports.map Import.untagged
    loc := default
    fields := p.fields.map Declaration.untagged
    methods := p.methods.map Method.untagged }

/-! ## The tokens of a program -/

mutual

def Stmt.tokens : Stmt → List Token
  | .block _ body => .mark .lbrace :: (Stmt.tokensOf body ++ [.mark .rbrace])
  | .ifThen _ condition thenBranch =>
      .keyword .kIf :: .mark .lparen :: (condition.tokens ++ .mark .rparen :: thenBranch.tokens)
  | .ifElse _ condition thenBranch elseBranch =>
      .keyword .kIf :: .mark .lparen ::
        (condition.tokens ++ .mark .rparen ::
          (thenBranch.tokens ++ .keyword .kElse :: elseBranch.tokens))
  | .while _ condition body =>
      .keyword .kWhile :: .mark .lparen :: (condition.tokens ++ .mark .rparen :: body.tokens)
  | .expr e => e.tokens ++ [.mark .semicolon]
  | .assign _ target value =>
      .name target :: .mark .assign :: (value.tokens ++ [.mark .semicolon])
  | .assignElement _ target index value =>
      .name target :: .mark .lbracket ::
        (index.tokens ++ .mark .rbracket :: .mark .assign :: (value.tokens ++ [.mark .semicolon]))
  | .return _ none => [.keyword .kReturn, .mark .semicolon]
  | .return _ (some value) => .keyword .kReturn :: (value.tokens ++ [.mark .semicolon])

def Stmt.tokensOf : List Stmt → List Token
  | [] => []
  | s :: ss => s.tokens ++ Stmt.tokensOf ss

end

/-- The tokens of a parameter: its type and its name. -/
def Declaration.tokens (d : Declaration) : List Token := d.type.tokens ++ [.name d.name]

/-- The tokens of fields or local variables. -/
def variableTokens (ds : List Declaration) : List Token :=
  ds.flatMap fun d => d.tokens ++ [.mark .semicolon]

def parameterTokens : List Declaration → List Token
  | [] => []
  | [d] => d.tokens
  | d :: d' :: ds => d.tokens ++ .mark .comma :: parameterTokens (d' :: ds)

def modifierTokens (m : Modifiers) : List Token :=
  (if m.isPublic then [.keyword .kPublic] else []) ++
    (if m.isStatic then [.keyword .kStatic] else [])

/-- The tokens of a method: its modifiers, its head, its local variables and its statements. -/
def Method.tokens (m : Method) : List Token :=
  modifierTokens ⟨m.isPublic, m.isStatic⟩ ++
    (m.returnType.tokens ++ .name m.name :: .mark .lparen ::
      (parameterTokens m.params ++ .mark .rparen :: .mark .lbrace ::
        (variableTokens m.locals ++ (Stmt.tokensOf m.body ++ [.mark .rbrace]))))

def partTokens (parts : List String) : List Token :=
  parts.flatMap fun part => [.mark .dot, .name part]

/-- The tokens of an import; its path has at least one part. -/
def Import.tokens (i : Import) : List Token :=
  match i.path with
  | [] => []
  | first :: parts =>
      .keyword .kImport :: .name first :: (partTokens parts ++ [.mark .semicolon])

/-- The tokens of the superclass, if there is one. -/
def parentTokens : Option String → List Token
  | none => []
  | some name => [.keyword .kExtends, .name name]

def Program.tokens (p : Program) : List Token :=
  p.imports.flatMap Import.tokens ++
    .keyword .kClass :: .name p.className ::
      (parentTokens p.superClass ++ .mark .lbrace ::
        (variableTokens p.fields ++ (p.methods.flatMap Method.tokens ++ [.mark .rbrace])))

/-! ## The text -/

def Token.spelling : Token → String
  | .keyword k => k.word
  | .name text => text
  | .integer value => toString value.toInt
  | .mark m => m.symbol
  | .endOfText => ""

/-- The text of tokens, with a blank after each. -/
def spelled (ts : List Token) : String := String.join (ts.map fun t => t.spelling ++ " ")

def Program.written (p : Program) : String := spelled p.tokens

/-! ## The text is cut into the tokens again -/

theorem Token.Writable.spelledAs {t : Token} (writable : t.Writable) :
    t.SpelledAs t.spelling.toList := by
  cases t with
  | keyword k => exact .keyword k
  | name text => exact .name writable
  | integer value =>
      have positive : 0 ≤ value.toInt := writable
      have high := value.toInt_lt
      have spelling : (Token.integer value).spelling.toList =
          Nat.toDigits 10 value.toInt.toNat := by
        rw [Token.spelling, Int.toString_eq_repr, Int.repr_eq_if, if_pos positive,
          Nat.toList_repr]
      have same : Int32.ofNat value.toInt.toNat = value := by
        rw [← Int32.ofInt_eq_ofNat, Int.toNat_of_nonneg positive, Int32.ofInt_toInt]
      have spelled := Token.SpelledAs.integer (n := value.toInt.toNat) (by omega) 0
      rwa [same, List.replicate_zero, List.nil_append, ← spelling] at spelled
  | mark m => exact .mark m
  | endOfText => exact absurd writable id

def spaced (ts : List Token) : List Chunk := ts.map fun t => ⟨t, t.spelling.toList, [' ']⟩

theorem spelled_toList (ts : List Token) :
    (spelled ts).toList = (spaced ts).flatMap Chunk.chars := by
  induction ts with
  | nil => rfl
  | cons t ts ih =>
      rw [spelled, List.map_cons, String.join_cons, String.toList_append, String.toList_append,
        spaced, List.map_cons, List.flatMap_cons, ← spaced, ← ih]
      rfl

theorem laidOut_spaced {ts : List Token} (spellable : Spellable ts) : LaidOut (spaced ts) := by
  induction ts with
  | nil => exact .nil
  | cons t ts ih =>
      obtain ⟨first, others⟩ := spellable_cons.1 spellable
      have blank : IsSpace ' ' := by decide
      exact .cons first.spelledAs ⟨.space blank .nil, ' ', rfl, .inl blank⟩ (ih others)

theorem lex_spelled {ts : List Token} (spellable : Spellable ts) :
    ∃ ls, lex (spelled ts) = .ok ls ∧ ls.map Lexeme.token = ts ++ [.endOfText] := by
  refine ⟨lexemes .start [] (spaced ts), ?_, ?_⟩
  · rw [lex, spelled_toList, scan_laidOut (laidOut_spaced spellable)]
  · rw [tokens_lexemes, spaced, List.map_map]
    exact congrArg (· ++ _) (List.map_id ts)

end Source

end JavaMinus
