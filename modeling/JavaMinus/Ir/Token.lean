/-
# Tokens of the intermediate form

Instruction names, modifiers and types are all names here; the parser tells them apart by where they
stand.  Numbers keep their digits, since they may be too large for a word.
-/
import JavaMinus.Ir.Unit

namespace JavaMinus.Ir

/-- The separators. -/
inductive Mark where
  | colonEq | colon | dot | comma | semicolon
  | lparen | rparen | lbrace | rbrace | lbracket | rbracket
deriving DecidableEq, Repr

namespace Mark

def symbol : Mark → String
  | .colonEq => ":="
  | .colon => ":"
  | .dot => "."
  | .comma => ","
  | .semicolon => ";"
  | .lparen => "("
  | .rparen => ")"
  | .lbrace => "\x7b"
  | .rbrace => "\x7d"
  | .lbracket => "["
  | .rbracket => "]"

/-- The name under which messages show the mark. -/
def title : Mark → String
  | .colonEq => "ColonEq"
  | .colon => "Colon"
  | .dot => "Dot"
  | .comma => "Comma"
  | .semicolon => "Semicolon"
  | .lparen => "LParen"
  | .rparen => "RParen"
  | .lbrace => "LBrace"
  | .rbrace => "RBrace"
  | .lbracket => "LBracket"
  | .rbracket => "RBracket"

end Mark

inductive Token where
  | name (text : String)
  | integer (digits : String)
  /-- A text between quotes, without them. -/
  | quoted (text : String)
  | operator (op : Operator)
  | mark (m : Mark)
  | endOfText
deriving DecidableEq, Repr

namespace Token

def title : Token → String
  | .name _ => "Identifier"
  | .integer _ => "Integer"
  | .quoted _ => "StringLiteral"
  | .operator _ => "Operator"
  | .mark m => m.title
  | .endOfText => "Eof"

def quote (text : String) : String := "\"" ++ text ++ "\""

/-- The characters of a token that has no fixed form. -/
def value? : Token → Option String
  | .name text | .integer text => some text
  | .quoted text => some (quote text)
  | .operator op => some op.symbol
  | .mark _ | .endOfText => none

/-- The token as messages show it. -/
def text : Token → String
  | .name text => s!"'{text}'"
  | .integer digits => digits
  | .quoted text => quote text
  | .operator op => s!"'{op.symbol}'"
  | .mark m => m.title
  | .endOfText => "end of input"

end Token

/-- A token and its line. -/
structure Lexeme where
  token : Token
  line : Nat
deriving DecidableEq, Repr

end JavaMinus.Ir
