/-
# Tokens of the source language

A token is a keyword, a name, a number, a mark, or the end of the text.  Keywords and marks are
written in exactly one way, which `Keyword.word` and `Mark.symbol` give; the tables `Keyword.all`
and `Mark.ofChar?` go the other way.
-/
import JavaMinus.Location

namespace JavaMinus.Source

/-- The reserved words. -/
inductive Keyword where
  | kImport | kClass | kExtends | kPublic | kPrivate | kStatic | kVoid | kInt | kBoolean
  | kIf | kElse | kWhile | kReturn | kNew | kThis | kTrue | kFalse | kLength
deriving DecidableEq, Repr

namespace Keyword

def all : List Keyword :=
  [.kImport, .kClass, .kExtends, .kPublic, .kPrivate, .kStatic, .kVoid, .kInt, .kBoolean,
    .kIf, .kElse, .kWhile, .kReturn, .kNew, .kThis, .kTrue, .kFalse, .kLength]

def word : Keyword → String
  | .kImport => "import"
  | .kClass => "class"
  | .kExtends => "extends"
  | .kPublic => "public"
  | .kPrivate => "private"
  | .kStatic => "static"
  | .kVoid => "void"
  | .kInt => "int"
  | .kBoolean => "boolean"
  | .kIf => "if"
  | .kElse => "else"
  | .kWhile => "while"
  | .kReturn => "return"
  | .kNew => "new"
  | .kThis => "this"
  | .kTrue => "true"
  | .kFalse => "false"
  | .kLength => "length"

/-- The name under which messages show the keyword. -/
def title : Keyword → String
  | .kImport => "Import"
  | .kClass => "Class"
  | .kExtends => "Extends"
  | .kPublic => "Public"
  | .kPrivate => "Private"
  | .kStatic => "Static"
  | .kVoid => "Void"
  | .kInt => "Int"
  | .kBoolean => "Boolean"
  | .kIf => "If"
  | .kElse => "Else"
  | .kWhile => "While"
  | .kReturn => "Return"
  | .kNew => "New"
  | .kThis => "This"
  | .kTrue => "True"
  | .kFalse => "False"
  | .kLength => "Length"

theorem mem_all (k : Keyword) : k ∈ all := by
  cases k <;> decide

def ofWord? (w : String) : Option Keyword :=
  all.find? (fun k => k.word == w)

end Keyword

/-- The operators and separators. -/
inductive Mark where
  | plus | minus | star | slash | less | andAnd | bang | assign
  | dot | comma | semicolon | lparen | rparen | lbrace | rbrace | lbracket | rbracket
deriving DecidableEq, Repr

namespace Mark

def symbol : Mark → String
  | .plus => "+"
  | .minus => "-"
  | .star => "*"
  | .slash => "/"
  | .less => "<"
  | .andAnd => "&&"
  | .bang => "!"
  | .assign => "="
  | .dot => "."
  | .comma => ","
  | .semicolon => ";"
  | .lparen => "("
  | .rparen => ")"
  | .lbrace => "\x7b"
  | .rbrace => "\x7d"
  | .lbracket => "["
  | .rbracket => "]"

/-- The name under which messages show the mark. -/
def title : Mark → String
  | .plus => "Plus"
  | .minus => "Minus"
  | .star => "Star"
  | .slash => "Slash"
  | .less => "Lt"
  | .andAnd => "AndAnd"
  | .bang => "Bang"
  | .assign => "Assign"
  | .dot => "Dot"
  | .comma => "Comma"
  | .semicolon => "Semicolon"
  | .lparen => "LParen"
  | .rparen => "RParen"
  | .lbrace => "LBrace"
  | .rbrace => "RBrace"
  | .lbracket => "LBracket"
  | .rbracket => "RBracket"

/-- The mark that is this one character; `&&` is the only one with two. -/
def ofChar? : Char → Option Mark
  | '+' => some .plus
  | '-' => some .minus
  | '*' => some .star
  | '/' => some .slash
  | '<' => some .less
  | '!' => some .bang
  | '=' => some .assign
  | '.' => some .dot
  | ',' => some .comma
  | ';' => some .semicolon
  | '(' => some .lparen
  | ')' => some .rparen
  | '\x7b' => some .lbrace
  | '\x7d' => some .rbrace
  | '[' => some .lbracket
  | ']' => some .rbracket
  | _ => none

end Mark

inductive Token where
  | keyword (k : Keyword)
  | name (text : String)
  | integer (value : Int32)
  | mark (m : Mark)
  | endOfText
deriving DecidableEq, Repr

namespace Token

/-- A word is a keyword if it is reserved, else a name. -/
def ofWord (w : String) : Token :=
  match Keyword.ofWord? w with
  | some k => .keyword k
  | none => .name w

def title : Token → String
  | .keyword k => k.title
  | .name _ => "Identifier"
  | .integer _ => "IntegerLiteral"
  | .mark m => m.title
  | .endOfText => "Eof"

/-- The token as messages show it. -/
def text : Token → String
  | .keyword k => k.title
  | .name text => s!"identifier '{text}'"
  | .integer value => s!"integer {value.toInt}"
  | .mark m => m.title
  | .endOfText => "end of file"

end Token

/-- A token and the place of its first character. -/
structure Lexeme where
  token : Token
  loc : Location
deriving DecidableEq, Repr

end JavaMinus.Source
