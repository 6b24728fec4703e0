/-
# From text to tokens of the intermediate form

As for programs, the text is cut into the longest pieces from left to right, and each cut says which
characters it took.  A minus sign right before a digit belongs to the number.  A text between quotes
stays on its line; one that does not end there is a fault as far as it goes.
-/
import JavaMinus.Character
import JavaMinus.Error
import JavaMinus.Ir.Token

namespace JavaMinus.Ir

open Character

/-- What a piece of text is. -/
inductive Piece where
  | gap
  | token (t : Token)
  | fault (f : TextFault)
deriving DecidableEq, Repr

/-- The first piece of a text, its characters, and the text after them. -/
structure Cut where
  piece : Piece
  taken : List Char
  rest : List Char

/-- A character that can stand inside a quoted text. -/
def staysInQuotes (c : Char) : Bool := c != '"' && c != '\n'

/-- The longest run of characters of a class after characters already taken. -/
def cutRun (p : Char → Bool) (piece : List Char → Piece) (before : List Char) (cs : List Char) :
    Cut :=
  ⟨piece (before ++ cs.takeWhile p), before ++ cs.takeWhile p, cs.dropWhile p⟩

def cutQuoted (cs : List Char) : Cut :=
  match cs.dropWhile staysInQuotes with
  | '"' :: rest =>
      ⟨.token (.quoted (String.ofList (cs.takeWhile staysInQuotes))),
        '"' :: cs.takeWhile staysInQuotes ++ ['"'], rest⟩
  | rest =>
      ⟨.fault (.unexpected (String.ofList ('"' :: cs.takeWhile staysInQuotes))),
        '"' :: cs.takeWhile staysInQuotes, rest⟩

/-- A minus sign: the sign of a number, or an operator. -/
def cutMinus : List Char → Cut
  | d :: cs =>
      if d.isDigit then
        cutRun Char.isDigit (fun w => .token (.integer (String.ofList w))) ['-', d] cs
      else ⟨.token (.operator .sub), ['-'], d :: cs⟩
  | [] => ⟨.token (.operator .sub), ['-'], []⟩

/-- The token that is this one character. -/
def single? : Char → Option Token
  | '+' => some (.operator .add)
  | '*' => some (.operator .mul)
  | '/' => some (.operator .div)
  | '<' => some (.operator .lt)
  | '>' => some (.operator .gt)
  | '!' => some (.operator .not)
  | ':' => some (.mark .colon)
  | '.' => some (.mark .dot)
  | ',' => some (.mark .comma)
  | ';' => some (.mark .semicolon)
  | '(' => some (.mark .lparen)
  | ')' => some (.mark .rparen)
  | '\x7b' => some (.mark .lbrace)
  | '\x7d' => some (.mark .rbrace)
  | '[' => some (.mark .lbracket)
  | ']' => some (.mark .rbracket)
  | _ => none

/-- The token that is these two characters. -/
def double? : Char → Char → Option Token
  | ':', '=' => some (.mark .colonEq)
  | '<', '=' => some (.operator .lte)
  | '>', '=' => some (.operator .gte)
  | '=', '=' => some (.operator .eq)
  | '!', '=' => some (.operator .neq)
  | '&', '&' => some (.operator .and)
  | '|', '|' => some (.operator .or)
  | _, _ => none

/-- One character that is a token, or that begins nothing. -/
def cutOne (c : Char) (cs : List Char) : Cut :=
  match single? c with
  | some t => ⟨.token t, [c], cs⟩
  | none => ⟨.fault (.unexpected (String.singleton c)), [c], cs⟩

/-- Operators and separators of one or two characters. -/
def cutMark (c : Char) (cs : List Char) : Cut :=
  match cs with
  | d :: rest =>
      match double? c d with
      | some t => ⟨.token t, [c, d], rest⟩
      | none => cutOne c cs
  | [] => cutOne c cs

/-- Comments, quoted texts, signs and marks. -/
def cutOther : Char → List Char → Cut
  | '/', '/' :: r => cutRun staysOnLine (fun _ => .gap) ['/', '/'] r
  | '"', cs => cutQuoted cs
  | '-', cs => cutMinus cs
  | c, cs => cutMark c cs

/-- The first piece of a text that is not empty. -/
def cut (c : Char) (cs : List Char) : Cut :=
  if c = '\n' ∨ isBlank c then ⟨.gap, [c], cs⟩
  else if startsName c then cutRun continuesName (fun w => .token (.name (String.ofList w))) [c] cs
  else if c.isDigit then
    cutRun Char.isDigit (fun w => .token (.integer (String.ofList w))) [c] cs
  else cutOther c cs

/-! ## A cut loses nothing and takes something -/

theorem cutRun_taken_append_rest (p : Char → Bool) (piece : List Char → Piece)
    (before cs : List Char) :
    (cutRun p piece before cs).taken ++ (cutRun p piece before cs).rest = before ++ cs := by
  simp [cutRun, List.takeWhile_append_dropWhile]

theorem cutQuoted_taken_append_rest (cs : List Char) :
    (cutQuoted cs).taken ++ (cutQuoted cs).rest = '"' :: cs := by
  unfold cutQuoted
  split
  · rename_i rest h
    have := List.takeWhile_append_dropWhile (p := staysInQuotes) (l := cs)
    rw [h] at this
    simp [this]
  · simp [List.takeWhile_append_dropWhile]

theorem cutMinus_taken_append_rest (cs : List Char) :
    (cutMinus cs).taken ++ (cutMinus cs).rest = '-' :: cs := by
  unfold cutMinus
  split
  · split
    · simp [cutRun_taken_append_rest]
    · simp
  · simp

theorem cutOne_taken_append_rest (c : Char) (cs : List Char) :
    (cutOne c cs).taken ++ (cutOne c cs).rest = c :: cs := by
  unfold cutOne
  split <;> simp

theorem cutMark_taken_append_rest (c : Char) (cs : List Char) :
    (cutMark c cs).taken ++ (cutMark c cs).rest = c :: cs := by
  unfold cutMark
  split
  · split
    · simp
    · exact cutOne_taken_append_rest _ _
  · exact cutOne_taken_append_rest _ _

theorem cutOther_taken_append_rest (c : Char) (cs : List Char) :
    (cutOther c cs).taken ++ (cutOther c cs).rest = c :: cs := by
  unfold cutOther
  split
  · exact cutRun_taken_append_rest _ _ _ _
  · exact cutQuoted_taken_append_rest _
  · exact cutMinus_taken_append_rest _
  · exact cutMark_taken_append_rest _ _

theorem Cut.taken_append_rest (c : Char) (cs : List Char) :
    (cut c cs).taken ++ (cut c cs).rest = c :: cs := by
  unfold cut
  split
  · simp
  · split
    · exact cutRun_taken_append_rest _ _ _ _
    · split
      · exact cutRun_taken_append_rest _ _ _ _
      · exact cutOther_taken_append_rest _ _

theorem cutOne_taken_ne_nil (c : Char) (cs : List Char) : (cutOne c cs).taken ≠ [] := by
  unfold cutOne
  split <;> simp

theorem cutOther_taken_ne_nil (c : Char) (cs : List Char) : (cutOther c cs).taken ≠ [] := by
  unfold cutOther
  split
  · simp [cutRun]
  · unfold cutQuoted
    split <;> simp
  · unfold cutMinus
    split
    · split <;> simp [cutRun]
    · simp
  · unfold cutMark
    split
    · split
      · simp
      · exact cutOne_taken_ne_nil _ _
    · exact cutOne_taken_ne_nil _ _

theorem Cut.taken_ne_nil (c : Char) (cs : List Char) : (cut c cs).taken ≠ [] := by
  unfold cut
  split
  · simp
  · split
    · simp [cutRun]
    · split
      · simp [cutRun]
      · exact cutOther_taken_ne_nil _ _

theorem Cut.rest_length_lt (c : Char) (cs : List Char) :
    (cut c cs).rest.length < (c :: cs).length := by
  have h := congrArg List.length (Cut.taken_append_rest c cs)
  have hpos := List.length_pos_iff.2 (Cut.taken_ne_nil c cs)
  rw [List.length_append] at h
  omega

/-! ## The tokens of a text -/

/-- The line after a text that begins on a line. -/
def lineAfter (line : Nat) (cs : List Char) : Nat := line + cs.count '\n'

/-- The tokens from a line on, with the end of the text as the last one. -/
def scan : List Char → Nat → Except Error (List Lexeme)
  | [], line => .ok [⟨.endOfText, line⟩]
  | c :: cs, line =>
      match (cut c cs).piece with
      | .fault f => .error (.intermediate line f)
      | .gap => scan (cut c cs).rest (lineAfter line (cut c cs).taken)
      | .token t =>
          (scan (cut c cs).rest (lineAfter line (cut c cs).taken)).map (⟨t, line⟩ :: ·)
termination_by cs => cs.length
decreasing_by all_goals exact Cut.rest_length_lt _ _

/-- The tokens of a text. -/
def lex (source : String) : Except Error (List Lexeme) :=
  scan source.toList 1

end JavaMinus.Ir
