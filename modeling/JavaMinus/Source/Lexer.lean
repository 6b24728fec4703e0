/-
# From text to tokens

The text is cut into pieces from left to right.  A piece is a gap (a blank, a line break, a
comment), a token, or a fault; each is as long as it can be, so `classes` is a name and `//` opens a
comment.  A cut says which characters it took, and `Cut.taken_append_rest` says that these and the
rest are the text; the place of the next piece is therefore the old place moved past the characters
taken.
-/
import JavaMinus.Character
import JavaMinus.Error
import JavaMinus.Source.Token

namespace JavaMinus.Source

open Character

/-- What a piece of text is. -/
inductive Piece where
  | gap
  | token (t : Token)
  | fault (f : TextFault)
deriving DecidableEq, Repr

/-- The first piece of a text, its characters, and the text after them. -/
structure Cut where
  piece : Piece
  taken : List Char
  rest : List Char

/-- Cuts a text after the first `*/`, if there is one. -/
def splitAfterClose : List Char → Option (List Char × List Char)
  | [] => none
  | '*' :: '/' :: r => some (['*', '/'], r)
  | c :: r => (splitAfterClose r).map fun (body, rest) => (c :: body, rest)

/-- The number that a row of digits writes; it has to be at most `2147483647`. -/
def integerPiece (digits : List Char) : Piece :=
  if decimal digits ≤ 2147483647 then
    .token (.integer (Int32.ofNat (decimal digits)))
  else
    .fault (.outOfRange (String.ofList digits))

/-- The longest run of characters of a class after a first character. -/
def cutRun (p : Char → Bool) (piece : List Char → Piece) (c : Char) (cs : List Char) : Cut :=
  ⟨piece (c :: cs.takeWhile p), c :: cs.takeWhile p, cs.dropWhile p⟩

/-- A block comment after its `/*`; one that is never closed is a fault of the opening alone. -/
def cutBlockComment (r : List Char) : Cut :=
  match splitAfterClose r with
  | some (body, rest) => ⟨.gap, '/' :: '*' :: body, rest⟩
  | none => ⟨.fault (.unexpected "/*"), ['/', '*'], r⟩

/-- One character that is a mark, or that begins nothing. -/
def cutOne (c : Char) (cs : List Char) : Cut :=
  match Mark.ofChar? c with
  | some m => ⟨.token (.mark m), [c], cs⟩
  | none => ⟨.fault (.unexpected (String.singleton c)), [c], cs⟩

/-- Comments, the mark with two characters, and everything that is one character. -/
def cutMark : Char → List Char → Cut
  | '/', '/' :: r => ⟨.gap, '/' :: '/' :: r.takeWhile staysOnLine, r.dropWhile staysOnLine⟩
  | '/', '*' :: r => cutBlockComment r
  | '&', '&' :: r => ⟨.token (.mark .andAnd), ['&', '&'], r⟩
  | c, cs => cutOne c cs

/-- The first piece of a text that is not empty. -/
def cut (c : Char) (cs : List Char) : Cut :=
  if c = '\n' ∨ isBlank c then ⟨.gap, [c], cs⟩
  else if startsName c then cutRun continuesName (fun w => .token (.ofWord (String.ofList w))) c cs
  else if c.isDigit then cutRun Char.isDigit integerPiece c cs
  else cutMark c cs

/-! ## A cut loses nothing and takes something -/

theorem splitAfterClose_append {s body rest : List Char}
    (h : splitAfterClose s = some (body, rest)) : body ++ rest = s := by
  fun_induction splitAfterClose s generalizing body rest with
  | case1 => simp at h
  | case2 r =>
      obtain ⟨rfl, rfl⟩ := Prod.mk.inj (Option.some.inj h)
      rfl
  | case3 c r _ ih =>
      obtain ⟨⟨b, t⟩, hb, he⟩ := Option.map_eq_some_iff.1 h
      obtain ⟨rfl, rfl⟩ := Prod.mk.inj he
      simp [ih hb]

theorem cutRun_taken_append_rest (p : Char → Bool) (piece : List Char → Piece) (c : Char)
    (cs : List Char) : (cutRun p piece c cs).taken ++ (cutRun p piece c cs).rest = c :: cs := by
  simp [cutRun, List.takeWhile_append_dropWhile]

theorem cutBlockComment_taken_append_rest (r : List Char) :
    (cutBlockComment r).taken ++ (cutBlockComment r).rest = '/' :: '*' :: r := by
  unfold cutBlockComment
  split
  · rename_i body rest h
    simp [splitAfterClose_append h]
  · simp

theorem cutOne_taken_append_rest (c : Char) (cs : List Char) :
    (cutOne c cs).taken ++ (cutOne c cs).rest = c :: cs := by
  unfold cutOne
  split <;> simp

theorem cutMark_taken_append_rest (c : Char) (cs : List Char) :
    (cutMark c cs).taken ++ (cutMark c cs).rest = c :: cs := by
  unfold cutMark
  split
  · simp [List.takeWhile_append_dropWhile]
  · exact cutBlockComment_taken_append_rest _
  · simp
  · exact cutOne_taken_append_rest _ _

theorem Cut.taken_append_rest (c : Char) (cs : List Char) :
    (cut c cs).taken ++ (cut c cs).rest = c :: cs := by
  unfold cut
  split
  · simp
  · split
    · exact cutRun_taken_append_rest _ _ _ _
    · split
      · exact cutRun_taken_append_rest _ _ _ _
      · exact cutMark_taken_append_rest _ _

theorem cutBlockComment_taken_ne_nil (r : List Char) : (cutBlockComment r).taken ≠ [] := by
  unfold cutBlockComment
  split <;> simp

theorem cutMark_taken_ne_nil (c : Char) (cs : List Char) : (cutMark c cs).taken ≠ [] := by
  unfold cutMark
  split
  · simp
  · exact cutBlockComment_taken_ne_nil _
  · simp
  · unfold cutOne
    split <;> simp

theorem Cut.taken_ne_nil (c : Char) (cs : List Char) : (cut c cs).taken ≠ [] := by
  unfold cut
  split
  · simp
  · split
    · simp [cutRun]
    · split
      · simp [cutRun]
      · exact cutMark_taken_ne_nil _ _

theorem Cut.rest_length_lt (c : Char) (cs : List Char) :
    (cut c cs).rest.length < (c :: cs).length := by
  have h := congrArg List.length (Cut.taken_append_rest c cs)
  have hpos := List.length_pos_iff.2 (Cut.taken_ne_nil c cs)
  rw [List.length_append] at h
  omega

/-! ## The tokens of a text -/

/-- The tokens from a place on, with the end of the text as the last one. -/
def scan : List Char → Location → Except Error (List Lexeme)
  | [], loc => .ok [⟨.endOfText, loc⟩]
  | c :: cs, loc =>
      match (cut c cs).piece with
      | .fault f => .error (.lexical loc f)
      | .gap => scan (cut c cs).rest (loc.pastAll (cut c cs).taken)
      | .token t =>
          (scan (cut c cs).rest (loc.pastAll (cut c cs).taken)).map (⟨t, loc⟩ :: ·)
termination_by cs => cs.length
decreasing_by all_goals exact Cut.rest_length_lt _ _

/-- The tokens of a program text. -/
def lex (source : String) : Except Error (List Lexeme) :=
  scan source.toList .start

end JavaMinus.Source
