/-
# Places in a source text

A place is a line and a column, both counted from one; columns count the bytes of the UTF-8 form,
so a character outside ASCII moves the column by two to four.  The place after a text is reached by
walking over its characters one by one, so nothing has to be remembered about comments or line
breaks on the way.
-/
namespace JavaMinus

/-- A place in a source text. -/
structure Location where
  line : Nat
  column : Nat
deriving DecidableEq, Repr, Inhabited

namespace Location

/-- The place of the first character. -/
def start : Location := ⟨1, 1⟩

/-- The place after one character. -/
def past (l : Location) (c : Char) : Location :=
  if c = '\n' then ⟨l.line + 1, 1⟩ else ⟨l.line, l.column + c.utf8Size⟩

/-- The place after a text. -/
def pastAll (l : Location) (cs : List Char) : Location :=
  cs.foldl past l

/-- The short form, line and column with a colon between. -/
def text (l : Location) : String :=
  s!"{l.line}:{l.column}"

end Location

end JavaMinus
