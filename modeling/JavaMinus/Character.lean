/-
# Characters

The classes of characters that both texts the compiler reads have in common, the program and its
intermediate form.  All of them are ASCII classes: a character outside ASCII may stand in a comment
only.
-/
namespace JavaMinus.Character

/-- Space, tab, form feed and carriage return; the line break is kept apart because it counts. -/
def isBlank (c : Char) : Bool :=
  c == ' ' || c == '\t' || c == '\x0c' || c == '\r'

/-- A character that can begin a name. -/
def startsName (c : Char) : Bool :=
  c.isAlpha || c == '_' || c == '$'

/-- A character that can stand inside a name. -/
def continuesName (c : Char) : Bool :=
  startsName c || c.isDigit

/-- A character of a comment that runs to the end of its line. -/
def staysOnLine (c : Char) : Bool :=
  c != '\n'

def decimal (digits : List Char) : Nat :=
  digits.foldl (fun n c => 10 * n + (c.toNat - '0'.toNat)) 0

end JavaMinus.Character
