/-
# Types of the source language

A type is a name and a mark that says whether it is an array; two types are the same when both
agree.  The entry method has a return type of its own, `static void`, which is not the `void` of
other methods.
-/
namespace JavaMinus

/-- A type of the source language. -/
structure Ty where
  name : String
  isArray : Bool
deriving DecidableEq, Repr, Inhabited

namespace Ty

def int : Ty := ⟨"int", false⟩

/-- Arrays of integers. -/
def intArray : Ty := ⟨"int", true⟩

/-- Truth values. -/
def boolean : Ty := ⟨"boolean", false⟩

/-- The type of no value. -/
def void : Ty := ⟨"void", false⟩

/-- Arrays of texts. -/
def stringArray : Ty := ⟨"String", true⟩

/-- The type of the objects of a class. -/
def ofClass (name : String) : Ty := ⟨name, false⟩

/-- The return type under which the entry method is declared. -/
def staticVoid : Ty := ⟨"static void", false⟩

def isInt (t : Ty) : Bool := t.name == "int" && !t.isArray

def isBoolean (t : Ty) : Bool := t.name == "boolean" && !t.isArray

/-- Looks at the name alone, so an array of `void` counts too. -/
def isVoid (t : Ty) : Bool := t.name == "void"

/-- Looks at the name alone, so arrays of primitive types count too. -/
def isPrimitive (t : Ty) : Bool :=
  t.name == "int" || t.name == "boolean" || t.name == "void"

/-- The type of an array's elements; any other type is left as it is. -/
def element (t : Ty) : Ty := ⟨t.name, false⟩

/-- The type of an array with the same name. -/
def arrayOf (t : Ty) : Ty := ⟨t.name, true⟩

/-- The type as it is written in source text. -/
def text (t : Ty) : String :=
  if t.isArray then t.name ++ "[]" else t.name

end Ty

/-- A name with a type: a field, a parameter or a local variable. -/
structure Symbol where
  name : String
  type : Ty
deriving DecidableEq, Repr, Inhabited

/-- The symbol as diagnostics and dumps show it. -/
def Symbol.text (s : Symbol) : String :=
  s!"{s.name}: {s.type.text}"

end JavaMinus
