/-
# Class names in assembly

Assembly names a class by its whole path, with slashes.  A simple name stands for the class that was
imported under it, and of several imports with one simple name the last one counts; a name that was
not imported stands for itself.

The receiver belongs to the class that is being written, whose name is never looked up.
-/
import JavaMinus.DottedPath
import JavaMinus.Ir.Unit

namespace JavaMinus.Assembly

open Ir

/-- The type of a field, a parameter or a result. -/
inductive Descriptor where
  | int
  | boolean
  | void
  | reference (className : String)
  | array (element : Descriptor)
deriving DecidableEq, Repr

def Descriptor.text : Descriptor → String
  | .int => "I"
  | .boolean => "Z"
  | .void => "V"
  | .reference className => "L" ++ className ++ ";"
  | .array element => "[" ++ element.text

/-- The class of all objects. -/
def objectClass : String := "java/lang/Object"

def stringClass : String := "java/lang/String"

/-- What class names stand for while a unit is written. -/
structure ClassNames where
  /-- The class that is being written. -/
  self : String
  /-- Its superclass. -/
  super : String
  /-- The path of each imported class under its simple name, the last import first. -/
  imports : List (String × String)
deriving DecidableEq, Repr

namespace ClassNames

/-- The path of a class among imports. -/
def resolveIn (imports : List (String × String)) (name : String) : String :=
  (imports.lookup name).getD name

def resolve (names : ClassNames) (name : String) : String := resolveIn names.imports name

/-- The imports of a unit by simple name. -/
def importsOf (paths : List String) : List (String × String) :=
  paths.reverse.map fun path => (DottedPath.lastPart path, DottedPath.slashed path)

def ofUnit (u : ClassUnit) : ClassNames where
  self := u.name
  super := (u.superClass.map (resolveIn (importsOf u.imports))).getD objectClass
  imports := importsOf u.imports

def descriptor (names : ClassNames) : ElementType → Descriptor
  | .int32 => .int
  | .boolean => .boolean
  | .string => .reference stringClass
  | .void => .void
  | .array element => .array (names.descriptor element)
  | .object className | .classRef className => .reference (names.resolve className)
  | .this => .reference names.self

/-- The class that an operand's methods and fields belong to. -/
def owner? (names : ClassNames) : ElementType → Option String
  | .this => some names.self
  | .object className | .classRef className => some (names.resolve className)
  | _ => none

theorem descriptor_eq_void_iff (names : ClassNames) (t : ElementType) :
    names.descriptor t = .void ↔ t = .void := by
  cases t <;> simp [descriptor]

end ClassNames

end JavaMinus.Assembly
