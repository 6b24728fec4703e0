/-
# Registers

Every variable of a method has a register of its own.  The receiver of an instance method comes
first, then the parameters, then the other variables in the order in which the instructions mention
them; the type of a variable is the one it has where it is first mentioned.

The receiver and a bare class name are not variables.  An element of an array mentions the array and
what the index mentions.
-/
import JavaMinus.Ir.Unit

namespace JavaMinus.Ir

/-- The variables that an operand mentions, with their types. -/
def Element.mentions : Element → List (String × ElementType)
  | .literal .. => []
  | .var _ .this | .var _ (.classRef _) => []
  | .var name t => [(name, t)]
  | .item array index t => (array, .array t) :: index.mentions

/-- The variables that a call mentions, in order. -/
def Call.mentions (c : Call) : List (String × ElementType) :=
  (c.target.map Element.mentions).getD [] ++ c.args.flatMap Element.mentions

/-- The variables that an instruction mentions, in order; the name of a field is not one. -/
def Instruction.mentions : Instruction → List (String × ElementType)
  | .assign dest _ rhs => dest.mentions ++ rhs.mentions
  | .binary lhs _ rhs => lhs.mentions ++ rhs.mentions
  | .unary _ operand => operand.mentions
  | .single operand => operand.mentions
  | .call c => c.mentions
  | .getField object _ => object.mentions
  | .putField object _ value => object.mentions ++ value.mentions
  | .goto _ => []
  | .branch condition _ => condition.mentions
  | .return _ value => value.mentions
  | .returnVoid => []

/-- The variables of a method, in order, as often as they are mentioned. -/
def Method.mentions (m : Method) : List (String × ElementType) :=
  (if m.isStatic then [] else [("this", .this)]) ++ m.params.flatMap Element.mentions ++
    m.body.flatMap fun l => l.instruction.mentions

end JavaMinus.Ir

namespace JavaMinus.Assembly

open Ir

/-- A variable's register and type. -/
structure Slot where
  register : Nat
  type : ElementType
deriving DecidableEq, Repr

/-- The variables that have registers; a variable's register is its place in the list. -/
structure Registers where
  entries : List (String × ElementType)
deriving DecidableEq, Repr

namespace Registers

def empty : Registers := ⟨[]⟩

/-- Gives a variable a register, if it has none yet. -/
def insert (r : Registers) (entry : String × ElementType) : Registers :=
  if r.entries.any (·.1 == entry.1) then r else ⟨r.entries ++ [entry]⟩

def ofMethod (m : Method) : Registers := m.mentions.foldl insert empty

/-- The register of a variable, found from the given number on. -/
def findFrom (name : String) : Nat → List (String × ElementType) → Option Slot
  | _, [] => none
  | n, (other, t) :: rest => if other = name then some ⟨n, t⟩ else findFrom name (n + 1) rest

def find? (r : Registers) (name : String) : Option Slot := findFrom name 0 r.entries

/-- The number of registers. -/
def size (r : Registers) : Nat := r.entries.length

end Registers

end JavaMinus.Assembly
