/-
# Types of expressions

What type an expression has, if that can be told.  `Expr.ownType?` looks at the expression alone;
names, the receiver and calls have no type for it.  `Scope.typeOf?` asks the symbol table where that
fails, and takes the result of an operator from the operator.

The two do not agree on operators: taken alone, an operator has the type of its operands.  An
operator in parentheses is asked that way first, so it can have another type than without them.
-/
import JavaMinus.Typing.SymbolTable

namespace JavaMinus

open Source

namespace Source.Expr

/-- Whether the expression is an operator with two operands, parentheses not taken off. -/
def isBinary : Expr → Bool
  | .binary .. => true
  | _ => false

/-- The type of an operator by the types of its operands: the common type of two integers or two
booleans, else that of the right operand if the left one is an operator itself. -/
def chainType? (lhs : Expr) (left right : Option Ty) : Option Ty :=
  match left, right with
  | some l, some r =>
      if l.isInt && r.isInt then some .int
      else if l.isBoolean && r.isBoolean then some .boolean
      else if lhs.isBinary then right
      else none
  | _, _ => if lhs.isBinary then right else none

/-- The type that an expression shows by itself. -/
def ownType? : Expr → Option Ty
  | .bool _ _ => some .boolean
  | .int _ _ => some .int
  | .newArray _ _ => some .intArray
  | .index _ array _ => (ownType? array).map (·.element)
  | .name _ _ => none
  | .binary _ _ lhs rhs => chainType? lhs (ownType? lhs) (ownType? rhs)
  | .not _ _ => some .boolean
  | .length _ _ => some .int
  | .newObject _ className => some (.ofClass className)
  | .paren _ inner => ownType? inner
  | .this _ => none
  | .call _ _ _ _ => none

end Source.Expr

/-- The method whose body is looked at, in the table of its program. -/
structure Scope where
  table : SymbolTable
  method : String
  isStatic : Bool
  isMain : Bool

namespace Scope

/-- The scope of a method's body. -/
def ofMethod (table : SymbolTable) (m : Method) : Scope :=
  ⟨table, m.name, m.isStatic, m.isMain⟩

variable (s : Scope)

def lookup (name : String) : Option Lookup :=
  s.table.lookup s.method name

def variableType? (name : String) : Option Ty :=
  s.table.variableType? s.method name

def typeOf? : Expr → Option Ty
  | .binary _ op _ _ => some op.resultType
  | .name _ text => s.variableType? text
  | .this _ => some (.ofClass s.table.className)
  | .call _ _ method _ => s.table.returnType? method
  | .index tag array i => ((Expr.index tag array i).ownType?).or ((typeOf? array).map (·.element))
  | .paren _ inner => (inner.ownType?).or (typeOf? inner)
  | e => e.ownType?

/-- Whether a call's target is an imported class, or a variable whose type is one. -/
def isImportedTarget (target : Expr) : Bool :=
  match target.asName? with
  | none => false
  | some name =>
      match s.variableType? name with
      | some type => !type.isArray && s.table.hasImport type.name
      | none => s.table.hasImport name

/-- Whether a call's target names something declared here. -/
def isDeclaredTarget (target : Expr) : Bool :=
  match target.asName? with
  | none => false
  | some name => (s.lookup name).isSome

end Scope

end JavaMinus
