/-
# Programs

The tree of a program.  Every expression carries a tag, its number and its place; the numbers of one
program are all different, so facts about expressions can be kept beside the tree under them.

Parentheses stay in the tree.  A body keeps its local variables apart from its statements, since
they may be declared only at its top level.
-/
import JavaMinus.Location
import JavaMinus.Source.Ty

namespace JavaMinus.Source

/-- The number and the place of an expression. -/
structure Tag where
  id : Nat
  loc : Location
deriving DecidableEq, Repr, Inhabited

/-- The operators with two operands. -/
inductive BinaryOp where
  | add | sub | mul | div | lt | and
deriving DecidableEq, Repr

namespace BinaryOp

def symbol : BinaryOp → String
  | .add => "+"
  | .sub => "-"
  | .mul => "*"
  | .div => "/"
  | .lt => "<"
  | .and => "&&"

/-- Whether the operator computes a number. -/
def isArithmetic : BinaryOp → Bool
  | .add | .sub | .mul | .div => true
  | .lt | .and => false

def isComparison (op : BinaryOp) : Bool := op == .lt

/-- Whether the operator joins truth values. -/
def isLogical (op : BinaryOp) : Bool := op == .and

def all : List BinaryOp := [.add, .sub, .mul, .div, .lt, .and]

def ofSymbol? (s : String) : Option BinaryOp :=
  all.find? (fun op => op.symbol == s)

def resultType (op : BinaryOp) : Ty :=
  if op.isArithmetic then .int else .boolean

/-- The type that both operands must have. -/
def operandType (op : BinaryOp) : Ty :=
  if op.isLogical then .boolean else .int

end BinaryOp

inductive Expr where
  | int (tag : Tag) (value : Int32)
  | bool (tag : Tag) (value : Bool)
  | name (tag : Tag) (text : String)
  | this (tag : Tag)
  | binary (tag : Tag) (op : BinaryOp) (lhs rhs : Expr)
  | not (tag : Tag) (operand : Expr)
  | index (tag : Tag) (array index : Expr)
  | length (tag : Tag) (array : Expr)
  | call (tag : Tag) (target : Expr) (method : String) (args : List Expr)
  | newArray (tag : Tag) (size : Expr)
  | newObject (tag : Tag) (className : String)
  | paren (tag : Tag) (inner : Expr)
deriving Repr, Inhabited

namespace Expr

/-- The number and the place. -/
def tag : Expr → Tag
  | .int t _ | .bool t _ | .name t _ | .this t | .binary t _ _ _ | .not t _ | .index t _ _
  | .length t _ | .call t _ _ _ | .newArray t _ | .newObject t _ | .paren t _ => t

def id (e : Expr) : Nat := e.tag.id

def loc (e : Expr) : Location := e.tag.loc

/-- The expression inside all its outer parentheses. -/
def unparen : Expr → Expr
  | .paren _ inner => inner.unparen
  | e => e

/-- What parentheses do not change is the same of the expression inside them. -/
theorem apply_unparen {α : Sort _} (f : Expr → α)
    (paren : ∀ tag inner, f (.paren tag inner) = f inner) (e : Expr) : f e.unparen = f e := by
  fun_induction unparen e with
  | case1 tag inner ih => rw [ih, paren]
  | case2 => rfl

/-- The name that the expression is, parentheses aside. -/
def asName? (e : Expr) : Option String :=
  match e.unparen with
  | .name _ text => some text
  | _ => none

/-- Whether the expression is the receiver, parentheses aside. -/
def isThis (e : Expr) : Bool :=
  match e.unparen with
  | .this _ => true
  | _ => false

end Expr

inductive Stmt where
  | block (loc : Location) (body : List Stmt)
  | ifThen (loc : Location) (condition : Expr) (thenBranch : Stmt)
  | ifElse (loc : Location) (condition : Expr) (thenBranch elseBranch : Stmt)
  | while (loc : Location) (condition : Expr) (body : Stmt)
  | expr (e : Expr)
  | assign (loc : Location) (target : String) (value : Expr)
  | assignElement (loc : Location) (target : String) (index value : Expr)
  | return (loc : Location) (value : Option Expr)
deriving Repr, Inhabited

/-- The place of a statement; that of an expression is the expression's own. -/
def Stmt.loc : Stmt → Location
  | .block loc _ | .ifThen loc _ _ | .ifElse loc _ _ _ | .while loc _ _ | .assign loc _ _
  | .assignElement loc _ _ _ | .return loc _ => loc
  | .expr e => e.loc

/-- A declared name: a field, a parameter or a local variable. -/
structure Declaration where
  name : String
  type : Ty
  loc : Location
deriving Repr, Inhabited

def Declaration.symbol (d : Declaration) : Symbol := ⟨d.name, d.type⟩

/-- The entry method stands apart from all others. -/
inductive MethodKind where
  | main
  | regular (isStatic : Bool)
deriving DecidableEq, Repr

/-- A method: its head, its local variables and its statements. -/
structure Method where
  name : String
  kind : MethodKind
  isPublic : Bool
  returnType : Ty
  params : List Declaration
  locals : List Declaration
  body : List Stmt
  bodyLoc : Location
  loc : Location
deriving Repr

namespace Method

/-- Whether this is the entry method. -/
def isMain (m : Method) : Bool := m.kind == .main

/-- The entry method is static. -/
def isStatic (m : Method) : Bool :=
  match m.kind with
  | .main => true
  | .regular isStatic => isStatic

end Method

/-- An import, the parts of its path apart. -/
structure Import where
  path : List String
  loc : Location
deriving Repr

/-- The path with dots between its parts. -/
def Import.dotted (i : Import) : String := ".".intercalate i.path

/-- A program: imports and one class. -/
structure Program where
  imports : List Import
  className : String
  superClass : Option String
  loc : Location
  fields : List Declaration
  methods : List Method
deriving Repr

end JavaMinus.Source
