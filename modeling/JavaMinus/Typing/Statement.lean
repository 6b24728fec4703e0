/-
# Checking statements

A statement is checked for its findings alone: what halts inside one statement, or inside the
condition of a statement, says nothing about the others, which are checked all the same.
-/
import JavaMinus.Typing.Expression

namespace JavaMinus

open Source

namespace Scope

variable (s : Scope)

/-- A condition is boolean.  For an operator that is decided while its chain is checked, and an
array access is let through. -/
def checkCondition (condition : Expr) (statement : Conditional) : Checked Unit :=
  match condition.unparen with
  | .binary tag op lhs rhs => do
      let _ ← s.checkChain tag op lhs rhs (.condition statement)
      pure ()
  | .index tag array index => s.checkExpr (.index tag array index) .value
  | inner => do
      s.checkExpr inner .value
      s.checkType inner (·.isBoolean) condition.loc (.invalidConditionType statement.word)

/-- A static method assigns to no field. -/
def checkTarget (found : Lookup) (name : String) (loc : Location) : Checked Unit :=
  Checked.failIf (found.origin == .field && s.isStatic) loc (.nonStaticInStaticContext name)

def checkStored (value : Expr) (type : Ty) (loc : Location) : Checked Unit :=
  s.checkType value (s.table.compatible type) loc (.incompatibleTypes · type)

/-- The target is declared, and the value can be stored in it. -/
def checkAssign (loc : Location) (target : String) (value : Expr) : Checked Unit :=
  match s.lookup target with
  | none => Checked.fail loc (.cannotFindSymbol target)
  | some found => do
      s.checkTarget found target loc
      s.checkExpr value .value
      s.checkStored value found.symbol.type loc

/-- The target of an assignment to an element is an array of integers. -/
def checkElementTarget (target : String) (type : Ty) (loc : Location) : Checked Unit :=
  if ¬ type.isArray then Checked.fail loc (.arrayAccessOnNonArray target)
  else Checked.failIf (type != .intArray) loc (.incompatibleTypes type .intArray)

/-- The target is an array of integers, the index an integer, and the value can be stored. -/
def checkAssignElement (loc : Location) (target : String) (index value : Expr) : Checked Unit :=
  match s.lookup target with
  | none => Checked.fail loc (.undefinedArray target)
  | some found => do
      s.checkTarget found target loc
      checkElementTarget target found.symbol.type loc
      s.checkExpr index .arrayIndex
      s.checkIndexType index loc
      s.checkExpr value .value
      s.checkStored value found.symbol.type.element loc

/-- Whether the expression is a call to an imported class, parentheses aside. -/
def isExternalCall (e : Expr) : Bool :=
  match e.unparen with
  | .call _ target _ _ => s.isImportedTarget target
  | _ => false

/-- The type that a `return` has to give. -/
def expectedReturn : Ty := (s.table.returnType? s.method).getD .void

/-- The entry method does not return; any other returns a value of its type, or nothing if that is
`void`.  The result of a call to an imported class is taken on trust. -/
def checkReturn (loc : Location) (value : Option Expr) : Checked Unit :=
  if s.isMain then Checked.fail loc .returnInMain
  else
    match value with
    | none =>
        Checked.failIf (!s.expectedReturn.isVoid) loc
          (.incompatibleReturnType s.method s.expectedReturn .void)
    | some e => do
        s.checkExpr e .value
        s.checkType e (fun found => found == s.expectedReturn || s.isExternalCall e) loc
          (.incompatibleReturnType s.method s.expectedReturn)

mutual

def checkStmt : Stmt → Findings
  | .block _ body => checkStmts body
  | .ifThen _ condition thenBranch =>
      (s.checkCondition condition .whenTrue).found ++ checkStmt thenBranch
  | .ifElse _ condition thenBranch elseBranch =>
      (s.checkCondition condition .whenTrue).found ++
        (checkStmt thenBranch ++ checkStmt elseBranch)
  | .while _ condition body => (s.checkCondition condition .whileTrue).found ++ checkStmt body
  | .expr e => (s.checkExpr e .value).found
  | .assign loc target value => (s.checkAssign loc target value).found
  | .assignElement loc target index value =>
      (s.checkAssignElement loc target index value).found
  | .return loc value => (s.checkReturn loc value).found

def checkStmts : List Stmt → Findings
  | [] => .none
  | stmt :: stmts => checkStmt stmt ++ checkStmts stmts

end

end Scope

end JavaMinus
