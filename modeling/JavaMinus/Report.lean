/-
# Diagnostics

A report says how grave a finding is, where it was made and what was found.  The findings are the
rules of the language that a program can break, one constructor for each, with the names and types
that the message shows; the wording is in `Finding.message` alone.
-/
import JavaMinus.Location
import JavaMinus.Source.Ty

namespace JavaMinus

/-- How grave a report is; only an error stops the compilation. -/
inductive Severity where
  | error
  | warning
  | info
deriving DecidableEq, Repr

/-- The word for the severity. -/
def Severity.text : Severity → String
  | .error => "ERROR"
  | .warning => "WARNING"
  | .info => "INFO"

/-- The statements that have a condition. -/
inductive Conditional where
  | whenTrue
  | whileTrue
deriving DecidableEq, Repr

/-- The keyword that opens the statement. -/
def Conditional.word : Conditional → String
  | .whenTrue => "if"
  | .whileTrue => "while"

/-- What a check can find. -/
inductive Finding where
  | nonStaticInStaticContext (name : String)
  | cannotFindSymbol (name : String)
  | undefinedArray (name : String)
  | arrayAccessOnNonArray (name : String)
  | arrayRequired (found : Ty)
  | invalidArrayIndexType (found : Ty)
  | operatorCannotBeApplied (op : String) (lhs rhs : Ty)
  | badOperandType (op : String) (operand : Ty)
  | invalidConditionType (statement : String) (found : Ty)
  | thisInMain
  | invalidStaticCall (method : String)
  | wrongArgumentCount (method : String)
  | incompatibleArgument (method : String) (index : Nat) (expected found : Ty)
  | methodNotDeclared (method : String)
  | incompatibleTypes (found required : Ty)
  | returnInMain
  | incompatibleReturnType (method : String) (expected found : Ty)
  | note (text : String)
deriving DecidableEq, Repr

/-- The wording of a finding.  Parameters are counted from one. -/
def Finding.message : Finding → String
  | .nonStaticInStaticContext name =>
      s!"non-static {name} cannot be referenced from a static context"
  | .cannotFindSymbol name => s!"cannot find symbol '{name}'"
  | .undefinedArray name => s!"Undefined array: {name}"
  | .arrayAccessOnNonArray name => s!"array access on non-array variable '{name}'"
  | .arrayRequired found => s!"array required, but {found.text} found"
  | .invalidArrayIndexType found =>
      s!"Invalid array index type: {found.text}. The index must be of type int."
  | .operatorCannotBeApplied op lhs rhs =>
      s!"operator '{op}' cannot be applied to '{lhs.text}' and '{rhs.text}'"
  | .badOperandType op operand =>
      s!"bad operand type '{operand.text}' for unary operator '{op}'"
  | .invalidConditionType statement found =>
      s!"Invalid condition type in {statement} statement: Expected boolean, but found {found.text}"
  | .thisInMain => "Cannot use 'this' in static context. Main method is static."
  | .invalidStaticCall method =>
      s!"Invalid static method call: Cannot call a non-static method '{method}' from a static " ++
        "method."
  | .wrongArgumentCount method => s!"Wrong number of arguments for method '{method}'"
  | .incompatibleArgument method index expected found =>
      s!"Incompatible argument type for parameter {index + 1} of method '{method}': " ++
        s!"expected '{expected.text}', found '{found.text}'"
  | .methodNotDeclared method => s!"Method {method} is not declared"
  | .incompatibleTypes found required =>
      s!"incompatible types: {found.text} cannot be converted to {required.text}"
  | .returnInMain => "Main method should not have a return statement."
  | .incompatibleReturnType method expected found =>
      s!"Incompatible return type in method '{method}'. " ++
        s!"Expected '{expected.text}', found '{found.text}'"
  | .note text => text

/-- One diagnostic. -/
structure Report where
  severity : Severity
  loc : Location
  finding : Finding
deriving DecidableEq, Repr

namespace Report

/-- The report of a broken rule. -/
def error (loc : Location) (finding : Finding) : Report :=
  ⟨.error, loc, finding⟩

/-- Whether the report stops the compilation. -/
def isError (r : Report) : Bool :=
  r.severity == .error

/-- The wording of the finding. -/
def message (r : Report) : String :=
  r.finding.message

/-- The line that is shown for the report. -/
def text (r : Report) : String :=
  s!"{r.severity.text}@SEMANTIC, line {r.loc.line}, col {r.loc.column}: {r.message}"

/-- The number of errors among the reports. -/
def errorCount (rs : List Report) : Nat :=
  rs.countP isError

end Report

end JavaMinus
