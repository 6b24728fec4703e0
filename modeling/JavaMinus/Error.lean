/-
# Errors

What can stop a compilation.  The constructors of `Error` are the places where it stops: reading the
program text, recognising its grammar, the checks, reading the intermediate form, a construct that
has no assembly, a state that a correct program never reaches, and the file system.  Inside them a
cause is a value of its own type, and the wording of each is in one function.
-/
import JavaMinus.Report

namespace JavaMinus

/-- What is wrong with a text at a place. -/
inductive TextFault where
  /-- No token begins like this. -/
  | unexpected (text : String)
  /-- A number that has no 32-bit value. -/
  | outOfRange (digits : String)
  /-- The rule that was being followed, and the token that breaks it. -/
  | mismatch (rule : String) (found : String)
  | note (text : String)
deriving DecidableEq, Repr

def TextFault.message : TextFault → String
  | .unexpected text => s!"Unexpected character: '{text}'"
  | .outOfRange digits => s!"Integer literal out of range: {digits}"
  | .mismatch rule found => s!"{rule}, found {found}"
  | .note text => text

/-- A construct of the intermediate form for which there is no assembly. -/
inductive Construct where
  | assignmentToLiteral (value : String)
  | binaryOperator (name : String)
  | unaryOperator (name : String)
  | branchOnOperator (name : String)
  | branchCondition (form : String)
  | constantWithoutOperand
  | lengthWithoutOperand
  | multiDimensionalArray
  | allocation (type : String)
  | callWithoutTarget
  | callWithoutMethod
  | noOwner (type : String)
  | note (text : String)
deriving DecidableEq, Repr

/-- The wording of a construct without assembly. -/
def Construct.message : Construct → String
  | .assignmentToLiteral value => s!"assignment to literal {value}"
  | .binaryOperator name => s!"binary operator {name}"
  | .unaryOperator name => s!"unary operator {name}"
  | .branchOnOperator name => s!"branch on operator {name}"
  | .branchCondition form => s!"branch condition {form}"
  | .constantWithoutOperand => "ldc without operand"
  | .lengthWithoutOperand => "arraylength without operand"
  | .multiDimensionalArray => "multi-dimensional array allocation"
  | .allocation type => s!"allocation of {type}"
  | .callWithoutTarget => "call without target"
  | .callWithoutMethod => "call without method name"
  | .noOwner type => s!"no class owner for operand of type {type}"
  | .note text => text

/-- A state that no correct program leads to. -/
inductive Defect where
  | unresolvedIdentifier (name : String)
  | unresolvedTarget (name : String)
  | noRegister (name : String)
  | invalidLiteral (value : String)
  | stackUnderflow (count depth : Nat)
  | note (text : String)
deriving DecidableEq, Repr

def Defect.message : Defect → String
  | .unresolvedIdentifier name => s!"unresolved identifier '{name}'"
  | .unresolvedTarget name => s!"unresolved assignment target '{name}'"
  | .noRegister name => s!"variable '{name}' has no register"
  | .invalidLiteral value => s!"invalid integer literal '{value}'"
  | .stackUnderflow count depth => s!"operand stack underflow: popping {count} with depth {depth}"
  | .note text => text

/-- The reason why a compilation stops. -/
inductive Error where
  | lexical (loc : Location) (fault : TextFault)
  | grammar (loc : Location) (fault : TextFault)
  | semantic (reports : List Report)
  | intermediate (line : Nat) (fault : TextFault)
  | unsupported (construct : Construct)
  | internal (defect : Defect)
  | io (text : String)
deriving DecidableEq, Repr

/-- The line that is shown for the error. -/
def Error.message : Error → String
  | .lexical loc fault => s!"Lexer error at line {loc.line}, column {loc.column}: {fault.message}"
  | .grammar loc fault => s!"Parser error at line {loc.line}, column {loc.column}: {fault.message}"
  | .semantic reports => s!"Semantic analysis failed with {Report.errorCount reports} error(s)"
  | .intermediate line fault => s!"IR parse error at line {line}: {fault.message}"
  | .unsupported construct => s!"Unsupported construct: {construct.message}"
  | .internal defect => s!"Internal compiler error: {defect.message}"
  | .io text => s!"IO error: {text}"

end JavaMinus
