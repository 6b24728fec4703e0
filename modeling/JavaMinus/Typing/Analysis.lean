/-
# The analysis of a program

The symbol table of a program and what the checks of all its methods find, in order.
-/
import JavaMinus.Error
import JavaMinus.Typing.Statement

namespace JavaMinus

open Source

/-- What is known of a program after the checks. -/
structure Analysis where
  table : SymbolTable
  reports : List Report
  /-- The types of operators, under the numbers of their expressions. -/
  types : List (Nat × Ty)

namespace Analysis

def checkMethods (table : SymbolTable) : List Method → Findings
  | [] => .none
  | m :: ms => (Scope.ofMethod table m).checkStmts m.body ++ checkMethods table ms

def ofProgram (p : Program) : Analysis :=
  let table := SymbolTable.ofProgram p
  let found := checkMethods table p.methods
  ⟨table, found.reports, found.types⟩

/-- Whether a rule is broken. -/
def hasErrors (a : Analysis) : Bool := a.reports.any (·.isError)

/-- The symbol table of a program that breaks no rule, else all reports. -/
def accepted (a : Analysis) : Except Error Analysis :=
  if a.hasErrors then .error (.semantic a.reports) else .ok a

end Analysis

end JavaMinus
