/-
# The compiler

Source text is read and checked, a program without errors is lowered to the intermediate form, and
the assembly is made from the text of that form, which is read again.  The first step that fails is
the outcome.
-/
import JavaMinus.Assembly.Listing
import JavaMinus.Ir.Parser
import JavaMinus.Lowering.Unit
import JavaMinus.Source.Declaration
import JavaMinus.Typing.Analysis

namespace JavaMinus

open Source

structure Compilation where
  className : String
  /-- What the checks found; no error is among it. -/
  reports : List Report
  ir : String
  assembly : String
deriving DecidableEq, Repr

namespace Compiler

/-- Reads and checks a program; errors of the checks are part of the analysis. -/
def analyze (source : String) : Except Error Analysis :=
  (Program.ofText source).map Analysis.ofProgram

/-- The intermediate form of a program that breaks no rule, with the analysis. -/
def lowered (p : Program) : Except Error (Analysis × String) := do
  let analysis ← (Analysis.ofProgram p).accepted
  let ir ← Lowering.irText analysis.table p
  pure (analysis, ir)

def generateIr (source : String) : Except Error String := do
  let p ← Program.ofText source
  let (_, ir) ← lowered p
  pure ir

def assemble (irText : String) : Except Error String := do
  let u ← Ir.ClassUnit.ofText irText
  u.assembly

def compile (source : String) : Except Error Compilation := do
  let p ← Program.ofText source
  let (analysis, ir) ← lowered p
  let assembly ← assemble ir
  pure ⟨p.className, analysis.reports, ir, assembly⟩

end Compiler

end JavaMinus
