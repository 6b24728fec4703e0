/-
# Lowering statements

    if (c) s else t               while (c) s

        c                         LoopN:
        if (!c) goto ElseN            c
        s                             if (!c) goto EndLoopN
        goto EndIfN                   s
    ElseN:                            goto LoopN
        t                         EndLoopN:
    EndIfN:

A statement without an `else` has the same lines with nothing for `t`.  `N` is a number that no
other statement of the method has.
-/
import JavaMinus.Lowering.Expression

namespace JavaMinus.Lowering

open Source

def labelName (family : String) (n : Nat) : String := family ++ toString n

/-- Goes to a label unless the value is true. -/
def emitUnless (v : Value) (label : String) : Lowering Unit :=
  emit (.branch (.unary ⟨.not, .boolean⟩ v.operand) label)

/-- Whether the expression is a call, parentheses aside. -/
def isCall (e : Expr) : Bool :=
  match e.unparen with
  | .call .. => true
  | _ => false

/-- Lowers an expression whose value is not used; a call stands alone. -/
def lowerExprStmt (table : SymbolTable) (e : Expr) : Lowering Unit :=
  if isCall e then do
    let rhs ← lowerRhs table e none
    emit rhs.instruction
  else do
    let _ ← lowerValue table e none
    pure ()

/-- Lowers an assignment: a field is written, a variable is the destination of its right side. -/
def lowerAssign (table : SymbolTable) (target : String) (value : Expr) : Lowering Unit := do
  let found ← lookup table target
  let found ← Emission.need (.internal (.unresolvedTarget target)) found
  let type := found.symbol.type
  if found.origin = .field then
    let v ← lowerOperand table value (some type)
    emit (.putField thisOperand (.var target type.lowered) v.operand)
  else
    let rhs ← lowerRhs table value (some type)
    emit (.assign (.var target type.lowered) type.lowered rhs.instruction)

/-- Lowers an assignment to an element of an array. -/
def lowerAssignElement (table : SymbolTable) (target : String) (index value : Expr) :
    Lowering Unit := do
  let array ← asValue table (← lowerName table target)
  let i ← lowerOperand table index (some .int)
  let rhs ← lowerRhs table value (some array.type.element)
  emit (.assign (Value.item array i).operand array.type.element.lowered rhs.instruction)

/-- Lowers a return, under the declared type of the current method. -/
def lowerReturn (table : SymbolTable) (value : Option Expr) : Lowering Unit := do
  let cursor ← Emission.state
  let type := (table.returnType? cursor.method).getD .void
  match value with
  | some e => do
      let v ← lowerValue table e (some type)
      emit (.return type.lowered v.operand)
  | none => emit .returnVoid

mutual

def lowerStmt (table : SymbolTable) : Stmt → Lowering Unit
  | .block _ body => lowerStmts table body
  | .ifThen _ condition thenBranch => do
      let n ← newLabel
      let c ← lowerValue table condition (some .boolean)
      emitUnless c (labelName "Else" n)
      lowerStmt table thenBranch
      emit (.goto (labelName "EndIf" n))
      emitLabel (labelName "Else" n)
      emitLabel (labelName "EndIf" n)
  | .ifElse _ condition thenBranch elseBranch => do
      let n ← newLabel
      let c ← lowerValue table condition (some .boolean)
      emitUnless c (labelName "Else" n)
      lowerStmt table thenBranch
      emit (.goto (labelName "EndIf" n))
      emitLabel (labelName "Else" n)
      lowerStmt table elseBranch
      emitLabel (labelName "EndIf" n)
  | .while _ condition body => do
      let n ← newLabel
      emitLabel (labelName "Loop" n)
      let c ← lowerValue table condition (some .boolean)
      emitUnless c (labelName "EndLoop" n)
      lowerStmt table body
      emit (.goto (labelName "Loop" n))
      emitLabel (labelName "EndLoop" n)
  | .expr e => lowerExprStmt table e
  | .assign _ target value => lowerAssign table target value
  | .assignElement _ target index value => lowerAssignElement table target index value
  | .return _ value => lowerReturn table value

def lowerStmts (table : SymbolTable) : List Stmt → Lowering Unit
  | [] => pure ()
  | s :: ss => do
      lowerStmt table s
      lowerStmts table ss

end

end JavaMinus.Lowering
