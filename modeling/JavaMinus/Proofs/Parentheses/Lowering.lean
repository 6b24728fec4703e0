/-
# Parentheses are not lowered

Programs that are alike have the same intermediate form, to the letter, whether they are accepted or
not: the generator reads the shape of an expression inside its parentheses only.
-/
import JavaMinus.Lowering.Unit
import JavaMinus.Proofs.Parentheses.Alike

namespace JavaMinus.Lowering

open Source

variable (table : SymbolTable)

theorem targetClass?_alike {e e' : Expr} (h : e.Alike e') :
    targetClass? table e = targetClass? table e' := by
  rw [targetClass?, targetClass?, h.asName?_eq]

mutual

theorem lowerRhs_alike : ∀ {e e' : Expr}, e.Alike e' → ∀ expected : Option Ty,
    lowerRhs table e expected = lowerRhs table e' expected
  | _, _, .parenLeft h, expected => lowerRhs_alike h expected
  | _, _, .parenRight h, expected => lowerRhs_alike h expected
  | _, _, .int, _ | _, _, .bool, _ | _, _, .name, _ | _, _, .this, _ | _, _, .newObject, _ => rfl
  | _, _, .binary h h', _ => by
      rw [lowerRhs, lowerRhs, lowerRhs_alike h, lowerRhs_alike h']
  | _, _, .not h, _ => by rw [lowerRhs, lowerRhs, lowerRhs_alike h]
  | _, _, .index h h', _ => by rw [lowerRhs, lowerRhs, lowerRhs_alike h, lowerRhs_alike h']
  | _, _, .length h, _ => by rw [lowerRhs, lowerRhs, lowerRhs_alike h]
  | _, _, .newArray h, _ => by rw [lowerRhs, lowerRhs, lowerRhs_alike h]
  | _, _, .call (m := m) h h', expected => by
      rw [lowerRhs, lowerRhs, targetClass?_alike table h, lowerRhs_alike h]
      simp only [lowerArguments_alike h']

theorem lowerArguments_alike : ∀ {es es' : List Expr}, Expr.AlikeAll es es' →
    ∀ params : List Symbol, lowerArguments table es params = lowerArguments table es' params
  | _, _, .nil, _ => rfl
  | _, _, .cons h h', params => by
      rw [lowerArguments, lowerArguments, lowerRhs_alike h, lowerArguments_alike h']

end

theorem lowerValue_alike {e e' : Expr} (h : e.Alike e') (expected : Option Ty) :
    lowerValue table e expected = lowerValue table e' expected := by
  rw [lowerValue, lowerValue, lowerRhs_alike table h]

theorem lowerOperand_alike {e e' : Expr} (h : e.Alike e') (expected : Option Ty) :
    lowerOperand table e expected = lowerOperand table e' expected := by
  rw [lowerOperand, lowerOperand, lowerRhs_alike table h]

theorem isCall_alike {e e' : Expr} (h : e.Alike e') : isCall e = isCall e' := by
  refine h.eq_of_form ?_ ?_ ?_ ?_ ?_ ?_ ?_ ?_ ?_ ?_ ?_ ?_ <;> intros <;> rfl

/-! ## Statements and programs -/

mutual

theorem lowerStmt_alike : ∀ {s s' : Stmt}, s.Alike s' → lowerStmt table s = lowerStmt table s'
  | _, _, .block h => by rw [lowerStmt, lowerStmt, lowerStmts_alike h]
  | _, _, .ifThen h h' => by
      rw [lowerStmt, lowerStmt, lowerValue_alike table h, lowerStmt_alike h']
  | _, _, .ifElse h h' h'' => by
      rw [lowerStmt, lowerStmt, lowerValue_alike table h, lowerStmt_alike h', lowerStmt_alike h'']
  | _, _, .while h h' => by
      rw [lowerStmt, lowerStmt, lowerValue_alike table h, lowerStmt_alike h']
  | _, _, .expr h => by
      rw [lowerStmt, lowerStmt, lowerExprStmt, lowerExprStmt, isCall_alike h,
        lowerRhs_alike table h, lowerValue_alike table h]
  | _, _, .assign h => by
      rw [lowerStmt, lowerStmt, lowerAssign, lowerAssign]
      simp only [lowerOperand_alike table h, lowerRhs_alike table h]
  | _, _, .assignElement h h' => by
      rw [lowerStmt, lowerStmt, lowerAssignElement, lowerAssignElement]
      simp only [lowerOperand_alike table h, lowerRhs_alike table h']
  | _, _, .returnNothing => rfl
  | _, _, .returnValue h => by
      rw [lowerStmt, lowerStmt, lowerReturn, lowerReturn]
      simp only [lowerValue_alike table h]

theorem lowerStmts_alike : ∀ {ss ss' : List Stmt}, Stmt.AlikeAll ss ss' →
    lowerStmts table ss = lowerStmts table ss'
  | _, _, .nil => rfl
  | _, _, .cons h h' => by rw [lowerStmts, lowerStmts, lowerStmt_alike h, lowerStmts_alike h']

end

theorem endsWithReturn_alike : ∀ {ss ss' : List Stmt}, Stmt.AlikeAll ss ss' →
    endsWithReturn ss = endsWithReturn ss'
  | _, _, .nil => rfl
  | _, _, .cons h .nil => by cases h <;> rfl
  | _, _, .cons _ (.cons h h') => by
      have rest := endsWithReturn_alike (.cons h h')
      simpa only [endsWithReturn, List.getLast?_cons_cons] using rest

theorem lowerMethod_alike {m m' : Method} (h : m.Alike m') :
    lowerMethod table m = lowerMethod table m' := by
  have main : m.isMain = m'.isMain := by rw [Method.isMain, Method.isMain, h.kind]
  have static : m.isStatic = m'.isStatic := by rw [Method.isStatic, Method.isStatic, h.kind]
  have body : lowerBody table m = lowerBody table m' := by
    rw [lowerBody, lowerBody, lowerStmts_alike table h.body, endsWithReturn_alike h.body, main,
      h.returnType]
  rw [lowerMethod, lowerMethod, headOf, headOf, body, h.name, h.returnType, main, static]

theorem lowerMethods_alike {ms ms' : List Method} (h : List.Forall₂ Method.Alike ms ms') :
    lowerMethods table ms = lowerMethods table ms' := by
  induction h with
  | nil => rfl
  | cons hm _ ih => rw [lowerMethods, lowerMethods, lowerMethod_alike table hm, ih]

theorem irText_alike {p p' : Program} (h : p.Alike p') :
    irText (SymbolTable.ofProgram p) p = irText (SymbolTable.ofProgram p') p' := by
  rw [irText, irText, lowerProgram, lowerProgram, lowerMembers, lowerMembers, h.table,
    lowerMethods_alike _ h.methods]

end JavaMinus.Lowering
