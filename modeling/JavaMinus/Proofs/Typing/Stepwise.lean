/-
# The analyzer by recursion on the expression

The analyzer lays a chain of operators out, as the checks do, and between two links of a chain it
carries the findings along.  That is the same as recursion on the operands
(`Analyzer.checkChain_eq`), from whatever findings it starts.  An operand is checked like any
expression, and how its type is told is asked for afterwards (`Analyzer.operandType_eq`).
-/
import JavaMinus.Proofs.Typing.Recursion
import JavaMinus.Typing.Analyzer

namespace JavaMinus

open Source

/-! ## Steps -/

namespace Analyzing

variable {α β : Type}

theorem ext_after {m n : Analyzing α} (h : ∀ f, m.after f = n.after f) : m = n :=
  funext h

theorem after_pure (a : α) (f : Findings) : (pure a : Analyzing α).after f = (some a, f) := rfl

theorem after_make (m : Checked α) (f : Findings) :
    (make m).after f = (m.outcome, f ++ m.found) := rfl

theorem after_both (m n : Analyzing Unit) (f : Findings) :
    (both m n).after f =
      ((m.after f).1.bind fun _ => (n.after (m.after f).2).1, (n.after (m.after f).2).2) := rfl

/-- A step, and if it answers, the next one with the findings that it leaves. -/
theorem after_bind (m : Analyzing α) (n : α → Analyzing β) (f : Findings) :
    (m >>= n).after f =
      (m.after f).1.elim (none, (m.after f).2) fun a => (n a).after (m.after f).2 := by
  unfold after
  rw [OptionT.run_bind, Option.elimM, StateT.run_bind]
  show ((m.run.run f).1.elim (pure none) fun a => (n a).run).run (m.run.run f).2 = _
  cases (m.run.run f).1 <;> rfl

theorem make_pure (a : α) : make (pure a) = (pure a : Analyzing α) :=
  ext_after fun f => by
    rw [after_make, after_pure]
    exact congrArg _ f.append_none

theorem make_bind (m : Checked α) (n : α → Checked β) :
    make (m >>= n) = make m >>= fun a => make (n a) :=
  ext_after fun f => by
    rw [after_make, after_bind, after_make]
    cases ho : m.outcome with
    | none =>
        rw [Checked.bind_of_halted ho]
        rfl
    | some a =>
        rw [Checked.bind_of_outcome ho, ← Findings.append_assoc]
        rfl

end Analyzing

open Analyzing (make make_pure make_bind)

/-- What an operator is told about an operand, with a way to tell types. -/
def Scope.operandIn (s : Scope) (tell : Expr → Option Ty) : Expr → Option Ty
  | .paren _ inner => operandIn s tell inner
  | .name _ text => s.variableType? text
  | .call _ _ method _ => s.table.returnType? method
  | .index .. => some .int
  | .binary _ op _ _ => some op.resultType
  | e => tell e

namespace Analyzer

variable (a : Analyzer)

theorem after_telling (f : Findings) : a.telling.after f = (some (a.tell f.types), f) := rfl

/-- Asking how types are told changes nothing. -/
theorem telling_unused {α : Type} (m : Analyzing α) : (do let _ ← a.telling; m) = m :=
  Analyzing.ext_after fun f => Analyzing.after_bind a.telling (fun _ => m) f

/-! ## Laying a chain out changes nothing -/

theorem checkExpr_paren (tag : Tag) (inner : Expr) (pos : Position) :
    a.checkExpr (.paren tag inner) pos = a.checkExpr inner pos := by
  rw [checkExpr]

theorem make_checkOperator (link : Link) (left right : Option Ty) :
    make (Scope.checkOperator link left right) =
      make (Scope.checkOperator link left right) >>= fun _ => pure link.op.resultType := by
  have answer := congrArg make (Scope.checkOperator_answer link left right)
  rw [make_bind] at answer
  simpa only [make_pure] using answer

theorem checkLinks_singleton (pos : Position) (left : Option Ty) (link : Link) :
    a.checkLinks pos left [link] = (do
      let right ← a.operandType link.rhs
      make (Scope.checkConditionLink pos true link left)
      let type ← make (Scope.checkOperator link left right)
      pure (some type)) := by
  rw [checkLinks]
  simp [checkLinks]

theorem checkLinks_cons_cons (pos : Position) (left : Option Ty) (link link' : Link)
    (links : List Link) :
    a.checkLinks pos left (link :: link' :: links) = (do
      let right ← a.operandType link.rhs
      let _ ← make (Scope.checkOperator link left right)
      a.checkLinks pos (some link.op.resultType) (link' :: links)) := by
  rw [checkLinks]
  simp only [List.isEmpty_cons, Scope.checkConditionLink_inner, make_pure, pure_bind]
  congr 1
  funext right
  rw [make_checkOperator]
  simp only [bind_assoc, pure_bind]

theorem checkChain_layOut (tag : Tag) (op : BinaryOp) (lhs rhs : Expr) (pos : Position) :
    a.checkChain tag op lhs rhs pos = (do
      let left ← a.operandType (layOut lhs [⟨tag, op, rhs⟩]).1
      let type ← a.checkLinks pos left (layOut lhs [⟨tag, op, rhs⟩]).2
      pure (type.getD .int)) := by
  rw [checkChain]

/-- The left operand of a chain is checked by itself, whatever links follow it. -/
theorem checkLinks_layOut (pos : Position) (link : Link) (links : List Link) (e : Expr) :
    (do
      let left ← a.operandType (layOut e (link :: links)).1
      a.checkLinks pos left (layOut e (link :: links)).2) = (do
      let left ← a.operandType e
      a.checkLinks pos left (link :: links)) := by
  match e with
  | .int .. | .bool .. | .this .. | .not .. | .length .. | .newArray .. | .newObject ..
  | .index .. | .name .. | .call .. => rfl
  | .paren tag inner =>
      rw [layOut, operandType]
      exact checkLinks_layOut pos link links inner
  | .binary tag op lhs rhs =>
      have whole := checkLinks_layOut pos ⟨tag, op, rhs⟩ (link :: links) lhs
      have alone := checkLinks_layOut .value ⟨tag, op, rhs⟩ [] lhs
      rw [layOut, whole, operandType, checkChain_layOut, ← bind_assoc (a.operandType _), alone]
      simp only [checkLinks_cons_cons, checkLinks_singleton, Scope.checkConditionLink_value,
        make_pure, bind_assoc, pure_bind, Option.getD_some]
      congr 1; funext left; congr 1; funext right
      rw [make_checkOperator]
      simp only [bind_assoc, pure_bind]

/-- An operator checks its left operand, its right operand, and then itself. -/
theorem checkChain_eq (tag : Tag) (op : BinaryOp) (lhs rhs : Expr) (pos : Position) :
    a.checkChain tag op lhs rhs pos = (do
      let left ← a.operandType lhs
      let right ← a.operandType rhs
      make (Scope.checkConditionLink pos true ⟨tag, op, rhs⟩ left)
      make (Scope.checkOperator ⟨tag, op, rhs⟩ left right)) := by
  rw [checkChain_layOut, ← bind_assoc (a.operandType _), checkLinks_layOut]
  simp only [checkLinks_singleton, bind_assoc, pure_bind, Option.getD_some, bind_pure]

theorem checkChain_answer (tag : Tag) (op : BinaryOp) (lhs rhs : Expr) (pos : Position) :
    a.checkChain tag op lhs rhs pos =
      a.checkChain tag op lhs rhs pos >>= fun _ => pure op.resultType := by
  rw [checkChain_eq]
  simp only [bind_assoc]
  congr 1; funext left; congr 1; funext right; congr 1; funext _
  exact make_checkOperator _ _ _

/-! ## Recursion -/

/-- What is checked of a call before its arguments. -/
def checkCallee (loc : Location) (target : Expr) (method : String) : Analyzing Unit :=
  if target.isThis then make (a.scope.checkReceiver loc method) else a.checkExpr target .value

theorem checkCall_eq (tag : Tag) (target : Expr) (method : String) (args : List Expr) :
    a.checkCall tag target method args = (do
      a.checkCallee tag.loc target method
      a.checkArguments args
      a.checkSignature tag.loc target method args
      pure (a.scope.table.returnType? method)) := by
  rw [checkCall, checkCallee]
  split <;> rfl

theorem checkExpr_call (tag : Tag) (target : Expr) (method : String) (args : List Expr)
    (pos : Position) :
    a.checkExpr (.call tag target method args) pos = (do
      a.checkCallee tag.loc target method
      a.checkArguments args
      a.checkSignature tag.loc target method args) := by
  rw [checkExpr, checkCall_eq]
  simp only [bind_assoc, pure_bind, bind_pure_unit]

/-- An operand is checked like any expression, and its type is asked for afterwards. -/
theorem operandType_eq : ∀ e : Expr, a.operandType e = (do
    a.checkExpr e .value
    let tell ← a.telling
    pure (a.scope.operandIn tell e))
  | .paren _ inner => by
      rw [operandType, checkExpr_paren]
      exact operandType_eq inner
  | .binary .. => by
      rw [operandType, checkChain_answer, checkExpr]
      simp only [Scope.operandIn, bind_assoc, pure_bind, telling_unused]
  | .name .. => by
      rw [operandType, checkExpr]
      simp only [Scope.operandIn, telling_unused]
      rfl
  | .call .. => by
      rw [operandType, checkCall_eq, checkExpr_call]
      simp only [Scope.operandIn, bind_assoc, telling_unused]
  | .index .. => by
      rw [operandType]
      simp only [Scope.operandIn, telling_unused]
  | .int .. | .bool .. | .this .. | .not .. | .length .. | .newArray .. | .newObject .. => by
      simp only [operandType, Scope.operandIn]

theorem checkExpr_binary (tag : Tag) (op : BinaryOp) (lhs rhs : Expr) (pos : Position) :
    a.checkExpr (.binary tag op lhs rhs) pos = (do
      let left ← a.operandType lhs
      let right ← a.operandType rhs
      make (Scope.checkConditionLink pos true ⟨tag, op, rhs⟩ left)
      let _ ← make (Scope.checkOperator ⟨tag, op, rhs⟩ left right)
      pure ()) := by
  rw [checkExpr, checkChain_eq]
  simp only [bind_assoc]

end Analyzer

end JavaMinus
