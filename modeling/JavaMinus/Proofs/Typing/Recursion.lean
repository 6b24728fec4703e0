/-
# The checks by recursion on the expression

`Scope.checkExpr` lays a chain of operators out and walks over its links.  Here it is shown that
this is the same as recursion: an operator checks its left operand, then its right operand, then
itself, and what it is told about an operand is a function of the operand alone,
`Scope.operandType?`.  The equation `checkExpr_binary` is what inductions over expressions use;
none of them has to look at links again.

The laws of the monad of checks come first, since the two orders differ by reassociation only.
-/
import JavaMinus.Typing.Analysis

namespace JavaMinus

open Source

/-! ## Findings and checks -/

namespace Findings

@[simp] theorem none_append (f : Findings) : Findings.none ++ f = f := rfl

@[simp] theorem append_none (f : Findings) : f ++ Findings.none = f := by
  simp [append_def, Findings.none]

theorem append_assoc (f g h : Findings) : f ++ g ++ h = f ++ (g ++ h) := by
  simp [append_def, List.append_assoc]

@[simp] theorem reports_append (f g : Findings) : (f ++ g).reports = f.reports ++ g.reports := rfl

@[simp] theorem reports_none : Findings.none.reports = [] := rfl

end Findings

namespace Checked

variable {α β γ : Type}

theorem pure_def (a : α) : (pure a : Checked α) = ⟨some a, .none⟩ := rfl

theorem bind_def (m : Checked α) (f : α → Checked β) : m >>= f = Checked.bind m f := rfl

instance : LawfulMonad Checked := LawfulMonad.mk' Checked
  (by
    intro α m
    obtain ⟨outcome, found⟩ := m
    cases outcome <;> simp [Functor.map, Checked.bind, Checked.pure])
  (by
    intro α β a f
    simp [pure_def, bind_def, Checked.bind])
  (by
    intro α β γ m f g
    obtain ⟨outcome, found⟩ := m
    cases outcome with
    | none => rfl
    | some a =>
      simp only [bind_def, Checked.bind]
      cases (f a).outcome <;> simp [Findings.append_assoc])

/-- A check that answers, and what it answers, followed to the next check. -/
theorem outcome_bind (m : Checked α) (f : α → Checked β) :
    (m >>= f).outcome = m.outcome.bind fun a => (f a).outcome := by
  simp only [bind_def, Checked.bind]
  cases m.outcome <;> rfl

end Checked

/-! ## What an operator is told about an operand -/

namespace Scope

variable (s : Scope)

/-- The type that an operator takes its operand to have: a name and a call have their declared
types, an element of an array is an integer whatever the array, and parentheses say nothing. -/
def operandType? : Expr → Option Ty
  | .paren _ inner => operandType? inner
  | .name _ text => s.variableType? text
  | .call _ _ method _ => s.table.returnType? method
  | .index .. => some .int
  | .binary _ op _ _ => some op.resultType
  | e => s.typeOf? e

/-! ## Laying a chain out changes nothing -/

theorem checkExpr_paren (tag : Tag) (inner : Expr) (pos : Position) :
    s.checkExpr (.paren tag inner) pos = s.checkExpr inner pos := by
  rw [checkExpr]

theorem checkExpr_unparen (e : Expr) (pos : Position) :
    s.checkExpr e.unparen pos = s.checkExpr e pos :=
  e.apply_unparen (s.checkExpr · pos) fun tag inner => checkExpr_paren s tag inner pos

theorem checkConditionLink_value (isOutermost : Bool) (link : Link) (left : Option Ty) :
    checkConditionLink .value isOutermost link left = pure () := by
  cases left <;> rfl

theorem checkConditionLink_inner (pos : Position) (link : Link) (left : Option Ty) :
    checkConditionLink pos false link left = pure () := by
  cases pos <;> cases left <;> rfl

theorem checkOperator_answer (link : Link) (left right : Option Ty) :
    checkOperator link left right =
      checkOperator link left right >>= fun _ => pure link.op.resultType := by
  simp only [checkOperator]
  split
  · rfl
  · simp

/-- The one link that an operator adds to the chain on its left. -/
theorem checkLinks_singleton (pos : Position) (left : Option Ty) (link : Link) :
    s.checkLinks pos left [link] = (do
      let right ← s.operandType link.rhs
      checkConditionLink pos true link left
      let type ← checkOperator link left right
      pure (some type)) := by
  rw [checkLinks]
  simp [checkLinks]

/-- A link that is followed by others is never the outermost one. -/
theorem checkLinks_cons_cons (pos : Position) (left : Option Ty) (link link' : Link)
    (links : List Link) :
    s.checkLinks pos left (link :: link' :: links) = (do
      let right ← s.operandType link.rhs
      let _ ← checkOperator link left right
      s.checkLinks pos (some link.op.resultType) (link' :: links)) := by
  rw [checkLinks]
  simp only [List.isEmpty_cons, checkConditionLink_inner, pure_bind]
  congr 1
  funext right
  rw [checkOperator_answer]
  simp only [bind_assoc, pure_bind]

/-! ## Recursion -/

/-- What is checked of a call before its arguments. -/
def checkCallee (loc : Location) (target : Expr) (method : String) : Checked Unit :=
  if target.isThis then s.checkReceiver loc method else s.checkExpr target .value

theorem checkCall_eq (tag : Tag) (target : Expr) (method : String) (args : List Expr) :
    s.checkCall tag target method args = (do
      s.checkCallee tag.loc target method
      s.checkArguments args
      s.checkSignature tag.loc target method args
      pure (s.table.returnType? method)) := by
  rw [checkCall, checkCallee]
  split <;> rfl

theorem checkExpr_call (tag : Tag) (target : Expr) (method : String) (args : List Expr)
    (pos : Position) :
    s.checkExpr (.call tag target method args) pos = (do
      s.checkCallee tag.loc target method
      s.checkArguments args
      s.checkSignature tag.loc target method args) := by
  rw [checkExpr, checkCall_eq]
  simp only [bind_assoc, pure_bind, bind_pure_unit]

/-- What is no operator is checked by its own rule, and its type is looked up afterwards. -/
theorem operandType_of_not_binary : ∀ e : Expr, e.unparen.isBinary = false →
    s.operandType e = (do
      s.checkExpr e .value
      pure (s.operandType? e))
  | .int .., _ | .bool .., _ | .this .., _ | .not .., _ | .length .., _ | .newArray .., _
  | .newObject .., _ | .index .., _ => by
      simp only [operandType, operandType?]
  | .name .., _ => by
      simp only [operandType, operandType?, checkExpr]
      rfl
  | .call .., _ => by
      rw [operandType, checkCall_eq, checkExpr_call]
      simp only [operandType?, bind_assoc]
  | .paren _ inner, h => by
      rw [operandType, checkExpr_paren, operandType?]
      exact operandType_of_not_binary inner h
  | .binary .., h => nomatch h

/-- An operator checked with the chain on its left still in one piece. -/
theorem checkChain_layOut (tag : Tag) (op : BinaryOp) (lhs rhs : Expr) (pos : Position) :
    s.checkChain tag op lhs rhs pos = (do
      let left ← s.operandType (layOut lhs [⟨tag, op, rhs⟩]).1
      let type ← s.checkLinks pos left (layOut lhs [⟨tag, op, rhs⟩]).2
      pure (type.getD .int)) := by
  rw [checkChain]

/-- The left operand of a chain is checked by itself, whatever links follow it. -/
theorem checkLinks_layOut (pos : Position) (link : Link) (links : List Link) (e : Expr) :
    (do
      let left ← s.operandType (layOut e (link :: links)).1
      s.checkLinks pos left (layOut e (link :: links)).2) = (do
      s.checkExpr e .value
      s.checkLinks pos (s.operandType? e) (link :: links)) := by
  match e with
  | .int .. | .bool .. | .this .. | .not .. | .length .. | .newArray .. | .newObject ..
  | .index .. | .name .. | .call .. =>
      simp only [layOut]
      rw [operandType_of_not_binary s _ rfl]
      simp only [bind_assoc, pure_bind]
  | .paren tag inner =>
      rw [layOut, checkExpr_paren]
      exact checkLinks_layOut pos link links inner
  | .binary tag op lhs rhs =>
      have whole := checkLinks_layOut pos ⟨tag, op, rhs⟩ (link :: links) lhs
      have alone := checkLinks_layOut .value ⟨tag, op, rhs⟩ [] lhs
      rw [layOut, whole, checkExpr, checkChain_layOut, ← bind_assoc (s.operandType _), alone,
        checkLinks_cons_cons, checkLinks_singleton]
      simp only [operandType?, bind_assoc, pure_bind, checkConditionLink_value]

/-- An operator checks its left operand, its right operand, and then itself. -/
theorem checkChain_eq (tag : Tag) (op : BinaryOp) (lhs rhs : Expr) (pos : Position) :
    s.checkChain tag op lhs rhs pos = (do
      s.checkExpr lhs .value
      let right ← s.operandType rhs
      checkConditionLink pos true ⟨tag, op, rhs⟩ (s.operandType? lhs)
      checkOperator ⟨tag, op, rhs⟩ (s.operandType? lhs) right) := by
  rw [checkChain_layOut, ← bind_assoc (s.operandType _), checkLinks_layOut, checkLinks_singleton]
  simp only [bind_assoc, pure_bind, Option.getD_some, bind_pure]

theorem checkChain_answer (tag : Tag) (op : BinaryOp) (lhs rhs : Expr) (pos : Position) :
    s.checkChain tag op lhs rhs pos =
      s.checkChain tag op lhs rhs pos >>= fun _ => pure op.resultType := by
  rw [checkChain_eq]
  simp only [bind_assoc]
  congr 2; funext _; congr 1; funext right; congr 1; funext _
  exact checkOperator_answer _ _ _

/-- An operand is checked like any expression, and its type is looked up afterwards. -/
theorem operandType_eq : ∀ e : Expr, s.operandType e = (do
    s.checkExpr e .value
    pure (s.operandType? e))
  | .paren _ inner => by
      rw [operandType, checkExpr_paren, operandType?]
      exact operandType_eq inner
  | .binary .. => by
      rw [operandType, checkChain_answer, checkExpr]
      simp only [operandType?, bind_assoc, pure_bind]
  | .int .. | .bool .. | .this .. | .not .. | .length .. | .newArray .. | .newObject ..
  | .index .. | .name .. | .call .. => operandType_of_not_binary s _ rfl

theorem checkExpr_binary (tag : Tag) (op : BinaryOp) (lhs rhs : Expr) (pos : Position) :
    s.checkExpr (.binary tag op lhs rhs) pos = (do
      s.checkExpr lhs .value
      s.checkExpr rhs .value
      checkConditionLink pos true ⟨tag, op, rhs⟩ (s.operandType? lhs)
      let _ ← checkOperator ⟨tag, op, rhs⟩ (s.operandType? lhs) (s.operandType? rhs)
      pure ()) := by
  rw [checkExpr, checkChain_eq, operandType_eq]
  simp only [bind_assoc, pure_bind]

end Scope

end JavaMinus
