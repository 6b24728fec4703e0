/-
# What calls are made on

A name that stands for a variable is lowered to that variable, and the receiver to itself, so a call
on it is made on the variable, and not on a copy that holds the same object.  `OnVariable` says this
of one call, and `LoweredTo.calls_onVariables` of all calls of a method, each with the call of the
text that it comes from.

A call is written where its result is placed, which is after the lines of its operands.  `Issues`
keeps account of the one that is not written yet, in the same way as the uses of an expression are
kept: what a step writes and what it leaves are the calls that were due before it and its own.
-/
import JavaMinus.Proofs.Lowering.CallOrder
import JavaMinus.Proofs.Lowering.Printed

namespace JavaMinus

open Source

/-! ## The calls in instructions -/

namespace Ir

def Instruction.methodCalls : Instruction → List Call
  | .call c => if c.kind.how?.isSome then [c] else []
  | .assign _ _ rhs => rhs.methodCalls
  | _ => []

/-- The calls of methods that a method makes, in order. -/
def Method.methodCalls (m : Method) : List Call :=
  m.body.flatMap fun l => l.instruction.methodCalls

theorem Instruction.methodCalls_readBack (i : Instruction) :
    i.readBack.methodCalls = i.methodCalls.map Call.readBack := by
  induction i with
  | call c =>
      show (if c.readBack.kind.how?.isSome then _ else _) = List.map _ (if _ then _ else _)
      rw [apply_ite (List.map Call.readBack)]
      rfl
  | assign _ _ _ ih => exact ih
  | binary | unary | single | getField | putField | goto | branch | «return» | returnVoid => rfl

theorem Method.methodCalls_readBack (m : Method) :
    m.readBack.methodCalls = m.methodCalls.map Call.readBack := by
  show (m.body.map _).flatMap _ = (m.body.flatMap _).map _
  rw [List.flatMap_map, List.map_flatMap]
  exact List.flatMap_congr fun l _ => l.instruction.methodCalls_readBack

end Ir

namespace Lowering

open Ir

def Line.methodCalls : Line → List Call
  | .code _ i => i.methodCalls
  | .text .. | .label _ => []

/-- The right side makes no call until it is placed. -/
def Rhs.methodCalls (rhs : Rhs) : List Call := rhs.instruction.methodCalls

theorem bodyOf_methodCalls {lines : List Line} (labels : List String) :
    ((bodyOf labels lines).1.flatMap fun l => l.instruction.methodCalls) =
      lines.flatMap Line.methodCalls :=
  bodyOf_flatMap (g := Instruction.methodCalls) (fun _ _ => rfl) (fun _ => rfl)
    (fun _ _ => rfl) labels

/-! ## Calls on variables -/

/-- The variable that an expression is, parentheses aside: the receiver, or what a name stands for
that is not the name of a field. -/
def varOf? (s : Scope) (e : Expr) : Option (String × ElementType) :=
  match e.unparen with
  | .this _ => some ("this", .this)
  | .name _ text => (s.lookup text).bind fun found =>
      if found.origin = .field then none else some (text, found.symbol.type.lowered)
  | _ => none

theorem varOf_of_isThis {s : Scope} {e : Expr} (h : e.isThis = true) :
    varOf? s e = some ("this", .this) := by
  unfold Expr.isThis at h
  unfold varOf?
  split at h
  · rename_i this
    rw [this]
  · cases h

theorem varOf_of_lookup {s : Scope} {e : Expr} {name : String} {found : Lookup}
    (h : e.asName? = some name) (known : s.lookup name = some found)
    (other : found.origin ≠ .field) : varOf? s e = some (name, found.symbol.type.lowered) := by
  unfold Expr.asName? at h
  unfold varOf?
  split at h
  · rename_i named
    cases h
    rw [named]
    show (s.lookup name).bind _ = _
    rw [known]
    exact if_neg other
  · cases h

theorem varOf_of_namesClass {s : Scope} : ∀ e : Expr, e.namesClass s = true →
    varOf? s e = none
  | .name _ text, h => by
      have undeclared : s.lookup text = none := Option.isNone_iff_eq_none.1 h
      show (s.lookup text).bind _ = none
      rw [undeclared]
      rfl
  | .paren _ inner, h => varOf_of_namesClass inner h
  | .int .., h | .bool .., h | .this _, h | .binary .., h | .not .., h | .index .., h | .length .., h
  | .call .., h | .newArray .., h | .newObject .., h => nomatch h

/-- The call of the text is made on the variable that its target is, if it is one. -/
def OnVariable (s : Scope) (e : Expr) (c : Call) : Prop :=
  ∀ tag target method args name type, e = .call tag target method args →
    varOf? s target = some (name, type) → c.target = some (.var name type)

/-- An expression that is a variable leaves the variable. -/
def LeavesVariable (s : Scope) (e : Expr) (rhs : Rhs) : Prop :=
  ∀ name type, varOf? s e = some (name, type) →
    ∃ v, rhs = .value v ∧ v.operand = .var name type

theorem leavesVariable_of_none {s : Scope} {e : Expr} {rhs : Rhs} (h : varOf? s e = none) :
    LeavesVariable s e rhs := by
  intro name type there
  rw [h] at there
  cases there

variable {s : Scope} {α β : Type} {m : Lowering α} {f : α → Lowering β} {due : List Call}
  {es es' : List Expr} {left : α → List Call} {left' : β → List Call} {Q Q₁ : α → Prop}
  {Q' : β → Prop}

/-- If the step succeeds, the calls in its lines and those that it leaves are the ones that were due
and those of the expressions, in this order. -/
def Issues (s : Scope) (due : List Call) (m : Lowering α) (es : List Expr) (left : α → List Call)
    (Q : α → Prop) : Prop :=
  ∀ (c : Cursor) (a : α) (c' : Cursor) (w : List Line), c.method = s.method →
    m.run c = ⟨.ok a, c', w⟩ →
      c'.method = s.method ∧ Q a ∧ ∃ calls, List.Forall₂ (OnVariable s) es calls ∧
        w.flatMap Line.methodCalls ++ left a = due ++ calls

/-- Nothing is left to be written. -/
def placed : α → List Call := fun _ => []

namespace Issues

theorem answer {a : α} {calls : List Call} (on : List.Forall₂ (OnVariable s) es calls)
    (same : left a = due ++ calls) (h : Q a) : Issues s due (Pure.pure a) es left Q := by
  intro c a' c' w method run
  obtain ⟨rfl, rfl, rfl⟩ := Emission.run_pure_ok_iff.1 run
  exact ⟨method, h, calls, on, same⟩

theorem pure {a : α} (same : left a = due) (h : Q a) : Issues s due (Pure.pure a) [] left Q :=
  .answer .nil (same.trans (List.append_nil due).symm) h

theorem bind (hm : Issues s due m es left Q)
    (hf : ∀ a, Q a → Issues s (left a) (f a) es' left' Q') :
    Issues s due (m >>= f) (es ++ es') left' Q' := by
  intro c b c' w method run
  obtain ⟨a, c₁, w₁, w₂, run₁, run₂, rfl⟩ := Emission.run_bind_ok_iff.1 run
  obtain ⟨method₁, ha, calls, on, first⟩ := hm c a c₁ w₁ method run₁
  obtain ⟨method₂, hb, calls', on', second⟩ := hf a ha c₁ b c' w₂ method₁ run₂
  refine ⟨method₂, hb, calls ++ calls', List.rel_append on on', ?_⟩
  rw [List.flatMap_append, List.append_assoc, second, ← List.append_assoc, first,
    List.append_assoc]

theorem after (hm : Issues s due m [] left Q)
    (hf : ∀ a, Q a → Issues s (left a) (f a) es left' Q') : Issues s due (m >>= f) es left' Q' :=
  hm.bind hf

/-- A last step with no calls of its own. -/
theorem andThen (hm : Issues s due m es left Q)
    (hf : ∀ a, Q a → Issues s (left a) (f a) [] left' Q') : Issues s due (m >>= f) es left' Q' :=
  List.append_nil es ▸ hm.bind hf

theorem mono (hm : Issues s due m es left Q) (h : ∀ a, Q a → Q₁ a) :
    Issues s due m es left Q₁ := by
  intro c a c' w method run
  obtain ⟨method', ha, calls⟩ := hm c a c' w method run
  exact ⟨method', h a ha, calls⟩

end Issues

/-! ## The steps of the generator -/

theorem answered_issues (a : α) : Issues s [] (pure a) [] placed (· = a) := .pure rfl rfl

theorem lookup_issues (name : String) :
    Issues s [] (lookup s.table name) [] placed (· = s.lookup name) := by
  intro c a c' w method run
  cases run
  exact ⟨method, by rw [Scope.lookup, method], [], .nil, rfl⟩

theorem need_issues (e : Error) (o : Option α) :
    Issues s [] (Emission.need e o : Lowering α) [] placed (o = some ·) := by
  cases o with
  | none =>
      intro c a c' w method run
      cases run
  | some x => exact .pure rfl rfl

theorem emit_issues {i : Instruction} {calls : List Call}
    (on : List.Forall₂ (OnVariable s) es calls) (same : i.methodCalls = due ++ calls) :
    Issues s due (emit i) es placed fun _ => True := by
  intro c a c' w method run
  cases run
  refine ⟨method, trivial, calls, on, ?_⟩
  show (i.methodCalls ++ []) ++ [] = due ++ calls
  rw [List.append_nil, List.append_nil, same]

theorem emit_due (i : Instruction) : Issues s i.methodCalls (emit i) [] placed fun _ => True :=
  emit_issues .nil (List.append_nil _).symm

theorem emitLabel_issues (name : String) :
    Issues s [] (emitLabel name) [] placed fun _ => True := by
  intro c a c' w method run
  cases run
  exact ⟨method, trivial, [], .nil, rfl⟩

theorem newLabel_issues : Issues s [] newLabel [] placed fun _ => True := by
  intro c a c' w method run
  cases run
  exact ⟨method, trivial, [], .nil, rfl⟩

theorem newTemp_issues :
    Issues s due (newTemp s.table) [] (fun _ => due) fun _ => True := by
  intro c a c' w method run
  cases run
  exact ⟨method, trivial, [], .nil, (List.append_nil due).symm⟩

theorem bind_issues (i : Instruction) (type : Ty) :
    Issues s i.methodCalls (bind s.table i type) [] placed fun _ => True :=
  newTemp_issues.after fun _ _ => (emit_due (.assign _ _ i)).after fun _ _ => .pure rfl trivial

theorem asValue_issues (rhs : Rhs) : Issues s rhs.methodCalls (asValue s.table rhs) [] placed
    fun v => ∀ v', rhs = .value v' → v = v' := by
  cases rhs with
  | value v => exact .pure rfl fun v' same => Rhs.value.inj same
  | operation i type => exact (bind_issues i type).mono fun v _ v' same => Rhs.noConfusion same

theorem asOperand_issues (rhs : Rhs) : Issues s rhs.methodCalls (asOperand s.table rhs) [] placed
    fun v => ∀ v' name type, rhs = .value v' → v'.operand = .var name type → v = v' := by
  refine (asValue_issues rhs).after fun v same => ?_
  split
  · rename_i indexed
    refine (bind_issues (.single v.operand) v.type).mono fun _ _ v' name type kept isVar => ?_
    rw [same v' kept, Value.isIndexed, isVar] at indexed
    cases indexed
  · exact .pure rfl fun v' _ _ kept _ => same v' kept

/-! ## Expressions -/

theorem lowerName_issues (tag : Tag) (name : String) :
    Issues s [] (lowerName s.table name) [] Rhs.methodCalls
      (LeavesVariable s (.name tag name)) := by
  refine (lookup_issues name).after fun found hfound => (need_issues _ _).after fun x hx => ?_
  show Issues s [] (if x.origin = .field then Pure.pure (Rhs.operation _ _)
    else Pure.pure (Rhs.value _)) _ _ _
  have there : s.lookup name = some x := hfound.symm.trans hx
  have meant : varOf? s (.name tag name) =
      if x.origin = .field then none else some (name, x.symbol.type.lowered) := by
    show (s.lookup name).bind _ = _
    rw [there]
    rfl
  split
  · rename_i field
    exact .pure rfl (leavesVariable_of_none (meant.trans (if_pos field)))
  · rename_i notField
    refine .pure rfl fun name' type same => ?_
    cases (meant.trans (if_neg notField)).symm.trans same
    exact ⟨_, rfl, rfl⟩

theorem lowerBinary_methodCalls (op : BinaryOp) (left right : Value) :
    (lowerBinary op left right).methodCalls = [] := by
  simp only [lowerBinary]
  split <;> rfl

theorem lowerNot_methodCalls (v : Value) : (lowerNot v).methodCalls = [] := by
  unfold lowerNot
  split <;> rfl

/-- The target names a class exactly if the name has no meaning. -/
theorem targetClass_issues (target : Expr) :
    Issues s [] (targetClass? s.table target) [] placed
      fun named => named.isSome = target.namesClass s := by
  unfold targetClass? Expr.namesClass
  cases target.asName? with
  | none => exact .pure rfl rfl
  | some name =>
      refine (lookup_issues name).after fun found hfound => .pure rfl ?_
      show _ = (s.lookup name).isNone
      rw [← hfound]
      cases found <;> rfl

theorem Issues.value {m : Lowering Rhs} {f : Value → Lowering β} {Q : Rhs → Prop}
    (hm : Issues s [] m es Rhs.methodCalls Q) (hf : ∀ v, Issues s [] (f v) es' left' Q') :
    Issues s [] (m >>= fun rhs => asValue s.table rhs >>= f) (es ++ es') left' Q' :=
  hm.bind fun rhs _ => (asValue_issues rhs).after fun v _ => hf v

theorem Issues.operand {m : Lowering Rhs} {f : Value → Lowering β} {e : Expr}
    (hm : Issues s [] m es Rhs.methodCalls (LeavesVariable s e))
    (hf : ∀ v : Value, (∀ name type, varOf? s e = some (name, type) →
      v.operand = .var name type) → Issues s [] (f v) es' left' Q') :
    Issues s [] (m >>= fun rhs => asOperand s.table rhs >>= f) (es ++ es') left' Q' := by
  refine hm.bind fun rhs leaves => (asOperand_issues rhs).after fun v same => hf v ?_
  intro name type there
  obtain ⟨v', kept, isVar⟩ := leaves name type there
  rw [same v' name type kept isVar, isVar]

theorem invoked_issues {tag : Tag} {target : Expr} {method : String} {args : List Expr}
    {expected : Option Ty} {r : Receiver} (kind : r.kind.how?.isSome = true)
    (on : ∀ name type, varOf? s target = some (name, type) → r.operand = .var name type)
    (hargs : ∀ params, Issues s [] (lowerArguments s.table args params) (Expr.callsIn args) placed
      fun _ => True) :
    Issues s [] (do
      let declared := r.signature? s.table method
      let operands ← lowerArguments s.table args ((declared.map (·.params)).getD [])
      let type := callType declared expected
      pure (Rhs.operation
        (.call ⟨r.kind, some r.operand, some method, operands, type.lowered⟩) type))
      (Expr.callsIn args ++ [.call tag target method args]) Rhs.methodCalls
      (LeavesVariable s (.call tag target method args)) := by
  refine (hargs _).bind fun operands _ => ?_
  refine .answer (.cons ?_ .nil) (if_pos kind) (leavesVariable_of_none rfl)
  intro _ _ _ _ name type same there
  cases same
  exact congrArg some (on name type there)

mutual

theorem lowerRhs_issues : ∀ (e : Expr) (expected : Option Ty),
    Issues s [] (lowerRhs s.table e expected) e.calls Rhs.methodCalls (LeavesVariable s e)
  | .int .., _ | .bool .., _ => .pure rfl (leavesVariable_of_none rfl)
  | .this _, _ => by
      refine .pure rfl fun name type same => ?_
      cases same
      exact ⟨_, rfl, rfl⟩
  | .name tag name, _ => lowerName_issues tag name
  | .paren _ inner, expected => lowerRhs_issues inner expected
  | .binary _ op lhs rhs, expected => by
      rw [lowerRhs, Expr.calls]
      refine (lowerRhs_issues lhs _).value fun left => ?_
      rw [← List.append_nil rhs.calls]
      refine (lowerRhs_issues rhs _).value fun right => ?_
      exact .pure (lowerBinary_methodCalls op left right) (leavesVariable_of_none rfl)
  | .not _ operand, expected => by
      rw [lowerRhs, Expr.calls, ← List.append_nil operand.calls]
      refine (lowerRhs_issues operand _).value fun v => ?_
      exact .pure (lowerNot_methodCalls v) (leavesVariable_of_none rfl)
  | .index _ array index, expected => by
      rw [lowerRhs, Expr.calls]
      refine (lowerRhs_issues array _).operand fun a _ => ?_
      rw [← List.append_nil index.calls]
      refine (lowerRhs_issues index _).operand fun i _ => ?_
      exact .pure rfl (leavesVariable_of_none rfl)
  | .length _ array, expected => by
      rw [lowerRhs, Expr.calls, ← List.append_nil array.calls]
      refine (lowerRhs_issues array _).operand fun a _ => ?_
      exact (bind_issues _ _).after fun v _ => .pure rfl (leavesVariable_of_none rfl)
  | .newArray _ size, expected => by
      rw [lowerRhs, Expr.calls, ← List.append_nil size.calls]
      refine (lowerRhs_issues size _).operand fun n _ => ?_
      exact (bind_issues _ _).after fun v _ => .pure rfl (leavesVariable_of_none rfl)
  | .newObject tag className, expected => by
      rw [lowerRhs, lowerNewObject, Expr.calls]
      refine (bind_issues _ _).after fun v _ => ?_
      refine Issues.andThen (Q := fun _ => True) ?_ fun _ _ =>
        .pure rfl (leavesVariable_of_none rfl)
      refine emit_issues (.cons ?_ .nil) rfl
      intro _ _ _ _ _ _ same
      cases same
  | .call tag target name args, expected => by
      rw [lowerRhs, Expr.calls]
      have arguments := fun params => lowerArguments_issues args params
      refine (targetClass_issues target).after fun named hnamed => ?_
      cases named with
      | some className =>
          have names : target.namesClass s = true := hnamed.symm
          rw [Expr.calls_of_namesClass target names, List.nil_append]
          refine (answered_issues (Receiver.ofClass className)).after ?_
          rintro _ rfl
          refine invoked_issues rfl (fun _ _ same => ?_) arguments
          rw [varOf_of_namesClass target names] at same
          cases same
      | none =>
          refine (lowerRhs_issues target none).operand fun v hv => ?_
          refine (answered_issues (Receiver.ofValue v)).after ?_
          rintro _ rfl
          exact invoked_issues rfl hv arguments

theorem lowerArguments_issues : ∀ (args : List Expr) (params : List Symbol),
    Issues s [] (lowerArguments s.table args params) (Expr.callsIn args) placed fun _ => True
  | [], _ => .pure rfl trivial
  | arg :: args, params => by
      rw [lowerArguments, Expr.callsIn]
      refine (lowerRhs_issues arg _).operand fun v _ => ?_
      exact (lowerArguments_issues args _).andThen fun _ _ => .pure rfl trivial

end

theorem lowerValue_issues (e : Expr) (expected : Option Ty) :
    Issues s [] (lowerValue s.table e expected) e.calls placed fun _ => True :=
  (lowerRhs_issues e expected).andThen fun rhs _ =>
    (asValue_issues rhs).mono fun _ _ => trivial

theorem lowerOperand_issues (e : Expr) (expected : Option Ty) :
    Issues s [] (lowerOperand s.table e expected) e.calls placed fun _ => True :=
  (lowerRhs_issues e expected).andThen fun rhs _ =>
    (asOperand_issues rhs).mono fun _ _ => trivial

/-! ## Statements -/

theorem placed_issues {e : Expr} {expected : Option Ty} {i : Rhs → Instruction}
    (same : ∀ rhs, (i rhs).methodCalls = rhs.methodCalls) :
    Issues s [] (lowerRhs s.table e expected >>= fun rhs => emit (i rhs)) e.calls placed
      fun _ => True :=
  (lowerRhs_issues e expected).andThen fun rhs _ => same rhs ▸ emit_due (i rhs)

theorem lowerExprStmt_issues (e : Expr) :
    Issues s [] (lowerExprStmt s.table e) e.calls placed fun _ => True := by
  unfold lowerExprStmt
  split
  · exact placed_issues fun _ => rfl
  · exact (lowerValue_issues e none).andThen fun _ _ => .pure rfl trivial

theorem lowerAssign_issues (target : String) (value : Expr) :
    Issues s [] (lowerAssign s.table target value) value.calls placed fun _ => True := by
  refine (lookup_issues target).after fun found _ => (need_issues _ _).after fun x _ => ?_
  show Issues s [] (if x.origin = .field then _ else _) _ _ _
  split
  · exact (lowerOperand_issues value _).andThen fun v _ => emit_due (.putField _ _ _)
  · exact placed_issues fun _ => rfl

theorem lowerAssignElement_issues (target : String) (index value : Expr) :
    Issues s [] (lowerAssignElement s.table target index value) (index.calls ++ value.calls) placed
      fun _ => True := by
  refine (lowerName_issues ⟨0, default⟩ target).after fun rhs _ => ?_
  refine (asValue_issues rhs).after fun array _ => ?_
  exact (lowerOperand_issues index _).bind fun i _ => placed_issues fun _ => rfl

theorem lowerReturn_issues (value : Option Expr) :
    Issues s [] (lowerReturn s.table value) (Expr.callsIn value.toList) placed fun _ => True := by
  have state : Issues s [] (Emission.state : Lowering Cursor) [] placed fun _ => True := by
    intro c a c' w method run
    cases run
    exact ⟨method, trivial, [], .nil, rfl⟩
  refine state.after fun c _ => ?_
  cases value with
  | none => exact emit_due .returnVoid
  | some e =>
      rw [Option.toList_some, Expr.callsIn, Expr.callsIn, List.append_nil]
      exact (lowerValue_issues e _).andThen fun v _ => emit_due (.return _ _)

mutual

theorem lowerStmt_issues : ∀ stmt : Stmt,
    Issues s [] (lowerStmt s.table stmt) stmt.calls placed fun _ => True
  | .block _ body => lowerStmts_issues body
  | .ifThen _ condition thenBranch => by
      rw [lowerStmt, Stmt.calls]
      refine newLabel_issues.after fun n _ => (lowerValue_issues condition _).bind fun c _ => ?_
      refine (emit_due (.branch _ _)).after fun _ _ => ?_
      refine (lowerStmt_issues thenBranch).andThen fun _ _ => ?_
      exact (emit_due (.goto _)).after fun _ _ => (emitLabel_issues _).after fun _ _ =>
        emitLabel_issues _
  | .ifElse _ condition thenBranch elseBranch => by
      rw [lowerStmt, Stmt.calls]
      refine newLabel_issues.after fun n _ => (lowerValue_issues condition _).bind fun c _ => ?_
      refine (emit_due (.branch _ _)).after fun _ _ => ?_
      refine (lowerStmt_issues thenBranch).bind fun _ _ => ?_
      refine (emit_due (.goto _)).after fun _ _ => (emitLabel_issues _).after fun _ _ => ?_
      exact (lowerStmt_issues elseBranch).andThen fun _ _ => emitLabel_issues _
  | .while _ condition body => by
      rw [lowerStmt, Stmt.calls]
      refine newLabel_issues.after fun n _ => (emitLabel_issues _).after fun _ _ => ?_
      refine (lowerValue_issues condition _).bind fun c _ => ?_
      refine (emit_due (.branch _ _)).after fun _ _ => ?_
      refine (lowerStmt_issues body).andThen fun _ _ => ?_
      exact (emit_due (.goto _)).after fun _ _ => emitLabel_issues _
  | .expr e => lowerExprStmt_issues e
  | .assign _ target value => lowerAssign_issues target value
  | .assignElement _ target index value => lowerAssignElement_issues target index value
  | .return _ value => lowerReturn_issues value

theorem lowerStmts_issues : ∀ stmts : List Stmt,
    Issues s [] (lowerStmts s.table stmts) (Stmt.callsIn stmts) placed fun _ => True
  | [] => .pure rfl trivial
  | stmt :: stmts => by
      rw [lowerStmts, Stmt.callsIn]
      exact (lowerStmt_issues stmt).bind fun _ _ => lowerStmts_issues stmts

end

theorem lowerBody_issues (m : Source.Method) :
    Issues s [] (lowerBody s.table m) (Stmt.callsIn m.body) placed fun _ => True := by
  refine (lowerStmts_issues m.body).andThen fun _ _ => ?_
  split
  · exact emit_due .returnVoid
  · exact .pure rfl trivial

/-- The calls of a method come from the calls of the text, one by one, and those on a variable are
made on it. -/
theorem LoweredTo.calls_onVariables {table : SymbolTable} {m : Source.Method} {u : Ir.Method}
    (h : LoweredTo table m u) :
    List.Forall₂ (OnVariable (.ofMethod table m)) (Stmt.callsIn m.body) u.methodCalls := by
  obtain ⟨lines, ⟨n, c', run⟩, rfl⟩ := h
  obtain ⟨-, -, calls, on, same⟩ :=
    lowerBody_issues (s := .ofMethod table m) m ⟨n, m.name, 0, 0⟩ () c' lines rfl run
  rw [placed, List.append_nil, List.nil_append, ← bodyOf_methodCalls []] at same
  rw [← same] at on
  exact on

end Lowering

end JavaMinus
