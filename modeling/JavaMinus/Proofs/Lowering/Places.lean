/-
# Where expressions are lowered

Every context lowers an expression for the type that it expects.  `Expr.lowerings` lists what is
lowered with an expression, itself and its parts, each with that type; the target of a call that names
a class is not among it.  The list follows the source alone, and `Covers` ties it to the generator: in
a successful run each of its expressions is lowered for the type beside it, in lines that stand
together, and what is left has the type that the source shows (`Expr.loweredType`).

Nothing here asks whether the program has been accepted.
-/
import JavaMinus.Proofs.Lowering.Expressions

namespace JavaMinus

open Source

namespace Source

mutual

/-- The expressions that are lowered with an expression, each with the type that its context
expects. -/
def Expr.lowerings (s : Scope) : Expr → Option Ty → List (Expr × Option Ty)
  | .int tag n, expected => [(.int tag n, expected)]
  | .bool tag b, expected => [(.bool tag b, expected)]
  | .name tag text, expected => [(.name tag text, expected)]
  | .this tag, expected => [(.this tag, expected)]
  | .newObject tag className, expected => [(.newObject tag className, expected)]
  | .binary tag op lhs rhs, expected =>
      (.binary tag op lhs rhs, expected) ::
        (lhs.lowerings s (some op.operandType) ++ rhs.lowerings s (some op.operandType))
  | .not tag operand, expected =>
      (.not tag operand, expected) :: operand.lowerings s (some .boolean)
  | .index tag array i, expected =>
      (.index tag array i, expected) ::
        (array.lowerings s (some .intArray) ++ i.lowerings s (some .int))
  | .length tag array, expected =>
      (.length tag array, expected) :: array.lowerings s (some .intArray)
  | .newArray tag size, expected => (.newArray tag size, expected) :: size.lowerings s (some .int)
  | .paren tag inner, expected => (.paren tag inner, expected) :: inner.lowerings s expected
  | .call tag target method args, expected =>
      (.call tag target method args, expected) ::
        ((if target.namesClass s then [] else target.lowerings s none) ++
          Expr.loweringsIn s args (Expr.expectedParams s target method))

/-- The expressions that are lowered with arguments; each argument is lowered for its parameter, if
there is one. -/
def Expr.loweringsIn (s : Scope) : List Expr → List Symbol → List (Expr × Option Ty)
  | [], _ => []
  | arg :: args, params =>
      arg.lowerings s (params.head?.map (·.type)) ++ Expr.loweringsIn s args params.tail

end

mutual

def Stmt.lowerings (s : Scope) : Stmt → List (Expr × Option Ty)
  | .block _ body => Stmt.loweringsIn s body
  | .ifThen _ condition thenBranch =>
      condition.lowerings s (some .boolean) ++ thenBranch.lowerings s
  | .ifElse _ condition thenBranch elseBranch =>
      condition.lowerings s (some .boolean) ++ (thenBranch.lowerings s ++ elseBranch.lowerings s)
  | .while _ condition body => condition.lowerings s (some .boolean) ++ body.lowerings s
  | .expr e => e.lowerings s none
  | .assign _ target value => value.lowerings s (s.variableType? target)
  | .assignElement _ target index value =>
      index.lowerings s (some .int) ++
        value.lowerings s ((s.variableType? target).map (·.element))
  | .return _ none => []
  | .return _ (some value) => value.lowerings s (some s.expectedReturn)

def Stmt.loweringsIn (s : Scope) : List Stmt → List (Expr × Option Ty)
  | [] => []
  | stmt :: stmts => stmt.lowerings s ++ Stmt.loweringsIn s stmts

end

end Source

namespace Lowering

variable {s : Scope} {α β : Type} {m : Lowering α} {f : α → Lowering β}
  {xs ys : List (Expr × Option Ty)} {Q Q₁ : α → Prop} {Q' : β → Prop}

/-- In the lines stand those of the expression, lowered for the type beside it, and what they leave
has the type `t`. -/
def LoweredIn (s : Scope) (w : List Line) (x : Expr × Option Ty) (t : Ty) : Prop :=
  ∃ c c' rhs own, c.method = s.method ∧
    (lowerRhs s.table x.1 x.2).run c = ⟨.ok rhs, c', own⟩ ∧ own <:+: w ∧ rhs.type = t

theorem LoweredIn.mono {w w' : List Line} {x : Expr × Option Ty} {t : Ty} (h : LoweredIn s w x t)
    (hw : w <:+: w') : LoweredIn s w' x t := by
  obtain ⟨c, c', rhs, own, hc, run, there, type⟩ := h
  exact ⟨c, c', rhs, own, hc, run, there.trans hw, type⟩

/-- If the step succeeds, the expressions are lowered in its lines, each under the type that the
source shows, and its answer satisfies `Q`. -/
def Covers (s : Scope) (m : Lowering α) (xs : List (Expr × Option Ty)) (Q : α → Prop) : Prop :=
  ∀ (c : Cursor) (a : α) (c' : Cursor) (w : List Line), c.method = s.method →
    m.run c = ⟨.ok a, c', w⟩ →
      c'.method = s.method ∧ (∀ x ∈ xs, LoweredIn s w x (x.1.loweredType s x.2)) ∧ Q a

namespace Covers

theorem pure {a : α} (h : Q a) : Covers s (Pure.pure a) [] Q := by
  intro c a' c' w same run
  obtain ⟨rfl, rfl, rfl⟩ := Emission.run_pure_ok_iff.1 run
  exact ⟨same, List.forall_mem_nil _, h⟩

theorem bind (hm : Covers s m xs Q) (hf : ∀ a, Q a → Covers s (f a) ys Q') :
    Covers s (m >>= f) (xs ++ ys) Q' := by
  intro c b c' w same run
  obtain ⟨a, c₁, w₁, w₂, run₁, run₂, rfl⟩ := Emission.run_bind_ok_iff.1 run
  obtain ⟨same₁, covered₁, ha⟩ := hm c a c₁ w₁ same run₁
  obtain ⟨same₂, covered₂, hb⟩ := hf a ha c₁ b c' w₂ same₁ run₂
  refine ⟨same₂, List.forall_mem_append.2 ⟨?_, ?_⟩, hb⟩
  · exact fun x hx => (covered₁ x hx).mono (List.prefix_append w₁ w₂).isInfix
  · exact fun x hx => (covered₂ x hx).mono (List.suffix_append w₁ w₂).isInfix

theorem after (hm : Covers s m [] Q) (hf : ∀ a, Q a → Covers s (f a) xs Q') :
    Covers s (m >>= f) xs Q' :=
  hm.bind hf

/-- A last step that lowers nothing. -/
theorem andThen (hm : Covers s m xs Q) (hf : ∀ a, Q a → Covers s (f a) [] Q') :
    Covers s (m >>= f) xs Q' :=
  List.append_nil xs ▸ hm.bind hf

theorem mono (hm : Covers s m xs Q) (h : ∀ a, Q a → Q₁ a) : Covers s m xs Q₁ := by
  intro c a c' w same run
  obtain ⟨same', covered, ha⟩ := hm c a c' w same run
  exact ⟨same', covered, h a ha⟩

/-- An expression that is lowered under its type is itself among what is lowered. -/
theorem self {e : Expr} {expected : Option Ty}
    (h : Covers s (lowerRhs s.table e expected) xs
      fun rhs => rhs.type = e.loweredType s expected) :
    Covers s (lowerRhs s.table e expected) ((e, expected) :: xs)
      fun rhs => rhs.type = e.loweredType s expected := by
  intro c rhs c' w same run
  obtain ⟨same', covered, type⟩ := h c rhs c' w same run
  refine ⟨same', List.forall_mem_cons.2 ⟨?_, covered⟩, type⟩
  exact ⟨c, c', rhs, w, same, run, List.infix_refl w, type⟩

end Covers

/-! ## The steps of the generator -/

theorem lookup_covers (name : String) :
    Covers s (lookup s.table name) [] fun found => found = s.lookup name := by
  intro c a c' w same run
  cases run
  exact ⟨same, List.forall_mem_nil _, by rw [Scope.lookup, same]⟩

theorem need_covers (e : Error) (o : Option α) :
    Covers s (Emission.need e o : Lowering α) [] fun a => o = some a := by
  cases o with
  | none =>
      intro c a c' w same run
      cases run
  | some x => exact .pure rfl

theorem emit_covers (i : Ir.Instruction) : Covers s (emit i) [] fun _ => True := by
  intro c a c' w same run
  cases run
  exact ⟨same, List.forall_mem_nil _, trivial⟩

theorem emitLabel_covers (name : String) : Covers s (emitLabel name) [] fun _ => True := by
  intro c a c' w same run
  cases run
  exact ⟨same, List.forall_mem_nil _, trivial⟩

theorem newLabel_covers : Covers s newLabel [] fun _ => True := by
  intro c a c' w same run
  cases run
  exact ⟨same, List.forall_mem_nil _, trivial⟩

theorem newTemp_covers : Covers s (newTemp s.table) [] fun _ => True := by
  intro c a c' w same run
  cases run
  exact ⟨same, List.forall_mem_nil _, trivial⟩

theorem bind_covers (i : Ir.Instruction) (type : Ty) :
    Covers s (bind s.table i type) [] fun v => v.type = type :=
  newTemp_covers.after fun _ _ => (emit_covers _).after fun _ _ => .pure rfl

/-- A right side that is placed in a value keeps its type. -/
theorem asValue_covers (rhs : Rhs) :
    Covers s (asValue s.table rhs) [] fun v => v.type = rhs.type := by
  cases rhs with
  | value v => exact .pure rfl
  | operation i type => exact bind_covers i type

theorem asOperand_covers (rhs : Rhs) :
    Covers s (asOperand s.table rhs) [] fun v => v.type = rhs.type := by
  refine (asValue_covers rhs).after fun v hv => ?_
  split
  · exact hv ▸ bind_covers _ v.type
  · exact .pure hv

/-! ## Expressions -/

theorem lowerName_covers (name : String) :
    Covers s (lowerName s.table name) [] fun rhs => s.variableType? name = some rhs.type := by
  refine (lookup_covers name).after fun found hfound => (need_covers _ _).after fun x hx => ?_
  have type := Scope.variableType_of_lookup (hfound.symm.trans hx)
  show Covers s (if x.origin = .field then Pure.pure (Rhs.operation _ _)
    else Pure.pure (Rhs.value _)) _ _
  split
  · exact .pure type
  · exact .pure type

theorem type_lowerBinary (op : BinaryOp) (left right : Value) :
    (lowerBinary op left right).type = op.resultType := by
  simp only [lowerBinary]
  split
  · rcases op.resultType_cases with h | h <;> rw [h] <;> rfl
  · rfl

theorem type_lowerNot (v : Value) : (lowerNot v).type = .boolean := by
  unfold lowerNot
  split <;> rfl

theorem targetClass_covers (target : Expr) :
    Covers s (targetClass? s.table target) [] fun named =>
      named.isSome = target.namesClass s := by
  unfold targetClass? Expr.namesClass
  cases target.asName? with
  | none => exact .pure rfl
  | some name =>
      refine (lookup_covers name).after fun found hfound => .pure ?_
      show _ = (s.lookup name).isNone
      rw [← hfound]
      cases found <;> rfl

theorem Covers.value {m : Lowering Rhs} {f : Value → Lowering β} {type : Ty}
    (hm : Covers s m xs fun rhs => rhs.type = type)
    (hf : ∀ v : Value, v.type = type → Covers s (f v) ys Q') :
    Covers s (m >>= fun rhs => asValue s.table rhs >>= f) (xs ++ ys) Q' :=
  hm.bind fun rhs hr => (asValue_covers rhs).after fun v hv => hf v (hv.trans hr)

theorem Covers.operand {m : Lowering Rhs} {f : Value → Lowering β} {type : Ty}
    (hm : Covers s m xs fun rhs => rhs.type = type)
    (hf : ∀ v : Value, v.type = type → Covers s (f v) ys Q') :
    Covers s (m >>= fun rhs => asOperand s.table rhs >>= f) (xs ++ ys) Q' :=
  hm.bind fun rhs hr => (asOperand_covers rhs).after fun v hv => hf v (hv.trans hr)

/-- The call of a method on a receiver of which the class knows as much as of the target. -/
theorem invoked_covers {tag : Tag} {target : Expr} {method : String} {args : List Expr}
    {expected : Option Ty} {r : Receiver}
    (hr : r.signature? s.table method = Expr.called? s target method)
    (hargs : ∀ params, Covers s (lowerArguments s.table args params)
      (Expr.loweringsIn s args params) fun _ => True) :
    Covers s (do
      let declared := r.signature? s.table method
      let operands ← lowerArguments s.table args ((declared.map (·.params)).getD [])
      let type := callType declared expected
      pure (Rhs.operation
        (.call ⟨r.kind, some r.operand, some method, operands, type.lowered⟩) type))
      (Expr.loweringsIn s args (Expr.expectedParams s target method))
      fun rhs => rhs.type = (Expr.call tag target method args).loweredType s expected := by
  simp only [hr]
  exact (hargs _).andThen fun operands _ => .pure rfl

mutual

theorem lowerRhs_covers : ∀ (e : Expr) (expected : Option Ty),
    Covers s (lowerRhs s.table e expected) (e.lowerings s expected)
      fun rhs => rhs.type = e.loweredType s expected
  | .int .., _ | .bool .., _ | .this _, _ => .self (.pure rfl)
  | .name tag name, expected => by
      refine .self ((lowerName_covers name).mono fun rhs type => ?_)
      rw [Expr.loweredType, type]
      rfl
  | .paren _ inner, expected => .self (lowerRhs_covers inner expected)
  | .binary _ op lhs rhs, expected => by
      refine .self ?_
      rw [lowerRhs]
      refine (lowerRhs_covers lhs _).value fun left _ => ?_
      rw [← List.append_nil (rhs.lowerings s _)]
      refine (lowerRhs_covers rhs _).value fun right _ => ?_
      exact .pure (type_lowerBinary op left right)
  | .not _ operand, expected => by
      refine .self ?_
      rw [lowerRhs, ← List.append_nil (operand.lowerings s _)]
      exact (lowerRhs_covers operand _).value fun v _ => .pure (type_lowerNot v)
  | .index _ array index, expected => by
      refine .self ?_
      rw [lowerRhs]
      refine (lowerRhs_covers array _).operand fun a ha => ?_
      rw [← List.append_nil (index.lowerings s _)]
      refine (lowerRhs_covers index _).operand fun i _ => ?_
      exact .pure (congrArg Ty.element ha)
  | .length _ array, expected => by
      refine .self ?_
      rw [lowerRhs, ← List.append_nil (array.lowerings s _)]
      refine (lowerRhs_covers array _).operand fun a _ => ?_
      exact (bind_covers _ _).after fun v hv => .pure hv
  | .newArray _ size, expected => by
      refine .self ?_
      rw [lowerRhs, ← List.append_nil (size.lowerings s _)]
      refine (lowerRhs_covers size _).operand fun n _ => ?_
      exact (bind_covers _ _).after fun v hv => .pure hv
  | .newObject _ className, expected => by
      refine .self ?_
      rw [lowerRhs, lowerNewObject]
      refine (bind_covers _ _).after fun v hv => (emit_covers _).after fun _ _ => ?_
      exact .pure hv
  | .call tag target method args, expected => by
      refine .self ?_
      rw [lowerRhs]
      have arguments := lowerArguments_covers args
      refine (targetClass_covers target).after fun named hnamed => ?_
      cases named with
      | some name =>
          have names : target.namesClass s = true := hnamed.symm
          rw [names, if_pos rfl]
          refine Covers.after (Q := (· = Receiver.ofClass name)) (.pure rfl) ?_
          rintro _ rfl
          refine invoked_covers ?_ arguments
          rw [Expr.called?, names]
          rfl
      | none =>
          have value : target.namesClass s = false := hnamed.symm
          rw [value, if_neg Bool.false_ne_true]
          refine (lowerRhs_covers target none).operand fun v hv => ?_
          refine Covers.after (Q := (· = Receiver.ofValue v)) (.pure rfl) ?_
          rintro _ rfl
          refine invoked_covers ?_ arguments
          rw [Expr.called?, value, ← hv]
          rfl

theorem lowerArguments_covers : ∀ (args : List Expr) (params : List Symbol),
    Covers s (lowerArguments s.table args params) (Expr.loweringsIn s args params) fun _ => True
  | [], _ => .pure trivial
  | arg :: args, params => by
      rw [lowerArguments]
      refine (lowerRhs_covers arg _).operand fun v _ => ?_
      exact (lowerArguments_covers args _).andThen fun _ _ => .pure trivial

end

theorem lowerValue_covers (e : Expr) (expected : Option Ty) :
    Covers s (lowerValue s.table e expected) (e.lowerings s expected)
      fun v => v.type = e.loweredType s expected :=
  (lowerRhs_covers e expected).andThen fun rhs hr =>
    (asValue_covers rhs).mono fun _ hv => hv.trans hr

theorem lowerOperand_covers (e : Expr) (expected : Option Ty) :
    Covers s (lowerOperand s.table e expected) (e.lowerings s expected)
      fun v => v.type = e.loweredType s expected :=
  (lowerRhs_covers e expected).andThen fun rhs hr =>
    (asOperand_covers rhs).mono fun _ hv => hv.trans hr

/-! ## Statements -/

theorem lowerExprStmt_covers (e : Expr) :
    Covers s (lowerExprStmt s.table e) (e.lowerings s none) fun _ => True := by
  unfold lowerExprStmt
  split
  · exact (lowerRhs_covers e none).andThen fun rhs _ => emit_covers rhs.instruction
  · exact (lowerValue_covers e none).andThen fun _ _ => .pure trivial

theorem lowerAssign_covers (target : String) (value : Expr) :
    Covers s (lowerAssign s.table target value) (value.lowerings s (s.variableType? target))
      fun _ => True := by
  refine (lookup_covers target).after fun found hfound => (need_covers _ _).after fun x hx => ?_
  rw [Scope.variableType_of_lookup (hfound.symm.trans hx)]
  show Covers s (if x.origin = .field then _ else _) _ _
  split
  · exact (lowerOperand_covers value _).andThen fun v _ => emit_covers _
  · exact (lowerRhs_covers value _).andThen fun rhs _ => emit_covers _

theorem lowerAssignElement_covers (target : String) (index value : Expr) :
    Covers s (lowerAssignElement s.table target index value)
      (index.lowerings s (some .int) ++
        value.lowerings s ((s.variableType? target).map (·.element))) fun _ => True := by
  refine (lowerName_covers target).after fun rhs named => ?_
  refine (asValue_covers rhs).after fun array ha => ?_
  rw [named, Option.map_some, ← ha]
  refine (lowerOperand_covers index _).bind fun i _ => ?_
  exact (lowerRhs_covers value _).andThen fun rhs' _ => emit_covers _

theorem lowerReturn_covers (value : Option Expr) :
    Covers s (lowerReturn s.table value)
      ((value.map (·.lowerings s (some s.expectedReturn))).getD []) fun _ => True := by
  have state : Covers s (Emission.state : Lowering Cursor) [] (·.method = s.method) := by
    intro c a c' w same run
    cases run
    exact ⟨same, List.forall_mem_nil _, same⟩
  refine state.after fun c hc => ?_
  rw [hc]
  cases value with
  | none => exact emit_covers _
  | some e => exact (lowerValue_covers e _).andThen fun v _ => emit_covers _

mutual

theorem lowerStmt_covers : ∀ stmt : Stmt,
    Covers s (lowerStmt s.table stmt) (stmt.lowerings s) fun _ => True
  | .block _ body => lowerStmts_covers body
  | .ifThen _ condition thenBranch => by
      rw [lowerStmt]
      refine newLabel_covers.after fun n _ => (lowerValue_covers condition _).bind fun c _ => ?_
      refine (emit_covers _).after fun _ _ => (lowerStmt_covers thenBranch).andThen fun _ _ => ?_
      exact (emit_covers _).after fun _ _ => (emitLabel_covers _).after fun _ _ =>
        emitLabel_covers _
  | .ifElse _ condition thenBranch elseBranch => by
      rw [lowerStmt]
      refine newLabel_covers.after fun n _ => (lowerValue_covers condition _).bind fun c _ => ?_
      refine (emit_covers _).after fun _ _ => (lowerStmt_covers thenBranch).bind fun _ _ => ?_
      refine (emit_covers _).after fun _ _ => (emitLabel_covers _).after fun _ _ => ?_
      exact (lowerStmt_covers elseBranch).andThen fun _ _ => emitLabel_covers _
  | .while _ condition body => by
      rw [lowerStmt]
      refine newLabel_covers.after fun n _ => (emitLabel_covers _).after fun _ _ => ?_
      refine (lowerValue_covers condition _).bind fun c _ => (emit_covers _).after fun _ _ => ?_
      exact (lowerStmt_covers body).andThen fun _ _ => (emit_covers _).after fun _ _ =>
        emitLabel_covers _
  | .expr e => lowerExprStmt_covers e
  | .assign _ target value => lowerAssign_covers target value
  | .assignElement _ target index value => lowerAssignElement_covers target index value
  | .return _ none => lowerReturn_covers none
  | .return _ (some value) => lowerReturn_covers (some value)

theorem lowerStmts_covers : ∀ stmts : List Stmt,
    Covers s (lowerStmts s.table stmts) (Stmt.loweringsIn s stmts) fun _ => True
  | [] => .pure trivial
  | stmt :: stmts => by
      rw [lowerStmts]
      exact (lowerStmt_covers stmt).bind fun _ _ => lowerStmts_covers stmts

end

theorem lowerBody_covers (m : Method) :
    Covers s (lowerBody s.table m) (Stmt.loweringsIn s m.body) fun _ => True := by
  refine (lowerStmts_covers m.body).andThen fun _ _ => ?_
  split
  · exact emit_covers _
  · exact .pure trivial

end Lowering

end JavaMinus
