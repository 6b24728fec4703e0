/-
# What bodies return

The returns among the lines of a lowered body are those of its statements, in the order of the text,
and after them the one that is added if nothing is returned.  Control statements only put labels and
jumps between them, and no expression has a return in its lines (`Shapes.returning`), so it is one
statement alone that has one.

A return leaves the method with an opcode that is told by the operand of the value: the receiver is
a reference, whatever its class is called, and any other value has the type under which it is
lowered, once that is read back.
-/
import JavaMinus.Proofs.Assembly.Lines
import JavaMinus.Proofs.Lowering.Endings

namespace JavaMinus

open Source Assembly

def Scope.returnOpcode (s : Scope) : Option Expr → Opcode
  | none => .returnVoid
  | some e => .returnValue (.ofType (e.operandType s (some s.expectedReturn)))

namespace Source

mutual

def Stmt.returned : Stmt → List (Option Expr)
  | .block _ body => Stmt.returnedIn body
  | .ifThen _ _ thenBranch => thenBranch.returned
  | .ifElse _ _ thenBranch elseBranch => thenBranch.returned ++ elseBranch.returned
  | .while _ _ body => body.returned
  | .return _ value => [value]
  | .expr _ | .assign .. | .assignElement .. => []

def Stmt.returnedIn : List Stmt → List (Option Expr)
  | [] => []
  | stmt :: stmts => stmt.returned ++ Stmt.returnedIn stmts

end

mutual

theorem Stmt.returns_iff : ∀ stmt : Stmt, stmt.returns = !stmt.returned.isEmpty
  | .block _ body => Stmt.anyReturns_iff body
  | .ifThen _ _ thenBranch => thenBranch.returns_iff
  | .ifElse _ _ thenBranch elseBranch => by
      rw [Stmt.returns, Stmt.returned, thenBranch.returns_iff, elseBranch.returns_iff]
      cases thenBranch.returned <;> rfl
  | .while _ _ body => body.returns_iff
  | .return .. | .expr _ | .assign .. | .assignElement .. => rfl

/-- There is a return among the statements exactly if something is returned. -/
theorem Stmt.anyReturns_iff : ∀ stmts : List Stmt,
    Stmt.anyReturns stmts = !(Stmt.returnedIn stmts).isEmpty
  | [] => rfl
  | stmt :: stmts => by
      rw [Stmt.anyReturns, Stmt.returnedIn, stmt.returns_iff, Stmt.anyReturns_iff stmts]
      cases stmt.returned <;> rfl

end

/-- Whether a return is added to what the statements of the method are lowered to. -/
def Method.isCompleted (m : Method) : Bool :=
  !Lowering.endsWithReturn m.body && (m.isMain || m.returnType.isVoid)

end Source

namespace Lowering

variable {α β : Type} {table : SymbolTable} {s : Scope} {method : String}

/-- The opcode of a line that is a return, once it is read back. -/
def Line.return? : Line → Option Opcode
  | .code _ i => Assembly.return? i.readBack
  | .label _ | .text .. => none

theorem Line.return?_of_not_isReturn {l : Line} (h : l.isReturn = false) : l.return? = none := by
  cases l with
  | text | label => rfl
  | code n i =>
      cases i with
      | «return» | returnVoid => cases h
      | assign | binary | unary | single | call | getField | putField | goto | branch => rfl

/-- If the step succeeds in a method, it stays there, and its returns have the opcodes. -/
def Returning (method : String) (m : Lowering α) (ops : List Opcode) : Prop :=
  ∀ c : Cursor, c.method = method → ∀ a c' w, m.run c = ⟨.ok a, c', w⟩ →
    c'.method = method ∧ w.filterMap Line.return? = ops

namespace Returning

variable {m : Lowering α} {f : α → Lowering β} {ops ops' : List Opcode}

theorem pure (a : α) : Returning method (Pure.pure a) [] := by
  intro c hc a' c' w hr
  obtain ⟨-, rfl, rfl⟩ := Emission.run_pure_ok_iff.1 hr
  exact ⟨hc, rfl⟩

theorem andThen (hm : Returning method m ops) (hf : ∀ a, Returning method (f a) ops') :
    Returning method (m >>= f) (ops ++ ops') := by
  intro c hc b c' w hr
  obtain ⟨a, c₁, w₁, w₂, hr₁, hr₂, rfl⟩ := Emission.run_bind_ok_iff.1 hr
  obtain ⟨hc₁, first⟩ := hm c hc a c₁ w₁ hr₁
  obtain ⟨hc₂, second⟩ := hf a c₁ hc₁ b c' w₂ hr₂
  exact ⟨hc₂, by rw [List.filterMap_append, first, second]⟩

theorem of_eq (hm : Returning method m ops) (h : ops = ops') : Returning method m ops' := h ▸ hm

end Returning

theorem Shapes.returning (outside : List String) {labels : List String}
    {ending : Option Ir.Ending} {m : Lowering α} (h : Shapes method outside m ending false labels) :
    Returning method m [] := by
  intro c hc a c' w hr
  obtain ⟨hc', shape, -⟩ := h c hc a c' w hr
  refine ⟨hc', List.filterMap_eq_nil_iff.2 fun l hl => ?_⟩
  have stays := List.any_eq_false.1 shape.returns l hl
  exact Line.return?_of_not_isReturn (Bool.eq_false_iff.2 stays)

theorem newLabel_returning : Returning method newLabel [] := by
  intro c hc a c' w hr
  cases hr
  exact ⟨hc, rfl⟩

theorem emitLabel_returning (label : String) : Returning method (emitLabel label) [] :=
  Shapes.returning [] (emitLabel_shapes label)

theorem goto_returning (label : String) : Returning method (emit (.goto label)) [] :=
  Shapes.returning [label] (goto_shapes List.mem_cons_self)

theorem condition_returning (ht : s.table.Written) {e : Expr} (hn : e.Named) (hi : e.Indexable)
    (label : String) :
    Returning s.method (lowerValue s.table e (some .boolean) >>= fun v => emitUnless v label) [] :=
  Shapes.returning [label] (condition_shapes ht hn hi List.mem_cons_self)

/-- Before its return a statement only has the plain lines of its value. -/
theorem lowerReturn_returning (ht : s.table.Written) {value : Option Expr}
    (hn : ∀ e, value = some e → e.Named) (hi : ∀ e, value = some e → e.Indexable) :
    Returning s.method (lowerReturn s.table value) [s.returnOpcode value] := by
  have state : Returning s.method (Emission.state : Lowering Cursor) [] := by
    intro c hc a c' w hr
    cases hr
    exact ⟨hc, rfl⟩
  intro c hc a c' w hr
  obtain ⟨_, c₁, w₁, w₂, hr₁, hr₂, rfl⟩ := Emission.run_bind_ok_iff.1 hr
  cases hr₁
  rw [hc] at hr₂
  cases value with
  | none =>
      cases hr₂
      exact ⟨hc, rfl⟩
  | some e =>
      have written := written_expected (expectedReturn_written (s := s) ht)
      obtain ⟨v, c₂, w₃, w₄, hr₃, hr₄, rfl⟩ := Emission.run_bind_ok_iff.1 hr₂
      obtain ⟨hc₂, hv, plain, -⟩ :=
        lowerValue_emits ht (hn e rfl) (hi e rfl) written c hc v c₂ w₃ hr₃
      cases hr₄
      have none : w₃.filterMap Line.return? = [] := List.filterMap_eq_nil_iff.2 fun l hl =>
        Line.return?_of_not_isReturn (plain l hl).quiet.2.1
      refine ⟨hc₂, ?_⟩
      rw [List.nil_append, List.filterMap_append, none]
      show [Opcode.returnValue (.ofType v.operand.readBack.type)] = _
      rw [hv.operandType]
      rfl

mutual

theorem lowerStmt_returning (ht : s.table.Written) : ∀ stmt : Stmt, stmt.Named → stmt.Indexable →
    Returning s.method (lowerStmt s.table stmt) (stmt.returned.map s.returnOpcode)
  | .block _ body, hn, hi => lowerStmts_returning ht body hn hi
  | .ifThen _ condition thenBranch, hn, hi => by
      rw [lowerStmt, Stmt.returned]
      refine newLabel_returning.andThen fun n => ?_
      rw [← bind_assoc]
      refine (condition_returning ht hn.1 hi.1 _).andThen fun _ => ?_
      refine ((lowerStmt_returning ht thenBranch hn.2 hi.2).andThen fun _ =>
        (goto_returning _).andThen fun _ => (emitLabel_returning _).andThen fun _ =>
          emitLabel_returning _).of_eq ?_
      exact List.append_nil _
  | .ifElse _ condition thenBranch elseBranch, hn, hi => by
      rw [lowerStmt, Stmt.returned, List.map_append]
      refine newLabel_returning.andThen fun n => ?_
      rw [← bind_assoc]
      refine (condition_returning ht hn.1 hi.1 _).andThen fun _ => ?_
      refine (lowerStmt_returning ht thenBranch hn.2.1 hi.2.1).andThen fun _ => ?_
      refine ((goto_returning _).andThen fun _ => (emitLabel_returning _).andThen fun _ =>
        (lowerStmt_returning ht elseBranch hn.2.2 hi.2.2).andThen fun _ =>
          emitLabel_returning _).of_eq ?_
      exact List.append_nil _
  | .while _ condition body, hn, hi => by
      rw [lowerStmt, Stmt.returned]
      refine newLabel_returning.andThen fun n => ?_
      refine (emitLabel_returning _).andThen fun _ => ?_
      rw [← bind_assoc]
      refine (condition_returning ht hn.1 hi.1 _).andThen fun _ => ?_
      refine ((lowerStmt_returning ht body hn.2 hi.2).andThen fun _ =>
        (goto_returning _).andThen fun _ => emitLabel_returning _).of_eq ?_
      exact List.append_nil _
  | .expr e, hn, hi => Shapes.returning [] (lowerExprStmt_shapes ht hn hi)
  | .assign _ target value, hn, hi => Shapes.returning [] (lowerAssign_shapes ht hn.2 hi)
  | .assignElement _ target index value, hn, hi =>
      Shapes.returning [] (lowerAssignElement_shapes ht hn.1 hn.2.1 hn.2.2 hi.2.1 hi.2.2)
  | .return _ none, _, _ =>
      lowerReturn_returning ht (fun _ h => nomatch h) (fun _ h => nomatch h)
  | .return _ (some value), hn, hi =>
      lowerReturn_returning ht (fun _ h => Option.some.inj h ▸ hn) (fun _ h => Option.some.inj h ▸ hi)

theorem lowerStmts_returning (ht : s.table.Written) : ∀ stmts : List Stmt, Stmt.NamedAll stmts →
    Stmt.IndexableAll stmts →
      Returning s.method (lowerStmts s.table stmts) ((Stmt.returnedIn stmts).map s.returnOpcode)
  | [], _, _ => .pure ()
  | stmt :: stmts, hn, hi => by
      rw [lowerStmts, Stmt.returnedIn, List.map_append]
      exact (lowerStmt_returning ht stmt hn.1 hi.1).andThen fun _ =>
        lowerStmts_returning ht stmts hn.2 hi.2

end

def returnOpcodes (table : SymbolTable) (m : Method) : List Opcode :=
  (Stmt.returnedIn m.body).map (Scope.ofMethod table m).returnOpcode ++
    if m.isCompleted then [.returnVoid] else []

theorem LinesOf.returns {m : Method} {lines : List Line} (ht : table.Written) (hm : m.Named)
    (hi : Stmt.IndexableAll m.body) (h : LinesOf table m lines) :
    lines.filterMap Line.return? = returnOpcodes table m := by
  obtain ⟨n, c', run⟩ := h
  have body := lowerStmts_returning (s := .ofMethod table m) ht m.body hm.body hi
  have due : Returning m.name (if m.isCompleted then emit .returnVoid else pure ())
      (if m.isCompleted then [.returnVoid] else []) := by
    cases m.isCompleted with
    | true =>
        intro c hc a c' w hr
        cases hr
        exact ⟨hc, rfl⟩
    | false => exact .pure ()
  exact (body.andThen (fun _ => due) ⟨n, m.name, 0, 0⟩ rfl () c' lines run).2

theorem bodyOf_return {lines : List Line} : ∀ labels : List String,
    ((bodyOf labels lines).1.filterMap fun l => Assembly.return? l.instruction.readBack) =
      lines.filterMap Line.return? := by
  induction lines with
  | nil => exact fun labels => rfl
  | cons l lines ih =>
      intro labels
      cases l with
      | text n s => exact ih labels
      | label name => exact ih (labels ++ [name])
      | code n i =>
          rw [bodyOf, List.filterMap_cons, List.filterMap_cons, ih []]
          rfl

theorem LoweredTo.returns {m : Method} {u : Ir.Method} (ht : table.Written) (hm : m.Named)
    (hi : Stmt.IndexableAll m.body) (h : LoweredTo table m u) :
    (u.readBack.body.filterMap fun l => Assembly.return? l.instruction) =
      returnOpcodes table m := by
  obtain ⟨lines, linesOf, rfl⟩ := h
  rw [← linesOf.returns ht hm hi, ← bodyOf_return []]
  exact List.filterMap_map

end Lowering

end JavaMinus
