/-
# Methods are lowered apart

One cursor is carried through all methods of a program.  Of what a method leaves in it only the
indentation reaches the next one, since the temporaries, the labels and the current method are set
anew (`lowerMethod_run`), and a step that succeeds leaves the indentation as it was (`Level`).  So
the text of a program is made of the texts that its methods have on their own (`irText_eq`).
-/
import JavaMinus.Proofs.Lowering.Printed

namespace JavaMinus.Lowering

open Source

variable {α β : Type} {table : SymbolTable}

/-! ## Steps that keep the indentation -/

/-- If the step succeeds, the indentation is the same as before. -/
def Level (m : Lowering α) : Prop :=
  ∀ c a c' w, m.run c = ⟨.ok a, c', w⟩ → c'.indent = c.indent

namespace Level

theorem pure (a : α) : Level (pure a) := by
  intro c a' c' w run
  cases run
  rfl

theorem bind {m : Lowering α} {f : α → Lowering β} (hm : Level m) (hf : ∀ a, Level (f a)) :
    Level (m >>= f) := by
  intro c b c' w run
  obtain ⟨a, c₁, w₁, w₂, first, rest, -⟩ := Emission.run_bind_ok_iff.1 run
  exact (hf a c₁ b c' w₂ rest).trans (hm c a c₁ w₁ first)

theorem need (e : Error) (o : Option α) : Level (Emission.need e o) := by
  cases o with
  | none => exact fun _ _ _ _ run => nomatch run
  | some a => exact .pure a

theorem ite {p : Prop} [Decidable p] {m n : Lowering α} (hm : Level m) (hn : Level n) :
    Level (if p then m else n) := by
  split
  · exact hm
  · exact hn

end Level

theorem emit_level (i : Ir.Instruction) : Level (emit i) := by
  rintro c _ _ _ ⟨⟩
  rfl

theorem emitText_level (s : String) : Level (emitText s) := by
  rintro c _ _ _ ⟨⟩
  rfl

theorem emitLabel_level (name : String) : Level (emitLabel name) := by
  rintro c _ _ _ ⟨⟩
  rfl

theorem newLabel_level : Level newLabel := by
  rintro c _ _ _ ⟨⟩
  rfl

theorem lookup_level (name : String) : Level (lookup table name) := by
  rintro c _ _ _ ⟨⟩
  rfl

theorem state_level : Level (Emission.state : Lowering Cursor) := by
  rintro c _ _ _ ⟨⟩
  rfl

theorem beginMethod_level (name : String) : Level (beginMethod name) := by
  rintro c _ _ _ ⟨⟩
  rfl

theorem bind_level (rhs : Ir.Instruction) (type : Ty) : Level (bind table rhs type) := by
  rintro c _ _ _ ⟨⟩
  rfl

theorem asValue_level : ∀ rhs : Rhs, Level (asValue table rhs)
  | .value v => .pure v
  | .operation i type => bind_level i type

theorem asOperand_level (rhs : Rhs) : Level (asOperand table rhs) :=
  (asValue_level rhs).bind fun v => .ite (bind_level _ _) (.pure v)

theorem lowerName_level (name : String) : Level (lowerName table name) :=
  (lookup_level name).bind fun _ => (Level.need _ _).bind fun _ => .ite (.pure _) (.pure _)

theorem lowerNewObject_level (className : String) : Level (lowerNewObject table className) :=
  (bind_level _ _).bind fun _ => (emit_level _).bind fun _ => .pure _

theorem targetClass_level (target : Expr) : Level (targetClass? table target) := by
  unfold targetClass?
  split
  · exact (lookup_level _).bind fun _ => .pure _
  · exact .pure none

mutual

theorem lowerRhs_level : ∀ (e : Expr) (expected : Option Ty), Level (lowerRhs table e expected)
  | .int .., _ | .bool .., _ | .this _, _ => .pure _
  | .name _ name, _ => lowerName_level name
  | .paren _ inner, expected => lowerRhs_level inner expected
  | .binary _ _ lhs rhs, _ => by
      rw [lowerRhs]
      refine (lowerRhs_level lhs _).bind fun _ => (asValue_level _).bind fun _ => ?_
      exact (lowerRhs_level rhs _).bind fun _ => (asValue_level _).bind fun _ => .pure _
  | .not _ operand, _ => by
      rw [lowerRhs]
      exact (lowerRhs_level operand _).bind fun _ => (asValue_level _).bind fun _ => .pure _
  | .index _ array index, _ => by
      rw [lowerRhs]
      refine (lowerRhs_level array _).bind fun _ => (asOperand_level _).bind fun _ => ?_
      exact (lowerRhs_level index _).bind fun _ => (asOperand_level _).bind fun _ => .pure _
  | .length _ array, _ => by
      rw [lowerRhs]
      refine (lowerRhs_level array _).bind fun _ => (asOperand_level _).bind fun _ => ?_
      exact (bind_level _ _).bind fun _ => .pure _
  | .newArray _ size, _ => by
      rw [lowerRhs]
      refine (lowerRhs_level size _).bind fun _ => (asOperand_level _).bind fun _ => ?_
      exact (bind_level _ _).bind fun _ => .pure _
  | .newObject _ className, _ => lowerNewObject_level className
  | .call _ target method args, _ => by
      rw [lowerRhs]
      have rest (receiver : Receiver) (params : List Symbol) (type : Ty) : Level (do
          let operands ← lowerArguments table args params
          Pure.pure (.operation (.call ⟨receiver.kind, some receiver.operand, some method, operands,
            type.lowered⟩) type : Rhs)) :=
        (lowerArguments_level args params).bind fun _ => .pure _
      refine (targetClass_level target).bind fun named => ?_
      cases named with
      | some name => exact (Level.pure _).bind fun _ => rest _ _ _
      | none =>
          refine (lowerRhs_level target none).bind fun _ => (asOperand_level _).bind fun v => ?_
          exact (Level.pure _).bind fun _ => rest _ _ _

theorem lowerArguments_level : ∀ (args : List Expr) (params : List Symbol),
    Level (lowerArguments table args params)
  | [], _ => .pure _
  | arg :: args, params => by
      rw [lowerArguments]
      refine (lowerRhs_level arg _).bind fun _ => (asOperand_level _).bind fun _ => ?_
      exact (lowerArguments_level args _).bind fun _ => .pure _

end

theorem lowerValue_level (e : Expr) (expected : Option Ty) : Level (lowerValue table e expected) :=
  (lowerRhs_level e expected).bind asValue_level

theorem lowerOperand_level (e : Expr) (expected : Option Ty) :
    Level (lowerOperand table e expected) :=
  (lowerRhs_level e expected).bind asOperand_level

theorem lowerExprStmt_level (e : Expr) : Level (lowerExprStmt table e) :=
  .ite ((lowerRhs_level e none).bind fun _ => emit_level _)
    ((lowerValue_level e none).bind fun _ => .pure _)

theorem lowerAssign_level (target : String) (value : Expr) :
    Level (lowerAssign table target value) := by
  refine (lookup_level target).bind fun _ => (Level.need _ _).bind fun _ => .ite ?_ ?_
  · exact (lowerOperand_level value _).bind fun _ => emit_level _
  · exact (lowerRhs_level value _).bind fun _ => emit_level _

theorem lowerAssignElement_level (target : String) (index value : Expr) :
    Level (lowerAssignElement table target index value) := by
  refine (lowerName_level target).bind fun _ => (asValue_level _).bind fun _ => ?_
  refine (lowerOperand_level index _).bind fun _ => ?_
  exact (lowerRhs_level value _).bind fun _ => emit_level _

theorem lowerReturn_level (value : Option Expr) : Level (lowerReturn table value) := by
  refine state_level.bind fun _ => ?_
  cases value with
  | none => exact emit_level _
  | some e => exact (lowerValue_level e _).bind fun _ => emit_level _

mutual

theorem lowerStmt_level : ∀ stmt : Stmt, Level (lowerStmt table stmt)
  | .block _ body => lowerStmts_level body
  | .ifThen _ condition thenBranch => by
      rw [lowerStmt]
      refine newLabel_level.bind fun _ => (lowerValue_level condition _).bind fun _ => ?_
      refine (emit_level _).bind fun _ => (lowerStmt_level thenBranch).bind fun _ => ?_
      exact (emit_level _).bind fun _ => (emitLabel_level _).bind fun _ => emitLabel_level _
  | .ifElse _ condition thenBranch elseBranch => by
      rw [lowerStmt]
      refine newLabel_level.bind fun _ => (lowerValue_level condition _).bind fun _ => ?_
      refine (emit_level _).bind fun _ => (lowerStmt_level thenBranch).bind fun _ => ?_
      refine (emit_level _).bind fun _ => (emitLabel_level _).bind fun _ => ?_
      exact (lowerStmt_level elseBranch).bind fun _ => emitLabel_level _
  | .while _ condition body => by
      rw [lowerStmt]
      refine newLabel_level.bind fun _ => (emitLabel_level _).bind fun _ => ?_
      refine (lowerValue_level condition _).bind fun _ => (emit_level _).bind fun _ => ?_
      exact (lowerStmt_level body).bind fun _ => (emit_level _).bind fun _ => emitLabel_level _
  | .expr e => lowerExprStmt_level e
  | .assign _ target value => lowerAssign_level target value
  | .assignElement _ target index value => lowerAssignElement_level target index value
  | .return _ value => lowerReturn_level value

theorem lowerStmts_level : ∀ stmts : List Stmt, Level (lowerStmts table stmts)
  | [] => .pure ()
  | stmt :: stmts => (lowerStmt_level stmt).bind fun _ => lowerStmts_level stmts

end

theorem lowerBody_level (m : Source.Method) : Level (lowerBody table m) :=
  (lowerStmts_level m.body).bind fun _ => .ite (emit_level _) (.pure ())

/-- Inside the braces of a block the indentation is one deeper, and behind them it is as before. -/
theorem emitBlock_level (head : String) {body : Lowering Unit} (h : Level body) :
    Level (emitBlock head body) := by
  refine (emitText_level head).bind fun _ => Level.bind ?_ fun _ => emitText_level _
  intro c _ c' w run
  obtain ⟨_, c₁, _, _, deeper, run, -⟩ := Emission.run_bind_ok_iff.1 run
  obtain ⟨_, c₂, w₂, _, inside, back, -⟩ := Emission.run_bind_ok_iff.1 run
  have same := h c₁ _ c₂ w₂ inside
  cases deeper
  cases back
  show c₂.indent - 1 = c.indent
  rw [same]
  exact Nat.add_sub_cancel c.indent 1

theorem lowerMethod_level (m : Source.Method) : Level (lowerMethod table m) :=
  (beginMethod_level m.name).bind fun _ => emitBlock_level _ (lowerBody_level m)

theorem lowerMethods_level : ∀ methods : List Source.Method, Level (lowerMethods table methods)
  | [] => .pure ()
  | m :: methods => (emitText_level "").bind fun _ => (lowerMethod_level m).bind fun _ =>
      lowerMethods_level methods

theorem lowerMembers_level (methods : List Source.Method) : Level (lowerMembers table methods) := by
  have texts : ∀ ss, Level (emitTexts ss) := by
    intro ss c a c' w run
    rw [emitTexts_run] at run
    cases run
    rfl
  refine (texts _).bind fun _ => (emitText_level _).bind fun _ => ?_
  exact (emitBlock_level _ (emit_level _)).bind fun _ => lowerMethods_level methods

/-! ## What is printed -/

/-- The text that a step prints from a state, if it succeeds. -/
def printed (m : Lowering Unit) (c : Cursor) : Except Error String :=
  (m.run c).outcome.map fun () => Line.renderAll (m.run c).written

/-- Two steps print what the first one prints and then what the second one does. -/
theorem printed_bind (m n : Lowering Unit) (c : Cursor) :
    printed (m >>= fun _ => n) c =
      (printed m c >>= fun before => (printed n (m.run c).state).map (before ++ ·)) := by
  rw [printed, printed, Emission.run_bind]
  cases (m.run c).outcome with
  | error e => rfl
  | ok a =>
      show ((n.run (m.run c).state).outcome.map fun _ => _) =
        (printed n (m.run c).state).map (Line.renderAll (m.run c).written ++ ·)
      rw [printed]
      cases (n.run (m.run c).state).outcome with
      | error e => rfl
      | ok b => exact congrArg Except.ok (renderAll_append _ _)

/-- After a step that leaves the state alone the next one starts from it. -/
theorem printed_after {m : Lowering Unit} {lines : List Line} {c : Cursor}
    (h : m.run c = ⟨.ok (), c, lines⟩) (n : Lowering Unit) :
    printed (m >>= fun _ => n) c = (printed n c).map (Line.renderAll lines ++ ·) := by
  rw [printed_bind, printed, h]
  rfl

/-- A block prints its head, what is inside one level deeper, and the brace that closes it. -/
theorem printed_block (head : String) {body : Lowering Unit} (h : Level body) (c : Cursor) :
    printed (emitBlock head body) c =
      (printed body { c with indent := c.indent + 1 }).map fun inside =>
        (Line.text c.indent head).render ++ (inside ++ (Line.text c.indent "\x7d").render) := by
  rw [emitBlock, printed_after (emitText_run head c), printed]
  rcases run : body.run { c with indent := c.indent + 1 } with ⟨outcome, c', lines⟩
  simp only [printed, indented, setIndent, Emission.run_bind, Emission.run_modifyState, run]
  cases outcome with
  | error e => rfl
  | ok a =>
      have back : c'.indent - 1 = c.indent :=
        (congrArg (· - 1) (h _ a c' lines run)).trans (Nat.add_sub_cancel c.indent 1)
      have nothing : Line.renderAll [] = "" := rfl
      rw [emitText_run]
      simp only [Except.map, List.nil_append, List.append_nil, renderAll_cons, renderAll_append,
        nothing, String.append_empty, back]

/-! ## The text of a program -/

/-- The state of a fresh generator at an indentation. -/
def Cursor.fresh (indent : Nat) : Cursor := { Cursor.start with indent := indent }

/-- The text of a method on its own, as a member of a class. -/
def methodText (table : SymbolTable) (m : Source.Method) : Except Error String :=
  printed (lowerMethod table m) (.fresh 1)

/-- The lines of the class up to its methods. -/
def membersBefore (table : SymbolTable) : List Line :=
  table.fields.map (fun f => .text 1 (fieldOf f).text) ++
    [.text 1 "", .text 1 (constructorHead table).headText, .code 2 superCall, .text 1 "\x7d"]

def importLines (table : SymbolTable) : List Line :=
  table.imports.map (fun path => .text 0 (Ir.importText path)) ++
    if table.imports.isEmpty then [] else [.text 0 ""]

/-- The text of a class from the texts of its methods; the rest depends on the symbol table alone. -/
def unitText (table : SymbolTable) (methods : List String) : String :=
  Line.renderAll (importLines table ++ .text 0 (classHead table).headText :: membersBefore table) ++
    (String.join (methods.map ("\n" ++ ·)) ++ "\x7d\n")

/-- A method starts afresh: of the state before it only the indentation counts. -/
theorem lowerMethod_run (m : Source.Method) (c : Cursor) :
    (lowerMethod table m).run c = (lowerMethod table m).run (.fresh c.indent) :=
  rfl

theorem printed_methods (methods : List Source.Method) : ∀ c : Cursor, c.indent = 1 →
    printed (lowerMethods table methods) c =
      (methods.mapM (methodText table)).map fun texts => String.join (texts.map ("\n" ++ ·)) := by
  induction methods with
  | nil => exact fun _ _ => rfl
  | cons m methods ih =>
      intro c hc
      have alone : methodText table m = printed (lowerMethod table m) c := by
        rw [printed, lowerMethod_run m c, hc]
        rfl
      rw [lowerMethods, printed_after (emitText_run "" c), printed_bind, List.mapM_cons, alone,
        printed]
      rcases run : (lowerMethod table m).run c with ⟨outcome, c', lines⟩
      cases outcome with
      | error e => rfl
      | ok a =>
          have more := ih c' ((lowerMethod_level m c a c' lines run).trans hc)
          show ((printed (lowerMethods table methods) c').map _).map _ = _
          rw [more]
          cases methods.mapM (methodText table) with
          | error e => rfl
          | ok texts =>
              refine congrArg Except.ok ?_
              show Line.renderAll [.text c.indent ""] ++ (Line.renderAll lines ++ _) =
                String.join (("\n" ++ Line.renderAll lines) :: _)
              rw [renderAll_emptyLine, String.join_cons, String.append_assoc]
              rfl

/-- The members of the class print what stands before the methods, and then the methods. -/
theorem printed_members (methods : List Source.Method) :
    printed (lowerMembers table methods) (.fresh 1) =
      (methods.mapM (methodText table)).map fun texts =>
        Line.renderAll (membersBefore table) ++ String.join (texts.map ("\n" ++ ·)) := by
  have constructor : (emitBlock (constructorHead table).headText (emit superCall)).run (.fresh 1) =
      ⟨.ok (), .fresh 1, [.text 1 (constructorHead table).headText, .code 2 superCall,
        .text 1 "\x7d"]⟩ := rfl
  rw [lowerMembers, printed_after (emitTexts_run _ _), printed_after (emitText_run _ _),
    printed_after constructor, printed_methods _ _ rfl, membersBefore]
  cases methods.mapM (methodText table) with
  | error e => rfl
  | ok texts =>
      simp only [Except.map, renderAll_append, renderAll_emptyLine, List.map_map,
        String.append_assoc]
      rfl

theorem printed_class (methods : List Source.Method) :
    printed (emitBlock (classHead table).headText (lowerMembers table methods)) .start =
      (methods.mapM (methodText table)).map fun texts =>
        Line.renderAll (.text 0 (classHead table).headText :: membersBefore table) ++
          (String.join (texts.map ("\n" ++ ·)) ++ "\x7d\n") := by
  rw [printed_block _ (lowerMembers_level methods), renderAll_cons]
  show (printed (lowerMembers table methods) (.fresh 1)).map _ = _
  rw [printed_members methods]
  cases methods.mapM (methodText table) with
  | error e => rfl
  | ok texts =>
      simp only [Except.map, String.append_assoc]
      rfl

theorem printed_afterImports (m : Lowering Unit) :
    printed (if table.imports.isEmpty then pure () >>= fun _ => m else emitText "" >>= fun _ => m)
      .start = (printed m .start).map
        (Line.renderAll (if table.imports.isEmpty then [] else [.text 0 ""]) ++ ·) := by
  split
  · exact printed_after rfl m
  · exact printed_after (emitText_run "" .start) m

/-- The text of a program is made of the texts that its methods have on their own. -/
theorem irText_eq (table : SymbolTable) (p : Program) :
    irText table p = (p.methods.mapM (methodText table)).map (unitText table) := by
  show printed (lowerProgram table p) .start = _
  rw [lowerProgram, printed_after (emitTexts_run _ _)]
  refine (congrArg _ (printed_afterImports _)).trans ?_
  rw [printed_class]
  cases p.methods.mapM (methodText table) with
  | error e => rfl
  | ok texts =>
      refine congrArg Except.ok ?_
      simp only [unitText, importLines, renderAll_append, List.map_map, String.append_assoc]
      rfl

end JavaMinus.Lowering
