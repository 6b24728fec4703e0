/-
# How bodies end

The last line of a lowered body, whether a return is among its lines, and that the labels which its
lines jump to stand in it.  A conditional statement or a loop ends with a label, also where both of its
branches return.
-/
import JavaMinus.Proofs.Assembly.Flow
import JavaMinus.Proofs.Lowering.Printed
import JavaMinus.Proofs.Lowering.Silent

namespace JavaMinus

namespace Ir

def Instruction.isReturn : Instruction → Bool
  | .return .. | .returnVoid => true
  | _ => false

/-- The kinds of last lines: one that never goes on at the next line, a label, or any other. -/
inductive Ending where
  | leave
  | label
  | other
deriving DecidableEq, Repr

def Instruction.ending : Instruction → Ending
  | .return .. | .returnVoid | .goto _ => .leave
  | _ => .other

theorem Instruction.isReturn_readBack (i : Instruction) : i.readBack.isReturn = i.isReturn := by
  cases i <;> rfl

theorem Instruction.ending_readBack (i : Instruction) : i.readBack.ending = i.ending := by
  cases i <;> rfl

end Ir

namespace Lowering

open Source
open Ir (Ending)

def Line.ending : Line → Ending
  | .code _ i => i.ending
  | .label _ => .label
  | .text .. => .other

def Line.isReturn : Line → Bool
  | .code _ i => i.isReturn
  | .label _ | .text .. => false

/-- The labels that the line jumps to. -/
def Line.targets : Line → List String
  | .code _ i => i.readBack.targets
  | .label _ | .text .. => []

/-- The ending of lines, whether one of them is a return, and the labels outside of them that they
jump to, if any. -/
structure Shape (outside : List String) (w : List Line) (ending : Option Ending) (returns : Bool) :
    Prop where
  last : w.getLast?.map Line.ending = ending
  returns : w.any Line.isReturn = returns
  targets : ∀ l ∈ w, ∀ name ∈ l.targets, name ∈ outside ∨ .label name ∈ w

end Lowering

namespace Source

open Lowering
open Ir (Ending)

mutual

def Stmt.returns : Stmt → Bool
  | .block _ body => Stmt.anyReturns body
  | .ifThen _ _ thenBranch => thenBranch.returns
  | .ifElse _ _ thenBranch elseBranch => thenBranch.returns || elseBranch.returns
  | .while _ _ body => body.returns
  | .return .. => true
  | .expr _ | .assign .. | .assignElement .. => false

def Stmt.anyReturns : List Stmt → Bool
  | [] => false
  | stmt :: stmts => stmt.returns || Stmt.anyReturns stmts

end

mutual

/-- What the last line of the statement is, if it has lines. -/
def Stmt.ending? (s : Scope) : Stmt → Option Ending
  | .block _ body => Stmt.endingIn? s body
  | .ifThen .. | .ifElse .. | .while .. => some .label
  | .expr e => if (silentValue? s e).isSome then none else some .other
  | .assign .. | .assignElement .. => some .other
  | .return .. => some .leave

/-- What the last line of the statements is, if they have lines. -/
def Stmt.endingIn? (s : Scope) : List Stmt → Option Ending
  | [] => none
  | stmt :: stmts => (Stmt.endingIn? s stmts).or (stmt.ending? s)

end

/-- What the last line of the method is, if it has lines. -/
def Method.ending? (s : Scope) (m : Method) : Option Ending :=
  if m.isMain || m.returnType.isVoid then some .leave else Stmt.endingIn? s m.body

/-- Whether the lines of the method have a return among them. -/
def Method.returns (m : Method) : Bool :=
  m.isMain || m.returnType.isVoid || Stmt.anyReturns m.body

end Source

namespace Lowering

open Source
open Ir (Ending)

variable {α β : Type} {table : SymbolTable} {s : Scope} {w w' : List Line}

/-! ## Shapes -/

theorem targets_of_formedRight {i : Ir.Instruction} (h : i.FormedRight) : i.targets = [] := by
  cases i with
  | binary | unary | single | getField | call => rfl
  | assign | putField | goto | branch | «return» | returnVoid => exact h.elim

theorem targets_of_assign {n : Nat} {dest : Ir.Element} {t : Ir.ElementType}
    {rhs : Ir.Instruction} (h : rhs.readBack.FormedRight) :
    (Line.code n (.assign dest t rhs)).targets = [] :=
  show rhs.readBack.targets = [] from targets_of_formedRight h

/-- A plain line does not end anything and does not jump. -/
theorem Line.Plain.quiet {l : Line} (h : l.Plain) :
    l.ending = .other ∧ l.isReturn = false ∧ l.targets = [] := by
  obtain ⟨sound, plain⟩ := h
  cases l with
  | text | label => cases plain
  | code n i =>
      cases i with
      | assign dest t rhs => exact ⟨rfl, rfl, targets_of_assign sound.2.2⟩
      | call => exact ⟨rfl, rfl, rfl⟩
      | binary | unary | single | getField | putField | goto | branch | «return» | returnVoid =>
          cases plain

namespace Shape

variable {outside : List String} {ending ending' : Option Ending} {returns returns' : Bool}

theorem nil : Shape outside [] none false := ⟨rfl, rfl, List.forall_mem_nil _⟩

theorem line (l : Line) (h : ∀ name ∈ l.targets, name ∈ outside ∨ .label name = l) :
    Shape outside [l] (some l.ending) l.isReturn where
  last := rfl
  returns := Bool.or_false _
  targets := List.forall_mem_singleton.2 fun name hn =>
    (h name hn).imp_right List.mem_singleton.2

theorem append (h : Shape outside w ending returns) (h' : Shape outside w' ending' returns') :
    Shape outside (w ++ w') (ending'.or ending) (returns || returns') where
  last := by
    rw [List.getLast?_append, ← h.last, ← h'.last]
    cases w'.getLast? <;> rfl
  returns := by rw [List.any_append, h.returns, h'.returns]
  targets := List.forall_mem_append.2
    ⟨fun l hl name hn => (h.targets l hl name hn).imp_right (List.mem_append_left _),
      fun l hl name hn => (h'.targets l hl name hn).imp_right (List.mem_append_right _)⟩

theorem plain (h : ∀ l ∈ w, l.Plain) :
    Shape outside w (if w = [] then none else some .other) false where
  last := by
    cases hw : w.getLast? with
    | none => rw [if_pos (List.getLast?_eq_none_iff.1 hw)]; rfl
    | some l =>
        have some_ : w ≠ [] := by
          rintro rfl
          cases hw
        rw [if_neg some_, Option.map_some, (h l (List.mem_of_getLast? hw)).quiet.1]
  returns := List.any_eq_false.2 fun l hl => by rw [(h l hl).quiet.2.1]; exact Bool.false_ne_true
  targets := by
    intro l hl name hn
    rw [(h l hl).quiet.2.2] at hn
    cases hn

/-- The labels outside are not outside any more if they are among the lines. -/
theorem close (h : Shape outside w ending returns) (hw : ∀ name ∈ outside, .label name ∈ w)
    (outside' : List String) : Shape outside' w ending returns where
  last := h.last
  returns := h.returns
  targets l hl name hn := .inr ((h.targets l hl name hn).elim (hw name) id)

end Shape

/-- If the step succeeds in a method, it stays there, its lines have the shape, and the labels stand
among them. -/
def Shapes (method : String) (outside : List String) (m : Lowering α) (ending : Option Ending)
    (returns : Bool) (labels : List String) : Prop :=
  ∀ c : Cursor, c.method = method → ∀ a c' w, m.run c = ⟨.ok a, c', w⟩ →
    c'.method = method ∧ Shape outside w ending returns ∧ ∀ name ∈ labels, .label name ∈ w

namespace Shapes

variable {method : String} {outside labels labels' : List String} {ending ending' : Option Ending}
  {returns returns' : Bool} {m : Lowering α} {f : α → Lowering β}

theorem andThen (hm : Shapes method outside m ending returns labels)
    (hf : ∀ a, Shapes method outside (f a) ending' returns' labels') :
    Shapes method outside (m >>= f) (ending'.or ending) (returns || returns') (labels ++ labels') := by
  intro c hc b c' w hr
  obtain ⟨a, c₁, w₁, w₂, hr₁, hr₂, rfl⟩ := Emission.run_bind_ok_iff.1 hr
  obtain ⟨hc₁, first, named⟩ := hm c hc a c₁ w₁ hr₁
  obtain ⟨hc₂, second, named'⟩ := hf a c₁ hc₁ b c' w₂ hr₂
  exact ⟨hc₂, first.append second, List.forall_mem_append.2
    ⟨fun name hn => List.mem_append_left _ (named name hn),
      fun name hn => List.mem_append_right _ (named' name hn)⟩⟩

/-- A step whose jumps to labels outside find them among its own lines. -/
theorem close (hm : Shapes method outside m ending returns labels)
    (h : ∀ name ∈ outside, name ∈ labels) (outside' : List String) :
    Shapes method outside' m ending returns [] := by
  intro c hc a c' w hr
  obtain ⟨hc', shape, named⟩ := hm c hc a c' w hr
  exact ⟨hc', shape.close (fun name hn => named name (h name hn)) outside', List.forall_mem_nil _⟩

theorem of_eq (hm : Shapes method outside m ending returns labels) (he : ending = ending')
    (hr : returns = returns') : Shapes method outside m ending' returns' labels :=
  he ▸ hr ▸ hm

end Shapes

/-! ## Single lines -/

variable {method : String} {outside : List String}

theorem emit_shapes {i : Ir.Instruction} (ht : ∀ name ∈ i.readBack.targets, name ∈ outside) :
    Shapes method outside (emit i) (some i.ending) i.isReturn [] := by
  intro c hc a c' w hr
  rw [emit_run] at hr
  cases hr
  exact ⟨hc, .line _ fun name hn => .inl (ht name hn), List.forall_mem_nil _⟩

theorem emitLabel_shapes (label : String) :
    Shapes method outside (emitLabel label) (some .label) false [label] := by
  intro c hc a c' w hr
  cases hr
  exact ⟨hc, .line _ (List.forall_mem_nil _), List.forall_mem_singleton.2 List.mem_cons_self⟩

theorem goto_shapes {label : String} (h : label ∈ outside) :
    Shapes method outside (emit (.goto label)) (some .leave) false [] :=
  emit_shapes (List.forall_mem_singleton.2 h)

theorem Emits.shapes {owes : α → List Ir.Use} {us : List Ir.Use} {Q : α → Prop} {m : Lowering α}
    {f : α → Lowering Unit} {ending : Ending} {returns : Bool} {labels : List String}
    (hm : Emits method Line.Plain m owes us Q)
    (hf : ∀ a, Q a → Shapes method outside (f a) (some ending) returns labels) :
    Shapes method outside (m >>= f) (some ending) returns labels := by
  intro c hc b c' w hr
  obtain ⟨a, c₁, w₁, w₂, hr₁, hr₂, rfl⟩ := Emission.run_bind_ok_iff.1 hr
  obtain ⟨hc₁, ha, plain, -⟩ := hm c hc a c₁ w₁ hr₁
  obtain ⟨hc₂, shape, named⟩ := hf a ha c₁ hc₁ b c' w₂ hr₂
  exact ⟨hc₂, (Shape.plain plain).append shape,
    fun name hn => List.mem_append_right _ (named name hn)⟩

/-! ## Statements -/

theorem condition_shapes (ht : s.table.Written) {e : Expr} (hn : e.Named) (hi : e.Indexable)
    {label : String} (hl : label ∈ outside) :
    Shapes s.method outside (lowerValue s.table e (some .boolean) >>= fun v => emitUnless v label)
      (some .other) false [] :=
  (lowerValue_emits ht hn hi (written_expected Ty.written_boolean)).shapes fun _ _ =>
    emit_shapes (List.forall_mem_singleton.2 hl)

theorem Rhs.Sound.formed {rhs : Rhs} (h : rhs.Sound) : rhs.instruction.readBack.FormedRight := by
  cases rhs with
  | value v => exact h.operand.loads
  | operation i type => exact h.2.1

theorem assign_shapes {dest : Ir.Element} {t : Ir.ElementType} {rhs : Rhs} (h : rhs.Sound) :
    Shapes method outside (emit (.assign dest t rhs.instruction)) (some .other) false [] := by
  refine emit_shapes ?_
  show ∀ name ∈ rhs.instruction.readBack.targets, name ∈ outside
  rw [targets_of_formedRight h.formed]
  exact List.forall_mem_nil _

theorem lowerExprStmt_shapes (ht : s.table.Written) {e : Expr} (hn : e.Named) (hi : e.Indexable) :
    Shapes s.method outside (lowerExprStmt s.table e)
      (if (silentValue? s e).isSome then none else some .other) false [] := by
  unfold lowerExprStmt
  intro c hc a c' w hr
  split at hr
  · rename_i call
    obtain ⟨rhs, c₁, w₁, w₂, run₁, run₂, rfl⟩ := Emission.run_bind_ok_iff.1 hr
    obtain ⟨hc₁, left, plain, -⟩ := lowerRhs_emits ht e false hn hi untyped c hc _ _ _ run₁
    have silent := lowerRhs_silent ht e hn hi untyped hc run₁
    obtain ⟨i, t, rfl⟩ := left.call call
    rw [emit_run] at run₂
    cases run₂
    have none : silentValue? s e = none := by
      rw [silent, ifSilent]
      split <;> rfl
    rw [none]
    exact ⟨hc₁, (Shape.plain plain).append (.line _ (List.forall_mem_nil _)), List.forall_mem_nil _⟩
  · obtain ⟨v, c₁, w₁, w₂, run₁, run₂, rfl⟩ := Emission.run_bind_ok_iff.1 hr
    obtain ⟨-, rfl, rfl⟩ := Emission.run_pure_ok_iff.1 run₂
    obtain ⟨hc₁, -, plain, -⟩ := lowerValue_emits ht hn hi untyped c hc _ _ _ run₁
    have whole : Shape outside _ _ _ := Shape.plain plain
    rw [lowerValue_silent ht hn hi untyped hc run₁, List.append_nil, ifSilent]
    refine ⟨hc₁, ?_, List.forall_mem_nil _⟩
    by_cases none : w₁ = []
    · rw [if_pos none] at whole ⊢
      exact whole
    · rw [if_neg none] at whole ⊢
      exact whole

theorem lowerAssign_shapes (ht : s.table.Written) {target : String} {value : Expr}
    (hn : value.Named) (hi : value.Indexable) :
    Shapes s.method outside (lowerAssign s.table target value) (some .other) false [] := by
  refine (lookup_emits target).shapes fun found hfound => ?_
  refine need_emits.shapes fun x hx => ?_
  have there : s.table.lookup s.method target = some x := by rw [← hfound, hx]
  have written := written_expected (SymbolTable.written_of_lookup ht there)
  show Shapes _ _ (if x.origin = .field then _ else _) _ _ _
  split
  · exact (lowerOperand_emits ht hn hi written).shapes fun _ _ =>
      emit_shapes (List.forall_mem_nil _)
  · exact (lowerRhs_emits ht value true hn hi written).shapes fun _ h => assign_shapes h.sound

theorem lowerAssignElement_shapes (ht : s.table.Written) {target : String} {index value : Expr}
    (ha : IsName target) (hn : index.Named) (hn' : value.Named) (hi : index.Indexable)
    (hi' : value.Indexable) :
    Shapes s.method outside (lowerAssignElement s.table target index value) (some .other) false
      [] := by
  have array := @lowerName_emits s true default target none ht ha
  refine array.shapes fun named hnamed => ?_
  refine (asValue_emits hnamed.1).shapes fun a h => ?_
  refine (lowerOperand_emits ht hn hi (written_expected Ty.written_int)).shapes fun i _ => ?_
  have written := written_expected h.sound.type.element
  exact (lowerRhs_emits ht value true hn' hi' written).shapes fun _ h' => assign_shapes h'.sound

theorem lowerReturn_shapes (ht : s.table.Written) {value : Option Expr}
    (hn : ∀ e, value = some e → e.Named) (hi : ∀ e, value = some e → e.Indexable) :
    Shapes s.method outside (lowerReturn s.table value) (some .leave) true [] := by
  refine state_emits.shapes fun c hc => ?_
  rw [hc]
  cases value with
  | none => exact emit_shapes (List.forall_mem_nil _)
  | some e =>
      have written := written_expected (expectedReturn_written ht)
      exact (lowerValue_emits ht (hn e rfl) (hi e rfl) written).shapes fun _ _ =>
        emit_shapes (List.forall_mem_nil _)

mutual

theorem lowerStmt_shapes (ht : s.table.Written) : ∀ (stmt : Stmt), stmt.Named → stmt.Indexable →
    ∀ outside, Shapes s.method outside (lowerStmt s.table stmt) (stmt.ending? s) stmt.returns []
  | .block _ body, hn, hi, outside => lowerStmts_shapes ht body hn hi outside
  | .ifThen _ condition thenBranch, hn, hi, outside => by
      rw [lowerStmt, Stmt.ending?]
      refine newLabel_emits.shapes fun n _ => ?_
      rw [← bind_assoc]
      have own : Shapes s.method [labelName "Else" n, labelName "EndIf" n] _ (some .label)
          (false || (thenBranch.returns || false)) [labelName "Else" n, labelName "EndIf" n] :=
        (condition_shapes ht hn.1 hi.1 List.mem_cons_self).andThen fun _ =>
          (lowerStmt_shapes ht thenBranch hn.2 hi.2 _).andThen fun _ =>
            (goto_shapes (List.mem_cons_of_mem _ List.mem_cons_self)).andThen fun _ =>
              (emitLabel_shapes _).andThen fun _ => emitLabel_shapes _
      exact (own.close (fun _ h => h) outside).of_eq rfl (Bool.or_false _)
  | .ifElse _ condition thenBranch elseBranch, hn, hi, outside => by
      rw [lowerStmt, Stmt.ending?]
      refine newLabel_emits.shapes fun n _ => ?_
      rw [← bind_assoc]
      have own : Shapes s.method [labelName "Else" n, labelName "EndIf" n] _ (some .label)
          (false || (thenBranch.returns || (elseBranch.returns || false)))
          [labelName "Else" n, labelName "EndIf" n] :=
        (condition_shapes ht hn.1 hi.1 List.mem_cons_self).andThen fun _ =>
          (lowerStmt_shapes ht thenBranch hn.2.1 hi.2.1 _).andThen fun _ =>
            (goto_shapes (List.mem_cons_of_mem _ List.mem_cons_self)).andThen fun _ =>
              (emitLabel_shapes _).andThen fun _ =>
                (lowerStmt_shapes ht elseBranch hn.2.2 hi.2.2 _).andThen fun _ => emitLabel_shapes _
      refine (own.close (fun _ h => h) outside).of_eq rfl ?_
      exact congrArg (thenBranch.returns || ·) (Bool.or_false _)
  | .while _ condition body, hn, hi, outside => by
      rw [lowerStmt, Stmt.ending?]
      refine newLabel_emits.shapes fun n _ => ?_
      have own : Shapes s.method [labelName "Loop" n, labelName "EndLoop" n]
          (emitLabel (labelName "Loop" n) >>= fun _ =>
            (lowerValue s.table condition (some .boolean) >>= fun v =>
              emitUnless v (labelName "EndLoop" n)) >>= fun _ => _) (some .label)
          (false || (false || (body.returns || false)))
          [labelName "Loop" n, labelName "EndLoop" n] :=
        (emitLabel_shapes _).andThen fun _ =>
          (condition_shapes ht hn.1 hi.1 (List.mem_cons_of_mem _ List.mem_cons_self)).andThen fun _ =>
            (lowerStmt_shapes ht body hn.2 hi.2 _).andThen fun _ =>
              (goto_shapes List.mem_cons_self).andThen fun _ => emitLabel_shapes _
      simp only [bind_assoc] at own
      exact (own.close (fun _ h => h) outside).of_eq rfl (Bool.or_false _)
  | .expr e, hn, hi, _ => lowerExprStmt_shapes ht hn hi
  | .assign _ target value, hn, hi, _ => lowerAssign_shapes ht hn.2 hi
  | .assignElement _ target index value, hn, hi, _ =>
      lowerAssignElement_shapes ht hn.1 hn.2.1 hn.2.2 hi.2.1 hi.2.2
  | .return _ none, _, _, _ => lowerReturn_shapes ht (fun _ h => nomatch h) (fun _ h => nomatch h)
  | .return _ (some value), hn, hi, _ =>
      lowerReturn_shapes ht (fun _ h => Option.some.inj h ▸ hn) (fun _ h => Option.some.inj h ▸ hi)

theorem lowerStmts_shapes (ht : s.table.Written) : ∀ (stmts : List Stmt), Stmt.NamedAll stmts →
    Stmt.IndexableAll stmts → ∀ outside,
      Shapes s.method outside (lowerStmts s.table stmts) (Stmt.endingIn? s stmts)
        (Stmt.anyReturns stmts) []
  | [], _, _, _ => by
      intro c hc a c' w hr
      cases hr
      exact ⟨hc, .nil, List.forall_mem_nil _⟩
  | stmt :: stmts, hn, hi, outside =>
      (lowerStmt_shapes ht stmt hn.1 hi.1 outside).andThen fun _ =>
        lowerStmts_shapes ht stmts hn.2 hi.2 outside

end

/-! ## Bodies -/

theorem ending_of_endsWithReturn {body : List Stmt} (h : endsWithReturn body = true) :
    Stmt.endingIn? s body = some .leave ∧ Stmt.anyReturns body = true := by
  induction body with
  | nil => cases h
  | cons stmt stmts ih =>
      cases stmts with
      | nil =>
          cases stmt with
          | «return» => exact ⟨rfl, rfl⟩
          | block | ifThen | ifElse | «while» | expr | assign | assignElement => cases h
      | cons next others =>
          obtain ⟨ending, returns⟩ := ih h
          rw [Stmt.endingIn?, ending, Stmt.anyReturns, returns, Bool.or_true]
          exact ⟨rfl, rfl⟩

theorem due_shapes (due : Bool) :
    Shapes method outside (if due then emit .returnVoid else pure ())
      (if due then some .leave else none) due [] := by
  cases due with
  | true => exact emit_shapes (List.forall_mem_nil _)
  | false =>
      intro c hc a c' w hr
      obtain ⟨-, rfl, rfl⟩ := Emission.run_pure_ok_iff.1 hr
      exact ⟨hc, .nil, List.forall_mem_nil _⟩

theorem lowerBody_shapes {m : Method} (ht : table.Written) (hn : Stmt.NamedAll m.body)
    (hi : Stmt.IndexableAll m.body) (outside : List String) :
    Shapes m.name outside (lowerBody table m) (m.ending? (.ofMethod table m)) m.returns [] := by
  have body := lowerStmts_shapes (s := .ofMethod table m) ht m.body hn hi outside
  refine (body.andThen fun _ => due_shapes _).of_eq ?_ ?_
  · unfold Method.ending?
    cases he : endsWithReturn m.body with
    | true =>
        rw [(ending_of_endsWithReturn he).1]
        cases m.isMain || m.returnType.isVoid <;> rfl
    | false => cases m.isMain || m.returnType.isVoid <;> rfl
  · unfold Method.returns
    cases he : endsWithReturn m.body with
    | true =>
        rw [(ending_of_endsWithReturn (s := .ofMethod table m) he).2]
        cases m.isMain || m.returnType.isVoid <;> rfl
    | false => rw [Bool.not_false, Bool.true_and, Bool.or_comm]

theorem LinesOf.shape {m : Method} {lines : List Line} (ht : table.Written) (hm : m.Named)
    (hi : Stmt.IndexableAll m.body) (h : LinesOf table m lines) :
    Shape [] lines (m.ending? (.ofMethod table m)) m.returns := by
  obtain ⟨n, c', run⟩ := h
  exact (lowerBody_shapes ht hm.body hi [] ⟨n, m.name, 0, 0⟩ rfl () c' lines run).2.1

/-- The ending of a body: a label if labels stand after its last instruction. -/
def endingOf (body : List Ir.Labeled) (trailing : List String) : Option Ending :=
  if trailing = [] then body.getLast?.map (·.instruction.ending) else some .label

theorem endingOf_cons (l : Ir.Labeled) (body : List Ir.Labeled) (trailing : List String) :
    endingOf (l :: body) trailing = (endingOf body trailing).or (some l.instruction.ending) := by
  unfold endingOf
  split
  · rw [List.getLast?_cons]
    cases body.getLast? <;> rfl
  · rfl

theorem bodyOf_ending {lines : List Line} : ∀ labels : List String, (∀ l ∈ lines, l.Sound) →
    endingOf (bodyOf labels lines).1 (bodyOf labels lines).2 =
      (lines.getLast?.map Line.ending).or (if labels = [] then none else some .label) := by
  have last : ∀ (l : Line) (lines : List Line), (l :: lines).getLast?.map Line.ending =
      (lines.getLast?.map Line.ending).or (some l.ending) := by
    intro l lines
    rw [List.getLast?_cons]
    cases lines.getLast? <;> rfl
  induction lines with
  | nil =>
      intro labels _
      rw [bodyOf, endingOf]
      rfl
  | cons l lines ih =>
      intro labels h
      obtain ⟨sound, more⟩ := List.forall_mem_cons.1 h
      rw [last]
      cases l with
      | text n s => exact sound.elim
      | label name =>
          rw [bodyOf, ih _ more, if_neg (List.append_ne_nil_of_right_ne_nil _ (List.cons_ne_nil _ _)),
            Option.or_assoc]
          rfl
      | code n i =>
          rw [bodyOf, endingOf_cons, ih _ more, if_pos rfl, Option.or_none, Option.or_assoc]
          rfl

theorem bodyOf_returns {lines : List Line} : ∀ labels : List String,
    ((bodyOf labels lines).1.any fun l => l.instruction.isReturn) = lines.any Line.isReturn := by
  induction lines with
  | nil => exact fun labels => rfl
  | cons l lines ih =>
      intro labels
      cases l with
      | text n s => exact ih labels
      | label name => exact ih (labels ++ [name])
      | code n i => exact congrArg (i.isReturn || ·) (ih [])

theorem bodyOf_targets {lines : List Line} (labels : List String) :
    ((bodyOf labels lines).1.flatMap fun l => l.instruction.readBack.targets) =
      lines.flatMap Line.targets :=
  bodyOf_flatMap (g := fun i => i.readBack.targets) (fun _ _ => rfl) (fun _ => rfl)
    (fun _ _ => rfl) labels

theorem bodyOf_labels {lines : List Line} {name : String} : ∀ labels : List String,
    name ∈ labels ∨ .label name ∈ lines →
      name ∈ (bodyOf labels lines).1.flatMap (·.labels) ++ (bodyOf labels lines).2 := by
  induction lines with
  | nil =>
      intro labels h
      exact h.resolve_right List.not_mem_nil
  | cons l lines ih =>
      intro labels h
      cases l with
      | text n s =>
          refine ih labels (h.imp_right fun h => ?_)
          exact (List.mem_cons.1 h).resolve_left Line.noConfusion
      | label other =>
          refine ih (labels ++ [other]) ?_
          rcases h with h | h
          · exact .inl (List.mem_append_left _ h)
          · rcases List.mem_cons.1 h with h | h
            · cases h
              exact .inl (List.mem_append_right _ List.mem_cons_self)
            · exact .inr h
      | code n i =>
          rcases h with h | h
          · exact List.mem_append_left _ (List.mem_append_left _ h)
          · have later := ih [] (.inr ((List.mem_cons.1 h).resolve_left Line.noConfusion))
            rw [bodyOf, List.flatMap_cons, List.append_assoc]
            exact List.mem_append_right _ later

/-- The ending of a method's body, whether it has a return, and that its jumps stay in it. -/
structure MethodShape (u : Ir.Method) (ending : Option Ending) (returns : Bool) : Prop where
  ending : endingOf u.body u.trailing = ending
  returns : (u.body.any fun l => l.instruction.isReturn) = returns
  targets : ∀ name ∈ u.body.flatMap (fun l => l.instruction.targets),
    name ∈ u.body.flatMap (·.labels) ++ u.trailing

theorem endingOf_readBack (body : List Ir.Labeled) (trailing : List String) :
    endingOf (body.map Ir.Labeled.readBack) trailing = endingOf body trailing := by
  have same : ∀ l : Ir.Labeled, l.readBack.instruction.ending = l.instruction.ending :=
    fun l => l.instruction.ending_readBack
  rw [endingOf, endingOf, List.getLast?_map, Option.map_map]
  exact congrArg (ite _ · _) (congrArg (fun f => body.getLast?.map f) (funext same))

theorem LoweredTo.shape {m : Method} {u : Ir.Method} (ht : table.Written) (hm : m.Named)
    (hi : Stmt.IndexableAll m.body) (h : LoweredTo table m u) :
    MethodShape u.readBack (m.ending? (.ofMethod table m)) m.returns := by
  obtain ⟨lines, linesOf, rfl⟩ := h
  have shape := linesOf.shape ht hm hi
  have sound := (linesOf.emitted ht hm hi).1
  refine ⟨?_, ?_, ?_⟩
  · rw [← shape.last, ← Option.or_none (o := lines.getLast?.map Line.ending)]
    exact (endingOf_readBack _ _).trans (bodyOf_ending [] sound)
  · have same : ∀ l : Ir.Labeled, l.readBack.instruction.isReturn = l.instruction.isReturn :=
      fun l => l.instruction.isReturn_readBack
    rw [← shape.returns, ← bodyOf_returns []]
    refine List.any_map.trans ?_
    exact congrArg (fun f => (bodyOf [] lines).1.any f) (funext same)
  · intro name hn
    have read : ((bodyOf [] lines).1.map Ir.Labeled.readBack).flatMap
        (fun l => l.instruction.targets) = lines.flatMap Line.targets := by
      rw [List.flatMap_map]
      exact bodyOf_targets []
    have written : name ∈ lines.flatMap Line.targets := read ▸ hn
    obtain ⟨l, hl, hn⟩ := List.mem_flatMap.1 written
    have there := bodyOf_labels [] (.inr ((shape.targets l hl name hn).resolve_left List.not_mem_nil))
    rw [List.mem_append] at there ⊢
    refine there.imp_left fun h => ?_
    show name ∈ ((bodyOf [] lines).1.map Ir.Labeled.readBack).flatMap (·.labels)
    rw [List.flatMap_map]
    exact h

end Lowering

end JavaMinus
