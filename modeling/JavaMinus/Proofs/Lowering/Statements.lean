/-
# The lines of statements

By induction on the statement: its lines are sound, and their uses are `Stmt.uses`.
-/
import JavaMinus.Proofs.Lowering.Expressions

namespace JavaMinus.Lowering

open Source Character

variable {table : SymbolTable} {method : String} {s : Scope} {wanted : Bool}
  {expected : Option Ty} {Q : Value → Prop}

/-! ## Single lines -/

theorem goto_emits {label : String} (h : isWord label.toList = true) :
    Emits method Line.Sound (emit (.goto label)) settled [] fun _ => True :=
  emit_emits fun _ => ⟨h, trivial⟩

theorem emitUnless_emits {e : Expr} {v : Value} {label : String} (hv : Value.Of s e expected v)
    (h : isWord label.toList = true) :
    Emits method Line.Sound (emitUnless v label) settled e.held fun _ => True :=
  (emit_emits fun _ => ⟨⟨⟨rfl, trivial, hv.sound.operand.printable⟩, h⟩, rfl,
    hv.sound.operand.loads⟩).of_eq hv.held

theorem instruction_uses {e : Expr} {rhs : Rhs} (h : Rhs.Of s e expected rhs) :
    rhs.instruction.readBack.uses true = rhs.owes true ++ e.held := by
  rw [← h.held]
  cases rhs with
  | value v => rfl
  | operation i type => exact (List.append_nil _).symm

/-- The assignment of a right side to something that uses nothing. -/
theorem assign_emits {e : Expr} {dest : Ir.Element} {t : Ir.ElementType} {rhs : Rhs}
    (hd : dest.Printable) (ha : dest.readBack.Assignable) (hu : dest.readBack.uses = [])
    (ht : t.Printable) (h : Rhs.Of s e expected rhs) :
    Emits method Line.Sound (emit (.assign dest t rhs.instruction)) settled
      (rhs.owes true ++ e.held) fun _ => True := by
  have uses : (Ir.Instruction.assign dest t rhs.instruction).readBack.uses false =
      rhs.owes true ++ e.held := by
    rw [← instruction_uses h]
    show dest.readBack.uses ++ _ = _
    rw [hu]
    rfl
  refine (emit_emits fun n => ?_).of_eq uses
  have sound := h.sound
  cases rhs with
  | value v => exact ⟨⟨hd, ht, sound.operand.printable⟩, ha, sound.operand.loads⟩
  | operation i type => exact ⟨⟨hd, ht, sound.1⟩, ha, sound.2.1⟩

/-! ## Expressions in statements -/

theorem rhs_emits (ht : s.table.Written) {e : Expr} (hn : e.Named) (hi : e.Indexable)
    (he : ∀ t, expected = some t → t.Written) :
    Emits s.method Line.Sound (lowerRhs s.table e expected) (Rhs.owes wanted)
      (e.uses s wanted expected) (Rhs.Of s e expected) :=
  (lowerRhs_emits ht e wanted hn hi he).weaken fun _ => And.left

theorem value_emits (ht : s.table.Written) {e : Expr} (hn : e.Named) (hi : e.Indexable)
    (he : ∀ t, expected = some t → t.Written) :
    Emits s.method Line.Sound (lowerValue s.table e expected) settled (e.uses s true expected)
      (Value.Of s e expected) :=
  (lowerValue_emits ht hn hi he).weaken fun _ => And.left

theorem operand_emits (ht : s.table.Written) {e : Expr} (hn : e.Named) (hi : e.Indexable)
    (he : ∀ t, expected = some t → t.Written) :
    Emits s.method Line.Sound (lowerOperand s.table e expected) settled (e.uses s true expected)
      (Value.Of s e expected) :=
  (lowerOperand_emits ht hn hi he).weaken fun _ => And.left

theorem untyped : ∀ t, (none : Option Ty) = some t → t.Written := by
  rintro t ⟨⟩

/-! ## Statements without statements in them -/

theorem uses_of_not_call : ∀ e : Expr, isCall e = false → ∀ {wanted : Bool} (wanted' : Bool)
    {expected : Option Ty}, e.uses s wanted expected = e.uses s wanted' expected
  | .paren _ inner, h => uses_of_not_call inner h
  | .call .., h => nomatch h
  | .int .., _ | .bool .., _ | .name .., _ | .this .., _ | .binary .., _ | .not .., _
  | .index .., _ | .length .., _ | .newArray .., _ | .newObject .., _ => fun _ => rfl

theorem lowerExprStmt_emits (ht : s.table.Written) {e : Expr} (hn : e.Named) (hi : e.Indexable) :
    Emits s.method Line.Sound (lowerExprStmt s.table e) settled (e.uses s false none)
      fun _ => True := by
  unfold lowerExprStmt
  split
  · rename_i hc
    refine (rhs_emits ht hn hi untyped).pay fun rhs h => ?_
    obtain ⟨c, t, rfl⟩ := h.call hc
    exact emit_emits fun _ => ⟨h.sound.1, h.sound.2.1⟩
  · rename_i hc
    rw [uses_of_not_call e (Bool.eq_false_iff.2 hc) true]
    exact (value_emits ht hn hi untyped).done fun _ _ => .answer trivial rfl

theorem lowerAssign_emits (ht : s.table.Written) {target : String} {value : Expr}
    (ha : IsName target) (hn : value.Named) (hi : value.Indexable) :
    Emits s.method Line.Sound (lowerAssign s.table target value) settled
      (value.uses s true (s.variableType? target) ++
        (Ir.receiverUse (s.isField target) ++ value.held)) fun _ => True := by
  refine (lookup_emits target).first fun found hfound => ?_
  refine need_emits.first fun x hx => ?_
  have there : s.table.lookup s.method target = some x := by rw [← hfound, hx]
  have written := SymbolTable.written_of_lookup ht there
  have found' := Scope.variableType_of_lookup there
  have field := Scope.isField_of_lookup there
  have dest := printable_var ha.1 ha.ne_this written.lowered
  rw [found', field]
  show Emits s.method _ (if x.origin = .field then _ else _) _ _ _
  split
  · rename_i hfield
    rw [decide_eq_true hfield]
    refine (operand_emits ht hn hi (written_expected written)).andThen fun v hv => ?_
    rw [← hv.held]
    exact emit_emits fun _ => ⟨⟨rfl, dest, hv.sound.operand.printable⟩, trivial, rfl,
      hv.sound.operand.loads⟩
  · rename_i hfield
    rw [decide_eq_false hfield]
    refine (rhs_emits ht hn hi (written_expected written)).bind fun rhs h => ?_
    exact assign_emits dest (Ir.assignable_readBack ha.ne_this written.lowered)
      (uses_var ha.ne_this written.lowered) written.lowered h

theorem lowerAssignElement_emits (ht : s.table.Written) {target : String} {index value : Expr}
    (ha : IsName target) (hn : index.Named) (hn' : value.Named) (hx : index.isThis = false)
    (hi : index.Indexable) (hi' : value.Indexable) :
    Emits s.method Line.Sound (lowerAssignElement s.table target index value) settled
      (Ir.receiverUse (s.isField target) ++ (index.uses s true (some .int) ++
        value.placedUses s ((s.variableType? target).map (·.element)))) fun _ => True := by
  have array := @lowerName_emits s true default target none ht ha
  refine (array.weaken fun _ => And.left).bind fun named hnamed => ?_
  refine ((asValue_emits hnamed.1).weaken fun _ => And.left).andThen fun a h => ?_
  have type : s.variableType? target = some a.type := by
    rw [hnamed.2, h.type, ← hnamed.1.type]
  have element := h.sound.type.element
  rw [type]
  refine (operand_emits ht hn hi (written_expected Ty.written_int)).andThen fun i h' => ?_
  refine (rhs_emits ht hn' hi' (written_expected element)).bind fun rhs h'' => ?_
  have item := Value.sound_item h.sound (h.stored rfl) h'.sound
  have unused := uses_item h.sound (h.stored rfl) (h'.held.trans (held_of_not_isThis hx))
  exact assign_emits item.operand.printable item.operand.loads unused element.lowered h''

theorem expectedReturn_written (ht : s.table.Written) : s.expectedReturn.Written := by
  unfold Scope.expectedReturn SymbolTable.returnType?
  cases hm : s.table.method? s.method with
  | none => exact Ty.written_void
  | some signature => exact ht.returns signature (List.mem_of_find?_eq_some hm)

theorem lowerReturn_emits (ht : s.table.Written) {value : Option Expr}
    (hn : ∀ e, value = some e → e.Named) (hi : ∀ e, value = some e → e.Indexable) :
    Emits s.method Line.Sound (lowerReturn s.table value) settled
      ((value.map fun e => e.placedUses s (some s.expectedReturn)).getD []) fun _ => True := by
  have written := expectedReturn_written ht
  refine state_emits.first fun c hc => ?_
  rw [hc]
  cases value with
  | none => exact emit_emits fun _ => ⟨trivial, trivial⟩
  | some e =>
      refine (value_emits ht (hn e rfl) (hi e rfl) (written_expected written)).andThen fun v h => ?_
      rw [← h.held]
      exact emit_emits fun _ => ⟨⟨written.lowered, h.sound.operand.printable⟩, h.sound.operand.loads⟩

theorem condition_emits (ht : s.table.Written) {e : Expr} (hn : e.Named) (hi : e.Indexable)
    {label : String} (h : isWord label.toList = true) :
    Emits s.method Line.Sound (lowerValue s.table e (some .boolean) >>= fun c => emitUnless c label)
      settled (e.placedUses s (some .boolean)) fun _ => True :=
  (value_emits ht hn hi (written_expected Ty.written_boolean)).andThen fun _ hc =>
    emitUnless_emits hc h

/-! ## Statements -/

mutual

theorem lowerStmt_emits (ht : s.table.Written) : ∀ stmt : Stmt, stmt.Named → stmt.Indexable →
    Emits s.method Line.Sound (lowerStmt s.table stmt) settled (stmt.uses s) fun _ => True
  | .block _ body, hn, hi => lowerStmts_emits ht body hn hi
  | .ifThen _ condition thenBranch, hn, hi => by
      rw [lowerStmt, Stmt.uses]
      refine newLabel_emits.first fun n _ => ?_
      rw [← bind_assoc]
      refine (condition_emits ht hn.1 hi.1 (isWord_numbered rfl n)).andThen fun _ _ => ?_
      refine (lowerStmt_emits ht thenBranch hn.2 hi.2).done fun _ _ => ?_
      refine (goto_emits (isWord_numbered rfl n)).first fun _ _ => ?_
      exact (emitLabel_emits (isWord_numbered rfl n)).first fun _ _ =>
        emitLabel_emits (isWord_numbered rfl n)
  | .ifElse _ condition thenBranch elseBranch, hn, hi => by
      rw [lowerStmt, Stmt.uses]
      refine newLabel_emits.first fun n _ => ?_
      rw [← bind_assoc]
      refine (condition_emits ht hn.1 hi.1 (isWord_numbered rfl n)).andThen fun _ _ => ?_
      refine (lowerStmt_emits ht thenBranch hn.2.1 hi.2.1).andThen fun _ _ => ?_
      refine (goto_emits (isWord_numbered rfl n)).first fun _ _ => ?_
      refine (emitLabel_emits (isWord_numbered rfl n)).first fun _ _ => ?_
      exact (lowerStmt_emits ht elseBranch hn.2.2 hi.2.2).done fun _ _ =>
        emitLabel_emits (isWord_numbered rfl n)
  | .while _ condition body, hn, hi => by
      rw [lowerStmt, Stmt.uses]
      refine newLabel_emits.first fun n _ => ?_
      refine (emitLabel_emits (isWord_numbered rfl n)).first fun _ _ => ?_
      rw [← bind_assoc]
      refine (condition_emits ht hn.1 hi.1 (isWord_numbered rfl n)).andThen fun _ _ => ?_
      refine (lowerStmt_emits ht body hn.2 hi.2).done fun _ _ => ?_
      exact (goto_emits (isWord_numbered rfl n)).first fun _ _ =>
        emitLabel_emits (isWord_numbered rfl n)
  | .expr e, hn, hi => lowerExprStmt_emits ht hn hi
  | .assign _ target value, hn, hi => lowerAssign_emits ht hn.1 hn.2 hi
  | .assignElement _ target index value, hn, hi =>
      lowerAssignElement_emits ht hn.1 hn.2.1 hn.2.2 hi.1 hi.2.1 hi.2.2
  | .return _ none, _, _ => lowerReturn_emits ht (fun _ h => nomatch h) (fun _ h => nomatch h)
  | .return _ (some value), hn, hi =>
      lowerReturn_emits ht (fun _ h => Option.some.inj h ▸ hn) (fun _ h => Option.some.inj h ▸ hi)

theorem lowerStmts_emits (ht : s.table.Written) : ∀ stmts : List Stmt, Stmt.NamedAll stmts →
    Stmt.IndexableAll stmts →
    Emits s.method Line.Sound (lowerStmts s.table stmts) settled (Stmt.usesIn s stmts) fun _ => True
  | [], _, _ => .answer trivial rfl
  | stmt :: stmts, hn, hi => by
      rw [lowerStmts, Stmt.usesIn]
      exact (lowerStmt_emits ht stmt hn.1 hi.1).andThen fun _ _ =>
        lowerStmts_emits ht stmts hn.2 hi.2

end

theorem lowerBody_emits {m : Method} (ht : table.Written) (hn : Stmt.NamedAll m.body)
    (hi : Stmt.IndexableAll m.body) :
    Emits m.name Line.Sound (lowerBody table m) settled (Stmt.usesIn (.ofMethod table m) m.body)
      fun _ => True := by
  have body := lowerStmts_emits (s := .ofMethod table m) ht m.body hn hi
  refine body.done fun _ _ => ?_
  split
  · exact emit_emits fun _ => ⟨trivial, trivial⟩
  · exact .answer trivial rfl

end JavaMinus.Lowering
