/-
# The layout of lowered statements

What a lowered statement looks like, whatever its table and whether or not anything checks it: the
lines of its pieces, which go straight on, with jumps and labels between them (`Layout`).  A layout
says where each piece stands and which numbers the labels have, so that all that there is to say about
labels and jumps follows from it by induction.

    choice                          loop

        p                           LoopN:
        if (!v) goto ElseN              p
        yes                             if (!v) goto EndLoopN
        goto EndIfN                     body
    ElseN:                              goto LoopN
        no                          EndLoopN:
    EndIfN:
-/
import JavaMinus.Proofs.Lowering.Endings
import JavaMinus.Proofs.Source.Control

namespace JavaMinus

/-- Whether the instruction goes on at the next line. -/
def Ir.Instruction.isStraight (i : Ir.Instruction) : Bool := i.targets.isEmpty && !i.isReturn

namespace Lowering

open Source

variable {α β : Type} {table : SymbolTable} {m : Lowering α} {f : α → Lowering β} {Q : α → Prop}
  {Q' : β → Prop}

/-! ## Lines that go straight on -/

/-- Whether the line is code after which the machine always goes on at the next one. -/
def Line.isStraight : Line → Bool
  | .code _ i => i.isStraight
  | .label _ | .text .. => false

/-- If the step succeeds, it stays in its method and makes no number, its lines go straight on, and its
answer satisfies `Q`. -/
def Straight (m : Lowering α) (Q : α → Prop) : Prop :=
  ∀ (c : Cursor) (a : α) (c' : Cursor) (w : List Line), m.run c = ⟨.ok a, c', w⟩ →
    c'.method = c.method ∧ c'.labels = c.labels ∧ (∀ l ∈ w, l.isStraight = true) ∧ Q a

/-- The right side goes straight on, as an instruction. -/
def Rhs.Plain (rhs : Rhs) : Prop := rhs.instruction.isStraight = true

namespace Straight

theorem pure {a : α} (h : Q a) : Straight (Pure.pure a) Q := by
  intro c a' c' w run
  obtain ⟨rfl, rfl, rfl⟩ := Emission.run_pure_ok_iff.1 run
  exact ⟨rfl, rfl, List.forall_mem_nil _, h⟩

theorem bind (hm : Straight m Q) (hf : ∀ a, Q a → Straight (f a) Q') : Straight (m >>= f) Q' := by
  intro c b c' w run
  obtain ⟨a, c₁, w₁, w₂, run₁, run₂, rfl⟩ := Emission.run_bind_ok_iff.1 run
  obtain ⟨method₁, labels₁, lines₁, ha⟩ := hm c a c₁ w₁ run₁
  obtain ⟨method₂, labels₂, lines₂, hb⟩ := hf a ha c₁ b c' w₂ run₂
  exact ⟨method₂.trans method₁, labels₂.trans labels₁, List.forall_mem_append.2 ⟨lines₁, lines₂⟩, hb⟩

end Straight

theorem lookup_straight (name : String) : Straight (lookup table name) fun _ => True := by
  intro c a c' w run
  cases run
  exact ⟨rfl, rfl, List.forall_mem_nil _, trivial⟩

theorem state_straight : Straight (Emission.state : Lowering Cursor) fun _ => True := by
  intro c a c' w run
  cases run
  exact ⟨rfl, rfl, List.forall_mem_nil _, trivial⟩

theorem need_straight (e : Error) (o : Option α) :
    Straight (Emission.need e o : Lowering α) fun _ => True := by
  cases o with
  | none => exact fun c a c' w run => nomatch run
  | some x => exact .pure trivial

theorem emit_straight {i : Ir.Instruction} (h : i.isStraight = true) :
    Straight (emit i) fun _ => True := by
  intro c a c' w run
  cases run
  exact ⟨rfl, rfl, List.forall_mem_singleton.2 h, trivial⟩

theorem isStraight_assign {dest : Ir.Element} {type : Ir.ElementType} {rhs : Ir.Instruction}
    (h : rhs.isStraight = true) : (Ir.Instruction.assign dest type rhs).isStraight = true := by
  rw [Ir.Instruction.isStraight, Bool.and_eq_true] at h
  exact Bool.and_eq_true_iff.2 ⟨h.1, rfl⟩

theorem bind_straight {rhs : Ir.Instruction} (h : rhs.isStraight = true) (type : Ty) :
    Straight (bind table rhs type) fun _ => True := by
  have temp : Straight (newTemp table) fun _ => True := by
    intro c a c' w run
    cases run
    exact ⟨rfl, rfl, List.forall_mem_nil _, trivial⟩
  exact temp.bind fun _ _ => (emit_straight (isStraight_assign h)).bind fun _ _ => .pure trivial

/-! ## Expressions -/

theorem asValue_straight {rhs : Rhs} (h : rhs.Plain) :
    Straight (asValue table rhs) fun _ => True := by
  cases rhs with
  | value v => exact .pure trivial
  | operation i type => exact bind_straight h type

theorem asOperand_straight {rhs : Rhs} (h : rhs.Plain) :
    Straight (asOperand table rhs) fun _ => True := by
  refine (asValue_straight h).bind fun v _ => ?_
  split
  · exact bind_straight rfl _
  · exact .pure trivial

theorem lowerName_straight (name : String) : Straight (lowerName table name) Rhs.Plain := by
  refine (lookup_straight name).bind fun found _ => (need_straight _ found).bind fun x _ => ?_
  show Straight (if x.origin = .field then _ else _) Rhs.Plain
  split
  · exact .pure rfl
  · exact .pure rfl

theorem lowerBinary_plain (op : BinaryOp) (left right : Value) :
    (lowerBinary op left right).Plain := by
  simp only [lowerBinary]
  split <;> rfl

theorem lowerNot_plain (v : Value) : (lowerNot v).Plain := by
  unfold lowerNot
  split <;> rfl

theorem targetClass_straight (target : Expr) :
    Straight (targetClass? table target) fun _ => True := by
  unfold targetClass?
  split
  · exact (lookup_straight _).bind fun _ _ => .pure trivial
  · exact .pure trivial

mutual

theorem lowerRhs_straight : ∀ (e : Expr) (expected : Option Ty),
    Straight (lowerRhs table e expected) Rhs.Plain
  | .int .., _ | .bool .., _ | .this _, _ => .pure rfl
  | .name _ name, _ => lowerName_straight name
  | .paren _ inner, expected => lowerRhs_straight inner expected
  | .binary _ op lhs rhs, _ => by
      rw [lowerRhs]
      refine (lowerRhs_straight lhs _).bind fun _ h => (asValue_straight h).bind fun left _ => ?_
      refine (lowerRhs_straight rhs _).bind fun _ h => (asValue_straight h).bind fun right _ => ?_
      exact .pure (lowerBinary_plain op left right)
  | .not _ operand, _ => by
      rw [lowerRhs]
      refine (lowerRhs_straight operand _).bind fun _ h => (asValue_straight h).bind fun v _ => ?_
      exact .pure (lowerNot_plain v)
  | .index _ array index, _ => by
      rw [lowerRhs]
      refine (lowerRhs_straight array _).bind fun _ h => (asOperand_straight h).bind fun _ _ => ?_
      refine (lowerRhs_straight index _).bind fun _ h => (asOperand_straight h).bind fun _ _ => ?_
      exact .pure rfl
  | .length _ array, _ => by
      rw [lowerRhs]
      refine (lowerRhs_straight array _).bind fun _ h => (asOperand_straight h).bind fun _ _ => ?_
      exact (bind_straight rfl _).bind fun _ _ => .pure rfl
  | .newArray _ size, _ => by
      rw [lowerRhs]
      refine (lowerRhs_straight size _).bind fun _ h => (asOperand_straight h).bind fun _ _ => ?_
      exact (bind_straight rfl _).bind fun _ _ => .pure rfl
  | .newObject _ className, _ =>
      (bind_straight rfl _).bind fun _ _ => (emit_straight rfl).bind fun _ _ => .pure rfl
  | .call _ target method args, expected => by
      rw [lowerRhs]
      refine (targetClass_straight target).bind fun named _ => ?_
      cases named with
      | some name => exact (lowerArguments_straight args _).bind fun _ _ => .pure rfl
      | none =>
          refine (lowerRhs_straight target none).bind fun _ h => (asOperand_straight h).bind fun _ _ => ?_
          exact (lowerArguments_straight args _).bind fun _ _ => .pure rfl

theorem lowerArguments_straight : ∀ (args : List Expr) (params : List Symbol),
    Straight (lowerArguments table args params) fun _ => True
  | [], _ => .pure trivial
  | arg :: args, params => by
      rw [lowerArguments]
      refine (lowerRhs_straight arg _).bind fun _ h => (asOperand_straight h).bind fun _ _ => ?_
      exact (lowerArguments_straight args _).bind fun _ _ => .pure trivial

end

theorem lowerValue_straight (e : Expr) (expected : Option Ty) :
    Straight (lowerValue table e expected) fun _ => True :=
  (lowerRhs_straight e expected).bind fun _ h => asValue_straight h

theorem lowerOperand_straight (e : Expr) (expected : Option Ty) :
    Straight (lowerOperand table e expected) fun _ => True :=
  (lowerRhs_straight e expected).bind fun _ h => asOperand_straight h

theorem lowerExprStmt_straight (e : Expr) : Straight (lowerExprStmt table e) fun _ => True := by
  unfold lowerExprStmt
  split
  · exact (lowerRhs_straight e none).bind fun _ h => emit_straight h
  · exact (lowerValue_straight e none).bind fun _ _ => .pure trivial

theorem lowerAssign_straight (target : String) (value : Expr) :
    Straight (lowerAssign table target value) fun _ => True := by
  refine (lookup_straight target).bind fun found _ => (need_straight _ found).bind fun x _ => ?_
  show Straight (if x.origin = .field then _ else _) _
  split
  · exact (lowerOperand_straight value _).bind fun _ _ => emit_straight rfl
  · exact (lowerRhs_straight value _).bind fun _ h => emit_straight (isStraight_assign h)

theorem lowerAssignElement_straight (target : String) (index value : Expr) :
    Straight (lowerAssignElement table target index value) fun _ => True := by
  refine (lowerName_straight target).bind fun _ h => (asValue_straight h).bind fun _ _ => ?_
  refine (lowerOperand_straight index _).bind fun _ _ => ?_
  exact (lowerRhs_straight value _).bind fun _ h => emit_straight (isStraight_assign h)

/-! ## Pieces -/

/-- The declared type of the values that a method returns. -/
def returnedType (table : SymbolTable) (method : String) : Ty :=
  (table.returnType? method).getD .void

/-- The jump that is taken unless the value is true. -/
def jumpUnless (v : Value) (label : String) : Ir.Instruction :=
  .branch (.unary ⟨.not, .boolean⟩ v.operand) label

/-- The return of a value, or of nothing. -/
def returnOf (table : SymbolTable) (method : String) : Option Value → Ir.Instruction
  | some v => .return (returnedType table method).lowered v.operand
  | none => .returnVoid

/-- Lowers a piece up to where control is decided; the answer is the value that decides, or that is
returned. -/
def lowerSegment (table : SymbolTable) : Segment → Lowering (Option Value)
  | .condition e => do
      let v ← lowerValue table e (some .boolean)
      pure (some v)
  | .statement (.expr e) => do
      lowerExprStmt table e
      pure none
  | .statement (.assign target value) => do
      lowerAssign table target value
      pure none
  | .statement (.assignElement target index value) => do
      lowerAssignElement table target index value
      pure none
  | .result none => pure none
  | .result (some e) => do
      let cursor ← Emission.state
      let v ← lowerValue table e (some (returnedType table cursor.method))
      pure (some v)

theorem lowerSegment_straight : ∀ p : Segment, Straight (lowerSegment table p) fun _ => True
  | .condition e => (lowerValue_straight e _).bind fun _ _ => .pure trivial
  | .statement (.expr e) => (lowerExprStmt_straight e).bind fun _ _ => .pure trivial
  | .statement (.assign target value) =>
      (lowerAssign_straight target value).bind fun _ _ => .pure trivial
  | .statement (.assignElement target index value) =>
      (lowerAssignElement_straight target index value).bind fun _ _ => .pure trivial
  | .result none => .pure trivial
  | .result (some e) =>
      state_straight.bind fun _ _ => (lowerValue_straight e _).bind fun _ _ => .pure trivial

/-- The lines are those that the piece is lowered to in the method, with the answer. -/
def SegmentLines (table : SymbolTable) (method : String) (p : Segment) (answer : Option Value)
    (w : List Line) : Prop :=
  ∃ c c' : Cursor, c.method = method ∧ (lowerSegment table p).run c = ⟨.ok answer, c', w⟩

theorem SegmentLines.straight {method : String} {p : Segment} {answer : Option Value} {w : List Line}
    (h : SegmentLines table method p answer w) : ∀ l ∈ w, l.isStraight = true := by
  obtain ⟨c, c', -, run⟩ := h
  exact (lowerSegment_straight p c answer c' w run).2.2.1

/-- A piece in lines: where its own begin, and how many they are. -/
structure Place where
  segment : Segment
  start : Nat
  length : Nat

/-- Where the lines of a piece end. -/
def Place.turn (p : Place) : Nat := p.start + p.length

/-- What stands behind the lines of a piece and belongs to it: the jump under a condition, or the
return. -/
def Place.turning (p : Place) : List Nat :=
  match p.segment with
  | .condition _ | .result _ => [p.turn]
  | .statement _ => []

/-- The positions that belong to a piece. -/
def Place.positions (p : Place) : List Nat := List.range' p.start p.length ++ p.turning

/-- The piece stands in the lines: its own lines where it begins, and after them the jump that its value
decides, or the return. -/
structure Place.StandsIn (table : SymbolTable) (method : String) (w : List Line) (p : Place)
    (answer : Option Value) : Prop where
  whole : ((w.drop p.start).take p.length).length = p.length
  lines : SegmentLines table method p.segment answer ((w.drop p.start).take p.length)
  decides : ∀ e, p.segment = .condition e → ∃ v n label, answer = some v ∧
    w[p.turn]? = some (.code n (jumpUnless v label))
  leaves : ∀ value, p.segment = .result value →
    ∃ n, w[p.turn]? = some (.code n (returnOf table method answer))

/-! ## Layouts -/

/-- The lines of a choice with the number `low`: those of its condition, a jump unless `v` is true, and
the two branches with a jump over the second. -/
def choiceLines (low n n' : Nat) (v : Value) (w w₁ w₂ : List Line) : List Line :=
  w ++ .code n (jumpUnless v (labelName "Else" low)) ::
    (w₁ ++ .code n' (.goto (labelName "EndIf" low)) :: .label (labelName "Else" low) ::
      (w₂ ++ [.label (labelName "EndIf" low)]))

/-- The lines of a loop with the number `low`: those of its condition, a jump unless `v` is true, and the
body with a jump back. -/
def loopLines (low n n' : Nat) (v : Value) (w w₁ : List Line) : List Line :=
  .label (labelName "Loop" low) :: (w ++ .code n (jumpUnless v (labelName "EndLoop" low)) ::
    (w₁ ++ [.code n' (.goto (labelName "Loop" low)), .label (labelName "EndLoop" low)]))

/-- The lines, from a position on, are laid out for the control of a statement, and the numbers of their
labels go from `low` up to before `high`. -/
inductive Layout (table : SymbolTable) (method : String) :
    Control Place → Nat → Nat → List Line → Nat → Prop
  | skip {k low : Nat} : Layout table method .skip k low [] low
  | simple {s : Simple} {answer : Option Value} {k low : Nat} {w : List Line} :
      SegmentLines table method (.statement s) answer w →
      Layout table method (.simple ⟨.statement s, k, w.length⟩) k low w low
  | leave {value : Option Expr} {answer : Option Value} {k low n : Nat} {w : List Line} :
      SegmentLines table method (.result value) answer w →
      Layout table method (.leave ⟨.result value, k, w.length⟩) k low
        (w ++ [.code n (returnOf table method answer)]) low
  | seq {a b : Control Place} {k low mid high : Nat} {w w' : List Line} :
      Layout table method a k low w mid → Layout table method b (k + w.length) mid w' high →
      Layout table method (.seq a b) k low (w ++ w') high
  | choice {e : Expr} {v : Value} {yes no : Control Place} {k low mid high n n' : Nat}
      {w w₁ w₂ : List Line} : SegmentLines table method (.condition e) (some v) w →
      Layout table method yes (k + w.length + 1) (low + 1) w₁ mid →
      Layout table method no (k + w.length + 1 + w₁.length + 2) mid w₂ high →
      Layout table method (.choice ⟨.condition e, k, w.length⟩ yes no) k low
        (choiceLines low n n' v w w₁ w₂) high
  | loop {e : Expr} {v : Value} {body : Control Place} {k low high n n' : Nat}
      {w w₁ : List Line} : SegmentLines table method (.condition e) (some v) w →
      Layout table method body (k + 1 + w.length + 1) (low + 1) w₁ high →
      Layout table method (.loop ⟨.condition e, k + 1, w.length⟩ body) k low
        (loopLines low n n' v w w₁) high

/-! ## Statements -/

section Statements

variable {loc : Location} {condition : Expr} {c c' : Cursor} {w : List Line}

theorem lowerStmt_ifThen (yes : Stmt) : lowerStmt table (.ifThen loc condition yes) =
    lowerStmt table (.ifElse loc condition yes (.block loc [])) := by
  simp only [lowerStmt, lowerStmts, pure_bind]

/-- A successful lowering of a conditional statement, taken apart. -/
theorem lowerStmt_ifElse_run {yes no : Stmt}
    (run : (lowerStmt table (.ifElse loc condition yes no)).run c = ⟨.ok (), c', w⟩) :
    ∃ v c₁ c₂ w₀ w₁ w₂,
      (lowerSegment table (.condition condition)).run { c with labels := c.labels + 1 } =
        ⟨.ok (some v), c₁, w₀⟩ ∧
      (lowerStmt table yes).run c₁ = ⟨.ok (), c₂, w₁⟩ ∧
      (lowerStmt table no).run c₂ = ⟨.ok (), c', w₂⟩ ∧
      w = choiceLines c.labels c₁.indent c₂.indent v w₀ w₁ w₂ := by
  rw [lowerStmt] at run
  obtain ⟨_, _, _, _, numbered, run₁, rfl⟩ := Emission.run_bind_ok_iff.1 run
  cases numbered
  obtain ⟨v, c₁, w₀, _, decided, run₂, rfl⟩ := Emission.run_bind_ok_iff.1 run₁
  obtain ⟨_, _, _, _, jumped, run₃, rfl⟩ := Emission.run_bind_ok_iff.1 run₂
  cases jumped
  obtain ⟨_, c₂, w₁, _, first, run₄, rfl⟩ := Emission.run_bind_ok_iff.1 run₃
  obtain ⟨_, _, _, _, left, run₅, rfl⟩ := Emission.run_bind_ok_iff.1 run₄
  cases left
  obtain ⟨_, _, _, _, labeled, run₆, rfl⟩ := Emission.run_bind_ok_iff.1 run₅
  cases labeled
  obtain ⟨_, c₃, w₂, _, second, last, rfl⟩ := Emission.run_bind_ok_iff.1 run₆
  cases last
  refine ⟨v, c₁, c₂, w₀, w₁, w₂, ?_, first, second, rfl⟩
  exact Emission.run_bind_ok_iff.2 ⟨v, c₁, w₀, [], decided, rfl, (List.append_nil _).symm⟩

/-- A successful lowering of a loop, taken apart. -/
theorem lowerStmt_while_run {body : Stmt}
    (run : (lowerStmt table (.while loc condition body)).run c = ⟨.ok (), c', w⟩) :
    ∃ v c₁ w₀ w₁,
      (lowerSegment table (.condition condition)).run { c with labels := c.labels + 1 } =
        ⟨.ok (some v), c₁, w₀⟩ ∧
      (lowerStmt table body).run c₁ = ⟨.ok (), c', w₁⟩ ∧
      w = loopLines c.labels c₁.indent c'.indent v w₀ w₁ := by
  rw [lowerStmt] at run
  obtain ⟨_, _, _, _, numbered, run₁, rfl⟩ := Emission.run_bind_ok_iff.1 run
  cases numbered
  obtain ⟨_, _, _, _, labeled, run₂, rfl⟩ := Emission.run_bind_ok_iff.1 run₁
  cases labeled
  obtain ⟨v, c₁, w₀, _, decided, run₃, rfl⟩ := Emission.run_bind_ok_iff.1 run₂
  obtain ⟨_, _, _, _, jumped, run₄, rfl⟩ := Emission.run_bind_ok_iff.1 run₃
  cases jumped
  obtain ⟨_, c₂, w₁, _, first, run₅, rfl⟩ := Emission.run_bind_ok_iff.1 run₄
  obtain ⟨_, _, _, _, left, last, rfl⟩ := Emission.run_bind_ok_iff.1 run₅
  cases left
  cases last
  refine ⟨v, c₁, w₀, w₁, ?_, first, rfl⟩
  exact Emission.run_bind_ok_iff.2 ⟨v, c₁, w₀, [], decided, rfl, (List.append_nil _).symm⟩

/-- A successful lowering of a return, taken apart. -/
theorem lowerStmt_return_run {value : Option Expr}
    (run : (lowerStmt table (.return loc value)).run c = ⟨.ok (), c', w⟩) :
    ∃ answer w₀, (lowerSegment table (.result value)).run c = ⟨.ok answer, c', w₀⟩ ∧
      w = w₀ ++ [.code c'.indent (returnOf table c.method answer)] := by
  obtain ⟨_, _, _, _, known, run₁, rfl⟩ := Emission.run_bind_ok_iff.1 run
  cases known
  cases value with
  | none =>
      cases run₁
      exact ⟨none, [], rfl, rfl⟩
  | some e =>
      obtain ⟨v, c₁, w₀, _, valued, last, rfl⟩ := Emission.run_bind_ok_iff.1 run₁
      cases last
      refine ⟨some v, w₀, ?_, rfl⟩
      have answered : (lowerValue table e (some (returnedType table c.method)) >>= fun v =>
          pure (some v) : Lowering (Option Value)).run c = ⟨.ok (some v), c₁, w₀⟩ :=
        Emission.run_bind_ok_iff.2 ⟨v, c₁, w₀, [], valued, rfl, (List.append_nil _).symm⟩
      exact Emission.run_bind_ok_iff.2 ⟨c, c, [], w₀, rfl, answered, rfl⟩

/-- The step, if it succeeds, stays in its method, and its lines are laid out for the control. -/
def LaysOut (table : SymbolTable) (m : Lowering Unit) (control : Control Segment) : Prop :=
  ∀ (c c' : Cursor) (w : List Line) (k : Nat), m.run c = ⟨.ok (), c', w⟩ →
    c'.method = c.method ∧ ∃ placed : Control Place, placed.map Place.segment = control ∧
      Layout table c.method placed k c.labels w c'.labels

theorem skip_laysOut : LaysOut table (pure ()) .skip := by
  intro c c' w k run
  obtain ⟨-, rfl, rfl⟩ := Emission.run_pure_ok_iff.1 run
  exact ⟨rfl, .skip, rfl, .skip⟩

theorem simple_laysOut {m : Lowering Unit} {s : Simple}
    (same : lowerSegment table (.statement s) = m >>= fun _ => pure none) :
    LaysOut table m (.simple (.statement s)) := by
  intro c c' w k run
  have lowered : (lowerSegment table (.statement s)).run c = ⟨.ok none, c', w⟩ := by
    rw [same]
    exact Emission.run_bind_ok_iff.2 ⟨(), c', w, [], run, rfl, (List.append_nil _).symm⟩
  obtain ⟨method, labels, -⟩ := lowerSegment_straight _ c none c' w lowered
  refine ⟨method, .simple ⟨_, k, w.length⟩, rfl, ?_⟩
  rw [labels]
  exact .simple ⟨c, c', rfl, lowered⟩

theorem return_laysOut {value : Option Expr} :
    LaysOut table (lowerStmt table (.return loc value)) (.leave (.result value)) := by
  intro c c' w k run
  obtain ⟨answer, w₀, lowered, rfl⟩ := lowerStmt_return_run run
  obtain ⟨method, labels, -⟩ := lowerSegment_straight _ c answer c' w₀ lowered
  refine ⟨method, .leave ⟨_, k, w₀.length⟩, rfl, ?_⟩
  rw [labels]
  exact .leave ⟨c, c', rfl, lowered⟩

theorem seq_laysOut {m m' : Lowering Unit} {a b : Control Segment} (hm : LaysOut table m a)
    (hm' : LaysOut table m' b) : LaysOut table (m >>= fun _ => m') (.seq a b) := by
  intro c c' w k run
  obtain ⟨_, c₁, w₁, w₂, run₁, run₂, rfl⟩ := Emission.run_bind_ok_iff.1 run
  obtain ⟨method₁, first, rfl, layout₁⟩ := hm c c₁ w₁ k run₁
  obtain ⟨method₂, second, rfl, layout₂⟩ := hm' c₁ c' w₂ (k + w₁.length) run₂
  rw [method₁] at layout₂
  exact ⟨method₂.trans method₁, .seq first second, rfl, .seq layout₁ layout₂⟩

theorem ifElse_laysOut {yes no : Stmt} {a b : Control Segment}
    (hyes : LaysOut table (lowerStmt table yes) a) (hno : LaysOut table (lowerStmt table no) b) :
    LaysOut table (lowerStmt table (.ifElse loc condition yes no))
      (.choice (.condition condition) a b) := by
  intro c c' w k run
  obtain ⟨v, c₁, c₂, w₀, w₁, w₂, decided, first, second, rfl⟩ := lowerStmt_ifElse_run run
  obtain ⟨method₀, labels₀, -⟩ := lowerSegment_straight _ _ _ _ _ decided
  obtain ⟨method₁, taken, rfl, layout₁⟩ := hyes c₁ c₂ w₁ (k + w₀.length + 1) first
  obtain ⟨method₂, other, rfl, layout₂⟩ :=
    hno c₂ c' w₂ (k + w₀.length + 1 + w₁.length + 2) second
  rw [method₁, method₀] at layout₂
  rw [method₀, labels₀] at layout₁
  refine ⟨method₂.trans (method₁.trans method₀), .choice ⟨_, k, w₀.length⟩ taken other, rfl, ?_⟩
  exact .choice ⟨{ c with labels := c.labels + 1 }, c₁, rfl, decided⟩ layout₁ layout₂

theorem while_laysOut {body : Stmt} {a : Control Segment}
    (hbody : LaysOut table (lowerStmt table body) a) :
    LaysOut table (lowerStmt table (.while loc condition body)) (.loop (.condition condition) a) := by
  intro c c' w k run
  obtain ⟨v, c₁, w₀, w₁, decided, repeated, rfl⟩ := lowerStmt_while_run run
  obtain ⟨method₀, labels₀, -⟩ := lowerSegment_straight _ _ _ _ _ decided
  obtain ⟨method₁, inner, rfl, layout₁⟩ := hbody c₁ c' w₁ (k + 1 + w₀.length + 1) repeated
  rw [method₀, labels₀] at layout₁
  refine ⟨method₁.trans method₀, .loop ⟨_, k + 1, w₀.length⟩ inner, rfl, ?_⟩
  exact .loop ⟨{ c with labels := c.labels + 1 }, c₁, rfl, decided⟩ layout₁

end Statements

mutual

theorem lowerStmt_laysOut : ∀ stmt : Stmt, LaysOut table (lowerStmt table stmt) stmt.control
  | .block _ body => lowerStmts_laysOut body
  | .ifThen loc condition yes => by
      rw [lowerStmt_ifThen]
      exact ifElse_laysOut (lowerStmt_laysOut yes) skip_laysOut
  | .ifElse _ _ yes no => ifElse_laysOut (lowerStmt_laysOut yes) (lowerStmt_laysOut no)
  | .while _ _ body => while_laysOut (lowerStmt_laysOut body)
  | .expr _ | .assign .. | .assignElement .. => simple_laysOut rfl
  | .return .. => return_laysOut

theorem lowerStmts_laysOut : ∀ stmts : List Stmt,
    LaysOut table (lowerStmts table stmts) (Stmt.controlIn stmts)
  | [] => skip_laysOut
  | stmt :: stmts => seq_laysOut (lowerStmt_laysOut stmt) (lowerStmts_laysOut stmts)

end

end Lowering

end JavaMinus
