/-
# Lowered statements keep their control

The lines of a statement, run by a machine that knows labels and jumps, come to the code of its
conditions and of its simple statements in the order that the statement has them, for all outcomes of
the conditions (`lowerStmt_simulates`).

The machine is given the outcomes, as the runs of the statement's control are.  It shows every line that
it comes to, only labels and jumps without a condition are passed in silence; so a condition that is a
variable, which has no lines of its own, is still seen at its jump, and a returned variable at its return.
A run of the control shows its segments, and each of these stands somewhere in the lines.  The induction
is on the run of the control, so that a loop comes back to its own lines with the outcomes that are left;
what stands before and after the lines is arbitrary, as long as no label stands there twice.
-/
import JavaMinus.Proofs.Lowering.Labels

namespace JavaMinus.Lowering

open Source

/-! ## The machine -/

/-- Where the machine is, and the outcomes that are left. -/
structure Config where
  position : Nat
  outcomes : List Bool
deriving DecidableEq, Repr

def Config.moveTo (k : Config) (position : Nat) : Config := { k with position := position }

def labelAt? (w : List Line) (name : String) : Option Nat := w.idxOf? (.label name)

/-- Whether a jump under a condition is taken, by the outcome of the value that it tests. -/
def isTaken : Ir.Instruction → Bool → Bool
  | .unary ⟨.not, _⟩ _, outcome => !outcome
  | _, outcome => outcome

/-- One step of the machine.  There is none from a return, at the end of the lines, or from a conditional
jump without an outcome. -/
def step? (w : List Line) (k : Config) : Option Config :=
  match w[k.position]? with
  | some (.code _ (.goto name)) => (labelAt? w name).map k.moveTo
  | some (.code _ (.branch condition name)) =>
      match k.outcomes with
      | [] => none
      | outcome :: rest =>
          if isTaken condition outcome then (labelAt? w name).map (⟨·, rest⟩)
          else some ⟨k.position + 1, rest⟩
  | some (.code _ (.return ..)) | some (.code _ .returnVoid) => none
  | some (.code ..) | some (.label _) => some (k.moveTo (k.position + 1))
  | some (.text ..) | none => none

/-- Whether the machine shows the line: all code but jumps without a condition. -/
def Line.isShown : Line → Bool
  | .code _ (.goto _) | .label _ | .text .. => false
  | .code .. => true

/-- The position, if a line stands there that is shown. -/
def shown (w : List Line) (k : Config) : List Nat :=
  if (w[k.position]?).any Line.isShown then [k.position] else []

/-- Steps in a row, and the positions that they show; the last one is not among them. -/
inductive Steps (w : List Line) : Config → List Nat → Config → Prop
  | done (k : Config) : Steps w k [] k
  | step {k k' k'' : Config} {trace : List Nat} :
      step? w k = some k' → Steps w k' trace k'' → Steps w k (shown w k ++ trace) k''

theorem Steps.append {w : List Line} {k k' k'' : Config} {trace trace' : List Nat}
    (h : Steps w k trace k') (h' : Steps w k' trace' k'') : Steps w k (trace ++ trace') k'' := by
  induction h with
  | done => exact h'
  | step first _ ih =>
      rw [List.append_assoc]
      exact .step first (ih h')

/-- Where the machine has come to with a run, and how: to the end of a statement's lines, to the return
of the piece that the run comes to last, or to the conditional jump of this piece, without an outcome. -/
def Ends (w : List Line) (last : Nat) (r : Course Place) (k : Config) : Prop :=
  match r.exit with
  | .finished => k.position = last
  | .returned => r.trace.getLast?.map Place.turn = some k.position ∧
      ∃ n i, w[k.position]? = some (.code n i) ∧ i.isReturn = true
  | .waiting => r.trace.getLast?.map Place.turn = some k.position ∧ k.outcomes = [] ∧
      ∃ n v label, w[k.position]? = some (.code n (jumpUnless v label))

section Machine

variable {all w : List Line} {k n : Nat} {l : Line} {o : List Bool} {name : String} {v : Value}

theorem append_isPrefix_drop {w' : List Line} (h : w ++ w' <+: all.drop k) :
    w <+: all.drop k ∧ w' <+: all.drop (k + w.length) := by
  obtain ⟨back, same⟩ := h
  refine ⟨⟨w' ++ back, by rw [← same, List.append_assoc]⟩, ⟨back, ?_⟩⟩
  rw [← List.drop_drop, ← same, List.append_assoc, List.drop_left]

theorem cons_isPrefix_drop (h : l :: w <+: all.drop k) :
    all[k]? = some l ∧ w <+: all.drop (k + 1) := by
  obtain ⟨first, rest⟩ := append_isPrefix_drop (w := [l]) h
  obtain ⟨back, same⟩ := first
  refine ⟨?_, rest⟩
  rw [← List.head?_drop, ← same]
  rfl

theorem labelAt?_eq (unique : (labelsOf all).Nodup) (h : all[k]? = some (.label name)) :
    labelAt? all name = some k := by
  obtain ⟨bound, there⟩ := List.getElem?_eq_some_iff.1 h
  refine List.findIdx?_eq_some_iff_getElem.2 ⟨bound, by rw [there]; exact beq_self_eq_true _, ?_⟩
  intro j before same
  have earlier : .label name ∈ all.take k := by
    rw [← eq_of_beq same]
    exact List.mem_take_iff_getElem.2 ⟨j, by omega, rfl⟩
  have here : .label name ∈ all.drop k := by
    rw [← there]
    exact List.mem_drop_iff_getElem.2 ⟨0, by omega, rfl⟩
  rw [← List.take_append_drop k all, labelsOf_append] at unique
  exact (List.nodup_append.1 unique).2.2 name (mem_labelsOf.2 earlier) name (mem_labelsOf.2 here) rfl

theorem steps_of_silent {c c' : Config} (h : step? all c = some c')
    (silent : (all[c.position]?).any Line.isShown = false) : Steps all c [] c' := by
  have first := Steps.step h (.done c')
  rw [shown, if_neg (Bool.eq_false_iff.1 silent)] at first
  exact first

theorem steps_of_shown {c c' : Config} (h : step? all c = some c')
    (seen : (all[c.position]?).any Line.isShown = true) : Steps all c [c.position] c' := by
  have first := Steps.step h (.done c')
  rw [shown, if_pos seen] at first
  exact first

theorem steps_label (h : all[k]? = some (.label name)) : Steps all ⟨k, o⟩ [] ⟨k + 1, o⟩ :=
  steps_of_silent (by rw [step?, h]; rfl) (by rw [h]; rfl)

theorem steps_goto (unique : (labelsOf all).Nodup) {j : Nat}
    (h : all[k]? = some (.code n (.goto name))) (hl : all[j]? = some (.label name)) :
    Steps all ⟨k, o⟩ [] ⟨j, o⟩ :=
  steps_of_silent (by rw [step?, h]; simp only [labelAt?_eq unique hl]; rfl) (by rw [h]; rfl)

/-- A jump is not taken if its value is true. -/
theorem steps_true (h : all[k]? = some (.code n (jumpUnless v name))) :
    Steps all ⟨k, true :: o⟩ [k] ⟨k + 1, o⟩ :=
  steps_of_shown (by rw [step?, h]; rfl) (by rw [h]; rfl)

theorem steps_false (unique : (labelsOf all).Nodup) {j : Nat}
    (h : all[k]? = some (.code n (jumpUnless v name))) (hl : all[j]? = some (.label name)) :
    Steps all ⟨k, false :: o⟩ [k] ⟨j, o⟩ := by
  refine steps_of_shown ?_ (by rw [h]; rfl)
  rw [step?, h]
  show (labelAt? all name).map _ = _
  rw [labelAt?_eq unique hl]
  rfl

theorem step?_straight (h : all[k]? = some l) (straight : l.isStraight = true) :
    step? all ⟨k, o⟩ = some ⟨k + 1, o⟩ := by
  rw [step?, h]
  cases l with
  | label | text => cases straight
  | code n i =>
      cases i with
      | assign | binary | unary | single | call | getField | putField => rfl
      | goto | branch | «return» | returnVoid => cases straight

theorem isShown_of_isStraight (straight : l.isStraight = true) : l.isShown = true := by
  cases l with
  | label | text => cases straight
  | code n i =>
      cases i with
      | goto => cases straight
      | assign | binary | unary | single | call | getField | putField | branch | «return»
      | returnVoid => rfl

/-- The machine goes through lines that go straight on, and shows them. -/
theorem steps_straight (straight : ∀ l ∈ w, l.isStraight = true) :
    ∀ {k}, w <+: all.drop k → Steps all ⟨k, o⟩ (List.range' k w.length) ⟨k + w.length, o⟩ := by
  induction w with
  | nil => exact fun _ => .done _
  | cons l w ih =>
      intro k stands
      obtain ⟨first, rest⟩ := cons_isPrefix_drop stands
      obtain ⟨own, others⟩ := List.forall_mem_cons.1 straight
      have here : Steps all ⟨k, o⟩ [k] ⟨k + 1, o⟩ :=
        steps_of_shown (step?_straight first own) (by rw [first]; exact isShown_of_isStraight own)
      rw [List.length_cons, Nat.add_comm w.length 1, ← Nat.add_assoc, Nat.add_comm 1 w.length]
      exact here.append (ih others rest)

end Machine

/-! ## A machine that follows a run -/

/-- The position where a run stands that has not finished. -/
def standing (r : Course Place) (j : Nat) : List Nat := if r.exit = .finished then [] else [j]

/-- From the configuration on, the machine comes to the positions of the pieces of the run, and stops
where the run does. -/
def Follows (all : List Line) (last : Nat) (r : Course Place) (c : Config) : Prop :=
  ∃ j seen, Steps all c seen ⟨j, r.rest⟩ ∧ seen ++ standing r j = r.trace.flatMap Place.positions ∧
    Ends all last r ⟨j, r.rest⟩

section Follows

variable {all : List Line} {last last' j : Nat} {r : Course Place} {c c' : Config} {o : List Bool}
  {ps : List Place}

theorem follows_finished_iff :
    Follows all last ⟨ps, .finished, o⟩ c ↔ Steps all c (ps.flatMap Place.positions) ⟨last, o⟩ := by
  constructor
  · rintro ⟨j, seen, steps, shows, ends⟩
    obtain rfl : j = last := ends
    rw [standing, if_pos rfl, List.append_nil] at shows
    exact shows ▸ steps
  · exact fun steps => ⟨last, _, steps, List.append_nil _, rfl⟩

theorem Ends.after (h : Ends all last r c) : Ends all last (r.after ps) c := by
  have kept (tied : r.trace.getLast?.map Place.turn = some c.position) :
      (ps ++ r.trace).getLast?.map Place.turn = some c.position := by
    obtain ⟨p, hp, turn⟩ := Option.map_eq_some_iff.1 tied
    rw [List.getLast?_append, hp]
    exact congrArg some turn
  obtain ⟨trace, exit, rest⟩ := r
  cases exit with
  | finished => exact h
  | returned | waiting => exact ⟨kept h.1, h.2⟩

theorem Follows.after (first : Steps all c (ps.flatMap Place.positions) c')
    (h : Follows all last r c') : Follows all last (r.after ps) c := by
  obtain ⟨j, seen, steps, shows, ends⟩ := h
  refine ⟨j, _, first.append steps, ?_, ends.after⟩
  rw [List.append_assoc, Course.after, List.flatMap_append, ← shows, standing, standing]

theorem Follows.silently (first : Steps all c [] c') (h : Follows all last r c') :
    Follows all last r c := by
  have none : Steps all c (([] : List Place).flatMap Place.positions) c' := first
  exact h.after none

theorem Follows.of_ne (h : Follows all last r c) (stops : r.exit ≠ .finished) :
    Follows all last' r c := by
  obtain ⟨j, seen, steps, shows, ends⟩ := h
  refine ⟨j, seen, steps, shows, ?_⟩
  obtain ⟨trace, exit, rest⟩ := r
  cases exit with
  | finished => exact absurd rfl stops
  | returned | waiting => exact ends

/-- Where the machine would be at the end, it may go on to another. -/
theorem Follows.goOn (h : Follows all last r c)
    (onward : Steps all ⟨last, r.rest⟩ [] ⟨last', r.rest⟩) : Follows all last' r c := by
  by_cases finished : r.exit = .finished
  · obtain ⟨trace, exit, rest⟩ := r
    subst finished
    have whole := (follows_finished_iff.1 h).append onward
    rw [List.append_nil] at whole
    exact follows_finished_iff.2 whole
  · exact h.of_ne finished

/-- Where a run ends, no line but that of a return or of a conditional jump is shown. -/
theorem Ends.shown_eq (h : Ends all all.length r c) : shown all c = standing r c.position := by
  unfold shown standing
  obtain ⟨trace, exit, rest⟩ := r
  cases exit with
  | finished =>
      have past : c.position = all.length := h
      rw [past, List.getElem?_eq_none (Nat.le_refl _)]
      rfl
  | returned =>
      obtain ⟨-, n, i, there, returns⟩ := h
      rw [there]
      cases i with
      | «return» | returnVoid => rfl
      | assign | binary | unary | single | call | getField | putField | goto | branch => cases returns
  | waiting =>
      obtain ⟨-, -, n, v, label, there⟩ := h
      rw [there]
      rfl

theorem Ends.halts (h : Ends all all.length r c) : step? all c = none := by
  unfold step?
  obtain ⟨trace, exit, rest⟩ := r
  cases exit with
  | finished =>
      have past : c.position = all.length := h
      rw [past, List.getElem?_eq_none (Nat.le_refl _)]
  | returned =>
      obtain ⟨-, n, i, there, returns⟩ := h
      rw [there]
      cases i with
      | «return» | returnVoid => rfl
      | assign | binary | unary | single | call | getField | putField | goto | branch => cases returns
  | waiting =>
      obtain ⟨-, none, n, v, label, there⟩ := h
      rw [there, none]
      rfl

end Follows

/-! ## Layouts that stand somewhere -/

section Layouts

variable {all w w₁ w₂ : List Line} {k low n n' : Nat} {o : List Bool} {v : Value}
  {table : SymbolTable} {method : String}

structure ChoiceStands (all : List Line) (k low n n' : Nat) (v : Value) (w w₁ w₂ : List Line) :
    Prop where
  decides : w <+: all.drop k
  jump : all[k + w.length]? = some (.code n (jumpUnless v (labelName "Else" low)))
  yes : w₁ <+: all.drop (k + w.length + 1)
  skip : all[k + w.length + 1 + w₁.length]? = some (.code n' (.goto (labelName "EndIf" low)))
  otherwise : all[k + w.length + 1 + w₁.length + 1]? = some (.label (labelName "Else" low))
  no : w₂ <+: all.drop (k + w.length + 1 + w₁.length + 2)
  last : all[k + w.length + 1 + w₁.length + 2 + w₂.length]? =
    some (.label (labelName "EndIf" low))

namespace ChoiceStands

theorem toNo (unique : (labelsOf all).Nodup) (h : ChoiceStands all k low n n' v w w₁ w₂) :
    Steps all ⟨k + w.length, false :: o⟩ [k + w.length] ⟨k + w.length + 1 + w₁.length + 2, o⟩ :=
  (steps_false unique h.jump h.otherwise).append (steps_label h.otherwise)

theorem afterNo (h : ChoiceStands all k low n n' v w w₁ w₂) :
    Steps all ⟨k + w.length + 1 + w₁.length + 2 + w₂.length, o⟩ []
      ⟨k + (choiceLines low n n' v w w₁ w₂).length, o⟩ := by
  have last : k + (choiceLines low n n' v w w₁ w₂).length =
      k + w.length + 1 + w₁.length + 2 + w₂.length + 1 := by
    simp only [choiceLines, List.length_append, List.length_cons, List.length_nil]
    omega
  rw [last]
  exact steps_label h.last

theorem afterYes (unique : (labelsOf all).Nodup) (h : ChoiceStands all k low n n' v w w₁ w₂) :
    Steps all ⟨k + w.length + 1 + w₁.length, o⟩ []
      ⟨k + (choiceLines low n n' v w w₁ w₂).length, o⟩ :=
  (steps_goto unique h.skip h.last).append h.afterNo

end ChoiceStands

theorem choiceStands (h : choiceLines low n n' v w w₁ w₂ <+: all.drop k) :
    ChoiceStands all k low n n' v w w₁ w₂ := by
  obtain ⟨decides, rest₁⟩ := append_isPrefix_drop h
  obtain ⟨jump, rest₂⟩ := cons_isPrefix_drop rest₁
  obtain ⟨yes, rest₃⟩ := append_isPrefix_drop rest₂
  obtain ⟨skip, rest₄⟩ := cons_isPrefix_drop rest₃
  obtain ⟨otherwise, rest₅⟩ := cons_isPrefix_drop rest₄
  obtain ⟨no, rest₆⟩ := append_isPrefix_drop rest₅
  obtain ⟨last, -⟩ := cons_isPrefix_drop rest₆
  exact ⟨decides, jump, yes, skip, otherwise, no, last⟩

structure LoopStands (all : List Line) (k low n n' : Nat) (v : Value) (w w₁ : List Line) :
    Prop where
  first : all[k]? = some (.label (labelName "Loop" low))
  decides : w <+: all.drop (k + 1)
  jump : all[k + 1 + w.length]? = some (.code n (jumpUnless v (labelName "EndLoop" low)))
  body : w₁ <+: all.drop (k + 1 + w.length + 1)
  back : all[k + 1 + w.length + 1 + w₁.length]? =
    some (.code n' (.goto (labelName "Loop" low)))
  last : all[k + 1 + w.length + 1 + w₁.length + 1]? = some (.label (labelName "EndLoop" low))

namespace LoopStands

theorem again (unique : (labelsOf all).Nodup) (h : LoopStands all k low n n' v w w₁) :
    Steps all ⟨k + 1 + w.length + 1 + w₁.length, o⟩ [] ⟨k, o⟩ :=
  steps_goto unique h.back h.first

theorem leave (unique : (labelsOf all).Nodup) (h : LoopStands all k low n n' v w w₁) :
    Steps all ⟨k + 1 + w.length, false :: o⟩ [k + 1 + w.length]
      ⟨k + (loopLines low n n' v w w₁).length, o⟩ := by
  have last : k + (loopLines low n n' v w w₁).length = k + 1 + w.length + 1 + w₁.length + 2 := by
    simp only [loopLines, List.length_append, List.length_cons, List.length_nil]
    omega
  rw [last]
  exact (steps_false unique h.jump h.last).append (steps_label h.last)

end LoopStands

theorem loopStands (h : loopLines low n n' v w w₁ <+: all.drop k) :
    LoopStands all k low n n' v w w₁ := by
  obtain ⟨first, rest₁⟩ := cons_isPrefix_drop h
  obtain ⟨decides, rest₂⟩ := append_isPrefix_drop rest₁
  obtain ⟨jump, rest₃⟩ := cons_isPrefix_drop rest₂
  obtain ⟨body, rest₄⟩ := append_isPrefix_drop rest₃
  obtain ⟨back, rest₅⟩ := cons_isPrefix_drop rest₄
  obtain ⟨last, -⟩ := cons_isPrefix_drop rest₅
  exact ⟨first, decides, jump, body, back, last⟩

theorem standsIn {s : Segment} {answer : Option Value}
    (lines : SegmentLines table method s answer w) (there : w <+: all.drop k)
    (decides : ∀ e, s = .condition e → ∃ v n label, answer = some v ∧
      all[k + w.length]? = some (.code n (jumpUnless v label)))
    (leaves : ∀ value, s = .result value →
      ∃ n, all[k + w.length]? = some (.code n (returnOf table method answer))) :
    (⟨s, k, w.length⟩ : Place).StandsIn table method all answer where
  whole := by rw [← List.prefix_iff_eq_take.1 there]
  lines := by
    rw [← List.prefix_iff_eq_take.1 there]
    exact lines
  decides := decides
  leaves := leaves

theorem Layout.stands {control : Control Place} {high : Nat}
    (h : Layout table method control k low w high) (there : w <+: all.drop k) :
    ∀ p ∈ control.pieces, ∃ answer, p.StandsIn table method all answer := by
  induction h with
  | skip => exact List.forall_mem_nil _
  | simple lines =>
      refine List.forall_mem_singleton.2 ⟨_, standsIn lines there ?_ ?_⟩
      · exact fun _ => nofun
      · exact fun _ => nofun
  | leave lines =>
      obtain ⟨own, last⟩ := append_isPrefix_drop there
      refine List.forall_mem_singleton.2 ⟨_, standsIn lines own ?_ ?_⟩
      · exact fun _ => nofun
      · exact fun _ _ => ⟨_, (cons_isPrefix_drop last).1⟩
  | seq _ _ first second =>
      obtain ⟨there₁, there₂⟩ := append_isPrefix_drop there
      exact List.forall_mem_append.2 ⟨first there₁, second there₂⟩
  | choice lines _ _ first second =>
      have parts := choiceStands there
      refine List.forall_mem_cons.2 ⟨⟨_, standsIn lines parts.decides ?_ ?_⟩,
        List.forall_mem_append.2 ⟨first parts.yes, second parts.no⟩⟩
      · exact fun _ _ => ⟨_, _, _, rfl, parts.jump⟩
      · exact fun _ => nofun
  | loop lines _ inner =>
      have parts := loopStands there
      refine List.forall_mem_cons.2 ⟨⟨_, standsIn lines parts.decides ?_ ?_⟩, inner parts.body⟩
      · exact fun _ _ => ⟨_, _, _, rfl, parts.jump⟩
      · exact fun _ => nofun

/-- The machine goes through the lines of a segment. -/
theorem steps_segment {s : Segment} {answer : Option Value}
    (lines : SegmentLines table method s answer w) (there : w <+: all.drop k) :
    Steps all ⟨k, o⟩ (List.range' k w.length) ⟨k + w.length, o⟩ :=
  steps_straight lines.straight there

/-- The machine goes through the lines of a condition and, from the jump behind them, on. -/
theorem steps_condition {e : Expr} {answer : Option Value} {o o' : List Bool} {i : Nat}
    (lines : SegmentLines table method (.condition e) answer w) (there : w <+: all.drop k)
    (jump : Steps all ⟨k + w.length, o⟩ [k + w.length] ⟨i, o'⟩) :
    Steps all ⟨k, o⟩ ([(⟨.condition e, k, w.length⟩ : Place)].flatMap Place.positions) ⟨i, o'⟩ := by
  rw [List.flatMap_singleton]
  exact (steps_segment lines there).append jump

/-- Whatever run the control has, the machine follows it, from the first line of a layout on. -/
theorem Layout.simulates (unique : (labelsOf all).Nodup) {control : Control Place} {r : Course Place}
    (run : control.Runs o r) : ∀ {k low w high}, Layout table method control k low w high →
      w <+: all.drop k → Follows all (k + w.length) r ⟨k, o⟩ := by
  induction run with
  | skip =>
      intro k low w high layout there
      cases layout
      exact follows_finished_iff.2 (.done _)
  | simple =>
      intro k low w high layout there
      cases layout with
      | simple lines =>
          refine follows_finished_iff.2 ?_
          rw [List.flatMap_singleton, Place.positions, Place.turning, List.append_nil]
          exact steps_segment lines there
  | leave =>
      intro k low w high layout there
      cases layout with
      | @leave _ answer _ _ n w lines =>
          obtain ⟨own, last⟩ := append_isPrefix_drop there
          refine ⟨_, _, steps_segment lines own, (List.flatMap_singleton _ _).symm, rfl, n, _,
            (cons_isPrefix_drop last).1, ?_⟩
          cases answer <;> rfl
  | seq _ _ first second =>
      intro k low w high layout there
      cases layout with
      | @seq _ _ _ _ _ _ w w' layout₁ layout₂ =>
          obtain ⟨there₁, there₂⟩ := append_isPrefix_drop there
          rw [List.length_append, ← Nat.add_assoc]
          exact .after (follows_finished_iff.1 (first layout₁ there₁)) (second layout₂ there₂)
  | seqStop _ stops first =>
      intro k low w high layout there
      cases layout with
      | seq layout₁ _ => exact (first layout₁ (append_isPrefix_drop there).1).of_ne stops
  | choiceWait =>
      intro k low w high layout there
      cases layout with
      | choice lines _ _ =>
          have parts := choiceStands there
          exact ⟨_, _, steps_segment lines parts.decides, (List.flatMap_singleton _ _).symm, rfl, rfl,
            _, _, _, parts.jump⟩
  | choiceYes _ ih =>
      intro k low w high layout there
      cases layout with
      | choice lines yes _ =>
          have parts := choiceStands there
          exact .after (steps_condition lines parts.decides (steps_true parts.jump))
            ((ih yes parts.yes).goOn (parts.afterYes unique))
  | choiceNo _ ih =>
      intro k low w high layout there
      cases layout with
      | choice lines _ no =>
          have parts := choiceStands there
          exact .after (steps_condition lines parts.decides (parts.toNo unique))
            ((ih no parts.no).goOn parts.afterNo)
  | loopWait =>
      intro k low w high layout there
      cases layout with
      | loop lines _ =>
          have parts := loopStands there
          refine .silently (steps_label parts.first) ?_
          exact ⟨_, _, steps_segment lines parts.decides, (List.flatMap_singleton _ _).symm, rfl, rfl,
            _, _, _, parts.jump⟩
  | loopDone =>
      intro k low w high layout there
      cases layout with
      | loop lines _ =>
          have parts := loopStands there
          refine .silently (steps_label parts.first) (follows_finished_iff.2 ?_)
          exact steps_condition lines parts.decides (parts.leave unique)
  | @loopAgain p _ _ _ ps r _ _ first again =>
      intro k low w high layout there
      cases layout with
      | loop lines body =>
          have parts := loopStands there
          have turn := (follows_finished_iff.1 (first body parts.body)).append (parts.again unique)
          rw [List.append_nil] at turn
          refine .silently (steps_label parts.first) (.after (r := r.after ps)
            (steps_condition lines parts.decides (steps_true parts.jump)) ?_)
          -- After the body the machine is back at the first line, with the outcomes that are left.
          exact .after turn (again (.loop lines body) there)
  | loopStop _ stops first =>
      intro k low w high layout there
      cases layout with
      | loop lines body =>
          have parts := loopStands there
          refine .silently (steps_label parts.first)
            (.after (steps_condition lines parts.decides (steps_true parts.jump)) ?_)
          exact (first body parts.body).of_ne stops

end Layouts

/-! ## Statements -/

/-- The lines of a statement keep its control.  Its segments stand in them; each label stands once, and
each jump goes to one that stands there; and for all outcomes of the conditions there is one run of the
control, whose segments the machine comes to in this order, with the jump under each condition, and to no
other code but jumps without a condition.  It halts behind the lines, at the return of the segment that
the run comes to last, or at the jump under this segment, for which no outcome is left, as the run of the
control does. -/
theorem lowerStmt_simulates {table : SymbolTable} {stmt : Stmt} {c c' : Cursor} {w : List Line}
    (run : (lowerStmt table stmt).run c = ⟨.ok (), c', w⟩) :
    ∃ control : Control Place, control.map Place.segment = stmt.control ∧
      (∀ p ∈ control.pieces, ∃ answer, p.StandsIn table c.method w answer) ∧
      (labelsOf w).Nodup ∧ targetsOf w ⊆ labelsOf w ∧
      ∀ outcomes, ∃ (r : Course Place) (seen : List Nat) (k : Config),
        (∀ r', control.Runs outcomes r' ↔ r' = r) ∧ Steps w ⟨0, outcomes⟩ seen k ∧
        seen ++ shown w k = r.trace.flatMap Place.positions ∧ k.outcomes = r.rest ∧
        Ends w w.length r k ∧ step? w k = none := by
  obtain ⟨-, control, same, layout⟩ := lowerStmt_laysOut stmt c c' w 0 run
  have unique := layout.numbered.2.distinct
  refine ⟨control, same, layout.stands List.prefix_rfl, unique, layout.targets, fun outcomes => ?_⟩
  obtain ⟨r, runs, -⟩ := control.exists_runs outcomes
  obtain ⟨j, seen, steps, shows, ends⟩ := layout.simulates unique runs List.prefix_rfl
  rw [Nat.zero_add] at ends
  refine ⟨r, seen, ⟨j, r.rest⟩, fun r' => ⟨runs.unique r', fun h => h ▸ runs⟩, steps, ?_, rfl, ends,
    ends.halts⟩
  rw [ends.shown_eq]
  exact shows

/-- The class of a method `f` with two numbers. -/
def counting : SymbolTable := ⟨[], "A", none, [], [⟨"f", .int, [⟨"n", .int⟩, ⟨"m", .int⟩], [], false⟩]⟩

/-- The statement `while (0 < n) if (n < m) return n; else n = n - 1;`. -/
def countdown : Stmt :=
  .while ⟨1, 1⟩
    (.binary ⟨2, ⟨1, 10⟩⟩ .lt (.int ⟨0, ⟨1, 8⟩⟩ 0) (.name ⟨1, ⟨1, 12⟩⟩ "n"))
    (.ifElse ⟨1, 15⟩
      (.binary ⟨5, ⟨1, 21⟩⟩ .lt (.name ⟨3, ⟨1, 19⟩⟩ "n") (.name ⟨4, ⟨1, 23⟩⟩ "m"))
      (.return ⟨1, 26⟩ (some (.name ⟨6, ⟨1, 33⟩⟩ "n")))
      (.assign ⟨1, 41⟩ "n"
        (.binary ⟨9, ⟨1, 47⟩⟩ .sub (.name ⟨7, ⟨1, 45⟩⟩ "n") (.int ⟨8, ⟨1, 49⟩⟩ 1))))

def countdownLines : List Line :=
  [.label "Loop0",
    .code 2 (.assign (.var "tmp0" .boolean) .boolean
      (.binary (.literal "0" .int32) ⟨.lt, .boolean⟩ (.var "n" .int32))),
    .code 2 (.branch (.unary ⟨.not, .boolean⟩ (.var "tmp0" .boolean)) "EndLoop0"),
    .code 2 (.assign (.var "tmp1" .boolean) .boolean
      (.binary (.var "n" .int32) ⟨.lt, .boolean⟩ (.var "m" .int32))),
    .code 2 (.branch (.unary ⟨.not, .boolean⟩ (.var "tmp1" .boolean)) "Else1"),
    .code 2 (.return .int32 (.var "n" .int32)),
    .code 2 (.goto "EndIf1"),
    .label "Else1",
    .code 2 (.assign (.var "n" .int32) .int32
      (.binary (.var "n" .int32) ⟨.sub, .int32⟩ (.literal "1" .int32))),
    .label "EndIf1",
    .code 2 (.goto "Loop0"),
    .label "EndLoop0"]

/-- A conditional statement in a loop, with a return. -/
theorem countdown_simulates :
    (lowerStmt counting countdown).run ⟨2, "f", 0, 0⟩ =
      ⟨.ok (), ⟨2, "f", 2, 2⟩, countdownLines⟩ ∧
    ∃ control : Control Place, control.map Place.segment = countdown.control ∧
      ∀ outcomes, ∃ (r : Course Place) (seen : List Nat) (k : Config), control.Runs outcomes r ∧
        Steps countdownLines ⟨0, outcomes⟩ seen k ∧
        seen ++ shown countdownLines k = r.trace.flatMap Place.positions ∧
        Ends countdownLines 12 r k ∧ step? countdownLines k = none := by
  have run : (lowerStmt counting countdown).run ⟨2, "f", 0, 0⟩ =
      ⟨.ok (), ⟨2, "f", 2, 2⟩, countdownLines⟩ := by cbv
  obtain ⟨control, same, -, -, -, simulated⟩ := lowerStmt_simulates run
  refine ⟨run, control, same, fun outcomes => ?_⟩
  obtain ⟨r, seen, k, only, steps, shows, -, ends, halts⟩ := simulated outcomes
  exact ⟨r, seen, k, (only r).2 rfl, steps, shows, ends, halts⟩

end JavaMinus.Lowering
