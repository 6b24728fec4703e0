/-
# Labels of statements

Of a lowered statement, all labels are different, and every jump goes to one of them.  Each statement
that jumps takes a number, before those of the statements in it, and its two labels are of families
that are told apart by their names; so the numbers of what stands in a row or in one another are apart.
-/
import JavaMinus.Proofs.Lowering.Layout

namespace JavaMinus

theorem Ir.Instruction.targets_readBack (i : Ir.Instruction) : i.readBack.targets = i.targets := by
  induction i with
  | assign dest type rhs ih => exact ih
  | binary | unary | single | call | getField | putField | goto | branch | «return» | returnVoid => rfl

namespace Lowering

open Source
open Ir (Numbered)

def statementFamilies : List String := ["Else", "EndIf", "Loop", "EndLoop"]

def Line.label? : Line → Option String
  | .label name => some name
  | .code .. | .text .. => none

def labelsOf (w : List Line) : List String := w.filterMap Line.label?

section Layouts

variable {table : SymbolTable} {method : String} {control : Control Place} {k low high : Nat}
  {w : List Line}

theorem mem_labelsOf {name : String} : name ∈ labelsOf w ↔ .label name ∈ w := by
  refine List.mem_filterMap.trans ⟨?_, fun h => ⟨_, h, rfl⟩⟩
  rintro ⟨l, hl, same⟩
  cases l with
  | label => cases same; exact hl
  | code | text => cases same

theorem labelsOf_append (w w' : List Line) : labelsOf (w ++ w') = labelsOf w ++ labelsOf w' :=
  List.filterMap_append

theorem labelsOf_straight (h : ∀ l ∈ w, l.isStraight = true) : labelsOf w = [] := by
  refine List.filterMap_eq_nil_iff.2 fun l hl => ?_
  have straight := h l hl
  cases l with
  | code => rfl
  | label | text => cases straight

/-- The labels that the lines jump to. -/
def targetsOf (w : List Line) : List String := w.flatMap Line.targets

theorem targetsOf_append (w w' : List Line) : targetsOf (w ++ w') = targetsOf w ++ targetsOf w' :=
  List.flatMap_append

theorem targetsOf_straight (h : ∀ l ∈ w, l.isStraight = true) : targetsOf w = [] := by
  refine List.flatMap_eq_nil_iff.2 fun l hl => ?_
  have straight := h l hl
  cases l with
  | code n i =>
      rw [Line.isStraight, Ir.Instruction.isStraight, Bool.and_eq_true, List.isEmpty_iff] at straight
      exact i.targets_readBack.trans straight.1
  | label | text => rfl

section Lines

variable {n n' : Nat} {v : Value} {w₁ w₂ : List Line}

theorem labelsOf_choiceLines (h : ∀ l ∈ w, l.isStraight = true) :
    labelsOf (choiceLines low n n' v w w₁ w₂) =
      labelsOf w₁ ++ labelName "Else" low :: (labelsOf w₂ ++ [labelName "EndIf" low]) := by
  rw [choiceLines, labelsOf_append, labelsOf_straight h, List.nil_append]
  show labelsOf (w₁ ++ _) = _
  rw [labelsOf_append]
  show _ ++ _ :: labelsOf (w₂ ++ _) = _
  rw [labelsOf_append]
  rfl

theorem labelsOf_loopLines (h : ∀ l ∈ w, l.isStraight = true) :
    labelsOf (loopLines low n n' v w w₁) =
      labelName "Loop" low :: (labelsOf w₁ ++ [labelName "EndLoop" low]) := by
  show _ :: labelsOf (w ++ _) = _
  rw [labelsOf_append, labelsOf_straight h, List.nil_append]
  show _ :: labelsOf (w₁ ++ _) = _
  rw [labelsOf_append]
  rfl

theorem targetsOf_choiceLines (h : ∀ l ∈ w, l.isStraight = true) :
    targetsOf (choiceLines low n n' v w w₁ w₂) =
      labelName "Else" low :: (targetsOf w₁ ++ labelName "EndIf" low :: targetsOf w₂) := by
  rw [choiceLines, targetsOf_append, targetsOf_straight h, List.nil_append]
  show _ :: targetsOf (w₁ ++ _) = _
  rw [targetsOf_append]
  show _ :: (_ ++ _ :: targetsOf (w₂ ++ _)) = _
  rw [targetsOf_append]
  show _ :: (_ ++ _ :: (targetsOf w₂ ++ [])) = _
  rw [List.append_nil]

theorem targetsOf_loopLines (h : ∀ l ∈ w, l.isStraight = true) :
    targetsOf (loopLines low n n' v w w₁) =
      labelName "EndLoop" low :: (targetsOf w₁ ++ [labelName "Loop" low]) := by
  show targetsOf (w ++ _) = _
  rw [targetsOf_append, targetsOf_straight h, List.nil_append]
  show _ :: targetsOf (w₁ ++ _) = _
  rw [targetsOf_append]
  rfl

end Lines

theorem Layout.numbered (h : Layout table method control k low w high) :
    low ≤ high ∧ Numbered statementFamilies low high (labelsOf w) := by
  induction h with
  | skip => exact ⟨Nat.le_refl _, .nil⟩
  | simple lines =>
      rw [labelsOf_straight lines.straight]
      exact ⟨Nat.le_refl _, .nil⟩
  | leave lines =>
      rw [labelsOf_append, labelsOf_straight lines.straight]
      exact ⟨Nat.le_refl _, .nil⟩
  | seq _ _ first second =>
      rw [labelsOf_append]
      exact ⟨Nat.le_trans first.1 second.1, first.2.append second.2 first.1 second.1⟩
  | @choice _ _ _ _ _ low _ high _ _ _ w₁ w₂ lines _ _ first second =>
      have least := Nat.le_trans first.1 second.1
      have own : Numbered statementFamilies low (low + 1)
          [labelName "Else" low, labelName "EndIf" low] :=
        .pair (by decide) (by decide) (by decide) (by decide) (by decide)
      have all := own.append (first.2.append second.2 first.1 second.1) (Nat.le_succ low) least
      rw [labelsOf_choiceLines lines.straight]
      refine ⟨Nat.le_of_succ_le least, all.perm (List.perm_middle.trans (.cons _ ?_))⟩
      rw [← List.append_assoc]
      exact List.perm_append_comm
  | @loop _ _ _ _ low high _ _ _ w₁ lines _ inner =>
      have own : Numbered statementFamilies low (low + 1)
          [labelName "Loop" low, labelName "EndLoop" low] :=
        .pair (by decide) (by decide) (by decide) (by decide) (by decide)
      have all := own.append inner.2 (Nat.le_succ low) inner.1
      rw [labelsOf_loopLines lines.straight]
      exact ⟨Nat.le_of_succ_le inner.1, all.perm (.cons _ List.perm_append_comm)⟩

theorem Layout.targets (h : Layout table method control k low w high) :
    targetsOf w ⊆ labelsOf w := by
  induction h with
  | skip => exact List.nil_subset _
  | simple lines =>
      rw [targetsOf_straight lines.straight]
      exact List.nil_subset _
  | @leave _ answer _ _ _ _ lines =>
      rw [targetsOf_append, targetsOf_straight lines.straight]
      cases answer <;> exact List.nil_subset _
  | seq _ _ first second =>
      rw [targetsOf_append, labelsOf_append]
      exact List.append_subset.2 ⟨List.subset_append_of_subset_left _ first,
        List.subset_append_of_subset_right _ second⟩
  | choice lines _ _ first second =>
      rw [targetsOf_choiceLines lines.straight, labelsOf_choiceLines lines.straight]
      refine List.cons_subset.2 ⟨by simp, List.append_subset.2 ⟨?_, List.cons_subset.2 ⟨by simp, ?_⟩⟩⟩
      · exact List.subset_append_of_subset_left _ first
      · refine List.subset_append_of_subset_right _ (List.subset_cons_of_subset _ ?_)
        exact List.subset_append_of_subset_left _ second
  | loop lines _ inner =>
      rw [targetsOf_loopLines lines.straight, labelsOf_loopLines lines.straight]
      refine List.cons_subset.2 ⟨by simp, List.append_subset.2 ⟨?_, by simp⟩⟩
      exact List.subset_cons_of_subset _ (List.subset_append_of_subset_left _ inner)

end Layouts

/-! ## Bodies -/

section Bodies

variable {table : SymbolTable} {m : Source.Method} {lines : List Line}

theorem LinesOf.numbered (h : LinesOf table m lines) :
    ∃ high, Ir.Numbered statementFamilies 0 high (labelsOf lines) := by
  obtain ⟨n, c', run⟩ := h
  obtain ⟨_, c₁, w₁, w₂, first, last, rfl⟩ := Emission.run_bind_ok_iff.1 run
  obtain ⟨-, control, -, layout⟩ := lowerStmts_laysOut m.body _ _ _ 0 first
  have none : labelsOf w₂ = [] := by
    split at last
    · cases last
      rfl
    · obtain ⟨-, -, rfl⟩ := Emission.run_pure_ok_iff.1 last
      rfl
  rw [labelsOf_append, none, List.append_nil]
  exact ⟨_, layout.numbered.2⟩

theorem bodyOf_labelsOf : ∀ labels : List String,
    (bodyOf labels lines).1.flatMap (·.labels) ++ (bodyOf labels lines).2 =
      labels ++ labelsOf lines := by
  induction lines with
  | nil => exact fun labels => (List.append_nil labels).symm
  | cons l lines ih =>
      intro labels
      cases l with
      | text n s => exact ih labels
      | label name => exact (ih (labels ++ [name])).trans (List.append_assoc ..)
      | code n i =>
          rw [bodyOf, List.flatMap_cons, List.append_assoc, ih []]
          rfl

theorem LoweredTo.numbered {u : Ir.Method} (h : LoweredTo table m u) : ∃ high,
    Ir.Numbered statementFamilies 0 high
      (u.readBack.body.flatMap (·.labels) ++ u.readBack.trailing) := by
  obtain ⟨lines, linesOf, rfl⟩ := h
  obtain ⟨high, numbered⟩ := linesOf.numbered
  refine ⟨high, ?_⟩
  show Ir.Numbered _ _ _ (((bodyOf [] lines).1.map Ir.Labeled.readBack).flatMap (·.labels) ++ _)
  rw [List.flatMap_map]
  have same : (bodyOf [] lines).1.flatMap (·.labels) ++ (bodyOf [] lines).2 = [] ++ labelsOf lines :=
    bodyOf_labelsOf []
  exact same.symm ▸ numbered

end Bodies

end Lowering

end JavaMinus
