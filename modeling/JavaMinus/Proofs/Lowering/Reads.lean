/-
# What lines read

A line reads the variables that it mentions, but for the one that it assigns to.  `knownAfter` follows
the variables that have been assigned to since the machine last could have come from elsewhere: a line
that goes straight on adds its own, and any other line and every label drops them all.  Where lines
read only what is known in this sense (`Supplied`), and one of them alone assigns to a variable, that
line stands before all that read the variable, with no jump and no label between them
(`assignedOnce_of_supplied`).
-/
import JavaMinus.Assembly.Registers
import JavaMinus.Proofs.Evaluation.Execution
import JavaMinus.Proofs.Lowering.Layout
import Mathlib.Data.List.Basic

namespace JavaMinus

open Ir

def Ir.Instruction.reads (i : Instruction) : List String :=
  match i with
  | .assign (.var _ _) _ rhs => rhs.mentions.map (·.1)
  | i => i.mentions.map (·.1)

theorem Ir.Instruction.reads_subset (i : Instruction) : i.reads ⊆ i.mentions.map (·.1) := by
  unfold reads
  split
  · rw [mentions, List.map_append]
    exact List.subset_append_right _ _
  · exact List.Subset.refl _

namespace Lowering

open Evaluation

def Line.reads : Line → List String
  | .code _ i => i.reads
  | .label _ | .text .. => []

/-! ## Known variables -/

def Line.passes (known : List String) (l : Line) : List String :=
  if l.isStraight then (assigned? l).toList ++ known else []

def knownAfter (known : List String) (w : List Line) : List String := w.foldl Line.passes known

/-- Every line reads, of the variables in question, only those that are known where it stands. -/
def Supplied (P : String → Prop) : List String → List Line → Prop
  | _, [] => True
  | known, l :: w => (∀ t ∈ l.reads, P t → t ∈ known) ∧ Supplied P (l.passes known) w

variable {P : String → Prop} {known : List String} {w : List Line} {t : String}

theorem knownAfter_append (known : List String) (w w' : List Line) :
    knownAfter known (w ++ w') = knownAfter (knownAfter known w) w' :=
  List.foldl_append

theorem supplied_append {w' : List Line} :
    Supplied P known (w ++ w') ↔ Supplied P known w ∧ Supplied P (knownAfter known w) w' := by
  induction w generalizing known with
  | nil => exact ⟨fun h => ⟨trivial, h⟩, fun h => h.2⟩
  | cons l w ih =>
      rw [List.cons_append, Supplied, Supplied, ih, and_assoc]
      rfl

theorem subset_passes {l : Line} (h : l.isStraight = true) : known ⊆ l.passes known := by
  rw [Line.passes, if_pos h]
  exact List.subset_append_right _ _

/-- What is known has been assigned to since the last jump or label, if it was not known before. -/
theorem mem_knownAfter (h : t ∈ knownAfter known w) :
    (t ∈ known ∧ ∀ l ∈ w, l.isStraight = true) ∨
      ∃ before line after, w = before ++ line :: after ∧ assigned? line = some t ∧
        ∀ l ∈ after, l.isStraight = true := by
  induction w generalizing known with
  | nil => exact .inl ⟨h, List.forall_mem_nil _⟩
  | cons l w ih =>
      rcases ih h with ⟨passed, straight⟩ | ⟨before, line, after, rfl, assigned, straight⟩
      · unfold Line.passes at passed
        split at passed
        · rename_i first
          rcases List.mem_append.1 passed with assigned | before
          · exact .inr ⟨[], l, w, rfl, Option.mem_toList.1 assigned, straight⟩
          · exact .inl ⟨before, List.forall_mem_cons.2 ⟨first, straight⟩⟩
        · cases passed
      · exact .inr ⟨l :: before, line, after, rfl, assigned, straight⟩

/-! ## Variables that are assigned to once -/

/-- The variables that lines assign to, in order. -/
def assignedIn (w : List Line) : List String := w.filterMap assigned?

/-- One line alone assigns to the variable; and every line that reads it stands after that one, with
nothing but lines between them that go straight on. -/
def AssignedOnce (t : String) (w : List Line) : Prop :=
  ∃ before line after, w = before ++ line :: after ∧ assigned? line = some t ∧
    (∀ l ∈ before ++ after, assigned? l ≠ some t) ∧
    ∀ pre l post, w = pre ++ l :: post → t ∈ l.reads →
      ∃ mid, pre = before ++ line :: mid ∧ ∀ x ∈ mid, x.isStraight = true

theorem assignedOnce_of_supplied (supplied : Supplied P [] w) (ht : P t)
    (once : (assignedIn w).count t = 1) : AssignedOnce t w := by
  have member : t ∈ assignedIn w := List.count_pos_iff.1 (by rw [once]; exact Nat.zero_lt_one)
  obtain ⟨line, there, assigned⟩ := List.mem_filterMap.1 member
  obtain ⟨before, after, rfl⟩ := List.append_of_mem there
  have others : ∀ l ∈ before ++ after, assigned? l ≠ some t := by
    have none : (assignedIn (before ++ after)).count t = 0 := by
      rw [assignedIn, List.filterMap_append, List.filterMap_cons_some assigned, List.count_append,
        List.count_cons_self] at once
      rw [assignedIn, List.filterMap_append, List.count_append]
      omega
    exact fun l hl same =>
      List.count_eq_zero.1 none (List.mem_filterMap.2 ⟨l, hl, same⟩)
  refine ⟨before, line, after, rfl, assigned, others, fun pre l post split reads => ?_⟩
  rw [split, supplied_append] at supplied
  rcases mem_knownAfter (supplied.2.1 t reads ht) with ⟨none, -⟩ | ⟨front, line', mid, rfl, same, straight⟩
  · cases none
  · have unique : line' ∉ before ∧ line' ∉ after :=
      ⟨fun hl => others line' (List.mem_append_left _ hl) same,
        fun hl => others line' (List.mem_append_right _ hl) same⟩
    rw [List.append_assoc, List.cons_append] at split
    obtain ⟨rfl, rfl, -⟩ := (List.append_cons_inj_of_notMem unique.1 unique.2).1 split
    exact ⟨mid, rfl, straight⟩

end Lowering

end JavaMinus
