/-
# Places and offsets

The place of a byte of a text, by its offset: the line is one more than the line breaks before it,
and the column is counted from the byte after the last of them (`Location.ofOffset`).  The place that
is reached by walking over the characters from the start is that one (`Location.pastAll_start`).
-/
import Mathlib.Data.List.Count
import JavaMinus.Location

namespace JavaMinus

/-- The number of bytes of a text. -/
def bytes (cs : List Char) : Nat := (String.ofList cs).utf8ByteSize

@[simp] theorem bytes_nil : bytes [] = 0 := rfl

theorem bytes_cons (c : Char) (cs : List Char) : bytes (c :: cs) = c.utf8Size + bytes cs := by
  rw [bytes, String.ofList_cons, String.utf8ByteSize_append, String.utf8ByteSize_singleton, bytes]

theorem bytes_append (cs ds : List Char) : bytes (cs ++ ds) = bytes cs + bytes ds := by
  rw [bytes, String.ofList_append, String.utf8ByteSize_append, bytes, bytes]

theorem bytes_pos {cs : List Char} (some : cs ≠ []) : 0 < bytes cs := by
  cases cs with
  | nil => exact absurd rfl some
  | cons c cs =>
      rw [bytes_cons]
      exact Nat.add_pos_left c.utf8Size_pos _

/-- The characters of a text that begin before an offset. -/
def charsBefore : List Char → Nat → List Char
  | [], _ => []
  | c :: cs, offset => if offset = 0 then [] else c :: charsBefore cs (offset - c.utf8Size)

/-- The offset just after the last line break of a text, zero if there is none. -/
def lineStart : List Char → Nat
  | [] => 0
  | c :: cs =>
      if '\n' ∈ cs then c.utf8Size + lineStart cs else if c = '\n' then c.utf8Size else 0

/-- The place of an offset in a text. -/
def Location.ofOffset (source : List Char) (offset : Nat) : Location :=
  ⟨1 + (charsBefore source offset).count '\n',
    1 + offset - lineStart (charsBefore source offset)⟩

theorem charsBefore_append (cs rest : List Char) : charsBefore (cs ++ rest) (bytes cs) = cs := by
  induction cs with
  | nil =>
      cases rest with
      | nil => rfl
      | cons c rest => rfl
  | cons c cs ih =>
      have some : c.utf8Size + bytes cs ≠ 0 := Nat.ne_of_gt (Nat.add_pos_left c.utf8Size_pos _)
      rw [bytes_cons, List.cons_append, charsBefore, if_neg some, Nat.add_sub_cancel_left, ih]

theorem lineStart_of_not_mem {cs : List Char} (h : '\n' ∉ cs) : lineStart cs = 0 := by
  cases cs with
  | nil => rfl
  | cons c cs =>
      obtain ⟨other, none⟩ := not_or.1 (List.mem_cons.not.1 h)
      rw [lineStart, if_neg none, if_neg (Ne.symm other)]

namespace Location

theorem pastAll_append (l : Location) (cs ds : List Char) :
    l.pastAll (cs ++ ds) = (l.pastAll cs).pastAll ds :=
  List.foldl_append

/-- Walking over a text: its line breaks are counted, and the column begins anew after the last of
them. -/
theorem pastAll_eq (cs : List Char) (l : Location) :
    l.pastAll cs =
      if '\n' ∈ cs then ⟨l.line + cs.count '\n', 1 + bytes cs - lineStart cs⟩
      else ⟨l.line, l.column + bytes cs⟩ := by
  induction cs generalizing l with
  | nil => rfl
  | cons c cs ih =>
      have step : l.pastAll (c :: cs) = (l.past c).pastAll cs := rfl
      rw [step, ih, bytes_cons, lineStart, List.count_cons]
      by_cases more : '\n' ∈ cs
      · have after : '\n' ∈ c :: cs := List.mem_cons_of_mem _ more
        rw [if_pos more, if_pos more, if_pos after]
        by_cases here : c = '\n'
        · simp only [past, if_pos here, beq_iff_eq, Location.mk.injEq]
          omega
        · simp only [past, if_neg here, beq_iff_eq, Location.mk.injEq]
          omega
      · rw [if_neg more, if_neg more, List.count_eq_zero_of_not_mem more]
        by_cases here : c = '\n'
        · subst here
          simp only [past, if_pos, List.mem_cons_self, beq_self_eq_true, Nat.zero_add,
            Location.mk.injEq, true_and]
          omega
        · have none : '\n' ∉ c :: cs := List.mem_cons.not.2 (not_or.2 ⟨Ne.symm here, more⟩)
          rw [if_neg none]
          simp only [past, if_neg here, Location.mk.injEq, true_and]
          exact Nat.add_assoc _ _ _

theorem pastAll_start (cs rest : List Char) :
    start.pastAll cs = ofOffset (cs ++ rest) (bytes cs) := by
  rw [pastAll_eq, ofOffset, charsBefore_append]
  split
  · rfl
  · rename_i none
    rw [List.count_eq_zero_of_not_mem none, lineStart_of_not_mem none]
    rfl

end Location

end JavaMinus
