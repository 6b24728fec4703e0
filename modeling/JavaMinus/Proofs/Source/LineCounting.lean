/-
# Counting lines while reading

Places can also be kept without walking over every character: a reader that knows its offset, its
line and the offset at which that line began has to look for line breaks only where a piece can have
one, in the piece that is a line break and inside the comments that may run over several lines
(`Counter.past`).

What such a reader knows after a text is a function of that text (`Counter.behind`).  One piece takes
what is known before it to what is known after it (`Counter.behind_past`), so reading in this way
gives the same tokens at the same places (`lexCounting_eq`).
-/
import JavaMinus.Proofs.Source.Offsets
import JavaMinus.Source.Lexer

namespace JavaMinus

theorem lineStart_append (cs ds : List Char) :
    lineStart (cs ++ ds) = if '\n' ∈ ds then bytes cs + lineStart ds else lineStart cs := by
  induction cs with
  | nil =>
      rw [List.nil_append, bytes_nil, Nat.zero_add]
      split
      · rfl
      · exact lineStart_of_not_mem ‹_›
  | cons c cs ih =>
      rw [List.cons_append, lineStart, lineStart, ih, bytes_cons, Nat.add_assoc]
      by_cases within : '\n' ∈ ds
      · simp [within]
      · simp [within]

theorem lineStart_le (cs : List Char) : lineStart cs ≤ bytes cs := by
  induction cs with
  | nil => exact Nat.le_refl 0
  | cons c cs ih =>
      rw [lineStart, bytes_cons]
      split
      · exact Nat.add_le_add_left ih _
      · split
        · exact Nat.le_add_right _ _
        · exact Nat.zero_le _

namespace Source

open Character

/-- What a reader keeps: its offset, the line it is on, and the offset at which that line began. -/
structure Counter where
  offset : Nat
  line : Nat
  lineBegan : Nat

namespace Counter

/-- The reader before the first character. -/
def start : Counter := ⟨0, 1, 0⟩

def loc (k : Counter) : Location := ⟨k.line, k.offset - k.lineBegan + 1⟩

/-- Past one piece of the text: a line break, a comment that may have some inside, or another. -/
def past (k : Counter) (taken : List Char) : Counter :=
  match taken with
  | ['\n'] => ⟨k.offset + 1, k.line + 1, k.offset + 1⟩
  | '/' :: '*' :: _ =>
      if '\n' ∈ taken then
        ⟨k.offset + bytes taken, k.line + taken.count '\n', k.offset + lineStart taken⟩
      else
        ⟨k.offset + bytes taken, k.line, k.lineBegan⟩
  | _ => ⟨k.offset + bytes taken, k.line, k.lineBegan⟩

/-- What is known to the reader after a text. -/
def behind (before : List Char) : Counter :=
  ⟨bytes before, 1 + before.count '\n', lineStart before⟩

theorem behind_append (before taken : List Char) :
    behind (before ++ taken) =
      if '\n' ∈ taken then
        ⟨bytes before + bytes taken, 1 + before.count '\n' + taken.count '\n',
          bytes before + lineStart taken⟩
      else
        ⟨bytes before + bytes taken, 1 + before.count '\n', lineStart before⟩ := by
  rw [behind, bytes_append, List.count_append, lineStart_append]
  split
  · rw [Nat.add_assoc 1]
  · rename_i none
    rw [List.count_eq_zero_of_not_mem none, Nat.add_zero]

theorem behind_loc (before : List Char) : (behind before).loc = Location.start.pastAll before := by
  have within := lineStart_le before
  rw [Location.pastAll_start before [], Location.ofOffset, charsBefore_append, loc, behind,
    Location.mk.injEq]
  exact ⟨rfl, by simp only; omega⟩

/-- A piece has no line break, unless it is one or a comment with a closing. -/
def Plain (taken : List Char) : Prop :=
  taken = ['\n'] ∨ (∃ body, taken = '/' :: '*' :: body) ∨ '\n' ∉ taken

/-- One piece takes what is known before it to what is known after it. -/
theorem behind_past (before : List Char) {taken : List Char} (plain : Plain taken) :
    (behind before).past taken = behind (before ++ taken) := by
  rw [behind_append]
  rcases plain with rfl | ⟨body, rfl⟩ | none
  · rfl
  · rfl
  · rw [if_neg none]
    unfold past
    split
    · exact absurd List.mem_cons_self none
    · rw [if_neg none]
      rfl
    · rfl

end Counter

theorem plain_of_run {p : Char → Bool} (stops : p '\n' = false) {c : Char}
    (other : c ≠ '\n') (cs : List Char) : Counter.Plain (c :: cs.takeWhile p) := by
  refine .inr (.inr fun within => ?_)
  rcases List.mem_cons.1 within with same | within
  · exact other same.symm
  · exact Bool.false_ne_true (stops.symm.trans (List.all_eq_true.1 List.all_takeWhile _ within))

theorem cutMark_plain {c : Char} (other : c ≠ '\n') (cs : List Char) :
    Counter.Plain (cutMark c cs).taken := by
  unfold cutMark
  split
  · rename_i r
    refine .inr (.inr fun within => ?_)
    have inside : '\n' ∈ r.takeWhile staysOnLine := by simpa using within
    exact absurd (List.all_eq_true.1 List.all_takeWhile _ inside) (by decide)
  · unfold cutBlockComment
    split
    · exact .inr (.inl ⟨_, rfl⟩)
    · exact .inr (.inl ⟨_, rfl⟩)
  · have none : '\n' ∉ ['&', '&'] := by decide
    exact .inr (.inr none)
  · have one : '\n' ∉ [c] := fun within => other (List.mem_singleton.1 within).symm
    unfold cutOne
    split
    · exact .inr (.inr one)
    · exact .inr (.inr one)

theorem cut_plain (c : Char) (cs : List Char) : Counter.Plain (cut c cs).taken := by
  by_cases newline : c = '\n'
  · subst newline
    exact .inl rfl
  · unfold cut
    split
    · exact .inr (.inr fun within => newline (List.mem_singleton.1 within).symm)
    · split
      · exact plain_of_run (by decide) newline cs
      · split
        · exact plain_of_run (by decide) newline cs
        · exact cutMark_plain newline cs

/-- The tokens from a reader on, each at its place. -/
def scanCounting : List Char → Counter → Except Error (List Lexeme)
  | [], k => .ok [⟨.endOfText, k.loc⟩]
  | c :: cs, k =>
      match (cut c cs).piece with
      | .fault f => .error (.lexical k.loc f)
      | .gap => scanCounting (cut c cs).rest (k.past (cut c cs).taken)
      | .token t =>
          (scanCounting (cut c cs).rest (k.past (cut c cs).taken)).map (⟨t, k.loc⟩ :: ·)
termination_by cs => cs.length
decreasing_by all_goals exact Cut.rest_length_lt _ _

/-- The tokens of a program text, read by counting lines. -/
def lexCounting (source : String) : Except Error (List Lexeme) :=
  scanCounting source.toList .start

/-- One piece is read with what is known before it, the others with what is known after it. -/
theorem scanCounting_behind (cs before : List Char) :
    scanCounting cs (.behind before) = scan cs (Location.start.pastAll before) := by
  match cs with
  | [] => rw [scanCounting, scan, Counter.behind_loc]
  | c :: cs =>
      have ih := scanCounting_behind (cut c cs).rest (before ++ (cut c cs).taken)
      rw [← Counter.behind_past before (cut_plain c cs), Location.pastAll_append] at ih
      rw [scanCounting, scan, Counter.behind_loc]
      cases (cut c cs).piece with
      | fault f => rfl
      | gap => exact ih
      | token t => exact congrArg (Except.map _) ih
termination_by cs.length
decreasing_by exact Cut.rest_length_lt _ _

/-- Counting lines gives the same tokens at the same places. -/
theorem lexCounting_eq (source : String) : lexCounting source = lex source :=
  scanCounting_behind source.toList []

end Source

end JavaMinus
