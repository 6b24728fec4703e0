/-
# How tokens and gaps are written

A keyword, a name and a mark are written in one way; a number is written in decimal, with any number
of zeros before it (`Token.SpelledAs`).  Between tokens there may be a gap: blanks, line breaks and
comments in any order (`Gap`).

The first piece of a text is cut off as it was written if what follows cannot belong to it
(`cut_spelled`); only a slash is told from what follows by more than its own class, since it can begin
a comment.  Conversely what is cut off as a token is the spelling of one (`spelledAs_of_cut`), and
what is cut off as a gap is one character, a comment up to the end of its line, or a comment up to its
closing mark (`gap_cases`).
-/
import Mathlib.Data.List.Induction
import JavaMinus.Proofs.Ir.Numeral
import JavaMinus.Proofs.Ir.Spelling
import JavaMinus.Proofs.Source.Offsets
import JavaMinus.Proofs.Source.Words

namespace JavaMinus.Source

open Character (isBlank startsName continuesName staysOnLine decimal)

/-! ## The notation -/

/-- The token is written with these characters. -/
inductive Token.SpelledAs : Token → List Char → Prop
  | keyword (k : Keyword) : SpelledAs (.keyword k) k.word.toList
  | name {text : String} (h : IsName text) : SpelledAs (.name text) text.toList
  | integer {n : Nat} (small : n ≤ 2147483647) (zeros : Nat) :
      SpelledAs (.integer (Int32.ofNat n)) (List.replicate zeros '0' ++ Nat.toDigits 10 n)
  | mark (m : Mark) : SpelledAs (.mark m) m.symbol.toList

/-- A line break, a blank, a tab, a form feed or a carriage return. -/
def IsSpace (c : Char) : Prop := c = '\n' ∨ c = ' ' ∨ c = '\t' ∨ c = '\x0c' ∨ c = '\r'

instance (c : Char) : Decidable (IsSpace c) := inferInstanceAs (Decidable (_ ∨ _))

theorem isSpace_iff {c : Char} : IsSpace c ↔ c = '\n' ∨ isBlank c = true := by
  simp only [IsSpace, isBlank, Bool.or_eq_true, beq_iff_eq, or_assoc]

/-- The characters that close a comment. -/
def closing : List Char := ['*', '/']

/-- Blanks, line breaks, comments up to a line break, and comments up to the first closing. -/
inductive Gap : List Char → Prop
  | nil : Gap []
  | space {c : Char} {cs : List Char} (hc : IsSpace c) (more : Gap cs) : Gap (c :: cs)
  | line {body cs : List Char} (within : '\n' ∉ body) (more : Gap cs) :
      Gap ('/' :: '/' :: (body ++ '\n' :: cs))
  | block {body cs : List Char} (within : ¬ closing <:+: body) (more : Gap cs) :
      Gap ('/' :: '*' :: (body ++ closing ++ cs))

/-- What may stand directly after the token: anything that ends it. -/
def Token.EndsAt (t : Token) (c : Char) : Prop :=
  IsSpace c ∨ c = '/' ∧ t ≠ .mark .slash

/-! ## Numbers with zeros before them -/

theorem decimal_append_singleton (ds : List Char) (d : Char) :
    decimal (ds ++ [d]) = 10 * decimal ds + (d.toNat - '0'.toNat) := by
  rw [decimal, decimal, List.foldl_append]
  rfl

theorem decimal_zeros (zeros : Nat) (ds : List Char) :
    decimal (List.replicate zeros '0' ++ ds) = decimal ds := by
  induction zeros with
  | zero => rfl
  | succ zeros ih =>
      rw [List.replicate_succ, List.cons_append, ← ih]
      rfl

theorem exists_digitChar {d : Char} (h : d.isDigit = true) :
    ∃ v < 10, d = Nat.digitChar v := by
  simp only [Char.isDigit, Bool.and_eq_true, decide_eq_true_eq, ge_iff_le] at h
  have low : 48 ≤ d.toNat := UInt32.le_iff_toNat_le.1 h.1
  have high : d.toNat ≤ 57 := UInt32.le_iff_toNat_le.1 h.2
  have small : d.toNat - 48 < 10 := by omega
  refine ⟨d.toNat - 48, small, ?_⟩
  rw [← Char.toNat_inj, Nat.toNat_digitChar_of_lt_ten small]
  omega

theorem digits_eq {ds : List Char} (digits : ds.all Char.isDigit = true) (some : ds ≠ []) :
    ∃ zeros, ds = List.replicate zeros '0' ++ Nat.toDigits 10 (decimal ds) := by
  induction ds using List.reverseRecOn with
  | nil => exact absurd rfl some
  | append_singleton ds d ih =>
      rw [List.all_append, Bool.and_eq_true] at digits
      obtain ⟨v, small, rfl⟩ := exists_digitChar (List.all_eq_true.1 digits.2 d List.mem_cons_self)
      have value : (Nat.digitChar v).toNat - '0'.toNat = v :=
        Nat.toNat_digitChar_sub_48_of_lt_ten small
      rw [decimal_append_singleton, value, ← Nat.toDigits_of_lt_base small]
      rcases Nat.eq_zero_or_pos (decimal ds) with zero | positive
      · rw [zero, Nat.mul_zero, Nat.zero_add]
        by_cases none : ds = []
        · exact ⟨0, by rw [none]; rfl⟩
        · obtain ⟨zeros, same⟩ := ih digits.1 none
          rw [zero, Nat.toDigits_zero, ← List.replicate_succ'] at same
          exact ⟨zeros + 1, by rw [← same]⟩
      · have some : ds ≠ [] := by
          rintro rfl
          exact absurd positive (Nat.lt_irrefl 0)
        obtain ⟨zeros, same⟩ := ih digits.1 some
        refine ⟨zeros, ?_⟩
        rw [← Nat.toDigits_append_toDigits (by decide) positive small, ← List.append_assoc, ← same]

/-! ## Gaps are cut off -/

theorem cut_space {c : Char} (h : IsSpace c) (cs : List Char) : cut c cs = ⟨.gap, [c], cs⟩ :=
  if_pos (isSpace_iff.1 h)

theorem cut_slash (cs : List Char) : cut '/' cs = cutMark '/' cs := rfl

/-- A comment that runs to the end of its line is cut off before the line break. -/
theorem cut_line {body rest : List Char} (within : '\n' ∉ body)
    (stops : ∀ c ∈ rest.head?, c = '\n') :
    cut '/' ('/' :: (body ++ rest)) = ⟨.gap, '/' :: '/' :: body, rest⟩ := by
  have stays : body.all staysOnLine = true := by
    rw [List.all_eq_true]
    rintro c hc
    exact bne_iff_ne.2 fun same => within (same ▸ hc)
  have leaves : ∀ c ∈ rest.head?, staysOnLine c = false := fun c hc => by
    rw [stops c hc]
    rfl
  obtain ⟨taken, left⟩ := Ir.run_ends stays leaves
  rw [cut_slash, cutMark, taken, left]

theorem not_closing_cons {c : Char} {body : List Char} :
    ¬ closing <:+: c :: body ↔ ¬ closing <:+: body ∧ ∀ r, c = '*' → body ≠ '/' :: r := by
  rw [List.infix_cons_iff, not_or, and_comm]
  refine and_congr_right fun _ => ⟨fun h r star slash => h ?_, ?_⟩
  · rw [star, slash]
    exact List.prefix_append closing r
  · rintro h ⟨r, same⟩
    obtain ⟨star, slash⟩ := List.cons.inj same
    exact h r star.symm slash.symm

theorem splitAfterClose_closing {body : List Char} (within : ¬ closing <:+: body)
    (rest : List Char) : splitAfterClose (body ++ closing ++ rest) = some (body ++ closing, rest) := by
  induction body with
  | nil => rfl
  | cons c body ih =>
      obtain ⟨inside, apart⟩ := not_closing_cons.1 within
      rw [List.cons_append, List.cons_append, splitAfterClose, ih inside]
      · rfl
      · rintro r rfl same
        cases body with
        | nil => cases same
        | cons d body => exact apart body rfl (congrArg (· :: body) (List.cons.inj same).1)

theorem exists_of_splitAfterClose {s taken rest : List Char}
    (h : splitAfterClose s = some (taken, rest)) :
    ∃ body, taken = body ++ closing ∧ ¬ closing <:+: body := by
  fun_induction splitAfterClose s generalizing taken rest with
  | case1 => cases h
  | case2 r =>
      cases h
      exact ⟨[], rfl, fun h => absurd (List.infix_nil.1 h) (by decide)⟩
  | case3 c r apart ih =>
      obtain ⟨⟨taken', rest'⟩, split, same⟩ := Option.map_eq_some_iff.1 h
      obtain ⟨rfl, rfl⟩ := Prod.mk.inj same
      obtain ⟨body, rfl, inside⟩ := ih split
      refine ⟨c :: body, rfl, not_closing_cons.2 ⟨inside, ?_⟩⟩
      rintro r' rfl rfl
      exact apart _ rfl (splitAfterClose_append split).symm

theorem cut_block {body : List Char} (within : ¬ closing <:+: body) (rest : List Char) :
    cut '/' ('*' :: (body ++ closing ++ rest)) =
      ⟨.gap, '/' :: '*' :: (body ++ closing), rest⟩ := by
  rw [cut_slash, cutMark, cutBlockComment, splitAfterClose_closing within rest]

theorem cutMark_gap {c : Char} {cs : List Char} (h : (cutMark c cs).piece = .gap) :
    (∃ body rest, c = '/' ∧ cs = '/' :: (body ++ rest) ∧ '\n' ∉ body ∧
      ∀ d ∈ rest.head?, d = '\n') ∨
    ∃ body rest, c = '/' ∧ cs = '*' :: (body ++ closing ++ rest) ∧ ¬ closing <:+: body := by
  unfold cutMark at h
  split at h
  · rename_i r
    refine .inl ⟨r.takeWhile staysOnLine, r.dropWhile staysOnLine, rfl, ?_, ?_, ?_⟩
    · rw [List.takeWhile_append_dropWhile]
    · intro within
      exact absurd (List.all_eq_true.1 List.all_takeWhile _ within) (by decide)
    · intro d hd
      have leaves := List.head?_dropWhile_not staysOnLine r
      rw [Option.mem_def.1 hd] at leaves
      simpa [staysOnLine] using leaves
  · rename_i r
    unfold cutBlockComment at h
    split at h
    · rename_i taken rest split
      obtain ⟨body, rfl, within⟩ := exists_of_splitAfterClose split
      exact .inr ⟨body, rest, rfl, by rw [splitAfterClose_append split], within⟩
    · cases h
  · cases h
  · unfold cutOne at h
    split at h <;> cases h

/-- What is cut off as a gap is one character, or a comment of one of the two kinds. -/
theorem gap_cases {c : Char} {cs : List Char} (h : (cut c cs).piece = .gap) :
    IsSpace c ∨
    (∃ body rest, c = '/' ∧ cs = '/' :: (body ++ rest) ∧ '\n' ∉ body ∧
      ∀ d ∈ rest.head?, d = '\n') ∨
    ∃ body rest, c = '/' ∧ cs = '*' :: (body ++ closing ++ rest) ∧ ¬ closing <:+: body := by
  unfold cut at h
  split at h
  · exact .inl (isSpace_iff.2 ‹_›)
  · split at h
    · cases h
    · split at h
      · simp only [cutRun, integerPiece] at h
        split at h <;> cases h
      · exact .inr (cutMark_gap h)

/-! ## Gaps are skipped -/

theorem scan_of_cut_gap {c : Char} {cs taken rest : List Char}
    (h : cut c cs = ⟨.gap, taken, rest⟩) (loc : Location) :
    scan (c :: cs) loc = scan rest (loc.pastAll taken) := by
  rw [scan, h]

theorem Gap.skipped {gap : List Char} (h : Gap gap) (rest : List Char) (loc : Location) :
    scan (gap ++ rest) loc = scan rest (loc.pastAll gap) := by
  induction h generalizing loc with
  | nil => rfl
  | space hc more ih =>
      rw [List.cons_append, scan_of_cut_gap (cut_space hc _), ih]
      rfl
  | @line body cs within more ih =>
      have stops : ∀ c ∈ ('\n' :: (cs ++ rest)).head?, c = '\n' := fun c hc =>
        (Option.some.inj hc).symm
      have text : '/' :: '/' :: (body ++ '\n' :: cs) ++ rest =
          '/' :: '/' :: (body ++ '\n' :: (cs ++ rest)) := by simp
      rw [text, scan_of_cut_gap (cut_line within stops),
        scan_of_cut_gap (cut_space (.inl rfl) _), ih, ← Location.pastAll_append,
        ← Location.pastAll_append]
      simp
  | @block body cs within more ih =>
      have text : '/' :: '*' :: (body ++ closing ++ cs) ++ rest =
          '/' :: '*' :: (body ++ closing ++ (cs ++ rest)) := by simp
      rw [text, scan_of_cut_gap (cut_block within _), ih, ← Location.pastAll_append]
      simp

/-- Every text is a gap and then nothing, a comment without its line break, or a piece that is no
gap. -/
theorem exists_gap (cs : List Char) :
    ∃ gap rest, cs = gap ++ rest ∧ Gap gap ∧
      (rest = [] ∨ (∃ body, '\n' ∉ body ∧ rest = '/' :: '/' :: body) ∨
        ∃ c r, rest = c :: r ∧ (cut c r).piece ≠ .gap) := by
  match cs with
  | [] => exact ⟨[], [], rfl, .nil, .inl rfl⟩
  | c :: cs =>
      by_cases h : (cut c cs).piece = .gap
      · rcases gap_cases h with space | ⟨body, rest, rfl, text, within, stops⟩ |
          ⟨body, rest, rfl, text, within⟩
        · obtain ⟨gap, rest, same, more, ends⟩ := exists_gap cs
          exact ⟨c :: gap, rest, by rw [same, List.cons_append], .space space more, ends⟩
        · cases rest with
          | nil =>
              rw [List.append_nil] at text
              exact ⟨[], '/' :: cs, rfl, .nil, .inr (.inl ⟨body, within, by rw [text]⟩)⟩
          | cons d r =>
              obtain rfl := stops d rfl
              obtain ⟨gap, rest, same, more, ends⟩ := exists_gap r
              refine ⟨'/' :: '/' :: (body ++ '\n' :: gap), rest, ?_, .line within more, ends⟩
              rw [text, same]
              simp
        · obtain ⟨gap, rest', same, more, ends⟩ := exists_gap rest
          refine ⟨'/' :: '*' :: (body ++ closing ++ gap), rest', ?_, .block within more, ends⟩
          rw [text, same]
          simp
      · exact ⟨[], c :: cs, rfl, .nil, .inr (.inr ⟨c, cs, rfl, h⟩)⟩
termination_by cs.length
decreasing_by
  · exact Nat.lt_succ_self _
  · simp only [text, List.length_cons, List.length_append]
    omega
  · simp only [text, List.length_cons, List.length_append]
    omega

/-! ## Tokens are cut off -/

theorem Token.EndsAt.not_continuesName {t : Token} {c : Char} (h : t.EndsAt c) :
    continuesName c = false := by
  rcases h with space | ⟨rfl, -⟩
  · rcases space with rfl | rfl | rfl | rfl | rfl <;> rfl
  · rfl

theorem Token.EndsAt.not_isDigit {t : Token} {c : Char} (h : t.EndsAt c) : c.isDigit = false := by
  have outside := h.not_continuesName
  rw [continuesName, Bool.or_eq_false_iff] at outside
  exact outside.2

/-- The text after the token does not go on with it. -/
def Token.Stops (t : Token) (rest : List Char) : Prop := ∀ c ∈ rest.head?, t.EndsAt c

theorem cut_word {w : List Char} (hw : Character.isWord w = true) {rest : List Char}
    (stops : (Token.ofWord (String.ofList w)).Stops rest) :
    ∃ c cs, w ++ rest = c :: cs ∧
      cut c cs = ⟨.token (.ofWord (String.ofList w)), w, rest⟩ := by
  cases w with
  | nil => cases hw
  | cons c w =>
      rw [Character.isWord_cons, Bool.and_eq_true] at hw
      obtain ⟨begins, continues⟩ := hw
      obtain ⟨taken, left⟩ := Ir.run_ends continues fun d hd => (stops d hd).not_continuesName
      refine ⟨c, w ++ rest, rfl, ?_⟩
      rw [cut, if_neg (Ir.not_gap_of_startsName begins), if_pos begins, cutRun, taken, left]

theorem cut_digits {w : List Char} (hw : w.all Char.isDigit = true) (some : w ≠ [])
    (small : decimal w ≤ 2147483647) {rest : List Char}
    (stops : (Token.integer (Int32.ofNat (decimal w))).Stops rest) :
    ∃ c cs, w ++ rest = c :: cs ∧
      cut c cs = ⟨.token (.integer (Int32.ofNat (decimal w))), w, rest⟩ := by
  cases w with
  | nil => exact absurd rfl some
  | cons c w =>
      obtain ⟨digit, digits⟩ := (Bool.and_eq_true _ _).mp hw
      have plain : ¬ startsName c = true := by
        rw [Ir.not_startsName digit]
        exact Bool.false_ne_true
      obtain ⟨taken, left⟩ := Ir.run_ends digits fun d hd => (stops d hd).not_isDigit
      refine ⟨c, w ++ rest, rfl, ?_⟩
      rw [cut, if_neg (Ir.not_gap_of_isDigit digit), if_neg plain, if_pos digit, cutRun, taken, left,
        integerPiece, if_pos small]

theorem cut_mark {m : Mark} {rest : List Char} (stops : (Token.mark m).Stops rest) :
    ∃ c cs, m.symbol.toList ++ rest = c :: cs ∧
      cut c cs = ⟨.token (.mark m), m.symbol.toList, rest⟩ := by
  cases m with
  | slash =>
      cases rest with
      | nil => exact ⟨_, _, rfl, rfl⟩
      | cons d r =>
          refine ⟨'/', d :: r, rfl, ?_⟩
          rcases stops d rfl with space | ⟨-, other⟩
          · rcases space with rfl | rfl | rfl | rfl | rfl <;> rfl
          · exact absurd rfl other
  | plus | minus | star | less | andAnd | bang | assign | dot | comma | semicolon | lparen | rparen
  | lbrace | rbrace | lbracket | rbracket => exact ⟨_, _, rfl, rfl⟩

/-- A token is cut off as it is written, if the text after it does not go on with it. -/
theorem cut_spelled {t : Token} {w rest : List Char} (spelled : t.SpelledAs w)
    (stops : t.Stops rest) :
    ∃ c cs, w ++ rest = c :: cs ∧ cut c cs = ⟨.token t, w, rest⟩ := by
  cases spelled with
  | keyword k =>
      have word : Token.ofWord (String.ofList k.word.toList) = .keyword k := by
        rw [String.ofList_toList, ofWord_word]
      rw [← word] at stops ⊢
      exact cut_word (isWord_word k) stops
  | @name text h =>
      have word : Token.ofWord (String.ofList text.toList) = .name text := by
        rw [String.ofList_toList, ofWord_of_isName h]
      rw [← word] at stops ⊢
      exact cut_word h.1 stops
  | @integer n small zeros =>
      have value : decimal (List.replicate zeros '0' ++ Nat.toDigits 10 n) = n := by
        rw [decimal_zeros, Ir.decimal_toDigits]
      have digits : (List.replicate zeros '0' ++ Nat.toDigits 10 n).all Char.isDigit = true := by
        rw [List.all_append, Ir.toDigits_all_isDigit, Bool.and_true, List.all_replicate]
        cases zeros <;> rfl
      have whole := cut_digits digits (by simp [Nat.toDigits_ne_nil]) (by rwa [value])
        (by rwa [value])
      rwa [value] at whole
  | mark m => exact cut_mark stops

/-! ## What is cut off as a token -/

theorem spelledAs_ofWord {w : List Char} (hw : Character.isWord w = true) :
    (Token.ofWord (String.ofList w)).SpelledAs w := by
  rw [Token.ofWord]
  split
  · rename_i k found
    have same : k.word = String.ofList w := by simpa using List.find?_some found
    have spelled := Token.SpelledAs.keyword k
    rwa [same, String.toList_ofList] at spelled
  · rename_i free
    have isName : IsName (String.ofList w) :=
      ⟨by rwa [String.toList_ofList], Keyword.ofWord?_eq_none_iff.1 free⟩
    have spelled := Token.SpelledAs.name isName
    rwa [String.toList_ofList] at spelled

theorem spelledAs_of_cutOne {c : Char} {cs : List Char} {t : Token}
    (h : (cutOne c cs).piece = .token t) : t.SpelledAs (cutOne c cs).taken := by
  unfold cutOne at h ⊢
  split at h
  · rename_i m found
    cases h
    have symbol : m.symbol.toList = [c] := by
      unfold Mark.ofChar? at found
      split at found <;> cases found <;> rfl
    have spelled := Token.SpelledAs.mark m
    rwa [symbol] at spelled
  · cases h

theorem spelledAs_of_cutMark {c : Char} {cs : List Char} {t : Token}
    (h : (cutMark c cs).piece = .token t) : t.SpelledAs (cutMark c cs).taken := by
  unfold cutMark at h ⊢
  split at h
  · cases h
  · unfold cutBlockComment at h
    split at h <;> cases h
  · cases h
    exact .mark .andAnd
  · exact spelledAs_of_cutOne h

theorem spelledAs_of_cut {c : Char} {cs : List Char} {t : Token}
    (h : (cut c cs).piece = .token t) : t.SpelledAs (cut c cs).taken := by
  unfold cut at h ⊢
  split at h
  · cases h
  · rename_i notGap
    rw [if_neg notGap]
    split at h
    · rename_i begins
      cases h
      rw [if_pos begins]
      refine spelledAs_ofWord ?_
      rw [Character.isWord_cons, begins, Bool.true_and]
      exact List.all_takeWhile
    · rename_i notWord
      rw [if_neg notWord]
      split at h
      · rename_i digit
        rw [if_pos digit]
        simp only [cutRun, integerPiece] at h
        split at h
        · rename_i small
          cases h
          have digits : (c :: cs.takeWhile Char.isDigit).all Char.isDigit = true := by
            rw [List.all_cons, digit, Bool.true_and]
            exact List.all_takeWhile
          obtain ⟨zeros, same⟩ := digits_eq digits (List.cons_ne_nil _ _)
          have spelled := Token.SpelledAs.integer small zeros
          rwa [← same] at spelled
        · cases h
      · rename_i notDigit
        rw [if_neg notDigit]
        exact spelledAs_of_cutMark h

theorem Token.SpelledAs.writable {t : Token} {w : List Char} (h : t.SpelledAs w) : t.Writable := by
  cases h with
  | keyword k => trivial
  | name h => exact h
  | integer small => exact ofNat_writable small
  | mark m => trivial

theorem Token.SpelledAs.ne_nil {t : Token} {w : List Char} (h : t.SpelledAs w) : w ≠ [] := by
  cases h with
  | keyword k => cases k <;> decide
  | name h =>
      intro none
      have word := h.word
      rw [none] at word
      cases word
  | integer => simp [Nat.toDigits_ne_nil]
  | mark m => cases m <;> decide

end JavaMinus.Source
