/-
# From text to tokens

What the printer writes is cut back into the tokens that it stands for.

A token is complete where the next character cannot belong to it.  `Spells` says of a text that it
is cut into given tokens whatever follows, and `SpellsApart` that it is if a separator follows, which
is what a name, a number or an operator needs.  The printer puts a separator behind each of these,
so both notions are followed along the text, from left to right.
-/
import JavaMinus.Ir.Lexer
import JavaMinus.Ir.Printer
import JavaMinus.Proofs.Source.Words

namespace JavaMinus.Ir

open Character

/-- The tokens of a text, whatever its first line is; the end of the text is left out. -/
def Scans (cs : List Char) (ts : List Token) : Prop :=
  ∀ line, ∃ ls, scan cs line = .ok ls ∧ ls.map (·.token) = ts ++ [.endOfText]

theorem Scans.nil : Scans [] [] := by
  intro line
  exact ⟨[⟨.endOfText, line⟩], by rw [scan], rfl⟩

theorem Scans.gap {c : Char} {cs taken rest : List Char} {ts : List Token}
    (hc : cut c cs = ⟨.gap, taken, rest⟩) (h : Scans rest ts) : Scans (c :: cs) ts := by
  intro line
  obtain ⟨ls, hls, ht⟩ := h (lineAfter line taken)
  refine ⟨ls, ?_, ht⟩
  rw [scan, hc]
  exact hls

theorem Scans.token {c : Char} {cs w rest : List Char} {t : Token} {ts : List Token}
    (hc : cut c cs = ⟨.token t, w, rest⟩) (h : Scans rest ts) : Scans (c :: cs) (t :: ts) := by
  intro line
  obtain ⟨ls, hls, ht⟩ := h (lineAfter line w)
  refine ⟨⟨t, line⟩ :: ls, ?_, ?_⟩
  · rw [scan, hc]
    simp only [hls, Except.map]
  · rw [List.map_cons, ht, List.cons_append]

theorem lex_of_scans {source : String} {ts : List Token} (h : Scans source.toList ts) :
    ∃ ls, lex source = .ok ls ∧ ls.map (·.token) = ts ++ [.endOfText] :=
  h 1

/-! ## Texts that spell tokens -/

/-- A character that belongs to no name, number or operator. -/
def separates (c : Char) : Bool :=
  c == ' ' || c == '.' || c == ',' || c == ';' || c == ':' || c == '(' || c == ')' || c == '[' ||
    c == ']'

/-- The text ends or begins with a separator. -/
def Apart (rest : List Char) : Prop := ∀ c ∈ rest.head?, separates c = true

/-- The text is cut into the tokens, whatever follows it. -/
def Spells (s : String) (ts : List Token) : Prop :=
  ∀ rest us, Scans rest us → Scans (s.toList ++ rest) (ts ++ us)

/-- The text is cut into the tokens if a separator follows. -/
def SpellsApart (s : String) (ts : List Token) : Prop :=
  ∀ rest us, Apart rest → Scans rest us → Scans (s.toList ++ rest) (ts ++ us)

theorem Spells.apart {s : String} {ts : List Token} (h : Spells s ts) : SpellsApart s ts :=
  fun rest us _ => h rest us

theorem Spells.nil : Spells "" [] :=
  fun _ _ h => h

/-- A text that is put together is compared as a text, which is quicker than to unfold it. -/
theorem Spells.congr {s s' : String} {ts : List Token} (h : Spells s ts) (hs : s = s') :
    Spells s' ts :=
  hs ▸ h

theorem Spells.append {s s' : String} {ts ts' : List Token} (h : Spells s ts)
    (h' : Spells s' ts') : Spells (s ++ s') (ts ++ ts') := by
  intro rest us hr
  rw [String.toList_append, List.append_assoc, List.append_assoc]
  exact h _ _ (h' rest us hr)

theorem Spells.then {s s' : String} {ts ts' : List Token} (h : Spells s ts)
    (h' : SpellsApart s' ts') : SpellsApart (s ++ s') (ts ++ ts') := by
  intro rest us ha hr
  rw [String.toList_append, List.append_assoc, List.append_assoc]
  exact h _ _ (h' rest us ha hr)

/-- A text that begins with a separator completes the one before it. -/
theorem SpellsApart.append {s s' : String} {ts ts' : List Token} {c : Char} {cs : List Char}
    (h : SpellsApart s ts) (h' : Spells s' ts') (hs : s'.toList = c :: cs)
    (hc : separates c = true) : Spells (s ++ s') (ts ++ ts') := by
  intro rest us hr
  rw [String.toList_append, List.append_assoc, List.append_assoc]
  refine h _ _ ?_ (h' rest us hr)
  intro d hd
  rw [hs] at hd
  cases hd
  exact hc

/-- The same where the second text has to be completed itself. -/
theorem SpellsApart.append_apart {s s' : String} {ts ts' : List Token} {c : Char} {cs : List Char}
    (h : SpellsApart s ts) (h' : SpellsApart s' ts') (hs : s'.toList = c :: cs)
    (hc : separates c = true) : SpellsApart (s ++ s') (ts ++ ts') := by
  intro rest us ha hr
  rw [String.toList_append, List.append_assoc, List.append_assoc]
  refine h _ _ ?_ (h' rest us ha hr)
  intro d hd
  rw [hs] at hd
  cases hd
  exact hc

/-- Texts one after another. -/
theorem join_spells {α : Type} {xs : List α} {f : α → String} {g : α → List Token}
    (h : ∀ x ∈ xs, Spells (f x) (g x)) : Spells (String.join (xs.map f)) (xs.flatMap g) := by
  induction xs with
  | nil => exact Spells.nil
  | cons x xs ih =>
      rw [List.map_cons, String.join_cons, List.flatMap_cons]
      exact (h x List.mem_cons_self).append (ih fun x' h' => h x' (List.mem_cons_of_mem x h'))

theorem scans_of_spells {s : String} {ts : List Token} (h : Spells s ts) : Scans s.toList ts := by
  have whole := h [] [] Scans.nil
  rwa [List.append_nil, List.append_nil] at whole

/-! ## Separators -/

theorem cut_mark {m : Mark} {c : Char} (hm : m ≠ .colon ∧ m ≠ .colonEq)
    (hc : m.symbol.toList = [c]) (rest : List Char) :
    cut c rest = ⟨.token (.mark m), [c], rest⟩ := by
  cases m with
  | colon => exact absurd rfl hm.1
  | colonEq => exact absurd rfl hm.2
  | dot | comma | semicolon | lparen | rparen | lbrace | rbrace | lbracket | rbracket =>
      cases hc
      cases rest <;> rfl

/-- Every mark but the colon is complete whatever follows it. -/
theorem spells_mark {m : Mark} (hm : m ≠ .colon ∧ m ≠ .colonEq) : Spells m.symbol [.mark m] := by
  intro rest us hr
  obtain ⟨c, hc⟩ : ∃ c, m.symbol.toList = [c] := by
    cases m with
    | colonEq => exact absurd rfl hm.2
    | _ => exact ⟨_, rfl⟩
  rw [hc]
  exact .token (cut_mark hm hc rest) hr

theorem spells_dot : Spells "." [.mark .dot] := spells_mark (m := .dot) (by decide)

theorem spells_comma : Spells "," [.mark .comma] := spells_mark (m := .comma) (by decide)

theorem spells_semicolon : Spells ";" [.mark .semicolon] :=
  spells_mark (m := .semicolon) (by decide)

theorem spells_lparen : Spells "(" [.mark .lparen] := spells_mark (m := .lparen) (by decide)

theorem spells_rparen : Spells ")" [.mark .rparen] := spells_mark (m := .rparen) (by decide)

theorem spells_lbrace : Spells "\x7b" [.mark .lbrace] := spells_mark (m := .lbrace) (by decide)

theorem spells_rbrace : Spells "\x7d" [.mark .rbrace] := spells_mark (m := .rbrace) (by decide)

theorem spells_lbracket : Spells "[" [.mark .lbracket] := spells_mark (m := .lbracket) (by decide)

theorem spells_rbracket : Spells "]" [.mark .rbracket] := spells_mark (m := .rbracket) (by decide)

theorem spells_blank : Spells " " [] :=
  fun _ _ h => .gap rfl h

theorem spells_lineBreak : Spells "\n" [] :=
  fun _ _ h => .gap rfl h

theorem spells_colonEq : Spells ":=" [.mark .colonEq] :=
  fun _ _ h => .token rfl h

/-- The colon after a label, which ends its line. -/
theorem spells_colonBreak : Spells ":\n" [.mark .colon] :=
  fun _ _ h => .token rfl (.gap rfl h)

/-! ## Names, numbers, operators and quoted texts -/

theorem not_continuesName {c : Char} (h : separates c = true) : continuesName c = false := by
  simp only [separates, Bool.or_eq_true, beq_iff_eq] at h
  rcases h with (((((((rfl | rfl) | rfl) | rfl) | rfl) | rfl) | rfl) | rfl) | rfl <;> rfl

theorem not_isDigit {c : Char} (h : separates c = true) : c.isDigit = false := by
  have := not_continuesName h
  rw [continuesName, Bool.or_eq_false_iff] at this
  exact this.2

theorem not_gap_of_startsName {c : Char} (h : startsName c = true) :
    ¬(c = '\n' ∨ isBlank c = true) := by
  rintro (rfl | hb)
  · cases h
  · simp only [isBlank, Bool.or_eq_true, beq_iff_eq] at hb
    rcases hb with ((rfl | rfl) | rfl) | rfl <;> cases h

/-- A run of characters of a class ends at the first character that is none of the class. -/
theorem run_ends {p : Char → Bool} {w rest : List Char} (hw : w.all p = true)
    (hr : ∀ c ∈ rest.head?, p c = false) :
    (w ++ rest).takeWhile p = w ∧ (w ++ rest).dropWhile p = rest := by
  induction w with
  | nil =>
      cases rest with
      | nil => exact ⟨rfl, rfl⟩
      | cons c cs =>
          have stops := hr c rfl
          simp [stops]
  | cons c cs ih =>
      rw [List.all_cons, Bool.and_eq_true] at hw
      obtain ⟨taken, dropped⟩ := ih hw.2
      simp [hw.1, taken, dropped]

theorem spells_word {w : String} (hw : isWord w.toList = true) : SpellsApart w [.name w] := by
  intro rest us ha hr
  cases hcs : w.toList with
  | nil =>
      rw [hcs] at hw
      cases hw
  | cons c cs =>
      rw [hcs, isWord_cons, Bool.and_eq_true] at hw
      obtain ⟨taken, dropped⟩ := run_ends hw.2 fun c hc => not_continuesName (ha c hc)
      show Scans (c :: (cs ++ rest)) _
      refine .token (w := [c] ++ cs) ?_ hr
      rw [cut, if_neg (not_gap_of_startsName hw.1), if_pos hw.1, cutRun, taken, dropped,
        List.singleton_append, ← hcs, String.ofList_toList]

/-- A number: digits, with a minus sign before them or none. -/
def isInteger : List Char → Bool
  | [] => false
  | c :: cs => (c.isDigit || c == '-' && !cs.isEmpty) && cs.all Char.isDigit

theorem not_startsName {c : Char} (h : c.isDigit = true) : startsName c = false := by
  simp only [Char.isDigit, Bool.and_eq_true, decide_eq_true_eq, ge_iff_le] at h
  have below := UInt32.le_iff_toNat_le.1 h.2
  cases hs : startsName c with
  | false => rfl
  | true =>
      exfalso
      have letter : (((decide ('A'.val ≤ c.val ∧ c.val ≤ 'Z'.val) ||
          decide ('a'.val ≤ c.val) && decide (c.val ≤ 'z'.val)) || c == '_') || c == '$') = true := hs
      simp only [Bool.or_eq_true, Bool.and_eq_true, decide_eq_true_eq, beq_iff_eq] at letter
      rcases letter with ((hs | hs) | rfl) | rfl
      · have above := UInt32.le_iff_toNat_le.1 hs.1
        simp at above below
        omega
      · have above := UInt32.le_iff_toNat_le.1 hs.1
        simp at above below
        omega
      · revert h
        decide
      · revert h
        decide

theorem not_gap_of_isDigit {c : Char} (h : c.isDigit = true) :
    ¬(c = '\n' ∨ isBlank c = true) := by
  rintro (rfl | hb)
  · cases h
  · simp only [isBlank, Bool.or_eq_true, beq_iff_eq] at hb
    rcases hb with ((rfl | rfl) | rfl) | rfl <;> cases h

theorem spells_integer {v : String} (hv : isInteger v.toList = true) :
    SpellsApart v [.integer v] := by
  intro rest us ha hr
  cases hcs : v.toList with
  | nil =>
      rw [hcs] at hv
      cases hv
  | cons c cs =>
      rw [hcs, isInteger, Bool.and_eq_true, Bool.or_eq_true, Bool.and_eq_true, beq_iff_eq] at hv
      obtain ⟨hc, hdigits⟩ := hv
      show Scans (c :: (cs ++ rest)) _
      rcases hc with hc | ⟨rfl, hne⟩
      · obtain ⟨taken, dropped⟩ := run_ends hdigits fun c hc => not_isDigit (ha c hc)
        refine .token (w := [c] ++ cs) ?_ hr
        rw [cut, if_neg (not_gap_of_isDigit hc), if_neg (by simp [not_startsName hc]), if_pos hc,
          cutRun, taken, dropped, List.singleton_append, ← hcs, String.ofList_toList]
      · cases cs with
        | nil => cases hne
        | cons d ds =>
            rw [List.all_cons, Bool.and_eq_true] at hdigits
            obtain ⟨taken, dropped⟩ := run_ends hdigits.2 fun c hc => not_isDigit (ha c hc)
            refine .token (w := ['-', d] ++ ds) ?_ hr
            show cutMinus (d :: (ds ++ rest)) = _
            rw [cutMinus, if_pos hdigits.1, cutRun, taken, dropped]
            show (⟨.token (.integer (String.ofList ('-' :: d :: ds))), _, _⟩ : Cut) = _
            rw [← hcs, String.ofList_toList]

theorem spells_operator (op : Operator) : SpellsApart op.symbol [.operator op] := by
  intro rest us ha hr
  cases rest with
  | nil => cases op <;> exact .token rfl hr
  | cons c rest =>
      have hc := ha c rfl
      simp only [separates, Bool.or_eq_true, beq_iff_eq] at hc
      rcases hc with (((((((rfl | rfl) | rfl) | rfl) | rfl) | rfl) | rfl) | rfl) | rfl <;>
        cases op <;> exact .token rfl hr

theorem spells_quoted {w : String} (hw : w.toList.all staysInQuotes = true) :
    Spells ("\"" ++ w ++ "\"") [.quoted w] := by
  intro rest us hr
  have quote : ∀ c ∈ ('"' :: rest).head?, staysInQuotes c = false := by
    intro c hc
    cases hc
    rfl
  obtain ⟨taken, dropped⟩ := run_ends hw quote
  have text : ("\"" ++ w ++ "\"").toList ++ rest = '"' :: (w.toList ++ '"' :: rest) := by
    rw [String.toList_append, String.toList_append, List.append_assoc, List.append_assoc]
    rfl
  rw [text]
  refine .token (w := '"' :: w.toList ++ ['"']) ?_ hr
  show cutQuoted (w.toList ++ '"' :: rest) = _
  rw [cutQuoted, taken, dropped, String.ofList_toList]
  rfl

end JavaMinus.Ir
