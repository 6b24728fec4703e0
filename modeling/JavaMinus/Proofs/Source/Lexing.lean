/-
# Reading what was written

A text is a gap and then tokens, each with the gap after it (`layout`).  If every token is set off
from the next one, reading the text gives the tokens back, each at the place of its first byte
(`lex_layout`).

Conversely every text that is read is such a text (`lexed_scan`): the tokens are the ones that were
read, what stands between them is a gap, and only the comment at the very end may lack its line break.
If reading fails, the text before the fault is such a text.  The places are therefore those of offsets
in the text, whatever the text is (`lex_located`).
-/
import JavaMinus.Proofs.Source.LineCounting
import JavaMinus.Proofs.Source.Spellings

namespace JavaMinus.Source

/-! ## Tokens and the gaps after them -/

/-- A token as it stands in a text: its characters and the gap after it. -/
structure Chunk where
  token : Token
  text : List Char
  gap : List Char

def Chunk.chars (c : Chunk) : List Char := c.text ++ c.gap

/-- The text: what stands before the first token, and the tokens with the gaps after them. -/
def layout (opening : List Char) (chunks : List Chunk) : List Char :=
  opening ++ chunks.flatMap Chunk.chars

def offsets : Nat → List Chunk → List Nat
  | _, [] => []
  | offset, c :: cs => offset :: offsets (offset + bytes c.chars) cs

/-- The gap keeps the token apart from what follows: it begins with a character that ends it. -/
def Token.SetOffBy (t : Token) (gap : List Char) : Prop :=
  Gap gap ∧ ∃ c ∈ gap.head?, t.EndsAt c

/-- Every token is written as it can be and set off from the next one; nothing or a gap follows the
last. -/
inductive LaidOut : List Chunk → Prop
  | nil : LaidOut []
  | last {c : Chunk} (spelled : c.token.SpelledAs c.text) (bare : c.gap = []) : LaidOut [c]
  | cons {c : Chunk} {cs : List Chunk} (spelled : c.token.SpelledAs c.text)
      (apart : c.token.SetOffBy c.gap) (more : LaidOut cs) : LaidOut (c :: cs)

/-- The tokens of chunks from a place on, and the end of the text after a last comment. -/
def lexemes (loc : Location) (ending : List Char) : List Chunk → List Lexeme
  | [] => [⟨.endOfText, loc.pastAll ending⟩]
  | c :: cs => ⟨c.token, loc⟩ :: lexemes (loc.pastAll c.chars) ending cs

theorem tokens_lexemes (loc : Location) (ending : List Char) (chunks : List Chunk) :
    (lexemes loc ending chunks).map Lexeme.token = chunks.map Chunk.token ++ [.endOfText] := by
  induction chunks generalizing loc with
  | nil => rfl
  | cons c cs ih => rw [lexemes, List.map_cons, ih, List.map_cons, List.cons_append]

/-- The lexemes are the tokens of the chunks, each at the place of its first byte, and the end of the
text. -/
structure ReadAs (source opening : List Char) (chunks : List Chunk) (ls : List Lexeme) : Prop where
  tokens : ls.map Lexeme.token = chunks.map Chunk.token ++ [.endOfText]
  places : ls.map Lexeme.loc =
    (offsets (bytes opening) chunks ++ [bytes source]).map (Location.ofOffset source)

theorem locs_lexemes {source before ending : List Char} {chunks : List Chunk}
    (text : source = layout before chunks ++ ending) :
    (lexemes (Location.start.pastAll before) ending chunks).map Lexeme.loc =
      (offsets (bytes before) chunks ++ [bytes source]).map (Location.ofOffset source) := by
  induction chunks generalizing before with
  | nil =>
      have whole := Location.pastAll_start source []
      rw [List.append_nil] at whole
      rw [layout, List.flatMap_nil, List.append_nil] at text
      rw [lexemes, ← Location.pastAll_append, ← text, whole]
      rfl
  | cons c cs ih =>
      rw [layout, List.flatMap_cons] at text
      have first : Location.start.pastAll before = .ofOffset source (bytes before) := by
        rw [text, List.append_assoc]
        exact Location.pastAll_start _ _
      have regrouped : source = layout (before ++ c.chars) cs ++ ending := by
        rw [text, layout]
        simp only [List.append_assoc]
      have others := ih regrouped
      rw [lexemes, List.map_cons, ← Location.pastAll_append, others, first, bytes_append]
      rfl

theorem readAs_lexemes {source opening ending : List Char} {chunks : List Chunk}
    (text : source = layout opening chunks ++ ending) :
    ReadAs source opening chunks (lexemes (Location.start.pastAll opening) ending chunks) :=
  ⟨tokens_lexemes _ _ _, locs_lexemes text⟩

/-! ## What was written is read -/

theorem scan_of_cut_token {c : Char} {cs taken rest : List Char} {t : Token}
    (h : cut c cs = ⟨.token t, taken, rest⟩) (loc : Location) :
    scan (c :: cs) loc = (scan rest (loc.pastAll taken)).map (⟨t, loc⟩ :: ·) := by
  rw [scan, h]

/-- A chunk is read as its token, if what follows does not go on with it. -/
theorem scan_chunk {c : Chunk} (spelled : c.token.SpelledAs c.text) (gap : Gap c.gap)
    {rest : List Char} (stops : c.token.Stops (c.gap ++ rest)) (loc : Location) :
    scan (c.chars ++ rest) loc = (scan rest (loc.pastAll c.chars)).map (⟨c.token, loc⟩ :: ·) := by
  obtain ⟨first, others, text, cutOff⟩ := cut_spelled spelled stops
  rw [Chunk.chars, List.append_assoc, text, scan_of_cut_token cutOff, gap.skipped,
    Location.pastAll_append]

theorem Token.SetOffBy.stops {t : Token} {gap : List Char} (h : t.SetOffBy gap)
    (rest : List Char) : t.Stops (gap ++ rest) := by
  obtain ⟨-, c, hc, ends⟩ := h
  intro d hd
  rw [List.head?_append, Option.mem_def.1 hc, Option.some_or] at hd
  exact Option.some.inj hd ▸ ends

theorem scan_laidOut {chunks : List Chunk} (laidOut : LaidOut chunks) (loc : Location) :
    scan (chunks.flatMap Chunk.chars) loc = .ok (lexemes loc [] chunks) := by
  induction laidOut generalizing loc with
  | nil => rw [List.flatMap_nil, scan]; rfl
  | @last c spelled bare =>
      have gap : Gap c.gap := bare ▸ .nil
      have stops : c.token.Stops (c.gap ++ []) := by
        rw [bare]
        exact fun d hd => absurd hd (Option.not_mem_none d)
      rw [List.flatMap_cons, List.flatMap_nil, scan_chunk spelled gap stops, scan]
      rfl
  | @cons c cs spelled apart _ ih =>
      rw [List.flatMap_cons, scan_chunk spelled apart.1 (apart.stops _), ih]
      rfl

/-- Reading gives back what was written: the tokens, each at the place of its first byte, and the
end of the text. -/
theorem lex_layout {opening : List Char} (gap : Gap opening) {chunks : List Chunk}
    (laidOut : LaidOut chunks) :
    ∃ ls, lex (String.ofList (layout opening chunks)) = .ok ls ∧
      ReadAs (layout opening chunks) opening chunks ls := by
  refine ⟨lexemes (Location.start.pastAll opening) [] chunks, ?_,
    readAs_lexemes (List.append_nil _).symm⟩
  rw [lex, String.toList_ofList, layout, gap.skipped, scan_laidOut laidOut]

/-- Tokens with gaps of every kind: characters of two bytes in a comment over two lines, zeros before
a number, a comment up to a carriage return and a line break, a form feed after a slash. -/
def mixedChunks : List Chunk :=
  [⟨.keyword .kClass, "class".toList, [' ', '/', '*', 'ü', '\n', 'é', '*', '/', ' ']⟩,
    ⟨.integer 7, "007".toList, ['\t', '/', '/', '*', '\r', '\n']⟩,
    ⟨.mark .slash, "/".toList, ['\x0c']⟩,
    ⟨.name "classes", "classes".toList, []⟩]

theorem laidOut_mixedChunks : LaidOut mixedChunks := by
  have block : Gap [' ', '/', '*', 'ü', '\n', 'é', '*', '/', ' '] := by
    have within : ¬ closing <:+: ['ü', '\n', 'é'] := by decide
    exact .space (by decide) (.block within (.space (by decide) .nil))
  have line : Gap ['\t', '/', '/', '*', '\r', '\n'] := by
    have within : '\n' ∉ ['*', '\r'] := by decide
    exact .space (by decide) (.line within .nil)
  have feed : Gap ['\x0c'] := .space (by decide) .nil
  refine .cons (.keyword .kClass) ⟨block, ' ', rfl, .inl (by decide)⟩ ?_
  refine .cons (.integer (n := 7) (by decide) 2) ⟨line, '\t', rfl, .inl (by decide)⟩ ?_
  refine .cons (.mark .slash) ⟨feed, '\x0c', rfl, .inl (by decide)⟩ ?_
  have free : ∀ k : Keyword, k.word ≠ "classes" := fun k => by cases k <;> decide
  exact .last (.name ⟨by decide, free⟩) rfl

theorem lex_layout_of_mixed_gaps :
    Gap ['/', '/', 'é', '\n'] ∧ LaidOut mixedChunks ∧
      ∃ ls, lex (String.ofList (layout ['/', '/', 'é', '\n'] mixedChunks)) = .ok ls ∧
        ls.map Lexeme.loc = [⟨2, 1⟩, ⟨3, 6⟩, ⟨4, 1⟩, ⟨4, 3⟩, ⟨4, 10⟩] := by
  have within : '\n' ∉ ['é'] := by decide
  have gap : Gap ['/', '/', 'é', '\n'] := .line within .nil
  obtain ⟨ls, read, answer⟩ := lex_layout gap laidOut_mixedChunks
  exact ⟨gap, laidOut_mixedChunks, ls, read, answer.places.trans (by decide +kernel)⟩

/-! ## What is read was written -/

/-- Whole tokens, with gaps before, between and after them. -/
structure Whole (opening : List Char) (chunks : List Chunk) : Prop where
  opening : Gap opening
  chunks : ∀ c ∈ chunks, c.token.SpelledAs c.text ∧ Gap c.gap

/-- Nothing, or a comment that the end of the text ends. -/
def LastComment (ending : List Char) : Prop :=
  ending = [] ∨ ∃ body, '\n' ∉ body ∧ ending = '/' :: '/' :: body

theorem Whole.nil {opening : List Char} (h : Gap opening) : Whole opening [] :=
  ⟨h, fun _ none => absurd none List.not_mem_nil⟩

theorem Whole.cons {opening gap text : List Char} {t : Token} {chunks : List Chunk}
    (before : Gap opening) (spelled : t.SpelledAs text) (h : Whole gap chunks) :
    Whole opening (⟨t, text, gap⟩ :: chunks) :=
  ⟨before, List.forall_mem_cons.2 ⟨⟨spelled, h.opening⟩, h.chunks⟩⟩

@[simp] theorem layout_nil (opening : List Char) : layout opening [] = opening :=
  List.append_nil opening

theorem layout_cons (opening gap text : List Char) (t : Token) (chunks : List Chunk) :
    layout opening (⟨t, text, gap⟩ :: chunks) = opening ++ (text ++ layout gap chunks) := by
  simp [layout, Chunk.chars]

/-- What reading a text answers, from any place on: its tokens if it is whole to the end, and a fault
if it is whole only to some place. -/
inductive Lexed : List Char → (Location → Except Error (List Lexeme)) → Prop
  | ended {opening ending : List Char} {chunks : List Chunk} (whole : Whole opening chunks)
      (comment : LastComment ending) :
      Lexed (layout opening chunks ++ ending) fun loc =>
        .ok (lexemes (loc.pastAll opening) ending chunks)
  | failed {opening r : List Char} {chunks : List Chunk} {c : Char} {fault : TextFault}
      (whole : Whole opening chunks) (fails : (cut c r).piece = .fault fault) :
      Lexed (layout opening chunks ++ c :: r) fun loc =>
        .error (.lexical (loc.pastAll (layout opening chunks)) fault)

theorem Lexed.token {gap text rest : List Char} {t : Token}
    {read : Location → Except Error (List Lexeme)} (skip : Gap gap) (spelled : t.SpelledAs text)
    (h : Lexed rest read) :
    Lexed (gap ++ (text ++ rest)) fun loc =>
      (read ((loc.pastAll gap).pastAll text)).map (⟨t, loc.pastAll gap⟩ :: ·) := by
  cases h with
  | @ended opening ending chunks whole comment =>
      have all := Lexed.ended (.cons skip spelled whole) comment
      simp only [layout_cons, List.append_assoc, lexemes, Chunk.chars, Location.pastAll_append] at all
      exact all
  | @failed opening r chunks c fault whole fails =>
      have all := Lexed.failed (.cons skip spelled whole) fails
      simp only [layout_cons, List.append_assoc, Location.pastAll_append] at all
      exact all

theorem scan_lastComment {ending : List Char} (h : LastComment ending) (loc : Location) :
    scan ending loc = .ok [⟨.endOfText, loc.pastAll ending⟩] := by
  rcases h with rfl | ⟨body, within, rfl⟩
  · rw [scan]
    rfl
  · have stops : ∀ c ∈ ([] : List Char).head?, c = '\n' := fun c hc =>
      absurd hc (Option.not_mem_none c)
    have cutOff := cut_line within stops
    rw [List.append_nil] at cutOff
    rw [scan_of_cut_gap cutOff, scan]

theorem Lexed.of_lastComment {gap ending : List Char} (skip : Gap gap)
    (comment : LastComment ending) : Lexed (gap ++ ending) (scan (gap ++ ending)) := by
  have same : scan (gap ++ ending) = fun loc => .ok (lexemes (loc.pastAll gap) ending []) := by
    funext loc
    rw [skip.skipped, scan_lastComment comment]
    rfl
  rw [same]
  simpa only [layout_nil] using Lexed.ended (.nil skip) comment

/-- A text is read piece by piece: a gap and what follows it, until the end or a fault. -/
theorem lexed_scan (cs : List Char) : Lexed cs (scan cs) := by
  obtain ⟨gap, rest, text, skip, ends⟩ := exists_gap cs
  rcases ends with rfl | ⟨body, within, rfl⟩ | ⟨c, r, rfl, notGap⟩
  · exact text ▸ .of_lastComment skip (.inl rfl)
  · exact text ▸ .of_lastComment skip (.inr ⟨body, within, rfl⟩)
  · cases piece : (cut c r).piece with
    | gap => exact absurd piece notGap
    | fault fault =>
        have same : scan cs = fun loc => .error (.lexical (loc.pastAll gap) fault) := by
          funext loc
          rw [text, skip.skipped, scan, piece]
        rw [same, text]
        simpa only [layout_nil] using Lexed.failed (.nil skip) piece
    | token t =>
        have same : scan cs = fun loc =>
            (scan (cut c r).rest ((loc.pastAll gap).pastAll (cut c r).taken)).map
              (⟨t, loc.pastAll gap⟩ :: ·) := by
          funext loc
          rw [text, skip.skipped, scan, piece]
        have shorter := Cut.rest_length_lt c r
        rw [same, text, ← Cut.taken_append_rest c r]
        exact .token skip (spelledAs_of_cut piece) (lexed_scan (cut c r).rest)
termination_by cs.length
decreasing_by
  rw [text, List.length_append]
  omega

theorem Lexed.written {source : List Char} {read : Location → Except Error (List Lexeme)}
    (h : Lexed source read) {loc : Location} {ls : List Lexeme} (answer : read loc = .ok ls) :
    ∀ l ∈ ls, l.token.Written := by
  cases h with
  | ended whole _ =>
      cases answer
      intro l hl
      have token := List.mem_map_of_mem (f := Lexeme.token) hl
      rw [tokens_lexemes, List.mem_append] at token
      rcases token with within | last
      · obtain ⟨c, hc, same⟩ := List.mem_map.1 within
        exact .inr (same ▸ (whole.chunks c hc).1.writable)
      · exact .inl (List.mem_singleton.1 last)
  | failed => cases answer

theorem lex_written {source : String} {ls : List Lexeme} (h : lex source = .ok ls) :
    ∀ l ∈ ls, l.token.Written :=
  (lexed_scan source.toList).written h

/-! ## Places are true -/

theorem le_of_mem_offsets {offset : Nat} {chunks : List Chunk} :
    ∀ o ∈ offsets offset chunks, offset ≤ o := by
  induction chunks generalizing offset with
  | nil => exact fun o none => absurd none List.not_mem_nil
  | cons c cs ih =>
      intro o ho
      rcases List.mem_cons.1 ho with rfl | later
      · exact Nat.le_refl _
      · exact Nat.le_trans (Nat.le_add_right _ _) (ih o later)

/-- Tokens are not empty, so their offsets increase, up to the end of the text. -/
theorem offsets_increase {offset : Nat} {chunks : List Chunk}
    (some : ∀ c ∈ chunks, 0 < bytes c.chars) {finish : Nat}
    (fits : offset + bytes (chunks.flatMap Chunk.chars) ≤ finish) :
    (offsets offset chunks ++ [finish]).Pairwise (· < ·) := by
  induction chunks generalizing offset with
  | nil => exact List.pairwise_singleton _ _
  | cons c cs ih =>
      obtain ⟨positive, others⟩ := List.forall_mem_cons.1 some
      rw [List.flatMap_cons, bytes_append] at fits
      refine List.pairwise_cons.2 ⟨fun o ho => ?_, ih others (by omega)⟩
      rcases List.mem_append.1 ho with later | last
      · have after := le_of_mem_offsets o later
        omega
      · have same := List.mem_singleton.1 last
        omega

/-- Every place that reading a text answers with is that of an offset of the text: of each token and
of the end, with whole tokens and gaps in between; or of a fault, with whole tokens and gaps before
it. -/
def Located (source : List Char) : Except Error (List Lexeme) → Prop
  | .ok ls => ∃ opening chunks ending, Whole opening chunks ∧ LastComment ending ∧
      source = layout opening chunks ++ ending ∧ ReadAs source opening chunks ls ∧
      (offsets (bytes opening) chunks ++ [bytes source]).Pairwise (· < ·)
  | .error (.lexical loc fault) => ∃ opening chunks c r, Whole opening chunks ∧
      source = layout opening chunks ++ c :: r ∧ (cut c r).piece = .fault fault ∧
      loc = Location.ofOffset source (bytes (layout opening chunks))
  | .error _ => False

theorem Lexed.located {source : List Char} {read : Location → Except Error (List Lexeme)}
    (h : Lexed source read) : Located source (read .start) := by
  cases h with
  | @ended opening ending chunks whole comment =>
      refine ⟨opening, chunks, ending, whole, comment, rfl, readAs_lexemes rfl, ?_⟩
      refine offsets_increase (fun c hc => ?_) ?_
      · rw [Chunk.chars, bytes_append]
        exact Nat.add_pos_left (bytes_pos (whole.chunks c hc).1.ne_nil) _
      · rw [layout, bytes_append, bytes_append]
        exact Nat.le_add_right _ _
  | @failed opening r chunks c fault whole fails =>
      exact ⟨opening, chunks, c, r, whole, rfl, fails, Location.pastAll_start _ _⟩

/-- Whatever the text is, the places of its tokens, of its end and of a fault in it are true, also if
they are kept by counting lines. -/
theorem lex_located (source : String) :
    Located source.toList (lex source) ∧ lexCounting source = lex source :=
  ⟨(lexed_scan source.toList).located, lexCounting_eq source⟩

end JavaMinus.Source
