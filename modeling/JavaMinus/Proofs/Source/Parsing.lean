/-
# Expressions are read by their grammar

A reader of expressions takes tokens that the grammar derives, and answers with their tree:
`Derived` goes through the readers one by one, and a loop over operators or selectors is handed a
derivation of all that stands before it.

The other way round the tokens after the phrase matter, since a loop goes on for as long as it can.
`Stops h` is what they have to satisfy for a phrase whose root binds as loosely as `h` to end before
them.  A chain that is derived from a chain is read by one loop, not by two, so what is carried
through the derivation of a chain is not that the reader answers, but that it comes to where its
loop goes on with the tree so far (`Completes`).
-/
import JavaMinus.Proofs.Source.Grammar
import JavaMinus.Proofs.Source.Words

namespace JavaMinus.Source

variable {α β : Type} {m n : Nat}

/-! ## The operators of a level -/

/-- The reader's table is the grammar's: a level has the operators that the grammar gives it, each
under its mark, and no others. -/
theorem Level.operator?_eq_some_iff {l : Level} {t : Token} {op : BinaryOp} :
    l.operator? t = some op ↔ t = .mark op.mark ∧ op.level = l := by
  refine ⟨fun h => ?_, ?_⟩
  · unfold operator? at h
    split at h <;> cases h <;> exact ⟨rfl, rfl⟩
  · rintro ⟨rfl, rfl⟩
    cases op <;> rfl

/-! ## What a reader takes is derived -/

/-- A reader of the tokens takes some of which `D` holds together with the answer. -/
def Derived (D : List Token → α → Prop) (ts : List Lexeme) (r : Reading α n) : Prop :=
  ∀ p, r = .ok p → ∃ w, ts = w ++ p.rest.tokens ∧ D (w.map Lexeme.token) p.value

namespace Derived

theorem ok {D : List Token → α → Prop} {ts : List Lexeme} {p : Parsed Input.size n α}
    (w : List Lexeme) (hts : ts = w ++ p.rest.tokens) (hp : D (w.map Lexeme.token) p.value) :
    Derived D ts (.ok p) := by
  intro q hq
  cases hq
  exact ⟨w, hts, hp⟩

theorem error {D : List Token → α → Prop} {ts : List Lexeme} (e : Error) :
    Derived D ts (.error e : Reading α n) := by
  intro p hp
  cases hp

theorem mono {D E : List Token → α → Prop} {ts : List Lexeme} {r : Reading α n} (hr : Derived D ts r)
    (h : ∀ w a, D w a → E w a) : Derived E ts r := by
  intro p hp
  obtain ⟨w, hts, hw⟩ := hr p hp
  exact ⟨w, hts, h _ _ hw⟩

/-- After a first reader the second one adds its tokens to those of the first. -/
theorem bind {D : List Token → α → Prop} {E : List Token → β → Prop} {ts : List Lexeme}
    {r : Reading α m} {f : Parsed Input.size m α → Reading β n} (hr : Derived D ts r)
    (hf : ∀ p w, D w p.value → Derived (fun v b => E (w ++ v) b) p.rest.tokens (f p)) :
    Derived E ts (r >>= f) := by
  intro q hq
  obtain ⟨p, hp, hq⟩ := exists_of_bind hq
  obtain ⟨w, hts, hw⟩ := hr p hp
  obtain ⟨v, hrest, hv⟩ := hf p _ hw q hq
  refine ⟨w ++ v, ?_, ?_⟩
  · rw [hts, hrest, List.append_assoc]
  · rwa [List.map_append]

theorem done {D : List Token → α → Prop} {ts : List Lexeme} {p : Parsed Input.size n α}
    (hts : p.rest.tokens = ts) (hp : D [] p.value) : Derived D ts (.ok p) :=
  .ok [] hts.symm hp

theorem first {D : List Token → α → Prop} {l : Lexeme} {ts : List Lexeme} {r : Reading α n}
    (hr : Derived (fun w a => D (l.token :: w) a) ts r) : Derived D (l :: ts) r := by
  intro p hp
  obtain ⟨w, hts, hw⟩ := hr p hp
  refine ⟨l :: w, ?_, hw⟩
  rw [List.cons_append, ← hts]

end Derived

theorem expect_derived (i : Input) (t : Token) (rule : String) :
    Derived (fun w _ => w = [t]) i.tokens (i.expect t rule) := by
  unfold Input.expect
  split
  · rename_i l ls k
    split
    · rename_i h
      exact .ok [l] rfl (congrArg (fun t => [t]) h)
    · exact .error _
  · exact .error _

theorem expectMark_derived (i : Input) (mark : Mark) (rule : String) :
    Derived (fun w _ => w = [.mark mark]) i.tokens (i.expectMark mark rule) :=
  expect_derived i (.mark mark) rule

theorem expectName_derived (i : Input) (rule : String) :
    Derived (fun w text => w = [.name text]) i.tokens (i.expectName rule) := by
  unfold Input.expectName
  split
  · rename_i text loc ls k
    exact .ok [⟨.name text, loc⟩] rfl rfl
  · exact .error _

theorem close_derived (p : Parsed Input.size n α) (mark : Mark) (rule : String) :
    Derived (fun w a => w = [.mark mark] ∧ a = p.value) p.rest.tokens (close p mark rule) := by
  refine (expectMark_derived p.rest mark rule).bind fun c w hw => ?_
  exact .done rfl ⟨by rw [hw, List.append_nil], rfl⟩

theorem leaf_derived {l : Lexeme} {ts : List Lexeme} {k : Nat} {h : ts.length < n} {loc : Location}
    {node : Tag → Expr} (hd : ∀ tag, Derives .primary [l.token] (node tag).untagged) :
    Derived (fun w e => Derives .primary w e.untagged) (l :: ts) (leaf ts k n h loc node) :=
  .ok [l] rfl (hd _)

mutual

theorem expression_derived (i : Input) {size : Nat} (hs : i.size = size) :
    Derived (fun w e => Derives .expression w e.untagged) i.tokens (expression i) := by
  rw [expression]
  exact chain_derived .conjunction i hs
termination_by 16 * size + 11
decreasing_by all_goals (simp only [Level.height]; omega)

theorem chain_derived (l : Level) (i : Input) {size : Nat} (hs : i.size = size) :
    Derived (fun w e => Derives (.chain l) w e.untagged) i.tokens (chain l i) := by
  rw [chain]
  refine (operand_derived l i hs).bind fun first w hw => ?_
  have := first.shorter
  refine (operators_derived l first.value first.rest w (.single hw) rfl).bind fun p v hv => ?_
  exact .done rfl (by rwa [List.append_nil])
termination_by 16 * size + 2 * l.height + 2
decreasing_by all_goals omega

theorem operand_derived (l : Level) (i : Input) {size : Nat} (hs : i.size = size) :
    Derived (fun w e => Derives l.next w e.untagged) i.tokens (operand l i) := by
  cases l with
  | conjunction =>
      rw [operand]
      exact chain_derived .comparison i hs
  | comparison =>
      rw [operand]
      exact chain_derived .sum i hs
  | sum =>
      rw [operand]
      exact chain_derived .product i hs
  | product =>
      rw [operand]
      exact unary_derived i hs
termination_by 16 * size + 2 * l.height + 1
decreasing_by all_goals (simp only [Level.height]; omega)

/-- The operators after a chain make a chain together with it. -/
theorem operators_derived (l : Level) (lhs : Expr) (i : Input) (u : List Token)
    (hlhs : Derives (.chain l) u lhs.untagged) {size : Nat} (hs : i.size = size) :
    Derived (fun w e => Derives (.chain l) (u ++ w) e.untagged) i.tokens (operators l lhs i) := by
  rw [operators.eq_def]
  split
  · rename_i t ts k
    split
    · rename_i op hop
      refine .first ((operand_derived l ⟨ts, k⟩ rfl).bind fun rhs v hv => ?_)
      have := rhs.shorter
      have node : Derives (.chain l) (u ++ t.token :: v)
          (Expr.binary ⟨rhs.rest.nextId, lhs.loc⟩ op lhs rhs.value).untagged := by
        rw [Expr.untagged, (Level.operator?_eq_some_iff.1 hop).1]
        exact .operator (Level.operator?_eq_some_iff.1 hop).2 hlhs hv
      refine (operators_derived l _ ⟨rhs.rest.tokens, rhs.rest.nextId + 1⟩ _ node rfl).bind
        fun p w hw => ?_
      refine .done rfl ?_
      simpa only [Parsed.within, List.append_assoc, List.cons_append, List.append_nil] using hw
    · exact .done rfl (by rwa [List.append_nil])
  · exact .done rfl (by rwa [List.append_nil])
termination_by 16 * size + 10
decreasing_by
  all_goals
    have := l.height_le
    simp only [Input.size, List.length_cons] at *
    omega

theorem unary_derived (i : Input) {size : Nat} (hs : i.size = size) :
    Derived (fun w e => Derives .unary w e.untagged) i.tokens (unary i) := by
  rw [unary.eq_def]
  split
  · rename_i loc ts k
    refine .first ((unary_derived ⟨ts, k⟩ rfl).bind fun e w hw => ?_)
    refine .done rfl ?_
    rw [List.append_nil]
    exact .not hw
  · refine (primary_derived _ hs).bind fun base w hw => ?_
    have : base.rest.size < size := hs ▸ base.shorter
    refine (selectors_derived base.value base.rest w (.base hw) rfl).bind fun p v hv => ?_
    exact .done rfl (.bare (by rwa [List.append_nil]))
termination_by 16 * size + 2
decreasing_by all_goals (simp only [Input.size, List.length_cons] at *; omega)

/-- What follows a postfix form makes a postfix form together with it. -/
theorem selectors_derived (e : Expr) (i : Input) (u : List Token)
    (he : Derives .postfixed u e.untagged) {size : Nat} (hs : i.size = size) :
    Derived (fun w e => Derives .postfixed (u ++ w) e.untagged) i.tokens (selectors e i) := by
  rw [selectors.eq_def]
  split
  · rename_i loc ts k
    refine .first ((expression_derived ⟨ts, k⟩ rfl).bind fun inner v hv => ?_)
    refine (close_derived inner .rbracket _).bind fun index c hc => ?_
    obtain ⟨rfl, hvalue⟩ := hc
    have := index.shorter
    have node : Derives .postfixed (u ++ .mark .lbracket :: (v ++ [.mark .rbracket]))
        (Expr.index ⟨index.rest.nextId, loc⟩ e index.value).untagged := by
      rw [Expr.untagged, hvalue]
      exact .index he hv
    refine (selectors_derived _ ⟨index.rest.tokens, index.rest.nextId + 1⟩ _ node rfl).bind
      fun p w hw => ?_
    refine .done rfl ?_
    simpa only [Parsed.within, List.append_assoc, List.cons_append, List.append_nil] using hw
  · rename_i loc _ ts k
    have node : Derives .postfixed (u ++ [.mark .dot, .keyword .kLength])
        (Expr.length ⟨k, loc⟩ e).untagged := by
      rw [Expr.untagged]
      exact .length he
    refine .first (.first ((selectors_derived _ ⟨ts, k + 1⟩ _ node rfl).bind
      fun p w hw => ?_))
    exact .done rfl (by simpa only [Parsed.within, List.append_assoc,
      List.cons_append, List.nil_append, List.append_nil] using hw)
  · rename_i loc ts k _
    refine .first ((expectName_derived ⟨ts, k⟩ _).bind fun word c hc => ?_)
    refine (close_derived word .lparen _).bind fun method d hd => ?_
    obtain ⟨rfl, hmethod⟩ := hd
    have := method.shorter
    refine (arguments_derived method.rest rfl).bind fun args v hv => ?_
    obtain ⟨v, rfl, hv⟩ := hv
    have := args.shorter
    have node : Derives .postfixed
        (u ++ .mark .dot :: .name method.value :: .mark .lparen :: (v ++ [.mark .rparen]))
        (Expr.call ⟨args.rest.nextId, loc⟩ e method.value args.value).untagged := by
      rw [Expr.untagged]
      exact .call he hv
    refine (selectors_derived _ ⟨args.rest.tokens, args.rest.nextId + 1⟩ _ node rfl).bind
      fun p w hw => ?_
    refine .done rfl ?_
    rw [hc, ← hmethod]
    simpa only [Parsed.within, List.append_assoc, List.cons_append, List.nil_append,
      List.append_nil] using hw
  · exact .done rfl (by rwa [List.append_nil])
termination_by 16 * size + 10
decreasing_by all_goals (simp only [Input.size, List.length_cons] at *; omega)

/-- The arguments of a call are taken together with the parenthesis after them. -/
theorem arguments_derived (i : Input) {size : Nat} (hs : i.size = size) :
    Derived (fun w es => ∃ v, w = v ++ [.mark .rparen] ∧ DerivesArguments v (Expr.untaggedAll es))
      i.tokens (arguments i) := by
  rw [arguments.eq_def]
  split
  · rename_i loc ts k
    refine .ok [⟨.mark .rparen, loc⟩] rfl ⟨[], rfl, ?_⟩
    rw [Expr.untaggedAll]
    exact .none
  · exact (someArguments_derived _ hs).mono fun w es ⟨v, hw, hv, _⟩ => ⟨v, hw, hv⟩
termination_by 16 * size + 13
decreasing_by all_goals omega

theorem someArguments_derived (i : Input) {size : Nat} (hs : i.size = size) :
    Derived (fun w es => ∃ v, w = v ++ [.mark .rparen] ∧
      DerivesArguments v (Expr.untaggedAll es) ∧ es ≠ []) i.tokens (someArguments i) := by
  rw [someArguments]
  refine (expression_derived i hs).bind fun arg u hu => ?_
  split
  · rename_i e loc ts k hlt
    have : Input.size ⟨ts, k⟩ + 1 < size := hs ▸ hlt
    refine .first ((someArguments_derived ⟨ts, k⟩ rfl).bind fun more v hv => ?_)
    obtain ⟨v, rfl, hv, hne⟩ := hv
    refine .done rfl ⟨u ++ .mark .comma :: v, by simp, ?_, List.cons_ne_nil _ _⟩
    obtain ⟨e', es, hes⟩ := List.exists_cons_of_ne_nil hne
    simp only [Parsed.within, Parsed.map, hes, Expr.untaggedAll] at hv ⊢
    exact .more hu hv
  · refine (close_derived (arg.map ([·])) .rparen _).mono fun w es hw => ?_
    obtain ⟨rfl, rfl⟩ := hw
    refine ⟨u, rfl, ?_, List.cons_ne_nil _ _⟩
    simp only [Parsed.map, Expr.untaggedAll]
    exact .last hu
termination_by 16 * size + 12
decreasing_by all_goals (simp only [Input.size] at *; omega)

theorem primary_derived (i : Input) {size : Nat} (hs : i.size = size) :
    Derived (fun w e => Derives .primary w e.untagged) i.tokens (primary i) := by
  rw [primary.eq_def]
  split
  · exact leaf_derived fun _ => by rw [Expr.untagged]; exact .int _
  · exact leaf_derived fun _ => by rw [Expr.untagged]; exact .true
  · exact leaf_derived fun _ => by rw [Expr.untagged]; exact .false
  · exact leaf_derived fun _ => by rw [Expr.untagged]; exact .this
  · exact leaf_derived fun _ => by rw [Expr.untagged]; exact .name _
  · rename_i loc ts k
    refine .first ((expression_derived ⟨ts, k⟩ rfl).bind fun inner w hw => ?_)
    refine (close_derived inner .rparen _).bind fun e c hc => ?_
    obtain ⟨rfl, hvalue⟩ := hc
    refine .done rfl ?_
    simp only [finish, Parsed.within, Expr.untagged, hvalue, List.append_nil]
    exact .paren hw
  · rename_i loc ts k
    refine .first ((creation_derived loc ⟨ts, k⟩ rfl).bind fun e w hw => ?_)
    refine .done rfl ?_
    rw [List.append_nil]
    exact hw
  · exact .error _
termination_by 16 * size + 1
decreasing_by all_goals (simp only [Input.size, List.length_cons] at *; omega)

theorem creation_derived (loc : Location) (i : Input) {size : Nat} (hs : i.size = size) :
    Derived (fun w e => Derives .primary (.keyword .kNew :: w) e.untagged) i.tokens
      (creation loc i) := by
  rw [creation.eq_def]
  split
  · rename_i loc' ts k
    refine .first ((expectMark_derived ⟨ts, k⟩ .lbracket _).bind fun opening c hc => ?_)
    have := opening.shorter
    refine (expression_derived opening.rest rfl).bind fun inner w hw => ?_
    refine (close_derived inner .rbracket _).bind fun size d hd => ?_
    obtain ⟨rfl, hvalue⟩ := hd
    refine .done rfl ?_
    simp only [finish, Parsed.within, Expr.untagged, hvalue, hc, List.append_nil, List.cons_append,
      List.nil_append]
    exact .newArray hw
  · refine (expectName_derived _ _).bind fun word c hc => ?_
    refine (close_derived word .lparen _).bind fun opening d hd => ?_
    obtain ⟨rfl, hopening⟩ := hd
    refine (close_derived opening .rparen _).bind fun e c' hc' => ?_
    obtain ⟨rfl, hvalue⟩ := hc'
    refine .done rfl ?_
    simp only [finish, Expr.untagged, hvalue, hopening, hc, List.append_nil, List.cons_append,
      List.nil_append]
    exact .newObject _
termination_by 16 * size
decreasing_by all_goals (simp only [Input.size, List.length_cons] at *; omega)

end

/-! ## What is derived is read -/

/-- The reader answers, with a value of which `P` holds, and leaves exactly `ts`. -/
def Answers (P : α → Prop) (ts : List Lexeme) (r : Reading α n) : Prop :=
  ∃ p, r = .ok p ∧ P p.value ∧ p.rest.tokens = ts

namespace Answers

theorem ok {P : α → Prop} {ts : List Lexeme} {p : Parsed Input.size n α} (hp : P p.value)
    (hts : p.rest.tokens = ts) : Answers P ts (.ok p) :=
  ⟨p, rfl, hp, hts⟩

theorem bind {P : α → Prop} {Q : β → Prop} {ts ts' : List Lexeme} {r : Reading α m}
    {f : Parsed Input.size m α → Reading β n} (hr : Answers P ts r)
    (hf : ∀ p, P p.value → p.rest.tokens = ts → Answers Q ts' (f p)) : Answers Q ts' (r >>= f) := by
  obtain ⟨p, rfl, hp, hts⟩ := hr
  exact hf p hp hts

end Answers

theorem expect_answers {i : Input} {l : Lexeme} {ts : List Lexeme} {t : Token} (rule : String)
    (hi : i.tokens = l :: ts) (hl : l.token = t) : Answers (fun _ => True) ts (i.expect t rule) := by
  obtain ⟨_, k⟩ := i
  subst hi
  rw [Input.expect, if_pos hl]
  exact .ok trivial rfl

theorem expectName_answers {i : Input} {l : Lexeme} {ts : List Lexeme} {text : String}
    (rule : String)
    (hi : i.tokens = l :: ts) (hl : l.token = .name text) :
    Answers (· = text) ts (i.expectName rule) := by
  obtain ⟨_, k⟩ := i
  obtain ⟨_, loc⟩ := l
  subst hi hl
  rw [Input.expectName]
  exact .ok rfl rfl

theorem close_answers {p : Parsed Input.size n α} {l : Lexeme} {ts : List Lexeme} {mark : Mark}
    (rule : String) (hp : p.rest.tokens = l :: ts) (hl : l.token = .mark mark) :
    Answers (· = p.value) ts (close p mark rule) := by
  refine (expect_answers rule hp hl).bind fun c _ hc => ?_
  exact .ok rfl hc

/-! ### Where a phrase ends -/

/-- The tokens do not go on with a phrase whose root binds as loosely as `h`. -/
def Stops (h : Nat) (ts : List Lexeme) : Prop :=
  ∀ x ∈ ts.head?, x.token ≠ .mark .lbracket ∧ x.token ≠ .mark .dot ∧
    ∀ l : Level, l.height ≤ h → l.operator? x.token = none

theorem Stops.mono {h h' : Nat} {ts : List Lexeme} (hs : Stops h ts) (hle : h' ≤ h) :
    Stops h' ts := by
  intro x hx
  obtain ⟨hbracket, hdot, hops⟩ := hs x hx
  exact ⟨hbracket, hdot, fun l hl => hops l (Nat.le_trans hl hle)⟩

/-- An operator ends every phrase that binds more tightly. -/
theorem stops_of_operator {x : Lexeme} {op : BinaryOp} (ts : List Lexeme)
    (ht : x.token = .mark op.mark) : Stops op.level.next.height (x :: ts) := by
  intro y hy
  obtain rfl : x = y := Option.some.inj hy
  refine ⟨?_, ?_, fun l hl => ?_⟩
  · rw [ht]
    cases op <;> decide
  · rw [ht]
    cases op <;> decide
  · refine Option.eq_none_iff_forall_ne_some.2 fun op' hop => ?_
    obtain ⟨ht', rfl⟩ := Level.operator?_eq_some_iff.1 hop
    obtain rfl : op' = op := BinaryOp.mark_injective (Token.mark.inj (ht'.symm.trans ht))
    have := op'.level.height_next
    omega

/-- A closing mark and a comma end every phrase. -/
theorem stops_of_mark {x : Lexeme} {mark : Mark} {ts : List Lexeme} (hx : x.token = .mark mark)
    (hm : mark = .rparen ∨ mark = .rbracket ∨ mark = .comma) (h : Nat) : Stops h (x :: ts) := by
  intro y hy
  obtain rfl : x = y := Option.some.inj hy
  rw [hx]
  rcases hm with rfl | rfl | rfl
  all_goals exact ⟨by decide, by decide, fun l _ => by cases l <;> rfl⟩

theorem operators_stops {l : Level} {i : Input} (h : Stops l.height i.tokens) (e : Expr) :
    Answers (· = e) i.tokens (operators l e i) := by
  rw [operators.eq_def]
  split
  · rename_i t ts k
    rw [(h t rfl).2.2 l (Nat.le_refl _)]
    exact .ok rfl rfl
  · exact .ok rfl rfl

theorem selectors_stops {i : Input} (h : Stops 0 i.tokens) (e : Expr) :
    Answers (· = e) i.tokens (selectors e i) := by
  rw [selectors.eq_def]
  split
  · exact absurd rfl (h _ rfl).1
  · exact absurd rfl (h _ rfl).2.1
  · exact absurd rfl (h _ rfl).2.1
  · exact .ok rfl rfl

/-! ### What is carried through a derivation -/

/-- However the tokens of the phrase are placed, the reader of the phrase gets through them.  The
loop of a chain, and the loop of a postfix form, is left running: what it comes to with the tree so
far, the reader comes to. -/
def Completes : Phrase → List Token → Expr → Prop
  | .chain l, w, e => ∀ ws ts : List Lexeme, ws.map Lexeme.token = w → Stops l.next.height ts →
      ∀ i : Input, i.tokens = ws ++ ts → ∀ (P : Expr → Prop) (rest : List Lexeme),
        (∀ (a : Expr) (j : Input), a.untagged = e → j.tokens = ts →
          Answers P rest (operators l a j)) → Answers P rest (chain l i)
  | .unary, w, e => ∀ ws ts : List Lexeme, ws.map Lexeme.token = w → Stops 0 ts →
      ∀ i : Input, i.tokens = ws ++ ts → Answers (·.untagged = e) ts (unary i)
  | .postfixed, w, e => ∀ ws ts : List Lexeme, ws.map Lexeme.token = w →
      ∀ i : Input, i.tokens = ws ++ ts → ∀ (P : Expr → Prop) (rest : List Lexeme),
        (∀ (a : Expr) (j : Input), a.untagged = e → j.tokens = ts →
          Answers P rest (selectors a j)) → Answers P rest (unary i)
  | .primary, w, e => ∀ ws ts : List Lexeme, ws.map Lexeme.token = w →
      ∀ i : Input, i.tokens = ws ++ ts → Answers (·.untagged = e) ts (primary i)

/-- The arguments are read together with the parenthesis after them; an empty list is not read by
the loop. -/
def CompletesArguments (w : List Token) (es : List Expr) : Prop :=
  es ≠ [] → ∀ (ws ts : List Lexeme) (x : Lexeme), ws.map Lexeme.token = w →
    x.token = .mark .rparen → ∀ i : Input, i.tokens = ws ++ x :: ts →
      Answers (Expr.untaggedAll · = es) ts (someArguments i)

theorem CompletesArguments.arguments {w : List Token} {es : List Expr}
    (h : CompletesArguments w es) (hd : DerivesArguments w es) {ws ts : List Lexeme} {x : Lexeme}
    (hw : ws.map Lexeme.token = w) (hx : x.token = .mark .rparen) {i : Input}
    (hi : i.tokens = ws ++ x :: ts) : Answers (Expr.untaggedAll · = es) ts (Source.arguments i) := by
  by_cases hne : es = []
  · subst hne
    cases hd
    obtain rfl := List.map_eq_nil_iff.1 hw
    obtain ⟨_, k⟩ := i
    obtain ⟨_, loc⟩ := x
    subst hi hx
    rw [Source.arguments.eq_def]
    refine .ok ?_ rfl
    rw [Expr.untaggedAll]
  · rw [Source.arguments.eq_def]
    split
    · obtain ⟨t, ht, hclosing⟩ := hd.begins hne
      rename_i loc ts' k
      cases ws with
      | nil => subst hw; cases ht
      | cons y ws =>
          subst hw
          cases hi
          cases ht
          exact absurd rfl hclosing
    · exact h hne ws ts x hw hx i hi

namespace Completes

variable {w u v : List Token} {e e' : Expr}

/-- A chain with nothing after it that its loop would take is read as a whole. -/
theorem whole {l : Level} (h : Completes (.chain l) w e) {ws ts : List Lexeme}
    (hw : ws.map Lexeme.token = w) (hs : Stops l.height ts) {i : Input}
    (hi : i.tokens = ws ++ ts) : Answers (·.untagged = e) ts (chain l i) := by
  have hnext := l.height_next
  refine h ws ts hw (hs.mono (by omega)) i hi _ _ fun a j ha hj => ?_
  subst hj
  obtain ⟨p, hp, rfl, hrest⟩ := operators_stops hs a
  exact ⟨p, hp, ha, hrest⟩

theorem expression (h : Completes .expression w e) {ws ts : List Lexeme}
    (hw : ws.map Lexeme.token = w) (hs : Stops Phrase.expression.height ts) {i : Input}
    (hi : i.tokens = ws ++ ts) : Answers (·.untagged = e) ts (Source.expression i) := by
  rw [Source.expression]
  exact h.whole hw hs hi

theorem operand {l : Level} (h : Completes l.next w e) {ws ts : List Lexeme}
    (hw : ws.map Lexeme.token = w) (hs : Stops l.next.height ts) {i : Input}
    (hi : i.tokens = ws ++ ts) : Answers (·.untagged = e) ts (Source.operand l i) := by
  cases l with
  | conjunction =>
      rw [Source.operand]
      exact whole (l := .comparison) h hw hs hi
  | comparison =>
      rw [Source.operand]
      exact whole (l := .sum) h hw hs hi
  | sum =>
      rw [Source.operand]
      exact whole (l := .product) h hw hs hi
  | product =>
      rw [Source.operand]
      exact h ws ts hw hs i hi

theorem single {l : Level} (h : Completes l.next w e) : Completes (.chain l) w e := by
  intro ws ts hw hs i hi P rest hloop
  rw [chain]
  refine (h.operand hw hs hi).bind fun first he hfirst => ?_
  refine (hloop first.value first.rest he hfirst).bind fun p hp hrest => ?_
  exact .ok hp hrest

/-- The chain on the left is read up to where its loop meets the operator, which the same loop then
takes. -/
theorem operator {l : Level} {op : BinaryOp} (hop : op.level = l)
    (hl : Completes (.chain l) u e) (hr : Completes l.next v e') :
    Completes (.chain l) (u ++ .mark op.mark :: v) (.binary default op e e') := by
  subst hop
  intro ws ts hw hs i hi P rest hloop
  obtain ⟨us, xvs, rfl, rfl, hxvs⟩ := List.map_eq_append_iff.1 hw
  obtain ⟨x, vs, rfl, hx, rfl⟩ := List.map_eq_cons_iff.1 hxvs
  have taken : op.level.operator? x.token = some op := Level.operator?_eq_some_iff.2 ⟨hx, rfl⟩
  refine hl us (x :: (vs ++ ts)) rfl (stops_of_operator _ hx) i (by simp [hi]) P rest
    fun a j ha hj => ?_
  obtain ⟨_, k⟩ := j
  subst hj
  rw [operators.eq_def]
  simp only [taken]
  refine (hr.operand rfl hs rfl).bind fun rhs hrhs hrest => ?_
  refine (hloop (.binary ⟨rhs.rest.nextId, a.loc⟩ op a rhs.value)
    ⟨rhs.rest.tokens, rhs.rest.nextId + 1⟩ ?_ hrest).bind fun p hp hr' => ?_
  · rw [Expr.untagged, ha, hrhs]
  · exact .ok hp hr'

theorem bare (h : Completes .postfixed w e) : Completes .unary w e := by
  intro ws ts hw hs i hi
  refine h ws ts hw i hi _ _ fun a j ha hj => ?_
  subst hj
  obtain ⟨p, hp, rfl, hrest⟩ := selectors_stops hs a
  exact ⟨p, hp, ha, hrest⟩

theorem not (h : Completes .unary w e) :
    Completes .unary (.mark .bang :: w) (.not default e) := by
  intro ws ts hw hs i hi
  obtain ⟨⟨_, loc⟩, ws, rfl, rfl, rfl⟩ := List.map_eq_cons_iff.1 hw
  obtain ⟨_, k⟩ := i
  subst hi
  rw [List.cons_append, unary.eq_def]
  refine (h ws ts rfl hs ⟨ws ++ ts, k⟩ rfl).bind fun e he hrest => ?_
  refine .ok ?_ hrest
  simp only [finish, Parsed.within, Expr.untagged, he]

theorem base (h : Completes .primary w e) : Completes .postfixed w e := by
  intro ws ts hw i hi P rest hloop
  have hprimary := h ws ts hw i hi
  rw [unary.eq_def]
  split
  · -- no operand begins with a negation
    obtain ⟨p, hp, -⟩ := hprimary
    rw [primary.eq_def] at hp
    cases hp
  · refine hprimary.bind fun first he hfirst => ?_
    refine (hloop first.value first.rest he hfirst).bind fun p hp hrest => ?_
    exact .ok hp hrest

theorem index (h : Completes .postfixed u e) (hi : Completes .expression v e') :
    Completes .postfixed (u ++ .mark .lbracket :: (v ++ [.mark .rbracket]))
      (.index default e e') := by
  intro ws ts hw i hin P rest hloop
  obtain ⟨us, xvs, rfl, rfl, hxvs⟩ := List.map_eq_append_iff.1 hw
  obtain ⟨⟨_, loc⟩, vys, rfl, rfl, hvys⟩ := List.map_eq_cons_iff.1 hxvs
  obtain ⟨vs, ys, rfl, rfl, hys⟩ := List.map_eq_append_iff.1 hvys
  obtain ⟨y, rfl, hy⟩ := List.map_eq_singleton_iff.1 hys
  refine h us (⟨.mark .lbracket, loc⟩ :: (vs ++ y :: ts)) rfl i (by simp [hin]) P rest
    fun a j ha hj => ?_
  obtain ⟨_, k⟩ := j
  subst hj
  rw [selectors.eq_def]
  have hstops : Stops Phrase.expression.height (y :: ts) :=
    stops_of_mark hy (.inr (.inl rfl)) _
  refine (hi.expression rfl hstops rfl).bind fun inner hinner hrest => ?_
  refine (close_answers _ hrest hy).bind fun index hindex hrest => ?_
  refine (hloop (.index ⟨index.rest.nextId, loc⟩ a index.value)
    ⟨index.rest.tokens, index.rest.nextId + 1⟩ ?_ hrest).bind fun p hp hr => ?_
  · rw [Expr.untagged, ha, hindex, hinner]
  · exact .ok hp hr

theorem length (h : Completes .postfixed u e) :
    Completes .postfixed (u ++ [.mark .dot, .keyword .kLength]) (.length default e) := by
  intro ws ts hw i hi P rest hloop
  obtain ⟨us, xs, rfl, rfl, hxs⟩ := List.map_eq_append_iff.1 hw
  obtain ⟨⟨_, loc⟩, ys, rfl, rfl, hys⟩ := List.map_eq_cons_iff.1 hxs
  obtain ⟨⟨_, loc'⟩, rfl, rfl⟩ := List.map_eq_singleton_iff.1 hys
  refine h us (⟨.mark .dot, loc⟩ :: ⟨.keyword .kLength, loc'⟩ :: ts) rfl i (by simp [hi]) P rest
    fun a j ha hj => ?_
  obtain ⟨_, k⟩ := j
  subst hj
  rw [selectors.eq_def]
  refine (hloop (.length ⟨k, loc⟩ a) ⟨ts, k + 1⟩ ?_ rfl).bind fun p hp hr => ?_
  · rw [Expr.untagged, ha]
  · exact .ok hp hr

theorem call {args : List Expr} {method : String} (h : Completes .postfixed u e)
    (hd : DerivesArguments v args) (hargs : CompletesArguments v args) :
    Completes .postfixed (u ++ .mark .dot :: .name method :: .mark .lparen :: (v ++ [.mark .rparen]))
      (.call default e method args) := by
  intro ws ts hw i hi P rest hloop
  obtain ⟨us, xs, rfl, rfl, hxs⟩ := List.map_eq_append_iff.1 hw
  obtain ⟨⟨_, loc⟩, ys, rfl, rfl, hys⟩ := List.map_eq_cons_iff.1 hxs
  obtain ⟨⟨_, loc'⟩, zs, rfl, rfl, hzs⟩ := List.map_eq_cons_iff.1 hys
  obtain ⟨opening, vxs, rfl, hopening, hvxs⟩ := List.map_eq_cons_iff.1 hzs
  obtain ⟨vs, closing, rfl, rfl, hclosing⟩ := List.map_eq_append_iff.1 hvxs
  obtain ⟨x, rfl, hx⟩ := List.map_eq_singleton_iff.1 hclosing
  refine h us (⟨.mark .dot, loc⟩ :: ⟨.name method, loc'⟩ :: opening :: (vs ++ x :: ts)) rfl i
    (by simp [hi]) P rest fun a j ha hj => ?_
  obtain ⟨_, k⟩ := j
  subst hj
  rw [selectors.eq_def]
  refine (expectName_answers (i := ⟨⟨.name method, loc'⟩ :: opening :: (vs ++ x :: ts), k⟩) _ rfl
    rfl).bind fun name hname hrest => ?_
  refine (close_answers _ hrest hopening).bind fun callee hcallee hrest => ?_
  refine (hargs.arguments hd rfl hx hrest).bind fun as has hrest => ?_
  refine (hloop (.call ⟨as.rest.nextId, loc⟩ a callee.value as.value)
    ⟨as.rest.tokens, as.rest.nextId + 1⟩ ?_ hrest).bind fun p hp hr => ?_
  · rw [Expr.untagged, ha, hcallee, hname, has]
  · exact .ok hp hr

theorem leaf {t : Token} (node : Tag → Expr) (hnode : ∀ tag, (node tag).untagged = e)
    (hread : ∀ (loc : Location) (ts : List Lexeme) (k : Nat),
      Source.primary ⟨⟨t, loc⟩ :: ts, k⟩ =
        Source.leaf ts k _ (Input.size_lt_succ ts k) loc node) : Completes .primary [t] e := by
  intro ws ts hw i hi
  obtain ⟨⟨_, loc⟩, rfl, rfl⟩ := List.map_eq_singleton_iff.1 hw
  obtain ⟨_, k⟩ := i
  subst hi
  rw [List.singleton_append, hread]
  exact .ok (hnode _) rfl

theorem paren (h : Completes .expression w e) :
    Completes .primary (.mark .lparen :: (w ++ [.mark .rparen])) (.paren default e) := by
  intro ws ts hw i hi
  obtain ⟨⟨_, loc⟩, vxs, rfl, rfl, hvxs⟩ := List.map_eq_cons_iff.1 hw
  obtain ⟨vs, closing, rfl, rfl, hclosing⟩ := List.map_eq_append_iff.1 hvxs
  obtain ⟨x, rfl, hx⟩ := List.map_eq_singleton_iff.1 hclosing
  obtain ⟨_, k⟩ := i
  subst hi
  rw [List.cons_append, List.append_assoc, List.singleton_append, primary.eq_def]
  have hstops : Stops Phrase.expression.height (x :: ts) := stops_of_mark hx (.inl rfl) _
  refine (h.expression (i := ⟨vs ++ x :: ts, k⟩) rfl hstops rfl).bind fun inner hinner hrest => ?_
  refine (close_answers _ hrest hx).bind fun p hp hr => ?_
  refine .ok ?_ hr
  simp only [finish, Parsed.within, Expr.untagged, hp, hinner]

theorem newArray (h : Completes .expression w e) :
    Completes .primary
      (.keyword .kNew :: .keyword .kInt :: .mark .lbracket :: (w ++ [.mark .rbracket]))
      (.newArray default e) := by
  intro ws ts hw i hi
  obtain ⟨⟨_, loc⟩, xs, rfl, rfl, hxs⟩ := List.map_eq_cons_iff.1 hw
  obtain ⟨⟨_, loc'⟩, ys, rfl, rfl, hys⟩ := List.map_eq_cons_iff.1 hxs
  obtain ⟨opening, vxs, rfl, hopening, hvxs⟩ := List.map_eq_cons_iff.1 hys
  obtain ⟨vs, closing, rfl, rfl, hclosing⟩ := List.map_eq_append_iff.1 hvxs
  obtain ⟨x, rfl, hx⟩ := List.map_eq_singleton_iff.1 hclosing
  obtain ⟨_, k⟩ := i
  rw [List.cons_append, List.cons_append, List.cons_append, List.append_assoc,
    List.singleton_append] at hi
  subst hi
  rw [primary.eq_def]
  refine Answers.bind (P := (·.untagged = .newArray default e)) ?_
    fun p hp hr => .ok hp hr
  rw [creation.eq_def]
  refine (expect_answers (i := ⟨opening :: (vs ++ x :: ts), k⟩) _ rfl hopening).bind
    fun c _ hrest => ?_
  have hstops : Stops Phrase.expression.height (x :: ts) := stops_of_mark hx (.inr (.inl rfl)) _
  refine (h.expression rfl hstops hrest).bind fun inner hinner hrest => ?_
  refine (close_answers _ hrest hx).bind fun p hp hr => ?_
  refine .ok ?_ hr
  simp only [finish, Parsed.within, Expr.untagged, hp, hinner]

theorem newObject (className : String) :
    Completes .primary [.keyword .kNew, .name className, .mark .lparen, .mark .rparen]
      (.newObject default className) := by
  intro ws ts hw i hi
  obtain ⟨⟨_, loc⟩, xs, rfl, rfl, hxs⟩ := List.map_eq_cons_iff.1 hw
  obtain ⟨⟨_, loc'⟩, ys, rfl, rfl, hys⟩ := List.map_eq_cons_iff.1 hxs
  obtain ⟨opening, zs, rfl, hopening, hzs⟩ := List.map_eq_cons_iff.1 hys
  obtain ⟨x, rfl, hx⟩ := List.map_eq_singleton_iff.1 hzs
  obtain ⟨_, k⟩ := i
  subst hi
  simp only [List.cons_append, List.nil_append]
  rw [primary.eq_def]
  refine Answers.bind (P := (·.untagged = .newObject default className)) ?_
    fun p hp hr => .ok hp hr
  rw [creation.eq_def]
  refine (expectName_answers (i := ⟨⟨.name className, loc'⟩ :: opening :: x :: ts, k⟩) _ rfl
    rfl).bind fun word hword hrest => ?_
  refine (close_answers _ hrest hopening).bind fun c hc hrest => ?_
  refine (close_answers _ hrest hx).bind fun p hp hr => ?_
  refine .ok ?_ hr
  simp only [finish, Expr.untagged, hp, hc, hword]

theorem last (h : Completes .expression w e) : CompletesArguments w [e] := by
  intro _ ws ts x hw hx i hi
  have hstops : Stops Phrase.expression.height (x :: ts) := stops_of_mark hx (.inl rfl) _
  rw [someArguments]
  refine (h.expression hw hstops hi).bind fun arg harg hrest => ?_
  split
  · rename_i hlt
    cases hrest
    cases hx
  · obtain ⟨p, hp, hvalue, hr⟩ := close_answers (p := arg.map ([·])) "Expected ')' after arguments"
      hrest hx
    refine ⟨p, hp, ?_, hr⟩
    simp only [hvalue, Parsed.map, Expr.untaggedAll, harg]

theorem more {es : List Expr} (h : Completes .expression u e)
    (hs : CompletesArguments v (e' :: es)) :
    CompletesArguments (u ++ .mark .comma :: v) (e :: e' :: es) := by
  intro _ ws ts x hw hx i hi
  obtain ⟨us, cvs, rfl, rfl, hcvs⟩ := List.map_eq_append_iff.1 hw
  obtain ⟨c, vs, rfl, hc, rfl⟩ := List.map_eq_cons_iff.1 hcvs
  have hstops : Stops Phrase.expression.height (c :: (vs ++ x :: ts)) :=
    stops_of_mark hc (.inr (.inr rfl)) _
  rw [someArguments]
  refine (h.expression rfl hstops (by simp [hi])).bind fun arg harg hrest => ?_
  split
  · rename_i a loc ts' k hlt
    obtain ⟨-, rfl⟩ := List.cons.inj hrest
    refine (hs (List.cons_ne_nil _ _) vs ts x rfl hx ⟨vs ++ x :: ts, k⟩ rfl).bind
      fun more hmore hr => ?_
    refine .ok ?_ hr
    have ha : a.untagged = e := harg
    simp only [Parsed.within, Parsed.map, Expr.untaggedAll, ha, hmore]
  · rename_i hno
    obtain ⟨a, ⟨_, k⟩, hlt⟩ := arg
    obtain ⟨_, loc⟩ := c
    subst hrest hc
    exact absurd rfl (hno _ _ _ _ _)

end Completes

mutual

theorem Derives.completes {n : Phrase} {w : List Token} {e : Expr} :
    Derives n w e → Completes n w e
  | .single h => h.completes.single
  | .operator hop hl hr => .operator hop hl.completes hr.completes
  | .bare h => h.completes.bare
  | .not h => h.completes.not
  | .base h => h.completes.base
  | .index he hi => he.completes.index hi.completes
  | .length he => he.completes.length
  | .call he hargs => he.completes.call hargs hargs.completes
  | .int value => .leaf (.int · value) (fun _ => by rw [Expr.untagged])
      fun _ _ _ => primary.eq_def _
  | .true => .leaf (.bool · .true) (fun _ => by rw [Expr.untagged])
      fun _ _ _ => primary.eq_def _
  | .false => .leaf (.bool · .false) (fun _ => by rw [Expr.untagged])
      fun _ _ _ => primary.eq_def _
  | .this => .leaf .this (fun _ => by rw [Expr.untagged])
      fun _ _ _ => primary.eq_def _
  | .name text => .leaf (.name · text) (fun _ => by rw [Expr.untagged])
      fun _ _ _ => primary.eq_def _
  | .paren h => h.completes.paren
  | .newArray h => h.completes.newArray
  | .newObject className => .newObject className

theorem DerivesArguments.completes {w : List Token} {es : List Expr} :
    DerivesArguments w es → CompletesArguments w es
  | .none => fun hne => absurd rfl hne
  | .last h => h.completes.last
  | .more h hs => h.completes.more hs.completes

end

/-! ## The parser and its grammar -/

/-- The token is an operator between two operands, or begins something that stands after one. -/
def Token.goesOn (t : Token) : Bool :=
  t ∈ [.mark .andAnd, .mark .less, .mark .plus, .mark .minus, .mark .star, .mark .slash,
    .mark .lbracket, .mark .dot]

theorem stops_of_not_goesOn {ts : List Lexeme} (h : ∀ x ∈ ts.head?, x.token.goesOn = false)
    (n : Nat) : Stops n ts := by
  intro x hx
  have hx := h x hx
  refine ⟨fun ht => ?_, fun ht => ?_, fun l _ => ?_⟩
  · rw [ht] at hx
    cases hx
  · rw [ht] at hx
    cases hx
  · refine Option.eq_none_iff_forall_ne_some.2 fun op hop => ?_
    rw [(Level.operator?_eq_some_iff.1 hop).1] at hx
    cases op <;> cases hx

/-- Before a token that cannot go on with an expression, the reader of expressions answers with a
tree and leaves just the tokens from there on if and only if the tokens before it are derived from
the grammar with that tree, tags aside.  Their tree then has just these tokens, in this order, and
leans to the left under every operator. -/
theorem expression_iff_derives {ts : List Lexeme} (hts : ∀ x ∈ ts.head?, x.token.goesOn = false)
    (ws : List Lexeme) (k : Nat) (e : Expr) :
    ((∃ p, expression ⟨ws ++ ts, k⟩ = .ok p ∧ p.rest.tokens = ts ∧ p.value.untagged = e) ↔
        Derives .expression (ws.map Lexeme.token) e) ∧
      (Derives .expression (ws.map Lexeme.token) e →
        e.tokens = ws.map Lexeme.token ∧ e.Leans) := by
  refine ⟨⟨?_, fun h => ?_⟩, fun h => ⟨h.tokens_eq, h.leans⟩⟩
  · rintro ⟨p, hp, hrest, rfl⟩
    obtain ⟨vs, hvs, hd⟩ := expression_derived _ rfl p hp
    rw [hrest] at hvs
    obtain rfl : ws = vs := List.append_cancel_right hvs
    exact hd
  · obtain ⟨p, hp, he, hrest⟩ := h.completes.expression (i := ⟨ws ++ ts, k⟩) rfl
      (stops_of_not_goesOn hts _) rfl
    exact ⟨p, hp, hrest, he⟩

/-- Two differences in a row are taken from left to right: `a - 1 - a` before a semicolon. -/
theorem expression_reads_differences :
    (∀ x ∈ [Lexeme.mk (.mark .semicolon) ⟨1, 10⟩, ⟨.endOfText, ⟨1, 11⟩⟩].head?,
        x.token.goesOn = false) ∧
      ∃ p, expression ⟨[⟨.name "a", ⟨1, 1⟩⟩, ⟨.mark .minus, ⟨1, 3⟩⟩, ⟨.integer 1, ⟨1, 5⟩⟩,
          ⟨.mark .minus, ⟨1, 7⟩⟩, ⟨.name "a", ⟨1, 9⟩⟩] ++
            [⟨.mark .semicolon, ⟨1, 10⟩⟩, ⟨.endOfText, ⟨1, 11⟩⟩], 0⟩ = .ok p ∧
        p.rest.tokens = [⟨.mark .semicolon, ⟨1, 10⟩⟩, ⟨.endOfText, ⟨1, 11⟩⟩] ∧
        p.value.untagged =
          .binary default .sub (.binary default .sub (.name default "a") (.int default 1))
            (.name default "a") := by
  have hstop : ∀ x ∈ [Lexeme.mk (.mark .semicolon) ⟨1, 10⟩, ⟨.endOfText, ⟨1, 11⟩⟩].head?,
      x.token.goesOn = false := by decide
  have name : Derives (.chain .product) [.name "a"] (.name default "a") :=
    .single (.bare (.base (.name "a")))
  have int : Derives (.chain .product) [.integer 1] (.int default 1) :=
    .single (.bare (.base (.int 1)))
  have first : Derives (.chain .sum) [.name "a", .mark .minus, .integer 1]
      (.binary default .sub (.name default "a") (.int default 1)) :=
    .operator (u := [.name "a"]) (show BinaryOp.sub.level = .sum from rfl) (.single name) int
  have both := Derives.operator (show BinaryOp.sub.level = .sum from rfl) first name
  exact ⟨hstop, (expression_iff_derives hstop _ 0 _).1.2 (.single (.single both))⟩

end JavaMinus.Source
