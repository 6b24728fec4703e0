/-
# Readers account for what they take

Whatever list of tokens a reader is given, as long as the end of the text is its last token and no
other, the reader either takes some tokens that the grammar derives, and stops before the end of the
text or at it, or it fails at a token of the list (`Accounts`).  The expression readers are gone
through once for the second half alone (`expression_proceeds`), since the first half is known of
them; from the statements on both halves are carried at once.

A list that is well formed plays no part: the end of the text is never taken because no rule asks for
it, and every mistake is found at a token that is still left.
-/
import JavaMinus.Proofs.Source.Parsing
import JavaMinus.Proofs.Source.Productions

namespace JavaMinus

/-- The error says that a rule is broken at a token of the list. -/
def Error.IsAt (e : Error) (ts : List Source.Lexeme) : Prop :=
  ∃ l ∈ ts, ∃ rule, e = .grammar l.loc (.mismatch rule l.token.text)

namespace Source

/-- The list ends in its only token for the end of the text. -/
def EndsOnce (ts : List Lexeme) : Prop :=
  ∃ body last, ts = body ++ [last] ∧ last.token = .endOfText ∧ ∀ l ∈ body, l.token ≠ .endOfText

theorem not_endsOnce_nil : ¬ EndsOnce [] := by
  rintro ⟨body, last, tokens, -⟩
  exact List.append_ne_nil_of_right_ne_nil body (List.cons_ne_nil last []) tokens.symm

theorem EndsOnce.tail {l : Lexeme} {ls : List Lexeme} (h : EndsOnce (l :: ls))
    (other : l.token ≠ .endOfText) : EndsOnce ls := by
  obtain ⟨body, last, tokens, ends, inner⟩ := h
  cases body with
  | nil =>
      obtain ⟨rfl, -⟩ := List.cons.inj tokens
      exact absurd ends other
  | cons l' body =>
      obtain ⟨rfl, rfl⟩ := List.cons.inj tokens
      exact ⟨body, last, rfl, ends, fun x hx => inner x (List.mem_cons_of_mem _ hx)⟩

variable {α β : Type} {m n : Nat}

/-- A reader of the tokens takes some of which `D` holds together with the answer, and leaves the end
of the text, or it fails at one of them. -/
def Accounts (D : List Token → α → Prop) (ts : List Lexeme) (r : Reading α n) : Prop :=
  EndsOnce ts →
    match r with
    | .ok p => EndsOnce p.rest.tokens ∧ ∃ w, ts = w ++ p.rest.tokens ∧ D (w.map Lexeme.token) p.value
    | .error e => e.IsAt ts

/-- A reader of the tokens leaves the end of the text, or it fails at one of them. -/
abbrev Proceeds (ts : List Lexeme) (r : Reading α n) : Prop := Accounts (fun _ _ => True) ts r

theorem IsAt.append {e : Error} {ts : List Lexeme} (h : e.IsAt ts) (w : List Lexeme) :
    e.IsAt (w ++ ts) := by
  obtain ⟨l, hl, broken⟩ := h
  exact ⟨l, List.mem_append_right w hl, broken⟩

/-- A mistake is found at the first token left. -/
theorem mismatch_isAt {i : Input} (ends : EndsOnce i.tokens) (rule : String) :
    (i.mismatch rule).IsAt i.tokens := by
  obtain ⟨tokens, k⟩ := i
  cases tokens with
  | nil => exact absurd ends not_endsOnce_nil
  | cons l ls => exact ⟨l, List.mem_cons_self, rule, rfl⟩

namespace Accounts

variable {D : List Token → α → Prop} {ts : List Lexeme}

theorem mono {E : List Token → α → Prop} {r : Reading α n} (hr : Accounts D ts r)
    (h : ∀ w a, D w a → E w a) : Accounts E ts r := by
  intro ends
  have answer := hr ends
  cases r with
  | error e => exact answer
  | ok p =>
      obtain ⟨left, w, tokens, hw⟩ := answer
      exact ⟨left, w, tokens, h _ _ hw⟩

/-- What is taken has been shown to be derived. -/
theorem of_derived {r : Reading α n} (hr : Proceeds ts r) (derived : Derived D ts r) :
    Accounts D ts r := by
  intro ends
  have answer := hr ends
  cases r with
  | error e => exact answer
  | ok p => exact ⟨answer.1, derived p rfl⟩

theorem done {p : Parsed Input.size n α} (hts : p.rest.tokens = ts) (hp : D [] p.value) :
    Accounts D ts (.ok p) :=
  fun ends => ⟨hts ▸ ends, [], hts.symm, hp⟩

/-- After a first reader the second one adds its tokens to those of the first. -/
theorem bind {E : List Token → β → Prop} {r : Reading α m}
    {f : Parsed Input.size m α → Reading β n} (hr : Accounts D ts r)
    (hf : ∀ p w, D w p.value → Accounts (fun v b => E (w ++ v) b) p.rest.tokens (f p)) :
    Accounts E ts (r >>= f) := by
  intro ends
  have first := hr ends
  cases r with
  | error e => exact first
  | ok p =>
      obtain ⟨left, w, tokens, hw⟩ := first
      have second := hf p _ hw left
      show match f p with | .ok q => _ | .error e => _
      cases hq : f p with
      | error e =>
          rw [hq] at second
          exact tokens ▸ IsAt.append second w
      | ok q =>
          rw [hq] at second
          obtain ⟨left', v, rest, hv⟩ := second
          refine ⟨left', w ++ v, ?_, ?_⟩
          · rw [tokens, rest, List.append_assoc]
          · rwa [List.map_append]

/-- The first token is taken by hand, and it is not the end of the text. -/
theorem first {l : Lexeme} {ls : List Lexeme} {r : Reading α n} (other : l.token ≠ .endOfText)
    (hr : Accounts (fun w a => D (l.token :: w) a) ls r) : Accounts D (l :: ls) r := by
  intro ends
  have answer := hr (ends.tail other)
  cases r with
  | error e => exact IsAt.append answer [l]
  | ok p =>
      obtain ⟨left, w, tokens, hw⟩ := answer
      exact ⟨left, l :: w, congrArg (l :: ·) tokens, hw⟩

theorem mismatch (i : Input) (rule : String) :
    Accounts D i.tokens (.error (i.mismatch rule) : Reading α n) :=
  fun ends => mismatch_isAt ends rule

end Accounts

theorem Proceeds.bind {ts : List Lexeme} {r : Reading α m} {f : Parsed Input.size m α → Reading β n}
    (hr : Proceeds ts r) (hf : ∀ p, Proceeds p.rest.tokens (f p)) : Proceeds ts (r >>= f) :=
  Accounts.bind hr fun p _ _ => hf p

theorem Proceeds.done {ts : List Lexeme} {p : Parsed Input.size n α} (hts : p.rest.tokens = ts) :
    Proceeds ts (.ok p) :=
  Accounts.done hts trivial

/-! ## Single tokens -/

theorem expect_accounts (i : Input) {t : Token} (other : t ≠ .endOfText) (rule : String) :
    Accounts (fun w _ => w = [t]) i.tokens (i.expect t rule) := by
  unfold Input.expect
  split
  · rename_i l ls k
    split
    · rename_i same
      exact .first (same ▸ other) (.done rfl (congrArg (fun t => [t]) same))
    · exact .mismatch _ rule
  · exact .mismatch _ rule

theorem expectMark_accounts (i : Input) (mark : Mark) (rule : String) :
    Accounts (fun w _ => w = [.mark mark]) i.tokens (i.expectMark mark rule) := by
  have other : Token.mark mark ≠ .endOfText := Token.noConfusion
  exact expect_accounts i other rule

theorem expectName_accounts (i : Input) (rule : String) :
    Accounts (fun w text => w = [.name text]) i.tokens (i.expectName rule) := by
  unfold Input.expectName
  split
  · exact .first Token.noConfusion (.done rfl rfl)
  · exact .mismatch _ rule

theorem close_accounts (p : Parsed Input.size n α) (mark : Mark) (rule : String) :
    Accounts (fun w a => w = [.mark mark] ∧ a = p.value) p.rest.tokens (close p mark rule) := by
  refine (expectMark_accounts p.rest mark rule).bind fun c w hw => ?_
  exact .done rfl ⟨by rw [hw, List.append_nil], rfl⟩

theorem close_proceeds (p : Parsed Input.size n α) (mark : Mark) (rule : String) :
    Proceeds p.rest.tokens (close p mark rule) :=
  (close_accounts p mark rule).mono fun _ _ _ => trivial

theorem expectName_proceeds (i : Input) (rule : String) :
    Proceeds i.tokens (i.expectName rule) :=
  (expectName_accounts i rule).mono fun _ _ _ => trivial

theorem expectMark_proceeds (i : Input) (mark : Mark) (rule : String) :
    Proceeds i.tokens (i.expectMark mark rule) :=
  (expectMark_accounts i mark rule).mono fun _ _ _ => trivial

/-! ## Expressions -/

theorem leaf_proceeds {l : Lexeme} {ts : List Lexeme} {k : Nat} {h : ts.length < n} {loc : Location}
    {node : Tag → Expr} (other : l.token ≠ .endOfText) :
    Proceeds (l :: ts) (leaf ts k n h loc node) :=
  .first other (.done rfl trivial)

mutual

theorem expression_proceeds (i : Input) {size : Nat} (hs : i.size = size) :
    Proceeds i.tokens (expression i) := by
  rw [expression]
  exact chain_proceeds .conjunction i hs
termination_by 16 * size + 11
decreasing_by all_goals (simp only [Level.height]; omega)

theorem chain_proceeds (l : Level) (i : Input) {size : Nat} (hs : i.size = size) :
    Proceeds i.tokens (chain l i) := by
  rw [chain]
  refine (operand_proceeds l i hs).bind fun first => ?_
  have := first.shorter
  exact (operators_proceeds l first.value first.rest rfl).bind fun p => .done rfl
termination_by 16 * size + 2 * l.height + 2
decreasing_by all_goals omega

theorem operand_proceeds (l : Level) (i : Input) {size : Nat} (hs : i.size = size) :
    Proceeds i.tokens (operand l i) := by
  cases l with
  | conjunction =>
      rw [operand]
      exact chain_proceeds .comparison i hs
  | comparison =>
      rw [operand]
      exact chain_proceeds .sum i hs
  | sum =>
      rw [operand]
      exact chain_proceeds .product i hs
  | product =>
      rw [operand]
      exact unary_proceeds i hs
termination_by 16 * size + 2 * l.height + 1
decreasing_by all_goals (simp only [Level.height]; omega)

theorem operators_proceeds (l : Level) (lhs : Expr) (i : Input) {size : Nat} (hs : i.size = size) :
    Proceeds i.tokens (operators l lhs i) := by
  rw [operators.eq_def]
  split
  · rename_i t ts k
    split
    · rename_i op hop
      have other : t.token ≠ .endOfText := by
        rw [(Level.operator?_eq_some_iff.1 hop).1]
        exact Token.noConfusion
      refine .first other (Proceeds.bind (operand_proceeds l ⟨ts, k⟩ rfl) fun rhs => ?_)
      have := rhs.shorter
      exact (operators_proceeds l _ ⟨rhs.rest.tokens, rhs.rest.nextId + 1⟩ rfl).bind
        fun p => .done rfl
    · exact .done rfl
  · exact .done rfl
termination_by 16 * size + 10
decreasing_by
  all_goals
    have := l.height_le
    simp only [Input.size, List.length_cons] at *
    omega

theorem unary_proceeds (i : Input) {size : Nat} (hs : i.size = size) :
    Proceeds i.tokens (unary i) := by
  rw [unary.eq_def]
  split
  · rename_i loc ts k
    exact .first Token.noConfusion
      (Proceeds.bind (unary_proceeds ⟨ts, k⟩ rfl) fun e => .done rfl)
  · refine (primary_proceeds _ hs).bind fun base => ?_
    have : base.rest.size < size := hs ▸ base.shorter
    exact (selectors_proceeds base.value base.rest rfl).bind fun p => .done rfl
termination_by 16 * size + 2
decreasing_by all_goals (simp only [Input.size, List.length_cons] at *; omega)

theorem selectors_proceeds (e : Expr) (i : Input) {size : Nat} (hs : i.size = size) :
    Proceeds i.tokens (selectors e i) := by
  rw [selectors.eq_def]
  split
  · rename_i loc ts k
    refine .first Token.noConfusion
      (Proceeds.bind (expression_proceeds ⟨ts, k⟩ rfl) fun inner => ?_)
    refine (close_proceeds inner .rbracket _).bind fun index => ?_
    have := index.shorter
    exact (selectors_proceeds _ ⟨index.rest.tokens, index.rest.nextId + 1⟩ rfl).bind
      fun p => .done rfl
  · rename_i loc _ ts k
    exact .first Token.noConfusion (.first Token.noConfusion
      (Proceeds.bind (selectors_proceeds _ ⟨ts, k + 1⟩ rfl) fun p => .done rfl))
  · rename_i loc ts k _
    refine .first Token.noConfusion
      (Proceeds.bind (expectName_proceeds ⟨ts, k⟩ _) fun word => ?_)
    refine (close_proceeds word .lparen _).bind fun method => ?_
    have := method.shorter
    refine (arguments_proceeds method.rest rfl).bind fun args => ?_
    have := args.shorter
    exact (selectors_proceeds _ ⟨args.rest.tokens, args.rest.nextId + 1⟩ rfl).bind
      fun p => .done rfl
  · exact .done rfl
termination_by 16 * size + 10
decreasing_by all_goals (simp only [Input.size, List.length_cons] at *; omega)

theorem arguments_proceeds (i : Input) {size : Nat} (hs : i.size = size) :
    Proceeds i.tokens (arguments i) := by
  rw [arguments.eq_def]
  split
  · exact .first Token.noConfusion (.done rfl trivial)
  · exact someArguments_proceeds _ hs
termination_by 16 * size + 13
decreasing_by all_goals omega

theorem someArguments_proceeds (i : Input) {size : Nat} (hs : i.size = size) :
    Proceeds i.tokens (someArguments i) := by
  rw [someArguments]
  refine (expression_proceeds i hs).bind fun arg => ?_
  split
  · rename_i e loc ts k hlt
    have : Input.size ⟨ts, k⟩ + 1 < size := hs ▸ hlt
    exact .first Token.noConfusion
      (Proceeds.bind (someArguments_proceeds ⟨ts, k⟩ rfl) fun more => .done rfl)
  · exact close_proceeds (arg.map ([·])) .rparen _
termination_by 16 * size + 12
decreasing_by all_goals (simp only [Input.size] at *; omega)

theorem primary_proceeds (i : Input) {size : Nat} (hs : i.size = size) :
    Proceeds i.tokens (primary i) := by
  rw [primary.eq_def]
  split
  · exact leaf_proceeds Token.noConfusion
  · exact leaf_proceeds Token.noConfusion
  · exact leaf_proceeds Token.noConfusion
  · exact leaf_proceeds Token.noConfusion
  · exact leaf_proceeds Token.noConfusion
  · rename_i loc ts k
    refine .first Token.noConfusion
      (Proceeds.bind (expression_proceeds ⟨ts, k⟩ rfl) fun inner => ?_)
    exact (close_proceeds inner .rparen _).bind fun e => .done rfl
  · rename_i loc ts k
    exact .first Token.noConfusion
      (Proceeds.bind (creation_proceeds loc ⟨ts, k⟩ rfl) fun e => .done rfl)
  · exact .mismatch _ _
termination_by 16 * size + 1
decreasing_by all_goals (simp only [Input.size, List.length_cons] at *; omega)

theorem creation_proceeds (loc : Location) (i : Input) {size : Nat} (hs : i.size = size) :
    Proceeds i.tokens (creation loc i) := by
  rw [creation.eq_def]
  split
  · rename_i loc' ts k
    refine .first Token.noConfusion
      (Proceeds.bind (expectMark_proceeds ⟨ts, k⟩ .lbracket _) fun opening => ?_)
    have := opening.shorter
    refine (expression_proceeds opening.rest rfl).bind fun inner => ?_
    exact (close_proceeds inner .rbracket _).bind fun size => .done rfl
  · refine (expectName_proceeds _ _).bind fun word => ?_
    refine (close_proceeds word .lparen _).bind fun opening => ?_
    exact (close_proceeds opening .rparen _).bind fun e => .done rfl
termination_by 16 * size
decreasing_by all_goals (simp only [Input.size, List.length_cons] at *; omega)

end

theorem expression_accounts (i : Input) :
    Accounts (fun w e => Derives .expression w e.untagged) i.tokens (expression i) :=
  .of_derived (expression_proceeds i rfl) (expression_derived i rfl)

/-! ## Statements -/

theorem condition_accounts (i : Input) (opening closing : String) :
    Accounts (fun w e => ∃ u, w = .mark .lparen :: (u ++ [.mark .rparen]) ∧
      Derives .expression u e.untagged) i.tokens (condition i opening closing) := by
  refine (expectMark_accounts i .lparen opening).bind fun mark w hw => ?_
  refine (expression_accounts mark.rest).bind fun inner u hu => ?_
  refine (close_accounts inner .rparen closing).bind fun p v hv => ?_
  obtain ⟨rfl, hvalue⟩ := hv
  refine .done rfl ⟨u, ?_, hvalue ▸ hu⟩
  simp only [hw, List.append_nil, List.singleton_append]

theorem returned_accounts (loc : Location) (i : Input) :
    Accounts (fun w s => DerivesStmt (.keyword .kReturn :: w) s) i.tokens (returned loc i) := by
  unfold returned
  split
  · exact .first Token.noConfusion (.done rfl (.returnNothing loc))
  · refine (expression_accounts i).bind fun value w hw => ?_
    refine (close_accounts value .semicolon _).bind fun p v hv => ?_
    obtain ⟨rfl, hvalue⟩ := hv
    refine .done rfl ?_
    simp only [Parsed.map, hvalue, List.append_nil]
    exact .return loc hw

theorem assignment_accounts (i : Input) :
    Accounts (fun w s => DerivesStmt w s) i.tokens (assignment i) := by
  refine (expectName_accounts i _).bind fun target w hw => ?_
  refine (close_accounts target .assign _).bind fun mark v hv => ?_
  obtain ⟨rfl, hmark⟩ := hv
  refine (expression_accounts mark.rest).bind fun value u hu => ?_
  refine (close_accounts value .semicolon _).bind fun p v hv => ?_
  obtain ⟨rfl, hvalue⟩ := hv
  refine .done rfl ?_
  simp only [Parsed.within, Parsed.map, hw, hvalue, hmark, List.append_nil, List.cons_append]
  exact .assign i.loc target.value hu

/-- A target that is no element of an array is a mistake at the mark of the assignment. -/
theorem elementTarget_spec (e : Expr) (after : Input) :
    (∃ tag array index target, e = .index tag array index ∧ array.asName? = some target ∧
      elementTarget e after = .ok (target, index)) ∨
      ∃ rule, elementTarget e after = .error (after.mismatch rule) := by
  unfold elementTarget
  split
  · rename_i tag array index
    cases name : array.asName? with
    | none => exact .inr ⟨_, rfl⟩
    | some target => exact .inl ⟨tag, array, index, target, rfl, name, rfl⟩
  · exact .inr ⟨_, rfl⟩

theorem expressionStatement_accounts (i : Input) :
    Accounts (fun w s => DerivesStmt w s) i.tokens (expressionStatement i) := by
  refine (expression_accounts i).bind fun first u hu => ?_
  split
  · rename_i e loc ts k hlt
    rcases elementTarget_spec e ⟨⟨.mark .assign, loc⟩ :: ts, k⟩ with
      ⟨tag, array, index, target, rfl, name, found⟩ | ⟨rule, wrong⟩
    · rw [found]
      refine .first Token.noConfusion
        (Accounts.bind (expression_accounts ⟨ts, k⟩) fun value v hv => ?_)
      refine (close_accounts value .semicolon _).bind fun p c hc => ?_
      obtain ⟨rfl, hvalue⟩ := hc
      refine .done rfl ?_
      simp only [Parsed.within, Parsed.map, hvalue, List.append_nil]
      exact .assignElement i.loc hu name hv
    · rw [wrong]
      exact .mismatch _ rule
  · refine (close_accounts first .semicolon _).bind fun p v hv => ?_
    obtain ⟨rfl, hvalue⟩ := hv
    refine .done rfl ?_
    simp only [Parsed.map, hvalue, List.append_nil]
    exact .expr hu

theorem plainStatement_accounts (i : Input) :
    Accounts (fun w s => DerivesStmt w s) i.tokens (plainStatement i) := by
  unfold plainStatement
  split
  · exact assignment_accounts i
  · split
    · exact .mismatch i _
    · exact expressionStatement_accounts i

mutual

theorem statement_accounts (i : Input) {size : Nat} (hs : i.size = size) :
    Accounts (fun w s => DerivesStmt w s) i.tokens (statement i) := by
  rw [statement.eq_def]
  split
  · rename_i loc ts k
    refine .first Token.noConfusion
      (Accounts.bind (statements_accounts ⟨ts, k⟩ rfl) fun body w hw => ?_)
    refine (close_accounts body .rbrace _).bind fun p v hv => ?_
    obtain ⟨rfl, hvalue⟩ := hv
    refine .done rfl ?_
    simp only [Parsed.map, hvalue, List.append_nil]
    exact .block loc hw
  · rename_i loc ts k
    refine .first Token.noConfusion
      (Accounts.bind (condition_accounts ⟨ts, k⟩ _ _) fun guard w hw => ?_)
    obtain ⟨u, rfl, hu⟩ := hw
    have := guard.shorter
    refine (branches_accounts loc guard.value guard.rest hu rfl).bind fun p v hv => ?_
    refine .done rfl ?_
    simpa only [Parsed.within, List.append_nil, List.cons_append, List.append_assoc,
      List.nil_append] using hv
  · rename_i loc ts k
    refine .first Token.noConfusion
      (Accounts.bind (condition_accounts ⟨ts, k⟩ _ _) fun guard w hw => ?_)
    obtain ⟨u, rfl, hu⟩ := hw
    have := guard.shorter
    refine (statement_accounts guard.rest rfl).bind fun body v hv => ?_
    refine .done rfl ?_
    simp only [Parsed.within, Parsed.map, List.append_nil, List.cons_append, List.append_assoc,
      List.nil_append]
    exact .while loc hu hv
  · rename_i loc ts k
    refine .first Token.noConfusion
      (Accounts.bind (returned_accounts loc ⟨ts, k⟩) fun p w hw => ?_)
    refine .done rfl ?_
    rw [List.append_nil]
    exact hw
  · exact plainStatement_accounts _
termination_by 4 * size
decreasing_by all_goals (simp only [Input.size, List.length_cons] at *; omega)

/-- The condition and what follows it make a conditional. -/
theorem branches_accounts (loc : Location) (guard : Expr) (i : Input) {u : List Token}
    (hguard : Derives .expression u guard.untagged) {size : Nat} (hs : i.size = size) :
    Accounts (fun w s =>
        DerivesStmt (.keyword .kIf :: .mark .lparen :: (u ++ .mark .rparen :: w)) s)
      i.tokens (branches loc guard i) := by
  rw [branches]
  refine (statement_accounts i hs).bind fun first v hv => ?_
  split
  · rename_i thenBranch loc' ts k hlt
    have : Input.size ⟨ts, k⟩ + 1 < size := hs ▸ hlt
    refine .first Token.noConfusion
      (Accounts.bind (statement_accounts ⟨ts, k⟩ rfl) fun second v' hv' => ?_)
    refine .done rfl ?_
    simp only [Parsed.within, Parsed.map, List.append_nil]
    exact .ifElse loc hguard hv hv'
  · refine .done rfl ?_
    rw [List.append_nil]
    exact .ifThen loc hguard hv
termination_by 4 * size + 1
decreasing_by all_goals omega

theorem statements_accounts (i : Input) {size : Nat} (hs : i.size = size) :
    Accounts (fun w ss => DerivesStmts w ss) i.tokens (statements i) := by
  rw [statements]
  split
  · exact .done rfl .nil
  · exact .done rfl .nil
  · refine (statement_accounts i hs).bind fun first u hu => ?_
    have : first.rest.size < size := hs ▸ first.shorter
    refine (statements_accounts first.rest rfl).bind fun more v hv => .done rfl ?_
    rw [List.append_nil]
    exact .cons hu hv
termination_by 4 * size + 1
decreasing_by all_goals omega

end

/-! ## Declarations -/

theorem typeName?_eq_some_iff {t : Token} {name : String} :
    typeName? t = some name ↔ TypeWord t name := by
  refine ⟨fun h => ?_, fun h => ?_⟩
  · unfold typeName? at h
    split at h <;> cases h <;> constructor
  · cases h <;> rfl

theorem TypeWord.ne_endOfText {t : Token} {name : String} (h : TypeWord t name) :
    t ≠ .endOfText := by
  cases h <;> exact Token.noConfusion

theorem typeOf_accounts (i : Input) :
    Accounts (fun w type => DerivesType w type) i.tokens (typeOf i) := by
  unfold typeOf
  split
  · split
    · rename_i name hname
      have word := typeName?_eq_some_iff.1 hname
      exact .first word.ne_endOfText (.first Token.noConfusion
        (.first Token.noConfusion (.done rfl (.array word))))
    · exact .mismatch _ _
  · split
    · rename_i name hname
      have word := typeName?_eq_some_iff.1 hname
      exact .first word.ne_endOfText (.done rfl (.plain word))
    · exact .mismatch _ _
  · exact .mismatch _ _

theorem typed_accounts (i : Input) (rule : String) :
    Accounts (fun w d => DerivesTyped w d) i.tokens (typed i rule) := by
  refine (typeOf_accounts i).bind fun type w hw => ?_
  refine (expectName_accounts type.rest rule).bind fun name v hv => .done rfl ?_
  rw [hv, List.append_nil]
  exact .intro name.value i.loc hw

theorem variableDeclaration_accounts (i : Input) :
    Accounts (fun w d => DerivesVariable w d) i.tokens (variableDeclaration i) := by
  refine (typed_accounts i _).bind fun d w hw => ?_
  refine (close_accounts d .semicolon _).mono fun v d' hv => ?_
  obtain ⟨rfl, rfl⟩ := hv
  exact ⟨w, rfl, hw⟩

theorem someParameters_accounts (i : Input) {size : Nat} (hs : i.size = size) :
    Accounts (fun w ds => ∃ v, w = v ++ [.mark .rparen] ∧ DerivesParameters v ds ∧ ds ≠ [])
      i.tokens (someParameters i) := by
  rw [someParameters]
  refine (typed_accounts i _).bind fun first u hu => ?_
  split
  · rename_i d loc ts k hlt
    have : Input.size ⟨ts, k⟩ + 1 < size := hs ▸ hlt
    refine .first Token.noConfusion
      (Accounts.bind (someParameters_accounts ⟨ts, k⟩ rfl) fun more v hv => ?_)
    obtain ⟨v, rfl, hv, hne⟩ := hv
    refine .done rfl ⟨u ++ .mark .comma :: v, by simp, ?_, List.cons_ne_nil _ _⟩
    obtain ⟨d', ds, hds⟩ := List.exists_cons_of_ne_nil hne
    simp only [Parsed.within, Parsed.map, hds] at hv ⊢
    exact .more hu hv
  · refine (close_accounts (first.map ([·])) .rparen _).mono fun w ds hw => ?_
    obtain ⟨rfl, rfl⟩ := hw
    exact ⟨u, rfl, .last hu, List.cons_ne_nil _ _⟩
termination_by size
decreasing_by all_goals omega

theorem parameters_accounts (i : Input) :
    Accounts (fun w ds => ∃ v, w = v ++ [.mark .rparen] ∧ DerivesParameters v ds)
      i.tokens (parameters i) := by
  unfold parameters
  split
  · exact .first Token.noConfusion (.done rfl ⟨[], rfl, .none⟩)
  · refine (someParameters_accounts _ rfl).mono fun w ds hw => ?_
    obtain ⟨v, rfl, hv, -⟩ := hw
    exact ⟨v, rfl, hv⟩

theorem bodyItems_accounts (i : Input) {size : Nat} (hs : i.size = size) :
    Accounts (fun w items => DerivesItems w items) i.tokens (bodyItems i) := by
  rw [bodyItems.eq_def]
  split
  · exact .done rfl .nil
  · exact .done rfl .nil
  · split
    · refine (variableDeclaration_accounts i).bind fun d u hu => ?_
      have : d.rest.size < size := hs ▸ d.shorter
      refine (bodyItems_accounts d.rest rfl).bind fun more v hv => .done rfl ?_
      rw [List.append_nil]
      exact .variable hu hv
    · refine (statement_accounts i rfl).bind fun s u hu => ?_
      have : s.rest.size < size := hs ▸ s.shorter
      refine (bodyItems_accounts s.rest rfl).bind fun more v hv => .done rfl ?_
      rw [List.append_nil]
      exact .statement hu hv
termination_by size
decreasing_by all_goals omega

/-- A reader that starts after the modifiers accounts for these too. -/
theorem Accounts.skip {ts : List Lexeme} {m : Modifiers} {r : Reading α n}
    {D : List Token → α → Prop} (h : ∀ w, DerivesModifiers w m (modifiers ts m).1 →
      Accounts (fun v a => D (w ++ v) a) (modifiers ts m).2 r) : Accounts D ts r := by
  fun_induction modifiers ts m generalizing D with
  | case1 _ _ _ ih =>
      exact .first Token.noConfusion (ih fun w hw => h _ (.isPublic hw))
  | case2 _ _ _ ih =>
      exact .first Token.noConfusion (ih fun w hw => h _ (.isPrivate hw))
  | case3 _ _ _ ih =>
      exact .first Token.noConfusion (ih fun w hw => h _ (.isStatic hw))
  | case4 ts m => exact h [] (.nil m)

theorem Accounts.skipModifiers {i : Input} {r : Reading α n} {D : List Token → α → Prop}
    (h : ∀ w, DerivesModifiers w ⟨false, false⟩ (modifiers i.tokens ⟨false, false⟩).1 →
      Accounts (fun v a => D (w ++ v) a) i.skipModifiers.tokens r) : Accounts D i.tokens r :=
  .skip h

theorem method_accounts (i : Input) :
    Accounts (fun w m => DerivesMethod w m) i.tokens (method i) := by
  refine .skipModifiers fun u hu => ?_
  refine (typeOf_accounts i.skipModifiers).bind fun returnType r hr => ?_
  refine (expectName_accounts returnType.rest _).bind fun word v hv => ?_
  refine (close_accounts word .lparen _).bind fun name v' hname => ?_
  refine (parameters_accounts name.rest).bind fun params ps hps => ?_
  refine (expectMark_accounts params.rest .lbrace _).bind fun opening v'' hopening => ?_
  refine (bodyItems_accounts opening.rest rfl).bind fun items b hb => ?_
  refine (close_accounts items .rbrace _).bind fun body c hc => .done rfl ?_
  obtain ⟨ps, rfl, hps⟩ := hps
  obtain ⟨rfl, value⟩ := hname
  obtain ⟨rfl, hbody⟩ := hc
  rw [hv, hopening, ← value]
  simp only [hbody, List.append_nil, List.append_assoc, List.cons_append, List.nil_append]
  exact .intro name.value params.rest.loc i.loc hu hr hps hb

theorem isMethod_error {i : Input} {e : Error} (ends : EndsOnce i.tokens)
    (h : isMethod i = .error e) : e.IsAt i.tokens := by
  have looked : Proceeds i.tokens (typed i.skipModifiers "Expected member name") :=
    .skipModifiers fun _ _ => (typed_accounts _ _).mono fun _ _ _ => trivial
  have answer := looked ends
  unfold isMethod at h
  split at h
  · cases h
  · cases found : typed i.skipModifiers "Expected member name" with
    | error e' =>
        rw [found] at h answer
        cases h
        exact answer
    | ok member =>
        rw [found] at h
        cases h

theorem field_accounts (i : Input) :
    Accounts (fun w d => ∃ u v mods, w = u ++ v ∧ DerivesModifiers u ⟨false, false⟩ mods ∧
      DerivesVariable v d) i.tokens (field i) := by
  refine .skipModifiers fun u hu => ?_
  refine (variableDeclaration_accounts i.skipModifiers).bind fun d v hv => .done rfl ?_
  exact ⟨u, v, _, by rw [List.append_nil], hu, hv⟩

theorem members_accounts (i : Input) {size : Nat} (hs : i.size = size) :
    Accounts (fun w items => DerivesMembers w items) i.tokens (members i) := by
  rw [members.eq_def]
  split
  · exact .done rfl .nil
  · exact .done rfl .nil
  · cases found : isMethod i with
    | error e => exact fun ends => isMethod_error ends found
    | ok isMethod =>
        cases isMethod with
        | true =>
            refine (method_accounts i).bind fun m u hu => ?_
            have : m.rest.size < size := hs ▸ m.shorter
            refine (members_accounts m.rest rfl).bind fun more v hv => .done rfl ?_
            rw [List.append_nil]
            exact .method hu hv
        | false =>
            refine (field_accounts i).bind fun d w hw => ?_
            obtain ⟨u, v, mods, rfl, hu, hv⟩ := hw
            have : d.rest.size < size := hs ▸ d.shorter
            refine (members_accounts d.rest rfl).bind fun more w hw => .done rfl ?_
            rw [List.append_nil]
            exact .field hu hv hw
termination_by size
decreasing_by all_goals omega

/-! ## Programs -/

theorem importParts_accounts (i : Input) {size : Nat} (hs : i.size = size) :
    Accounts (fun w parts => w = partTokens parts ++ [.mark .semicolon]) i.tokens
      (importParts i) := by
  rw [importParts.eq_def]
  split
  · rename_i loc ts k
    refine .first Token.noConfusion
      (Accounts.bind (expectName_accounts ⟨ts, k⟩ _) fun part w hw => ?_)
    have := part.shorter
    refine (importParts_accounts part.rest rfl).bind fun more v hv => .done rfl ?_
    rw [hw, hv, List.append_nil]
    rfl
  · refine (expectMark_accounts _ .semicolon _).bind fun mark w hw => .done rfl ?_
    rw [hw, List.append_nil]
    rfl
termination_by size
decreasing_by all_goals (simp only [Input.size, List.length_cons] at *; omega)

theorem importList_accounts (i : Input) {size : Nat} (hs : i.size = size) :
    Accounts (fun w imports => DerivesImports w imports) i.tokens (importList i) := by
  rw [importList.eq_def]
  split
  · rename_i loc ts k
    refine .first Token.noConfusion
      (Accounts.bind (expectName_accounts ⟨ts, k⟩ _) fun first w hw => ?_)
    refine (importParts_accounts first.rest rfl).bind fun parts v hv => ?_
    have := first.shorter
    have := parts.shorter
    refine (importList_accounts parts.rest rfl).bind fun more u hu => .done rfl ?_
    rw [hw, hv, List.append_nil]
    simpa only [List.cons_append, List.nil_append, List.append_assoc] using .cons first.value loc hu
  · exact .done rfl .nil
termination_by size
decreasing_by all_goals (simp only [Input.size, List.length_cons] at *; omega)

theorem parentClass_accounts (i : Input) :
    Accounts (fun w parent => w = parentTokens parent) i.tokens (parentClass i) := by
  unfold parentClass
  split
  · rename_i loc ts k
    refine .first Token.noConfusion
      (Accounts.bind (expectName_accounts ⟨ts, k⟩ _) fun name w hw => .done rfl ?_)
    rw [hw, List.append_nil]
    rfl
  · exact .done rfl rfl

/-- The answer accounts for all tokens before the end of the text, or the reader fails at one of the
tokens. -/
def AccountsForAll (D : List Token → β → Prop) (ts : List Lexeme) (x : Except Error β) : Prop :=
  EndsOnce ts →
    match x with
    | .ok b => D (ts.dropLast.map Lexeme.token) b
    | .error e => e.IsAt ts

theorem EndsOnce.ne_nil {ts : List Lexeme} (h : EndsOnce ts) : ts ≠ [] := by
  rintro rfl
  exact not_endsOnce_nil h

theorem nothingBefore_of_token {i : Input} (h : EndsOnce i.tokens) (last : i.token = .endOfText) :
    i.tokens.dropLast = [] := by
  obtain ⟨tokens, k⟩ := i
  obtain ⟨body, l, rfl, -, inner⟩ := h
  cases body with
  | nil => rfl
  | cons l' body => exact absurd last (inner l' List.mem_cons_self)

theorem AccountsForAll.bind {D : List Token → α → Prop} {E : List Token → β → Prop}
    {ts : List Lexeme} {r : Reading α m} {f : Parsed Input.size m α → Except Error β}
    (hr : Accounts D ts r)
    (hf : ∀ p w, D w p.value → AccountsForAll (fun v b => E (w ++ v) b) p.rest.tokens (f p)) :
    AccountsForAll E ts (r >>= f) := by
  intro ends
  have first := hr ends
  cases r with
  | error e => exact first
  | ok p =>
      obtain ⟨left, w, tokens, hw⟩ := first
      have second := hf p _ hw left
      show match f p with | .ok b => _ | .error e => _
      cases hb : f p with
      | error e =>
          rw [hb] at second
          exact tokens ▸ IsAt.append second w
      | ok b =>
          rw [hb] at second
          show E (ts.dropLast.map Lexeme.token) b
          rwa [tokens, List.dropLast_append_of_ne_nil left.ne_nil, List.map_append]

theorem AccountsForAll.skipPublic {D : List Token → β → Prop} {i : Input} {x : Except Error β}
    (h : ∀ access, access = [] ∨ access = [.keyword .kPublic] →
      AccountsForAll (fun v b => D (access ++ v) b) i.skipPublic.tokens x) :
    AccountsForAll D i.tokens x := by
  unfold Input.skipPublic at h
  split at h
  · rename_i loc ts k
    intro ends
    have left := ends.tail Token.noConfusion
    have answer := h _ (.inr rfl) left
    cases x with
    | error e => exact IsAt.append answer [_]
    | ok b =>
        show D ((_ :: ts).dropLast.map Lexeme.token) b
        rwa [List.dropLast_cons_of_ne_nil left.ne_nil]
  · exact h [] (.inl rfl)

theorem classAfter_accounts (imports : List Import) {u : List Token}
    (himports : DerivesImports u imports) (i : Input) :
    AccountsForAll (fun w p => DerivesProgram (u ++ w) p) i.tokens (classAfter imports i) := by
  refine .skipPublic fun access haccess => ?_
  have other : Token.keyword .kClass ≠ .endOfText := Token.noConfusion
  refine .bind (expect_accounts i.skipPublic other _) fun word w hw => ?_
  refine .bind (expectName_accounts word.rest _) fun name v hv => ?_
  refine .bind (parentClass_accounts name.rest) fun parent v' hv' => ?_
  refine .bind (expectMark_accounts parent.rest .lbrace _) fun opening w' hw' => ?_
  refine .bind (members_accounts opening.rest rfl) fun items b hb => ?_
  refine .bind (expectMark_accounts items.rest .rbrace _) fun body c hc => ?_
  intro ends
  by_cases last : body.rest.token = .endOfText
  · rw [if_neg (not_not_intro last), nothingBefore_of_token ends last]
    show DerivesProgram _ _
    rw [hw, hv, hv', hw', hc]
    exact .intro name.value parent.value i.loc himports haccess hb
  · rw [if_pos last]
    exact mismatch_isAt ends _

/-- Whatever the tokens are, the parser answers with a program that accounts for all of them, or it
fails at one of them. -/
theorem Program.ofLexemes_accounts (ts : List Lexeme) :
    AccountsForAll DerivesProgram ts (Program.ofLexemes ts) :=
  .bind (importList_accounts ⟨ts, 0⟩ rfl)
    fun head _ hw => classAfter_accounts head.value hw head.rest

end Source

end JavaMinus
