/-
# The loops of the parser make progress

The loops of the parser are recursions over what is left.  Here each of them is laid out as a loop:
where a round begins, what it reads, and what is read behind the loop (`LoopName.loop`).  The
recursion does one round and goes on with itself (`LoopName.unrolls`); the tree that it carries
along differs from round to round and says nothing about where it goes.

A position is the number of tokens before an input.  A reader that proceeds lands at a position of
the list (`Accounts.lands`), and by the type of its answer not where it began
(`Accounts.lands_behind`).  So a round that does not fail goes strictly forward and never behind the
end of the text (`LoopName.round_lands`), and a loop is over after at most as many rounds as there
are tokens left (`LoopName.run_eq`).
-/
import JavaMinus.Proofs.Source.Accounts

namespace JavaMinus.Source

variable {α β : Type} {m n : Nat}

/-! ## Loops -/

def Input.tail (i : Input) : Input := ⟨i.tokens.tail, i.nextId⟩

def Input.numbered (i : Input) : Input := ⟨i.tokens, i.nextId + 1⟩

/-- Neither a closing brace nor the end of the text comes next. -/
def Input.isOpen (i : Input) : Bool := i.token ≠ .mark .rbrace ∧ i.token ≠ .endOfText

/-- The input that a reader leaves. -/
def restOf (r : Reading α n) : Except Error Input := r.map (·.rest)

structure Loop where
  /-- Whether a round begins at the input. -/
  enters : Input → Bool
  /-- A round: the input after it, and whether the loop goes on there. -/
  round : Input → Except Error (Input × Bool)
  /-- What is read behind the loop. -/
  leave : Input → Except Error Input

/-- The input behind the loop and what is read there, if the loop is over before the given number of
rounds has been gone through. -/
def Loop.run (loop : Loop) : Nat → Input → Option (Except Error Input)
  | 0, _ => none
  | n + 1, i =>
      if loop.enters i then
        match loop.round i with
        | .ok (j, true) => loop.run n j
        | .ok (j, false) => some (loop.leave j)
        | .error e => some (.error e)
      else some (loop.leave i)

inductive LoopName where
  | imports
  | path
  | members
  | modifiers
  | parameters
  | body
  | block
  | arguments
  | selectors
  | operators (l : Level)

/-- The loop goes on behind a comma. -/
def afterItem (i : Input) : Input × Bool :=
  if i.token = .mark .comma then (i.tail, true) else (i, false)

/-- A bracket, a length or a call after an operand. -/
def selector (i : Input) : Except Error (Input × Bool) :=
  if i.token = .mark .lbracket then do
    let inner ← expression i.tail
    let index ← close inner .rbracket "Expected ']' after array index"
    .ok (index.rest.numbered, true)
  else if i.tail.token = .keyword .kLength then .ok (i.tail.tail.numbered, true)
  else do
    let word ← i.tail.expectName "Expected method name after '.'"
    let method ← close word .lparen "Expected '(' after method name"
    let args ← arguments method.rest
    .ok (args.rest.numbered, true)

/-- The loops as they are entered, gone through and left. -/
def LoopName.loop : LoopName → Loop
  | .imports =>
      { enters := fun i => i.token = .keyword .kImport
        round := fun i => do
          let first ← i.tail.expectName "Expected import path"
          let parts ← importParts first.rest
          .ok (parts.rest, true)
        leave := .ok }
  | .path =>
      { enters := fun i => i.token = .mark .dot
        round := fun i => do
          let part ← i.tail.expectName "Expected identifier after '.' in import"
          .ok (part.rest, true)
        leave := fun i => restOf (i.expectMark .semicolon "Expected ';' after import") }
  | .members =>
      { enters := Input.isOpen
        round := fun i => do
          if ← isMethod i then
            let m ← method i
            .ok (m.rest, true)
          else
            let d ← field i
            .ok (d.rest, true)
        leave := .ok }
  | .modifiers =>
      { enters := fun i =>
          i.token = .keyword .kPublic ∨ i.token = .keyword .kPrivate ∨ i.token = .keyword .kStatic
        round := fun i => .ok (i.tail, true)
        leave := .ok }
  | .parameters =>
      { enters := fun _ => true
        round := fun i => do
          let d ← typed i "Expected parameter name"
          .ok (afterItem d.rest)
        leave := fun i => restOf (i.expectMark .rparen "Expected ')' after parameters") }
  | .body =>
      { enters := Input.isOpen
        round := fun i =>
          if startsDeclaration i.tokens then do
            let d ← variableDeclaration i
            .ok (d.rest, true)
          else do
            let s ← statement i
            .ok (s.rest, true)
        leave := .ok }
  | .block =>
      { enters := Input.isOpen
        round := fun i => do
          let s ← statement i
          .ok (s.rest, true)
        leave := .ok }
  | .arguments =>
      { enters := fun _ => true
        round := fun i => do
          let arg ← expression i
          .ok (afterItem arg.rest)
        leave := fun i => restOf (i.expectMark .rparen "Expected ')' after arguments") }
  | .selectors =>
      { enters := fun i => i.token = .mark .lbracket ∨ i.token = .mark .dot
        round := selector
        leave := .ok }
  | .operators l =>
      { enters := fun i => (l.operator? i.token).isSome
        round := fun i => do
          let rhs ← operand l i.tail
          .ok (rhs.rest.numbered, true)
        leave := .ok }

/-- The readers that are loops, with the tree before the selectors or operators. -/
def LoopName.read : LoopName → Expr → Input → Except Error Input
  | .imports => fun _ i => restOf (importList i)
  | .path => fun _ i => restOf (importParts i)
  | .members => fun _ i => restOf (Source.members i)
  | .modifiers => fun _ i => .ok i.skipModifiers
  | .parameters => fun _ i => restOf (someParameters i)
  | .body => fun _ i => restOf (bodyItems i)
  | .block => fun _ i => restOf (statements i)
  | .arguments => fun _ i => restOf (someArguments i)
  | .selectors => fun before i => restOf (Source.selectors before i)
  | .operators l => fun before i => restOf (Source.operators l before i)

/-! ## The recursions unrolled -/

theorem restOf_last {r : Reading α m} {g : Parsed Input.size m α → Parsed Input.size n β}
    (h : ∀ p, (g p).rest = p.rest) : restOf (r >>= fun p => .ok (g p)) = restOf r := by
  cases r with
  | error e => rfl
  | ok p => exact congrArg Except.ok (h p)

/-- The answer is what follows from a round: its failure, what the reader goes on to answer, or what
is read behind the loop. -/
def Loop.Follows (loop : Loop) (read : Expr → Input → Except Error Input)
    (answer : Except Error Input) : Except Error (Input × Bool) → Prop
  | .ok (j, true) => ∃ before, answer = read before j
  | .ok (j, false) => answer = loop.leave j
  | .error e => answer = .error e

/-- The reader does a round and goes on, or it leaves the loop. -/
structure Loop.Unrolls (loop : Loop) (read : Expr → Input → Except Error Input) : Prop where
  entered : ∀ before i, loop.enters i = true → loop.Follows read (read before i) (loop.round i)
  left : ∀ before i, loop.enters i = false → read before i = loop.leave i

section Unrolling

variable {loop : Loop} {read : Expr → Input → Except Error Input}

/-- The reader and the round begin alike. -/
theorem Loop.Follows.bind {r : Reading α m} {f : Parsed Input.size m α → Reading β n}
    {g : Parsed Input.size m α → Except Error (Input × Bool)}
    (h : ∀ p, loop.Follows read (restOf (f p)) (g p)) :
    loop.Follows read (restOf (r >>= f)) (r >>= g) := by
  cases r with
  | error e => rfl
  | ok p => exact h p

/-- The round is over, and the reader has only its answer to put together. -/
theorem Loop.Follows.again {r : Reading α m} {g : Parsed Input.size m α → Parsed Input.size n β}
    {j : Input} (before : Expr) (hr : read before j = restOf r) (h : ∀ p, (g p).rest = p.rest) :
    loop.Follows read (restOf (r >>= fun p => .ok (g p))) (.ok (j, true)) :=
  ⟨before, (restOf_last h).trans hr.symm⟩

end Unrolling

theorem Input.eq_cons {i : Input} {t : Token} (h : i.token = t) (other : t ≠ .endOfText) :
    ∃ loc ts k, i = ⟨⟨t, loc⟩ :: ts, k⟩ := by
  obtain ⟨tokens, k⟩ := i
  cases tokens with
  | nil => exact absurd h.symm other
  | cons l ls => exact ⟨l.loc, ls, k, by rw [← h]; rfl⟩

theorem imports_unrolls : LoopName.imports.loop.Unrolls LoopName.imports.read where
  entered before i h := by
    obtain ⟨loc, ts, k, rfl⟩ := Input.eq_cons (of_decide_eq_true h) Token.noConfusion
    show Loop.Follows _ _ (restOf (importList _)) _
    rw [importList]
    exact .bind fun first => .bind fun parts => .again before rfl fun more => rfl
  left before i h := by
    have other : i.token ≠ .keyword .kImport := of_decide_eq_false h
    show restOf (importList i) = .ok i
    rw [importList.eq_def]
    split
    · exact absurd rfl other
    · rfl

theorem path_unrolls : LoopName.path.loop.Unrolls LoopName.path.read where
  entered before i h := by
    obtain ⟨loc, ts, k, rfl⟩ := Input.eq_cons (of_decide_eq_true h) Token.noConfusion
    show Loop.Follows _ _ (restOf (importParts _)) _
    rw [importParts]
    exact .bind fun part => .again before rfl fun more => rfl
  left before i h := by
    have other : i.token ≠ .mark .dot := of_decide_eq_false h
    show restOf (importParts i) = _
    rw [importParts.eq_def]
    split
    · exact absurd rfl other
    · exact restOf_last fun mark => rfl

theorem Input.isOpen_iff {i : Input} :
    i.isOpen = true ↔ i.token ≠ .mark .rbrace ∧ i.token ≠ .endOfText :=
  decide_eq_true_iff

theorem members_unrolls : LoopName.members.loop.Unrolls LoopName.members.read where
  entered before i h := by
    obtain ⟨noBrace, noEnd⟩ := Input.isOpen_iff.1 h
    show Loop.Follows _ _ (restOf (members i)) _
    rw [members.eq_def]
    split
    · exact absurd ‹_› noBrace
    · exact absurd ‹_› noEnd
    · show Loop.Follows _ _ _ (isMethod i >>= _)
      cases isMethod i with
      | error e => rfl
      | ok isMethod =>
          cases isMethod with
          | true => exact Loop.Follows.bind fun m => .again before rfl fun more => rfl
          | false => exact Loop.Follows.bind fun d => .again before rfl fun more => rfl
  left before i h := by
    show restOf (members i) = .ok i
    rw [members.eq_def]
    split
    · rfl
    · rfl
    · exact absurd (Input.isOpen_iff.2 ⟨‹_›, ‹_›⟩) (Bool.eq_false_iff.1 h)

/-- Which modifiers have been seen does not matter to what is left. -/
theorem modifiers_rest (ts : List Lexeme) (m m' : Modifiers) :
    (modifiers ts m).2 = (modifiers ts m').2 := by
  fun_induction modifiers ts m generalizing m' with
  | case1 loc ts m ih => exact ih _
  | case2 loc ts m ih => exact ih _
  | case3 loc ts m ih => exact ih _
  | case4 ts m => rw [modifiers.eq_def]; split <;> simp_all

theorem modifiers_unrolls : LoopName.modifiers.loop.Unrolls LoopName.modifiers.read where
  entered before i h := by
    obtain h | h | h := of_decide_eq_true h
    all_goals
      obtain ⟨loc, ts, k, rfl⟩ := Input.eq_cons h Token.noConfusion
      exact ⟨before, congrArg (fun rest => Except.ok (Input.mk rest k)) (modifiers_rest ts _ _)⟩
  left before i h := by
    obtain ⟨tokens, k⟩ := i
    have other := of_decide_eq_false h
    show Except.ok (Input.mk (modifiers tokens _).2 k) = _
    rw [modifiers.eq_def]
    split
    · exact absurd (.inl rfl) other
    · exact absurd (.inr (.inl rfl)) other
    · exact absurd (.inr (.inr rfl)) other
    · rfl

theorem body_unrolls : LoopName.body.loop.Unrolls LoopName.body.read where
  entered before i h := by
    obtain ⟨noBrace, noEnd⟩ := Input.isOpen_iff.1 h
    show Loop.Follows _ _ (restOf (bodyItems i)) (ite _ _ _)
    rw [bodyItems.eq_def]
    split
    · exact absurd ‹_› noBrace
    · exact absurd ‹_› noEnd
    · split
      · exact .bind fun d => .again before rfl fun more => rfl
      · exact .bind fun s => .again before rfl fun more => rfl
  left before i h := by
    show restOf (bodyItems i) = .ok i
    rw [bodyItems.eq_def]
    split
    · rfl
    · rfl
    · exact absurd (Input.isOpen_iff.2 ⟨‹_›, ‹_›⟩) (Bool.eq_false_iff.1 h)

theorem block_unrolls : LoopName.block.loop.Unrolls LoopName.block.read where
  entered before i h := by
    obtain ⟨noBrace, noEnd⟩ := Input.isOpen_iff.1 h
    show Loop.Follows _ _ (restOf (statements i)) _
    rw [statements]
    split
    · exact absurd ‹_› noBrace
    · exact absurd ‹_› noEnd
    · exact .bind fun s => .again before rfl fun more => rfl
  left before i h := by
    show restOf (statements i) = .ok i
    rw [statements]
    split
    · rfl
    · rfl
    · exact absurd (Input.isOpen_iff.2 ⟨‹_›, ‹_›⟩) (Bool.eq_false_iff.1 h)

theorem afterItem_of_other {p : Parsed Input.size n α}
    (other : ∀ a loc ts k h, p = ⟨a, ⟨⟨.mark .comma, loc⟩ :: ts, k⟩, h⟩ → False) :
    afterItem p.rest = (p.rest, false) := by
  refine if_neg fun comma => ?_
  obtain ⟨a, rest, shorter⟩ := p
  obtain ⟨loc, ts, k, rfl⟩ := Input.eq_cons comma Token.noConfusion
  exact other a loc ts k shorter rfl

theorem parameters_unrolls : LoopName.parameters.loop.Unrolls LoopName.parameters.read where
  entered before i _ := by
    show Loop.Follows _ _ (restOf (someParameters i)) _
    rw [someParameters]
    refine .bind fun d => ?_
    split
    · exact .again before rfl fun more => rfl
    · rename_i other
      rw [afterItem_of_other other]
      exact restOf_last fun mark => rfl
  left _ _ h := Bool.noConfusion h

theorem arguments_unrolls : LoopName.arguments.loop.Unrolls LoopName.arguments.read where
  entered before i _ := by
    show Loop.Follows _ _ (restOf (someArguments i)) _
    rw [someArguments]
    refine .bind fun arg => ?_
    split
    · exact .again before rfl fun more => rfl
    · rename_i other
      rw [afterItem_of_other other]
      exact restOf_last fun mark => rfl
  left _ _ h := Bool.noConfusion h

theorem selectors_unrolls : LoopName.selectors.loop.Unrolls LoopName.selectors.read where
  entered before i h := by
    have enters : i.token = .mark .lbracket ∨ i.token = .mark .dot := of_decide_eq_true h
    show Loop.Follows _ _ (restOf (selectors before i)) (selector i)
    rw [selectors.eq_def]
    split
    · exact .bind fun inner => .bind fun index => .again _ rfl fun p => rfl
    · exact .again _ rfl fun p => rfl
    · rename_i loc ts k noLength
      have noLength : (Input.tail ⟨⟨.mark .dot, loc⟩ :: ts, k⟩).token ≠ .keyword .kLength := by
        intro length
        obtain ⟨loc, ts, k, tokens⟩ := Input.eq_cons length Token.noConfusion
        cases tokens
        exact noLength loc ts rfl
      unfold selector
      rw [if_neg (fun h => by cases h), if_neg noLength]
      exact .bind fun word => .bind fun method => .bind fun args => .again _ rfl fun p => rfl
    · rename_i noBracket _ noDot
      obtain bracket | dot := enters
      · obtain ⟨loc, ts, k, rfl⟩ := Input.eq_cons bracket Token.noConfusion
        exact (noBracket loc ts k rfl).elim
      · obtain ⟨loc, ts, k, rfl⟩ := Input.eq_cons dot Token.noConfusion
        exact (noDot loc ts k rfl).elim
  left before i h := by
    have other := of_decide_eq_false h
    show restOf (selectors before i) = .ok i
    rw [selectors.eq_def]
    split
    · exact absurd (.inl rfl) other
    · exact absurd (.inr rfl) other
    · exact absurd (.inr rfl) other
    · rfl

theorem operators_unrolls (l : Level) :
    (LoopName.operators l).loop.Unrolls (LoopName.operators l).read where
  entered before i h := by
    have enters : (l.operator? i.token).isSome = true := h
    show Loop.Follows _ _ (restOf (operators l before i)) (operand l i.tail >>= _)
    rw [operators.eq_def]
    split
    · split
      · exact .bind fun rhs => .again _ rfl fun p => rfl
      · rename_i none
        rw [Input.token, none] at enters
        cases enters
    · rename_i noToken
      obtain ⟨tokens, k⟩ := i
      cases tokens with
      | nil => cases l <;> cases enters
      | cons t ts => exact (noToken t ts k rfl).elim
  left before i h := by
    have none : (l.operator? i.token).isSome = false := h
    show restOf (operators l before i) = .ok i
    rw [operators.eq_def]
    split
    · split
      · rename_i op some
        rw [Input.token, some] at none
        cases none
      · rfl
    · rfl

theorem LoopName.unrolls (name : LoopName) : name.loop.Unrolls name.read := by
  cases name with
  | imports => exact imports_unrolls
  | path => exact path_unrolls
  | members => exact members_unrolls
  | modifiers => exact modifiers_unrolls
  | parameters => exact parameters_unrolls
  | body => exact body_unrolls
  | block => exact block_unrolls
  | arguments => exact arguments_unrolls
  | selectors => exact selectors_unrolls
  | operators l => exact operators_unrolls l

/-! ## Positions -/

/-- The input begins with the token at the position. -/
def StandsAt (ts : List Lexeme) (k : Nat) (i : Input) : Prop :=
  k < ts.length ∧ i.tokens = ts.drop k

/-- The answer is an input at a position of the list with the property, or a failure at a token of
the list. -/
def Lands (P : Nat → Prop) (ts : List Lexeme) : Except Error Input → Prop
  | .ok i => ∃ k, P k ∧ StandsAt ts k i
  | .error e => e.IsAt ts

theorem EndsOnce.drop {ts : List Lexeme} (h : EndsOnce ts) {k : Nat} (hk : k < ts.length) :
    EndsOnce (ts.drop k) := by
  obtain ⟨body, last, rfl, ends, inner⟩ := h
  have inBody : k ≤ body.length := by
    rw [List.length_append] at hk
    exact Nat.le_of_lt_succ hk
  refine ⟨body.drop k, last, List.drop_append_of_le_length inBody, ends, fun l hl => ?_⟩
  exact inner l (List.mem_of_mem_drop hl)

namespace StandsAt

variable {ts : List Lexeme} {i j : Input} {k : Nat}

theorem endsOnce (stands : StandsAt ts k i) (h : EndsOnce ts) : EndsOnce i.tokens :=
  stands.2 ▸ h.drop stands.1

theorem size (stands : StandsAt ts k i) : i.size = ts.length - k := by
  rw [Input.size, stands.2, List.length_drop]

/-- What is left after some tokens stands behind them. -/
theorem behind {w : List Lexeme} (stands : StandsAt ts k i) (tokens : i.tokens = w ++ j.tokens)
    (left : j.tokens ≠ []) : StandsAt ts (k + w.length) j := by
  have rest : j.tokens = ts.drop (k + w.length) := by
    rw [← List.drop_drop, ← stands.2, tokens, List.drop_left]
  refine ⟨?_, rest⟩
  rw [rest] at left
  exact Nat.lt_of_not_le fun le => left (List.drop_eq_nil_of_le le)

theorem tail (stands : StandsAt ts k i) (h : EndsOnce ts) (other : i.token ≠ .endOfText) :
    StandsAt ts (k + 1) i.tail := by
  obtain ⟨tokens, n⟩ := i
  cases tokens with
  | nil => exact absurd rfl other
  | cons l ls =>
      have left : EndsOnce ls := (stands.endsOnce h).tail other
      exact stands.behind (w := [l]) rfl left.ne_nil

theorem isAt (stands : StandsAt ts k i) {e : Error} (he : e.IsAt i.tokens) : e.IsAt ts := by
  rw [← List.take_append_drop k ts, ← stands.2]
  exact IsAt.append he _

theorem afterItem (stands : StandsAt ts k i) (h : EndsOnce ts) :
    ∃ k', k ≤ k' ∧ StandsAt ts k' (afterItem i).1 := by
  unfold Source.afterItem
  split
  · rename_i comma
    exact ⟨k + 1, Nat.le_succ k, stands.tail h (comma ▸ Token.noConfusion)⟩
  · exact ⟨k, Nat.le_refl k, stands⟩

end StandsAt

section Landing

variable {ts : List Lexeme} {i : Input} {k : Nat} {D : List Token → α → Prop} {P Q : Nat → Prop}

theorem Lands.mono {x : Except Error Input} (hx : Lands P ts x) (h : ∀ k, P k → Q k) :
    Lands Q ts x := by
  cases x with
  | error e => exact hx
  | ok j =>
      obtain ⟨k, hk, stands⟩ := hx
      exact ⟨k, h k hk, stands⟩

/-- The first reader of a round, and then the others. -/
theorem Lands.bind {r : Reading α m} {f : Parsed Input.size m α → Except Error (Input × Bool)}
    (hr : Lands P ts (restOf r))
    (hf : ∀ p k, P k → StandsAt ts k p.rest → Lands Q ts ((f p).map Prod.fst)) :
    Lands Q ts ((r >>= f).map Prod.fst) := by
  cases r with
  | error e => exact hr
  | ok p =>
      obtain ⟨k, hk, stands⟩ := hr
      exact hf p k hk stands

/-- A reader lands no further back, and with no more tokens left than its answer allows. -/
theorem Accounts.lands_within {r : Reading α n} (hr : Accounts D i.tokens r) (h : EndsOnce ts)
    (stands : StandsAt ts k i) :
    Lands (fun k' => k ≤ k' ∧ ts.length - k' < n) ts (restOf r) := by
  have answer := hr (stands.endsOnce h)
  cases r with
  | error e => exact stands.isAt answer
  | ok p =>
      obtain ⟨left, w, tokens, -⟩ := answer
      have there := stands.behind tokens left.ne_nil
      exact ⟨k + w.length, ⟨Nat.le_add_right k _, there.size ▸ p.shorter⟩, there⟩

theorem Accounts.lands {r : Reading α n} (hr : Accounts D i.tokens r) (h : EndsOnce ts)
    (stands : StandsAt ts k i) : Lands (k ≤ ·) ts (restOf r) :=
  (hr.lands_within h stands).mono fun _ landed => landed.1

/-- By the type of its answer a reader takes a token. -/
theorem Accounts.lands_behind {r : Reading α i.size} (hr : Accounts D i.tokens r) (h : EndsOnce ts)
    (stands : StandsAt ts k i) : Lands (k < ·) ts (restOf r) := by
  refine (hr.lands_within h stands).mono fun k' landed => ?_
  have fewer := stands.size ▸ landed.2
  omega

end Landing

/-! ## Rounds -/

section Rounds

variable {ts : List Lexeme} {i : Input} {k : Nat}

theorem selector_lands (h : EndsOnce ts) (stands : StandsAt ts k i)
    (enters : i.token = .mark .lbracket ∨ i.token = .mark .dot) :
    Lands (k < ·) ts ((selector i).map Prod.fst) := by
  have other : i.token ≠ .endOfText := by
    rintro ends
    rw [ends] at enters
    exact enters.elim Token.noConfusion Token.noConfusion
  have tail := stands.tail h other
  unfold selector
  split
  · refine .bind ((expression_proceeds i.tail rfl).lands h tail) fun inner k₁ le₁ stands₁ => ?_
    refine .bind ((close_proceeds inner _ _).lands h stands₁) fun index k₂ le₂ stands₂ => ?_
    exact ⟨k₂, by omega, stands₂⟩
  · split
    · rename_i length
      have second := tail.tail h (length ▸ Token.noConfusion)
      exact ⟨k + 1 + 1, by omega, second⟩
    · refine .bind ((expectName_proceeds i.tail _).lands h tail) fun word k₁ le₁ stands₁ => ?_
      refine .bind ((close_proceeds word _ _).lands h stands₁) fun method k₂ le₂ stands₂ => ?_
      refine .bind ((arguments_proceeds method.rest rfl).lands h stands₂)
        fun args k₃ le₃ stands₃ => ?_
      exact ⟨k₃, by omega, stands₃⟩

theorem member_lands (h : EndsOnce ts) (stands : StandsAt ts k i) :
    Lands (k < ·) ts ((LoopName.members.loop.round i).map Prod.fst) := by
  show Lands _ ts ((isMethod i >>= _).map Prod.fst)
  cases found : isMethod i with
  | error e => exact stands.isAt (isMethod_error (stands.endsOnce h) found)
  | ok isMethod =>
      cases isMethod with
      | true =>
          exact .bind ((method_accounts i).lands_behind h stands)
            fun m k' lt stands' => ⟨k', lt, stands'⟩
      | false =>
          exact .bind ((field_accounts i).lands_behind h stands)
            fun d k' lt stands' => ⟨k', lt, stands'⟩

theorem LoopName.round_lands (name : LoopName) (h : EndsOnce ts) (stands : StandsAt ts k i)
    (enters : name.loop.enters i = true) : Lands (k < ·) ts ((name.loop.round i).map Prod.fst) := by
  cases name with
  | imports =>
      have word : i.token = .keyword .kImport := of_decide_eq_true enters
      have tail := stands.tail h (word ▸ Token.noConfusion)
      refine .bind ((expectName_proceeds i.tail _).lands h tail) fun first k₁ le₁ stands₁ => ?_
      refine .bind ((importParts_accounts first.rest rfl).lands h stands₁)
        fun parts k₂ le₂ stands₂ => ?_
      exact ⟨k₂, by omega, stands₂⟩
  | path =>
      have dot : i.token = .mark .dot := of_decide_eq_true enters
      have tail := stands.tail h (dot ▸ Token.noConfusion)
      refine .bind ((expectName_proceeds i.tail _).lands h tail) fun part k₁ le₁ stands₁ => ?_
      exact ⟨k₁, le₁, stands₁⟩
  | members => exact member_lands h stands
  | modifiers =>
      have word := of_decide_eq_true enters
      have other : i.token ≠ .endOfText := by
        rintro ends
        rw [ends] at word
        rcases word with h | h | h <;> cases h
      exact ⟨k + 1, Nat.lt_succ_self k, stands.tail h other⟩
  | parameters =>
      refine .bind ((typed_accounts i _).lands_behind h stands) fun d k₁ lt stands₁ => ?_
      obtain ⟨k₂, le, stands₂⟩ := stands₁.afterItem h
      exact ⟨k₂, Nat.lt_of_lt_of_le lt le, stands₂⟩
  | body =>
      show Lands _ ts (Except.map _ (ite _ _ _))
      split
      · exact .bind ((variableDeclaration_accounts i).lands_behind h stands)
          fun d k₁ lt stands₁ => ⟨k₁, lt, stands₁⟩
      · exact .bind ((statement_accounts i rfl).lands_behind h stands)
          fun s k₁ lt stands₁ => ⟨k₁, lt, stands₁⟩
  | block =>
      exact .bind ((statement_accounts i rfl).lands_behind h stands)
        fun s k₁ lt stands₁ => ⟨k₁, lt, stands₁⟩
  | arguments =>
      refine .bind ((expression_proceeds i rfl).lands_behind h stands) fun arg k₁ lt stands₁ => ?_
      obtain ⟨k₂, le, stands₂⟩ := stands₁.afterItem h
      exact ⟨k₂, Nat.lt_of_lt_of_le lt le, stands₂⟩
  | selectors => exact selector_lands h stands (of_decide_eq_true enters)
  | operators l =>
      obtain ⟨op, hop⟩ := Option.isSome_iff_exists.1 enters
      have tail := stands.tail h ((Level.operator?_eq_some_iff.1 hop).1 ▸ Token.noConfusion)
      refine .bind ((operand_proceeds l i.tail rfl).lands h tail) fun rhs k₁ le₁ stands₁ => ?_
      exact ⟨k₁, le₁, stands₁⟩

theorem LoopName.leave_lands (name : LoopName) (h : EndsOnce ts) (stands : StandsAt ts k i) :
    Lands (k ≤ ·) ts (name.loop.leave i) := by
  have here : Lands (k ≤ ·) ts (.ok i) := ⟨k, Nat.le_refl k, stands⟩
  cases name with
  | path => exact (expectMark_proceeds i _ _).lands h stands
  | parameters => exact (expectMark_proceeds i _ _).lands h stands
  | arguments => exact (expectMark_proceeds i _ _).lands h stands
  | _ => exact here

/-- By induction on the number of rounds that are left: a round that goes on has come nearer to the
end of the text. -/
theorem LoopName.run_eq (name : LoopName) (before : Expr) (h : EndsOnce ts)
    (stands : StandsAt ts k i) {n : Nat} (hn : ts.length - k ≤ n) :
    name.loop.run n i = some (name.read before i) ∧ Lands (k ≤ ·) ts (name.read before i) := by
  induction n generalizing before i k with
  | zero => exact absurd stands.1 (by omega)
  | succ n ih =>
      rw [Loop.run]
      cases enters : name.loop.enters i with
      | false =>
          rw [name.unrolls.left before i enters]
          exact ⟨rfl, name.leave_lands h stands⟩
      | true =>
          have follows := name.unrolls.entered before i enters
          have landed := name.round_lands h stands enters
          rw [if_pos rfl]
          cases read : name.loop.round i with
          | error e =>
              rw [read] at follows landed
              have answer : name.read before i = .error e := follows
              exact answer ▸ ⟨rfl, landed⟩
          | ok answer =>
              obtain ⟨j, again⟩ := answer
              rw [read] at follows landed
              obtain ⟨k', lt, stands'⟩ := landed
              cases again with
              | true =>
                  obtain ⟨before', answer⟩ := follows
                  have later := ih before' stands' (by omega)
                  rw [answer]
                  exact ⟨later.1, later.2.mono fun _ le => Nat.le_trans (Nat.le_of_lt lt) le⟩
              | false =>
                  have answer : name.read before i = name.loop.leave j := follows
                  rw [answer]
                  exact ⟨rfl, (name.leave_lands h stands').mono
                    fun _ le => Nat.le_trans (Nat.le_of_lt lt) le⟩

end Rounds

/-- Whatever tokens end in their only token for the end of the text: every round of a loop fails at
one of them or goes strictly forward and not behind the last; every loop is over after at most as
many rounds as there are tokens left, and then it has answered as its reader does; and the parser
answers with a program that accounts for all tokens or fails at one of them. -/
theorem Program.ofLexemes_progresses {ts : List Lexeme} (h : EndsOnce ts) :
    (∀ (name : LoopName) i k, StandsAt ts k i → name.loop.enters i = true →
      Lands (k < ·) ts ((name.loop.round i).map Prod.fst)) ∧
    (∀ (name : LoopName) before i k, StandsAt ts k i →
      name.loop.run (ts.length - k) i = some (name.read before i) ∧
      Lands (k ≤ ·) ts (name.read before i)) ∧
    ((∃ p, Program.ofLexemes ts = .ok p ∧ DerivesProgram (ts.dropLast.map Lexeme.token) p) ∨
      ∃ e, Program.ofLexemes ts = .error e ∧ e.IsAt ts) := by
  refine ⟨fun name i k => name.round_lands h,
    fun name before i k stands => name.run_eq before h stands (Nat.le_refl _), ?_⟩
  have answer := Program.ofLexemes_accounts ts h
  cases parsed : Program.ofLexemes ts with
  | ok p =>
      rw [parsed] at answer
      exact .inl ⟨p, rfl, answer⟩
  | error e =>
      rw [parsed] at answer
      exact .inr ⟨e, rfl, answer⟩

/-- In `class A { int x }` the loop over the members is entered before the word `int`; its round
fails at the closing brace, where a semicolon is missing, and so does the parser. -/
theorem Program.ofLexemes_progresses_of_lostSemicolon :
    ∃ ts : List Lexeme, ts.map Lexeme.token = [.keyword .kClass, .name "A", .mark .lbrace,
        .keyword .kInt, .name "x", .mark .rbrace, .endOfText] ∧ EndsOnce ts ∧
      StandsAt ts 3 ⟨ts.drop 3, 0⟩ ∧ LoopName.members.loop.enters ⟨ts.drop 3, 0⟩ = true ∧
      Lands (3 < ·) ts ((LoopName.members.loop.round ⟨ts.drop 3, 0⟩).map Prod.fst) ∧
      ∃ e, Program.ofLexemes ts = .error e ∧ e.IsAt ts := by
  let body : List Lexeme := [⟨.keyword .kClass, ⟨1, 1⟩⟩, ⟨.name "A", ⟨1, 7⟩⟩,
    ⟨.mark .lbrace, ⟨1, 9⟩⟩, ⟨.keyword .kInt, ⟨1, 11⟩⟩, ⟨.name "x", ⟨1, 15⟩⟩,
    ⟨.mark .rbrace, ⟨1, 17⟩⟩]
  have ends : EndsOnce (body ++ [⟨.endOfText, ⟨1, 18⟩⟩]) := ⟨body, _, rfl, rfl, by decide⟩
  have stands : StandsAt (body ++ [⟨.endOfText, ⟨1, 18⟩⟩]) 3 ⟨_, 0⟩ := ⟨by decide, rfl⟩
  have fails : (Program.ofLexemes (body ++ [⟨.endOfText, ⟨1, 18⟩⟩])).toOption.isNone := by
    decide +kernel
  obtain ⟨rounds, -, whole⟩ := Program.ofLexemes_progresses ends
  refine ⟨_, rfl, ends, stands, rfl, rounds .members _ 3 stands rfl, whole.resolve_left ?_⟩
  rintro ⟨p, parsed, -⟩
  rw [parsed] at fails
  cases fails

end JavaMinus.Source
