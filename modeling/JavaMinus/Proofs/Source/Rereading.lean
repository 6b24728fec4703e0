/-
# Statements are read from their tokens

Each reader is held against the tokens that are left (`Reads`): if they are those of a tree and then
others, it answers with this tree and leaves the others.  What the others may begin with is a
hypothesis where it matters: an expression is not followed by an operator, and a statement that ends
open not by `else`.

A statement without a keyword is told by what it begins with.  A declaration of a local variable
begins with a type and a name, and no expression begins so (`Opening`); an assignment to a name shows
in the second token, and one to an element begins with an expression, which is then taken apart.
-/
import JavaMinus.Proofs.Source.Shape
import JavaMinus.Proofs.Source.Writing

namespace JavaMinus.Source

/-! ## How an expression begins -/

/-- The token can begin an expression. -/
def Token.opens : Token → Bool
  | .integer _ | .name _ => true
  | .keyword k => k ∈ [.kTrue, .kFalse, .kThis, .kNew]
  | .mark m => m ∈ [.lparen, .bang]
  | .endOfText => false

/-- The first tokens of an expression.  After a name stands no other one, and no assignment; and a
bracket after it is not closed at once. -/
inductive Opening : List Token → Prop
  | name (text : String) : Opening [.name text]
  | element (text : String) {t : Token} {w : List Token} :
      t.opens = true → Opening (.name text :: .mark .lbracket :: t :: w)
  | more (text : String) {t : Token} {w : List Token} :
      t.goesOn = true → t ≠ .mark .lbracket → Opening (.name text :: t :: w)
  | other {t : Token} {w : List Token} :
      t.opens = true → (∀ text, t ≠ .name text) → Opening (t :: w)

namespace Opening

theorem begins {w : List Token} (h : Opening w) : ∃ t v, w = t :: v ∧ t.opens = true := by
  cases h with
  | name text | element text _ | more text _ _ => exact ⟨_, _, rfl, rfl⟩
  | other opens _ => exact ⟨_, _, rfl, opens⟩

theorem append {u v : List Token} {t : Token} (h : Opening u) (goesOn : t.goesOn = true)
    (inside : t = .mark .lbracket → ∃ x w, v = x :: w ∧ x.opens = true) :
    Opening (u ++ t :: v) := by
  cases h with
  | name text =>
      by_cases bracket : t = .mark .lbracket
      · subst bracket
        obtain ⟨t, v, rfl, opens⟩ := inside rfl
        exact .element text opens
      · exact .more text goesOn bracket
  | element text opens => exact .element text opens
  | more text goesOn other => exact .more text goesOn other
  | other opens noName => exact .other opens noName

/-- No declaration begins like an expression before a semicolon or an assignment. -/
theorem not_declaration {w rest : List Token} {m : Mark} {ls : List Lexeme} (h : Opening w)
    (hm : m = .semicolon ∨ m = .assign) (hl : ls.map Lexeme.token = w ++ .mark m :: rest) :
    startsDeclaration ls = false := by
  unfold startsDeclaration
  split
  · cases h with
    | name | element _ _ | more _ _ _ => cases hl
    | other opens _ =>
        obtain ⟨rfl, -⟩ := List.cons.inj hl
        cases opens
  · cases h with
    | name | element _ _ | more _ _ _ => cases hl
    | other opens _ =>
        obtain ⟨rfl, -⟩ := List.cons.inj hl
        cases opens
  · cases h with
    | name | element _ _ => cases hl
    | more text goesOn _ =>
        obtain ⟨-, hl⟩ := List.cons.inj hl
        obtain ⟨rfl, -⟩ := List.cons.inj hl
        cases goesOn
    | other _ noName =>
        obtain ⟨rfl, -⟩ := List.cons.inj hl
        exact absurd rfl (noName _)
  · cases h with
    | name text =>
        rcases hm with rfl | rfl
        all_goals cases hl
    | element text opens =>
        obtain ⟨-, hl⟩ := List.cons.inj hl
        obtain ⟨-, hl⟩ := List.cons.inj hl
        obtain ⟨rfl, -⟩ := List.cons.inj hl
        cases opens
    | more text _ other =>
        obtain ⟨-, hl⟩ := List.cons.inj hl
        obtain ⟨rfl, -⟩ := List.cons.inj hl
        exact absurd rfl other
    | other _ noName =>
        obtain ⟨rfl, -⟩ := List.cons.inj hl
        exact absurd rfl (noName _)
  · rfl

/-- No assignment to a name begins like an expression before a semicolon. -/
theorem not_assignment {w rest : List Token} {ls : List Lexeme} (h : Opening w)
    (hl : ls.map Lexeme.token = w ++ .mark .semicolon :: rest) : startsAssignment ls = false := by
  unfold startsAssignment
  split
  · cases h with
    | name | element _ _ => cases hl
    | more text goesOn _ =>
        obtain ⟨-, hl⟩ := List.cons.inj hl
        obtain ⟨rfl, -⟩ := List.cons.inj hl
        cases goesOn
    | other _ noName =>
        obtain ⟨rfl, -⟩ := List.cons.inj hl
        exact absurd rfl (noName _)
  · rfl

end Opening

theorem Derives.opening {n : Phrase} {w : List Token} {e : Expr} : Derives n w e → Opening w
  | .single h | .bare h | .base h => h.opening
  | @Derives.operator _ op _ _ _ _ _ hl _ => by
      refine hl.opening.append ?_ fun bracket => ?_
      · cases op <;> rfl
      · cases op <;> cases bracket
  | .index he hi => by
      obtain ⟨t, v, same, opens⟩ := hi.opening.begins
      refine he.opening.append rfl fun _ => ⟨t, v ++ [.mark .rbracket], ?_, opens⟩
      rw [same, List.cons_append]
  | .length he => he.opening.append rfl fun bracket => by cases bracket
  | .call he _ => he.opening.append rfl fun bracket => by cases bracket
  | .name text => .name text
  | .not _ | .int _ | .true | .false | .this | .paren _ | .newArray _ | .newObject _ =>
      .other rfl fun _ same => by cases same

theorem Derives.element (text : String) {w : List Token} {index : Expr}
    (h : Derives .expression w index) :
    Derives .expression (.name text :: .mark .lbracket :: (w ++ [.mark .rbracket]))
      (.index default (.name default text) index) :=
  .single (.single (.single (.single (.bare (.index (.base (.name text)) h)))))

/-! ## What a reader reads -/

variable {α β : Type} {m n : Nat}

/-- The tokens left, without their places. -/
def Input.left (i : Input) : List Token := i.tokens.map Lexeme.token

/-- The reader answers, with a value of which `P` holds, and leaves the tokens. -/
def Reads (P : α → Prop) (rest : List Token) (r : Reading α n) : Prop :=
  ∃ p, r = .ok p ∧ P p.value ∧ p.rest.left = rest

namespace Reads

theorem ok {P : α → Prop} {rest : List Token} {p : Parsed Input.size n α} (hp : P p.value)
    (hr : p.rest.left = rest) : Reads P rest (.ok p) :=
  ⟨p, rfl, hp, hr⟩

theorem bind {P : α → Prop} {Q : β → Prop} {rest rest' : List Token} {r : Reading α m}
    {f : Parsed Input.size m α → Reading β n} (hr : Reads P rest r)
    (hf : ∀ p, P p.value → p.rest.left = rest → Reads Q rest' (f p)) :
    Reads Q rest' (r >>= f) := by
  obtain ⟨p, rfl, hp, hrest⟩ := hr
  exact hf p hp hrest

end Reads

theorem Input.exists_of_left {i : Input} {t : Token} {rest : List Token} (h : i.left = t :: rest) :
    ∃ loc ls k, i = ⟨⟨t, loc⟩ :: ls, k⟩ ∧ ls.map Lexeme.token = rest := by
  obtain ⟨ts, k⟩ := i
  obtain ⟨⟨token, loc⟩, ls, rfl, rfl, rfl⟩ := List.map_eq_cons_iff.1 h
  exact ⟨loc, ls, k, rfl, rfl⟩

theorem Input.token_of_left {i : Input} {t : Token} {rest : List Token} (h : i.left = t :: rest) :
    i.token = t := by
  obtain ⟨loc, ls, k, rfl, -⟩ := i.exists_of_left h
  rfl

theorem expect_reads {i : Input} {t : Token} {rest : List Token} (h : i.left = t :: rest)
    (rule : String) : Reads (fun _ => True) rest (i.expect t rule) := by
  obtain ⟨loc, ls, k, rfl, left⟩ := i.exists_of_left h
  rw [Input.expect, if_pos rfl]
  exact .ok trivial left

theorem expectMark_reads {i : Input} {mark : Mark} {rest : List Token}
    (h : i.left = .mark mark :: rest) (rule : String) :
    Reads (fun _ => True) rest (i.expectMark mark rule) :=
  expect_reads h rule

theorem expectName_reads {i : Input} {text : String} {rest : List Token}
    (h : i.left = .name text :: rest) (rule : String) :
    Reads (· = text) rest (i.expectName rule) := by
  obtain ⟨loc, ls, k, rfl, left⟩ := i.exists_of_left h
  exact .ok rfl left

theorem close_reads {p : Parsed Input.size n α} {mark : Mark} {rest : List Token}
    (h : p.rest.left = .mark mark :: rest) (rule : String) :
    Reads (· = p.value) rest (close p mark rule) := by
  refine (expectMark_reads h rule).bind fun c _ hc => ?_
  exact .ok rfl hc

theorem derives_reads {w rest : List Token} {e : Expr} (h : Derives .expression w e) {i : Input}
    (hi : i.left = w ++ rest) (ends : ∀ t ∈ rest.head?, t.goesOn = false) :
    Reads (·.untagged = e) rest (expression i) := by
  obtain ⟨ws, ts, tokens, rfl, rfl⟩ := List.map_eq_append_iff.1 hi
  have stops : ∀ x ∈ ts.head?, x.token.goesOn = false := by
    intro x hx
    refine ends x.token ?_
    rw [List.head?_map]
    exact Option.mem_map_of_mem _ hx
  obtain ⟨p, hp, he, hr⟩ := h.completes.expression rfl (stops_of_not_goesOn stops _) tokens
  exact ⟨p, hp, he, congrArg (List.map Lexeme.token) hr⟩

theorem expression_reads {e : Expr} (h : e.Shaped) {i : Input} {mark : Mark} {rest : List Token}
    (hi : i.left = e.tokens ++ .mark mark :: rest)
    (ends : (Token.mark mark).goesOn = false) :
    Reads (·.untagged = e.untagged) (.mark mark :: rest) (expression i) := by
  refine derives_reads h.derives hi ?_
  rintro t ⟨⟩
  exact ends

/-! ## Statements -/

theorem condition_reads {e : Expr} (h : e.Shaped) {i : Input} {rest : List Token}
    (hi : i.left = .mark .lparen :: (e.tokens ++ .mark .rparen :: rest))
    (opening closing : String) :
    Reads (·.untagged = e.untagged) rest (condition i opening closing) := by
  refine (expectMark_reads hi _).bind fun mark _ hr => ?_
  refine (expression_reads h hr rfl).bind fun inner hinner hr => ?_
  refine (close_reads hr _).bind fun p hp hr => ?_
  exact .ok (hp ▸ hinner) hr

theorem returnedNothing_reads {i : Input} {rest : List Token} (loc : Location)
    (hi : i.left = .mark .semicolon :: rest) :
    Reads (·.untagged = .return default none) rest (returned loc i) := by
  obtain ⟨loc', ls, k, rfl, left⟩ := i.exists_of_left hi
  exact .ok rfl left

theorem returned_reads {e : Expr} (h : e.Shaped) {i : Input} {rest : List Token} (loc : Location)
    (hi : i.left = e.tokens ++ .mark .semicolon :: rest) :
    Reads (·.untagged = .return default (some e.untagged)) rest (returned loc i) := by
  unfold returned
  split
  · obtain ⟨t, w, tokens, opens⟩ := h.derives.opening.begins
    rw [tokens] at hi
    obtain ⟨rfl, -⟩ := List.cons.inj hi
    cases opens
  · refine (expression_reads h hi rfl).bind fun e' he hr => ?_
    refine (close_reads hr _).bind fun p hp hr => ?_
    refine .ok ?_ hr
    simp only [Parsed.map, Stmt.untagged, Option.map, hp, he]

theorem assignment_reads {target : String} {value : Expr} (h : value.Shaped) {i : Input}
    {rest : List Token}
    (hi : i.left = .name target :: .mark .assign :: (value.tokens ++ .mark .semicolon :: rest)) :
    Reads (·.untagged = .assign default target value.untagged) rest (assignment i) := by
  refine (expectName_reads hi _).bind fun name hname hr => ?_
  refine (close_reads hr _).bind fun mark hmark hr => ?_
  refine (expression_reads h hr rfl).bind fun e he hr => ?_
  refine (close_reads hr _).bind fun p hp hr => ?_
  refine .ok ?_ hr
  simp only [Parsed.within, Parsed.map, Stmt.untagged, hp, he, hmark, hname]

/-- What is read before the assignment mark is taken apart into the array and the index. -/
theorem elementTarget_of_untagged {e index : Expr} {target : String}
    (h : e.untagged = .index default (.name default target) index) (after : Input) :
    ∃ index', elementTarget e after = .ok (target, index') ∧ index'.untagged = index := by
  cases e with
  | index tag array index' =>
      rw [Expr.untagged] at h
      obtain ⟨-, harray, hindex⟩ := Expr.index.inj h
      refine ⟨index', ?_, hindex⟩
      cases array with
      | name tag text =>
          rw [Expr.untagged] at harray
          obtain ⟨-, rfl⟩ := Expr.name.inj harray
          rfl
      | _ =>
          rw [Expr.untagged] at harray
          cases harray
  | _ =>
      rw [Expr.untagged] at h
      cases h

theorem assignElement_reads {target : String} {index value : Expr} (hindex : index.Shaped)
    (hvalue : value.Shaped) {i : Input} {rest : List Token}
    (hi : i.left = (.name target :: .mark .lbracket :: (index.tokens ++ [.mark .rbracket])) ++
      .mark .assign :: (value.tokens ++ .mark .semicolon :: rest)) :
    Reads (·.untagged = .assignElement default target index.untagged value.untagged) rest
      (expressionStatement i) := by
  refine (derives_reads (hindex.derives.element target) hi ?_).bind fun first hfirst hr => ?_
  · rintro t ⟨⟩
    rfl
  · split
    · rename_i e loc ts k hlt
      obtain ⟨index', taken, same⟩ :=
        elementTarget_of_untagged hfirst ⟨⟨.mark .assign, loc⟩ :: ts, k⟩
      rw [taken]
      have left : Input.left ⟨ts, k⟩ = value.tokens ++ .mark .semicolon :: rest :=
        (List.cons.inj hr).2
      refine (expression_reads hvalue left rfl).bind fun e' he hr => ?_
      refine (close_reads hr _).bind fun p hp hr => ?_
      refine .ok ?_ hr
      simp only [Parsed.within, Parsed.map, Stmt.untagged, hp, he, same]
    · rename_i noAssign
      obtain ⟨e, i', hlt⟩ := first
      obtain ⟨loc, ls, k, rfl, -⟩ := i'.exists_of_left hr
      exact absurd rfl (noAssign _ _ _ _ _)

theorem expressionStatement_reads {e : Expr} (h : e.Shaped) {i : Input} {rest : List Token}
    (hi : i.left = e.tokens ++ .mark .semicolon :: rest) :
    Reads (·.untagged = .expr e.untagged) rest (expressionStatement i) := by
  refine (expression_reads h hi rfl).bind fun first hfirst hr => ?_
  split
  · cases hr
  · refine (close_reads hr _).bind fun p hp hr => ?_
    refine .ok ?_ hr
    simp only [Parsed.map, Stmt.untagged, hp, hfirst]

/-- Where an expression begins, a statement has no keyword of its own. -/
theorem statement_of_opens {i : Input} {t : Token} {w : List Token} (h : i.left = t :: w)
    (opens : t.opens = true) : statement i = plainStatement i := by
  rw [statement.eq_def]
  split
  · obtain ⟨rfl, -⟩ := List.cons.inj h
    cases opens
  · obtain ⟨rfl, -⟩ := List.cons.inj h
    cases opens
  · obtain ⟨rfl, -⟩ := List.cons.inj h
    cases opens
  · obtain ⟨rfl, -⟩ := List.cons.inj h
    cases opens
  · rfl

theorem startsAssignment_of_left {i : Input} {text : String} {t : Token} {rest : List Token}
    (h : i.left = .name text :: t :: rest) :
    startsAssignment i.tokens = decide (t = .mark .assign) := by
  obtain ⟨loc, ls, k, rfl, left⟩ := i.exists_of_left h
  obtain ⟨⟨token, loc'⟩, ls, rfl, rfl, -⟩ := List.map_eq_cons_iff.1 left
  by_cases isAssign : token = .mark .assign
  · subst isAssign
    rfl
  · rw [decide_eq_false isAssign]
    unfold startsAssignment
    split
    · rename_i same
      cases same
      exact absurd rfl isAssign
    · rfl

theorem Stmt.tokens_assignElement {loc : Location} {target : String} {index value : Expr}
    {rest : List Token} :
    (Stmt.assignElement loc target index value).tokens ++ rest =
      (.name target :: .mark .lbracket :: (index.tokens ++ [.mark .rbracket])) ++
        .mark .assign :: (value.tokens ++ .mark .semicolon :: rest) := by
  simp [Stmt.tokens]

theorem not_declaration_of_left {i : Input} {t : Token} {rest : List Token}
    (h : i.left = t :: rest)
    (plain : t ∈ [.mark .lbrace, .keyword .kIf, .keyword .kWhile, .keyword .kReturn]) :
    startsDeclaration i.tokens = false := by
  obtain ⟨loc, ls, k, rfl, -⟩ := i.exists_of_left h
  simp only [List.mem_cons, List.not_mem_nil, or_false] at plain
  rcases plain with rfl | rfl | rfl | rfl
  all_goals rfl

theorem Stmt.Shaped.not_declaration {s : Stmt} (h : s.Shaped) {i : Input} {rest : List Token}
    (hi : i.left = s.tokens ++ rest) : startsDeclaration i.tokens = false := by
  cases s with
  | block _ _ | ifThen _ _ _ | ifElse _ _ _ _ | «while» _ _ _ =>
      rw [Stmt.tokens] at hi
      exact not_declaration_of_left hi (by decide)
  | «return» _ value =>
      cases value
      all_goals
        rw [Stmt.tokens] at hi
        exact not_declaration_of_left hi (by decide)
  | expr e =>
      simp only [Stmt.tokens, List.append_assoc, List.singleton_append] at hi
      exact (Expr.Shaped.derives h).opening.not_declaration (.inl rfl) hi
  | assign _ target _ =>
      rw [Stmt.tokens] at hi
      exact (Opening.name target).not_declaration (.inr rfl) hi
  | assignElement _ target index value =>
      rw [Stmt.tokens_assignElement] at hi
      exact (h.2.1.derives.element target).opening.not_declaration (.inr rfl) hi

/-- The token can begin a statement. -/
def Token.startsStatement (t : Token) : Bool :=
  t.opens || t ∈ [.mark .lbrace, .keyword .kIf, .keyword .kWhile, .keyword .kReturn]

theorem Stmt.Shaped.begins {s : Stmt} (h : s.Shaped) :
    ∃ t w, s.tokens = t :: w ∧ t.startsStatement = true := by
  cases s with
  | expr e =>
      obtain ⟨t, w, tokens, opens⟩ := Expr.Shaped.derives h |>.opening.begins
      refine ⟨t, w ++ [.mark .semicolon], ?_, ?_⟩
      · rw [Stmt.tokens, tokens, List.cons_append]
      · rw [Token.startsStatement, opens, Bool.true_or]
  | «return» loc value =>
      cases value with
      | none | some e => exact ⟨_, _, by rw [Stmt.tokens], rfl⟩
  | _ => exact ⟨_, _, by rw [Stmt.tokens], rfl⟩

theorem Stmt.Shaped.token_starts {s : Stmt} (h : s.Shaped) {i : Input} {rest : List Token}
    (hi : i.left = s.tokens ++ rest) : i.token.startsStatement = true := by
  obtain ⟨t, w, tokens, starts⟩ := h.begins
  rw [tokens, List.cons_append] at hi
  rwa [i.token_of_left hi]

/-- The word `else` does not stand next. -/
def NoElse (rest : List Token) : Prop := ∀ t ∈ rest.head?, t ≠ .keyword .kElse

/-- Neither a statement nor a closing brace begins with `else`. -/
theorem noElse_of_shaped {ss : List Stmt} (h : Stmt.ShapedAll ss) (rest : List Token) :
    NoElse (Stmt.tokensOf ss ++ .mark .rbrace :: rest) := by
  cases ss with
  | nil =>
      rintro t ⟨⟩
      decide
  | cons s ss =>
      obtain ⟨t, w, tokens, starts⟩ := h.1.begins
      rw [Stmt.tokensOf, tokens]
      rintro t ⟨⟩ rfl
      cases starts

mutual

theorem statement_reads : ∀ (s : Stmt), s.Shaped → ∀ {i : Input} {rest : List Token},
    i.left = s.tokens ++ rest → (s.endsOpen = true → NoElse rest) →
      Reads (·.untagged = s.untagged) rest (statement i)
  | .block loc body, h, i, rest, hi, _ => by
      simp only [Stmt.tokens, List.cons_append, List.append_assoc, List.nil_append] at hi
      obtain ⟨loc', ls, k, rfl, left⟩ := i.exists_of_left hi
      rw [statement.eq_def]
      refine (statements_reads body h (i := ⟨ls, k⟩) left).bind fun p hp hr => ?_
      refine (close_reads hr _).bind fun q hq hr => ?_
      refine .ok ?_ hr
      simp only [Parsed.map, Stmt.untagged, hq, hp]
  | .ifThen loc c body, h, i, rest, hi, noElse => by
      simp only [Stmt.tokens, List.cons_append, List.append_assoc] at hi
      obtain ⟨loc', ls, k, rfl, left⟩ := i.exists_of_left hi
      rw [statement.eq_def]
      refine (condition_reads h.1 (i := ⟨ls, k⟩) left _ _).bind fun guard hguard hr => ?_
      have noElse : NoElse rest := noElse rfl
      refine Reads.bind (P := (·.untagged = (Stmt.ifThen loc c body).untagged)) ?_
        fun p hp hr => .ok hp hr
      rw [branches]
      refine (statement_reads body h.2 hr fun _ => noElse).bind fun first hfirst hr => ?_
      split
      · subst hr
        exact absurd rfl (noElse _ rfl)
      · refine .ok ?_ hr
        simp only [Parsed.map, Stmt.untagged, hguard, hfirst]
  | .ifElse loc c yes no, h, i, rest, hi, noElse => by
      simp only [Stmt.tokens, List.cons_append, List.append_assoc] at hi
      obtain ⟨hc, hyes, closed, hno⟩ := h
      obtain ⟨loc', ls, k, rfl, left⟩ := i.exists_of_left hi
      rw [statement.eq_def]
      refine (condition_reads hc (i := ⟨ls, k⟩) left _ _).bind fun guard hguard hr => ?_
      refine Reads.bind (P := (·.untagged = (Stmt.ifElse loc c yes no).untagged)) ?_
        fun p hp hr => .ok hp hr
      rw [branches]
      have ends : yes.endsOpen = true → NoElse (.keyword .kElse :: (no.tokens ++ rest)) :=
        fun isOpen => Bool.noConfusion (closed.symm.trans isOpen)
      refine (statement_reads yes hyes hr ends).bind fun first hfirst hr => ?_
      split
      · rename_i thenBranch loc'' ts k hlt
        have left : Input.left ⟨ts, k⟩ = no.tokens ++ rest := (List.cons.inj hr).2
        refine (statement_reads no hno left noElse).bind fun second hsecond hr => ?_
        refine .ok ?_ hr
        have hthen : thenBranch.untagged = yes.untagged := hfirst
        simp only [Parsed.within, Parsed.map, Stmt.untagged, hguard, hthen, hsecond]
      · rename_i without
        obtain ⟨e, i', hlt⟩ := first
        obtain ⟨loc, ls, k, rfl, -⟩ := i'.exists_of_left hr
        exact absurd rfl (without _ _ _ _ _)
  | .while loc c body, h, i, rest, hi, noElse => by
      simp only [Stmt.tokens, List.cons_append, List.append_assoc] at hi
      obtain ⟨loc', ls, k, rfl, left⟩ := i.exists_of_left hi
      rw [statement.eq_def]
      refine (condition_reads h.1 (i := ⟨ls, k⟩) left _ _).bind fun guard hguard hr => ?_
      refine (statement_reads body h.2 hr noElse).bind fun p hp hr => ?_
      refine .ok ?_ hr
      simp only [Parsed.within, Parsed.map, Stmt.untagged, hguard, hp]
  | .expr e, h, i, rest, hi, _ => by
      have noDeclaration := h.not_declaration hi
      simp only [Stmt.tokens, List.append_assoc, List.singleton_append] at hi
      have opening := Expr.Shaped.derives h |>.opening
      obtain ⟨t, w, tokens, opens⟩ := opening.begins
      have first : i.left = t :: (w ++ .mark .semicolon :: rest) := by
        rw [hi, tokens, List.cons_append]
      rw [statement_of_opens first opens, plainStatement, opening.not_assignment hi, noDeclaration]
      exact expressionStatement_reads h hi
  | .assign loc target value, h, i, rest, hi, _ => by
      simp only [Stmt.tokens, List.cons_append, List.append_assoc, List.nil_append] at hi
      rw [statement_of_opens hi rfl, plainStatement, startsAssignment_of_left hi]
      exact assignment_reads h.2 hi
  | .assignElement loc target index value, h, i, rest, hi, _ => by
      have noDeclaration := h.not_declaration hi
      rw [Stmt.tokens_assignElement] at hi
      rw [statement_of_opens hi rfl, plainStatement, startsAssignment_of_left hi, noDeclaration]
      exact assignElement_reads h.2.1 h.2.2 hi
  | .return loc none, _, i, rest, hi, _ => by
      simp only [Stmt.tokens, List.cons_append, List.nil_append] at hi
      obtain ⟨loc', ls, k, rfl, left⟩ := i.exists_of_left hi
      rw [statement.eq_def]
      refine (returnedNothing_reads (i := ⟨ls, k⟩) loc' left).bind fun p hp hr => ?_
      exact .ok hp hr
  | .return loc (some e), h, i, rest, hi, _ => by
      simp only [Stmt.tokens, List.cons_append, List.append_assoc, List.nil_append] at hi
      obtain ⟨loc', ls, k, rfl, left⟩ := i.exists_of_left hi
      rw [statement.eq_def]
      refine (returned_reads (i := ⟨ls, k⟩) h loc' left).bind fun p hp hr => ?_
      exact .ok hp hr

theorem statements_reads : ∀ (ss : List Stmt), Stmt.ShapedAll ss → ∀ {i : Input}
    {rest : List Token}, i.left = Stmt.tokensOf ss ++ .mark .rbrace :: rest →
      Reads (Stmt.untaggedAll · = Stmt.untaggedAll ss) (.mark .rbrace :: rest) (statements i)
  | [], _, i, rest, hi => by
      rw [Stmt.tokensOf, List.nil_append] at hi
      rw [statements, i.token_of_left hi]
      exact .ok rfl hi
  | s :: ss, h, i, rest, hi => by
      rw [Stmt.tokensOf, List.append_assoc] at hi
      rw [statements]
      have starts := h.1.token_starts hi
      split
      · rename_i isBrace
        rw [isBrace] at starts
        cases starts
      · rename_i isEnd
        rw [isEnd] at starts
        cases starts
      · have noElse : NoElse (Stmt.tokensOf ss ++ .mark .rbrace :: rest) :=
          noElse_of_shaped h.2 rest
        refine (statement_reads s h.1 hi fun _ => noElse).bind fun p hp hr => ?_
        refine (statements_reads ss h.2 hr).bind fun q hq hr => ?_
        refine .ok ?_ hr
        simp only [Parsed.within, Parsed.map, Stmt.untaggedAll, hp, hq]

end

end JavaMinus.Source
