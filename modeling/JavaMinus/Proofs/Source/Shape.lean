/-
# The trees that are read

A reader does not answer with every tree.  Its names are names.  An expression is one that the grammar
derives from the tokens of the tree; the first branch of a conditional does not end where an `else`
would belong to it (`Stmt.endsOpen`); a field and a local variable are not of the type `void`; and the
kind of a method is the one that its signature gives.

A reader only hands on what the tokens hold, so the tokens that are left can be written as those
before them could.  And a statement that ends open stands before something else than `else`, since
its reader would have taken that one too.  So what is carried through the readers is about the answer
and the tokens after it (`Ensures`).
-/
import JavaMinus.Proofs.Source.Lexing
import JavaMinus.Proofs.Source.Parsing

namespace JavaMinus.Source

/-! ## The shape of a program -/

/-- The grammar derives the expression from its tokens, and these can be written. -/
structure Expr.Shaped (e : Expr) : Prop where
  derives : Derives .expression e.tokens e.untagged
  spellable : Spellable e.tokens

/-- The word `else` after the statement would belong to it. -/
def Stmt.endsOpen : Stmt → Bool
  | .ifThen .. => true
  | .ifElse _ _ _ elseBranch => elseBranch.endsOpen
  | .while _ _ body => body.endsOpen
  | .block .. | .expr _ | .assign .. | .assignElement .. | .return .. => false

mutual

/-- The targets of the statement are names, its expressions have their shape, and each `else` belongs
to the conditional that has it. -/
def Stmt.Shaped : Stmt → Prop
  | .block _ body => Stmt.ShapedAll body
  | .ifThen _ condition thenBranch => condition.Shaped ∧ thenBranch.Shaped
  | .ifElse _ condition thenBranch elseBranch =>
      condition.Shaped ∧ thenBranch.Shaped ∧ thenBranch.endsOpen = false ∧ elseBranch.Shaped
  | .while _ condition body => condition.Shaped ∧ body.Shaped
  | .expr e => e.Shaped
  | .assign _ target value => IsName target ∧ value.Shaped
  | .assignElement _ target index value => IsName target ∧ index.Shaped ∧ value.Shaped
  | .return _ none => True
  | .return _ (some value) => value.Shaped

def Stmt.ShapedAll : List Stmt → Prop
  | [] => True
  | s :: ss => s.Shaped ∧ Stmt.ShapedAll ss

end

/-- The variables have a type of values. -/
def Storable (ds : List Declaration) : Prop := ∀ d ∈ ds, d.type.isVoid = false

/-- The kind of the method is that of its signature, and its body has its shape. -/
structure Method.Shaped (m : Method) : Prop extends Method.Named m where
  kind : m.kind = methodKind m.name m.isStatic m.returnType m.params
  storable : Storable m.locals
  statements : Stmt.ShapedAll m.body

structure Program.Shaped (p : Program) : Prop extends Program.Named p where
  storable : Storable p.fields
  shaped : ∀ m ∈ p.methods, m.Shaped

/-! ## Tokens and tags -/

mutual

theorem Expr.tokens_untagged : ∀ e : Expr, e.untagged.tokens = e.tokens
  | .int .. | .bool _ true | .bool _ false | .name .. | .this _ | .newObject .. => by
      simp only [Expr.untagged, Expr.tokens]
  | .binary _ _ lhs rhs => by
      simp only [Expr.untagged, Expr.tokens, lhs.tokens_untagged, rhs.tokens_untagged]
  | .not _ e | .length _ e | .newArray _ e | .paren _ e => by
      simp only [Expr.untagged, Expr.tokens, e.tokens_untagged]
  | .index _ array i => by
      simp only [Expr.untagged, Expr.tokens, array.tokens_untagged, i.tokens_untagged]
  | .call _ target _ args => by
      simp only [Expr.untagged, Expr.tokens, target.tokens_untagged, Expr.tokensOf_untagged args]

theorem Expr.tokensOf_untagged : ∀ es : List Expr,
    Expr.tokensOf (Expr.untaggedAll es) = Expr.tokensOf es
  | [] => by simp only [Expr.untaggedAll]
  | [e] => by simp only [Expr.untaggedAll, Expr.tokensOf, e.tokens_untagged]
  | e :: e' :: es => by
      have more := Expr.tokensOf_untagged (e' :: es)
      simp only [Expr.untaggedAll, Expr.tokensOf, e.tokens_untagged] at more ⊢
      rw [more]

end

mutual

theorem Expr.named_of_spellable : ∀ e : Expr, Spellable e.tokens → e.Named
  | .int .., _ | .bool .., _ | .this _, _ => trivial
  | .name _ _, h => by
      simp only [Expr.tokens, spellable_cons] at h
      exact h.1
  | .newObject _ _, h => by
      simp only [Expr.tokens, spellable_cons] at h
      exact h.2.1
  | .binary _ _ lhs rhs, h => by
      simp only [Expr.tokens, spellable_append, spellable_cons] at h
      exact ⟨lhs.named_of_spellable h.1, rhs.named_of_spellable h.2.2⟩
  | .not _ e, h => by
      simp only [Expr.tokens, spellable_cons] at h
      exact e.named_of_spellable h.2
  | .length _ e, h => by
      simp only [Expr.tokens, spellable_append] at h
      exact e.named_of_spellable h.1
  | .index _ array i, h => by
      simp only [Expr.tokens, spellable_append, spellable_cons] at h
      exact ⟨array.named_of_spellable h.1, i.named_of_spellable h.2.2.1⟩
  | .call _ target _ args, h => by
      simp only [Expr.tokens, spellable_append, spellable_cons] at h
      exact ⟨target.named_of_spellable h.1, h.2.2.1, Expr.namedAll_of_spellable args h.2.2.2.2.1⟩
  | .newArray _ e, h => by
      simp only [Expr.tokens, spellable_append, spellable_cons] at h
      exact e.named_of_spellable h.2.2.2.1
  | .paren _ e, h => by
      simp only [Expr.tokens, spellable_append, spellable_cons] at h
      exact e.named_of_spellable h.2.1

theorem Expr.namedAll_of_spellable : ∀ es : List Expr, Spellable (Expr.tokensOf es) →
    Expr.NamedAll es
  | [], _ => trivial
  | [e], h => ⟨e.named_of_spellable h, trivial⟩
  | e :: e' :: es, h => by
      simp only [Expr.tokensOf, spellable_append, spellable_cons] at h
      exact ⟨e.named_of_spellable h.1, Expr.namedAll_of_spellable (e' :: es) h.2.2⟩

end

mutual

/-- No phrase goes over the end of the text. -/
theorem Derives.end_not_mem {n : Phrase} {w : List Token} {e : Expr} :
    Derives n w e → .endOfText ∉ w
  | .single h | .bare h | .base h => h.end_not_mem
  | .operator _ hl hr => by simp [hl.end_not_mem, hr.end_not_mem]
  | .not h | .length h | .paren h | .newArray h => by simp [h.end_not_mem]
  | .index he hi => by simp [he.end_not_mem, hi.end_not_mem]
  | .call he hargs => by simp [he.end_not_mem, hargs.end_not_mem]
  | .int _ | .true | .false | .this | .name _ | .newObject _ => by simp

theorem DerivesArguments.end_not_mem {w : List Token} {es : List Expr} :
    DerivesArguments w es → .endOfText ∉ w
  | .none => List.not_mem_nil
  | .last h => h.end_not_mem
  | .more h hs => by simp [h.end_not_mem, hs.end_not_mem]

end

/-- The index of a phrase that ends in brackets is a phrase of its own. -/
theorem Derives.index_derives {n : Phrase} {w : List Token} {e array index : Expr} :
    Derives n w e → e = .index default array index →
      ∃ v, Derives .expression v index ∧ ∀ t ∈ v, t ∈ w
  | .single h, he | .bare h, he | .base h, he => h.index_derives he
  | .index _ hi, he => by
      cases he
      exact ⟨_, hi, by simp +contextual⟩

/-! ## What a reader ensures -/

variable {α β : Type} {m n : Nat}

/-- Every token left can be written, or is the end of the text. -/
def Input.Written (i : Input) : Prop := ∀ l ∈ i.tokens, l.token.Written

/-- The answer and what is left satisfy `P`, and every token left can be written. -/
def Ensures (P : α → Input → Prop) (r : Reading α n) : Prop :=
  ∀ p, r = .ok p → P p.value p.rest ∧ p.rest.Written

namespace Ensures

theorem ok {P : α → Input → Prop} {p : Parsed Input.size n α} (h : P p.value p.rest)
    (hr : p.rest.Written) : Ensures P (.ok p) := by
  intro q hq
  cases hq
  exact ⟨h, hr⟩

theorem error {P : α → Input → Prop} (e : Error) : Ensures P (.error e : Reading α n) := by
  intro p hp
  cases hp

theorem bind {P : α → Input → Prop} {Q : β → Input → Prop} {r : Reading α m}
    {f : Parsed Input.size m α → Reading β n} (hr : Ensures P r)
    (hf : ∀ p, P p.value p.rest → p.rest.Written → Ensures Q (f p)) : Ensures Q (r >>= f) := by
  cases r with
  | error e => exact error e
  | ok p =>
      obtain ⟨hp, hrest⟩ := hr p rfl
      exact hf p hp hrest

end Ensures

theorem Input.Written.tail {l : Lexeme} {ls : List Lexeme} {k k' : Nat}
    (h : Input.Written ⟨l :: ls, k⟩) : Input.Written ⟨ls, k'⟩ :=
  (List.forall_mem_cons.1 h).2

/-- The tokens that a reader takes and those that it leaves are among those that it is given. -/
theorem Derived.ensures {D : List Token → α → Prop} {i : Input} {r : Reading α n}
    (h : Derived D i.tokens r) (hi : i.Written) :
    Ensures (fun a _ => ∃ w, D w a ∧ ∀ t ∈ w, t.Written) r := by
  intro p hp
  obtain ⟨w, taken, hw⟩ := h p hp
  rw [Input.Written, taken, List.forall_mem_append] at hi
  exact ⟨⟨_, hw, List.forall_mem_map.2 hi.1⟩, hi.2⟩

theorem expect_ensures {i : Input} (h : i.Written) (t : Token) (rule : String) :
    Ensures (fun _ _ => True) (i.expect t rule) := by
  intro p hp
  exact ⟨trivial, ((expect_derived i t rule).ensures h p hp).2⟩

theorem expectMark_ensures {i : Input} (h : i.Written) (mark : Mark) (rule : String) :
    Ensures (fun _ _ => True) (i.expectMark mark rule) :=
  expect_ensures h (.mark mark) rule

theorem expectName_ensures {i : Input} (h : i.Written) (rule : String) :
    Ensures (fun name _ => IsName name) (i.expectName rule) := by
  intro p hp
  obtain ⟨⟨w, rfl, written⟩, rest⟩ := (expectName_derived i rule).ensures h p hp
  exact ⟨(written _ List.mem_cons_self).resolve_left (fun same => nomatch same), rest⟩

theorem close_ensures {P : α → Prop} {p : Parsed Input.size n α} (hp : P p.value)
    (h : p.rest.Written) (mark : Mark) (rule : String) :
    Ensures (fun a _ => P a) (close p mark rule) := by
  refine (expectMark_ensures h mark rule).bind fun c _ hc => ?_
  exact .ok hp hc

theorem expression_ensures {i : Input} (h : i.Written) :
    Ensures (fun e _ => e.Shaped) (expression i) := by
  intro p hp
  obtain ⟨⟨w, derives, written⟩, rest⟩ := (expression_derived i rfl).ensures h p hp
  have tokens : p.value.tokens = w := by
    rw [← p.value.tokens_untagged, derives.tokens_eq]
  refine ⟨⟨by rwa [tokens], fun t ht => ?_⟩, rest⟩
  rw [tokens] at ht
  refine (written t ht).resolve_left ?_
  rintro rfl
  exact derives.end_not_mem ht

/-! ## Statements -/

theorem condition_ensures {i : Input} (h : i.Written) (opening closing : String) :
    Ensures (fun e _ => e.Shaped) (condition i opening closing) := by
  refine (expectMark_ensures h .lparen opening).bind fun mark _ hr => ?_
  refine (expression_ensures hr).bind fun inner hinner hr => ?_
  refine (close_ensures hinner hr _ _).bind fun p hp hr => ?_
  exact .ok hp hr

theorem returned_ensures {i : Input} (h : i.Written) (loc : Location) :
    Ensures (fun s _ => s.Shaped ∧ s.endsOpen = false) (returned loc i) := by
  unfold returned
  split
  · exact .ok ⟨trivial, rfl⟩ h.tail
  · refine (expression_ensures h).bind fun value hvalue hr => ?_
    refine (close_ensures hvalue hr _ _).bind fun p hp hr => ?_
    exact .ok ⟨hp, rfl⟩ hr

theorem assignment_ensures {i : Input} (h : i.Written) :
    Ensures (fun s _ => s.Shaped ∧ s.endsOpen = false) (assignment i) := by
  refine (expectName_ensures h _).bind fun target htarget hr => ?_
  refine (close_ensures htarget hr _ _).bind fun mark hmark hr => ?_
  refine (expression_ensures hr).bind fun value hvalue hr => ?_
  refine (close_ensures hvalue hr _ _).bind fun p hp hr => ?_
  exact .ok ⟨⟨hmark, hp⟩, rfl⟩ hr

theorem elementTarget_shaped {e index : Expr} {after : Input} {target : String} (h : e.Shaped)
    (ht : elementTarget e after = .ok (target, index)) : IsName target ∧ index.Shaped := by
  unfold elementTarget at ht
  split at ht
  · rename_i tag array index'
    split at ht
    · rename_i hname
      cases ht
      have named : array.Named := (Expr.named_of_spellable (.index tag array index) h.spellable).1
      refine ⟨asName_named named hname, ?_⟩
      obtain ⟨v, derives, among⟩ := h.derives.index_derives (by rw [Expr.untagged])
      have tokens : index.tokens = v := by
        rw [← index.tokens_untagged, derives.tokens_eq]
      exact ⟨by rwa [tokens], fun t ht => h.spellable t (among t (tokens ▸ ht))⟩
    · cases ht
  · cases ht

theorem expressionStatement_ensures {i : Input} (h : i.Written) :
    Ensures (fun s _ => s.Shaped ∧ s.endsOpen = false) (expressionStatement i) := by
  refine (expression_ensures h).bind fun first hfirst hr => ?_
  split
  · rename_i e loc ts k hlt
    cases ht : elementTarget e ⟨⟨.mark .assign, loc⟩ :: ts, k⟩ with
    | error err => exact .error err
    | ok found =>
        obtain ⟨target, index⟩ := found
        obtain ⟨htarget, hindex⟩ := elementTarget_shaped hfirst ht
        have hrest : Input.Written ⟨ts, k⟩ := hr.tail
        refine (expression_ensures hrest).bind fun value hvalue hr => ?_
        refine (close_ensures hvalue hr _ _).bind fun p hp hr => ?_
        exact .ok ⟨⟨htarget, hindex, hp⟩, rfl⟩ hr
  · refine (close_ensures hfirst hr _ _).bind fun p hp hr => ?_
    exact .ok ⟨hp, rfl⟩ hr

theorem plainStatement_ensures {i : Input} (h : i.Written) :
    Ensures (fun s _ => s.Shaped ∧ s.endsOpen = false) (plainStatement i) := by
  unfold plainStatement
  split
  · exact assignment_ensures h
  · split
    · exact .error _
    · exact expressionStatement_ensures h

/-- The statement has its shape, and if it ends open, no `else` is left after it. -/
def Complete (s : Stmt) (rest : Input) : Prop :=
  s.Shaped ∧ (s.endsOpen = true → rest.token ≠ .keyword .kElse)

theorem complete_of_closed {s : Stmt} {rest : Input} (h : s.Shaped ∧ s.endsOpen = false) :
    Complete s rest :=
  ⟨h.1, fun isOpen => Bool.noConfusion (h.2.symm.trans isOpen)⟩

mutual

theorem statement_ensures (i : Input) (h : i.Written) {size : Nat} (hs : i.size = size) :
    Ensures Complete (statement i) := by
  rw [statement.eq_def]
  split
  · rename_i loc ts k
    refine (statements_ensures ⟨ts, k⟩ h.tail rfl).bind fun body hbody hr => ?_
    refine (close_ensures hbody hr _ _).bind fun p hp hr => ?_
    exact .ok (complete_of_closed ⟨hp, rfl⟩) hr
  · rename_i loc ts k
    have hrest : Input.Written ⟨ts, k⟩ := h.tail
    refine (condition_ensures hrest _ _).bind fun guard hguard hr => ?_
    have := guard.shorter
    refine (branches_ensures loc guard.value guard.rest hguard hr rfl).bind fun p hp hr => ?_
    exact .ok hp hr
  · rename_i loc ts k
    have hrest : Input.Written ⟨ts, k⟩ := h.tail
    refine (condition_ensures hrest _ _).bind fun guard hguard hr => ?_
    have := guard.shorter
    refine (statement_ensures guard.rest hr rfl).bind fun body hbody hr => ?_
    exact .ok ⟨⟨hguard, hbody.1⟩, hbody.2⟩ hr
  · rename_i loc ts k
    have hrest : Input.Written ⟨ts, k⟩ := h.tail
    refine (returned_ensures hrest loc).bind fun p hp hr => ?_
    exact .ok (complete_of_closed hp) hr
  · intro p hp
    obtain ⟨closed, rest⟩ := plainStatement_ensures h p hp
    exact ⟨complete_of_closed closed, rest⟩
termination_by 4 * size
decreasing_by all_goals (simp only [Input.size, List.length_cons] at *; omega)

theorem branches_ensures (loc : Location) (guard : Expr) (i : Input) (hguard : guard.Shaped)
    (h : i.Written) {size : Nat} (hs : i.size = size) :
    Ensures Complete (branches loc guard i) := by
  rw [branches]
  refine (statement_ensures i h hs).bind fun first hfirst hr => ?_
  split
  · rename_i thenBranch loc' ts k hlt
    have : Input.size ⟨ts, k⟩ + 1 < size := hs ▸ hlt
    have closed : thenBranch.endsOpen = false :=
      Bool.eq_false_iff.2 fun isOpen => hfirst.2 isOpen rfl
    refine (statement_ensures ⟨ts, k⟩ hr.tail rfl).bind fun second hsecond hr => ?_
    exact .ok ⟨⟨hguard, hfirst.1, closed, hsecond.1⟩, hsecond.2⟩ hr
  · rename_i noElse
    refine .ok ⟨⟨hguard, hfirst.1⟩, fun _ => ?_⟩ hr
    obtain ⟨value, ⟨ts, k⟩, hlt⟩ := first
    intro isElse
    cases ts with
    | nil => cases isElse
    | cons l ts =>
        obtain ⟨token, loc'⟩ := l
        obtain rfl : token = .keyword .kElse := isElse
        exact noElse _ _ _ _ _ rfl
termination_by 4 * size + 1
decreasing_by all_goals omega

theorem statements_ensures (i : Input) (h : i.Written) {size : Nat} (hs : i.size = size) :
    Ensures (fun ss _ => Stmt.ShapedAll ss) (statements i) := by
  rw [statements]
  split
  · exact .ok trivial h
  · exact .ok trivial h
  · refine (statement_ensures i h hs).bind fun first hfirst hr => ?_
    have : first.rest.size < size := hs ▸ first.shorter
    refine (statements_ensures first.rest hr rfl).bind fun more hmore hr => ?_
    exact .ok ⟨hfirst.1, hmore⟩ hr
termination_by 4 * size + 1
decreasing_by all_goals omega

end

mutual

theorem Stmt.named_of_shaped : ∀ s : Stmt, s.Shaped → s.Named
  | .block _ body, h => Stmt.namedAll_of_shaped body h
  | .ifThen _ condition thenBranch, h =>
      ⟨condition.named_of_spellable h.1.spellable, thenBranch.named_of_shaped h.2⟩
  | .ifElse _ condition thenBranch elseBranch, h =>
      ⟨condition.named_of_spellable h.1.spellable, thenBranch.named_of_shaped h.2.1,
        elseBranch.named_of_shaped h.2.2.2⟩
  | .while _ condition body, h =>
      ⟨condition.named_of_spellable h.1.spellable, body.named_of_shaped h.2⟩
  | .expr e, h => e.named_of_spellable (Expr.Shaped.spellable h)
  | .assign _ _ value, h => ⟨h.1, value.named_of_spellable h.2.spellable⟩
  | .assignElement _ _ index value, h =>
      ⟨h.1, index.named_of_spellable h.2.1.spellable, value.named_of_spellable h.2.2.spellable⟩
  | .return _ none, _ => trivial
  | .return _ (some value), h => value.named_of_spellable (Expr.Shaped.spellable h)

theorem Stmt.namedAll_of_shaped : ∀ ss : List Stmt, Stmt.ShapedAll ss → Stmt.NamedAll ss
  | [], _ => trivial
  | s :: ss, h => ⟨s.named_of_shaped h.1, Stmt.namedAll_of_shaped ss h.2⟩

end

/-! ## Declarations -/

/-- The token of a type gives it a name, and only one token gives the name `void`. -/
theorem named_of_typeName {t : Token} {name : String} {isArray : Bool} (written : t.Written)
    (h : typeName? t = some name) :
    (Ty.mk name isArray).Named ∧ ((Ty.mk name isArray).isVoid = true → t = .keyword .kVoid) := by
  unfold typeName? at h
  split at h
  · cases h
    exact ⟨.inl rfl, fun isVoid => by cases isVoid⟩
  · cases h
    exact ⟨.inr (.inl rfl), fun isVoid => by cases isVoid⟩
  · cases h
    exact ⟨.inr (.inr (.inl rfl)), fun _ => rfl⟩
  · cases h
    have isName : IsName name := written.resolve_left fun same => nomatch same
    refine ⟨.inr (.inr (.inr isName)), fun isVoid => ?_⟩
    obtain rfl : name = "void" := beq_iff_eq.1 isVoid
    exact absurd rfl (isName.free .kVoid)
  · cases h

theorem typeOf_ensures {i : Input} (h : i.Written) :
    Ensures (fun t _ => t.Named ∧ (t.isVoid = true → i.token = .keyword .kVoid)) (typeOf i) := by
  unfold typeOf
  split
  · rename_i t opening closing ts k
    obtain ⟨first, others⟩ := List.forall_mem_cons.1 h
    have rest : Input.Written ⟨ts, k⟩ :=
      (List.forall_mem_cons.1 (List.forall_mem_cons.1 others).2).2
    split
    · exact .ok (named_of_typeName first ‹_›) rest
    · exact .error _
  · rename_i t ts k _
    obtain ⟨first, others⟩ := List.forall_mem_cons.1 h
    split
    · exact .ok (named_of_typeName first ‹_›) others
    · exact .error _
  · exact .error _

theorem typed_ensures {i : Input} (h : i.Written) (rule : String) :
    Ensures (fun d _ => d.Named ∧ (d.type.isVoid = true → i.token = .keyword .kVoid))
      (typed i rule) := by
  refine (typeOf_ensures h).bind fun type htype hr => ?_
  refine (expectName_ensures hr _).bind fun name hname hr => ?_
  exact .ok ⟨⟨hname, htype.1⟩, htype.2⟩ hr

/-- What is declared has a name, and a type of values. -/
def IsVariable (d : Declaration) : Prop := d.Named ∧ d.type.isVoid = false

theorem variableDeclaration_ensures {i : Input} (h : i.Written)
    (plain : i.token ≠ .keyword .kVoid) :
    Ensures (fun d _ => IsVariable d) (variableDeclaration i) := by
  refine (typed_ensures h _).bind fun d hd hr => ?_
  have isVariable : IsVariable d.value :=
    ⟨hd.1, Bool.eq_false_iff.2 fun isVoid => plain (hd.2 isVoid)⟩
  exact close_ensures isVariable hr _ _

theorem not_void_of_startsDeclaration {i : Input} (h : startsDeclaration i.tokens = true) :
    i.token ≠ .keyword .kVoid := by
  obtain ⟨ts, k⟩ := i
  intro isVoid
  cases ts with
  | nil => cases isVoid
  | cons l ts =>
      obtain ⟨token, loc⟩ := l
      obtain rfl : token = .keyword .kVoid := isVoid
      cases h

def ItemsShaped (items : List Declaration × List Stmt) : Prop :=
  (∀ d ∈ items.1, IsVariable d) ∧ Stmt.ShapedAll items.2

theorem bodyItems_ensures (i : Input) (h : i.Written) {size : Nat} (hs : i.size = size) :
    Ensures (fun items _ => ItemsShaped items) (bodyItems i) := by
  rw [bodyItems]
  split
  · exact .ok ⟨fun _ hd => absurd hd List.not_mem_nil, trivial⟩ h
  · exact .ok ⟨fun _ hd => absurd hd List.not_mem_nil, trivial⟩ h
  · split
    · rename_i starts
      refine (variableDeclaration_ensures h (not_void_of_startsDeclaration starts)).bind
        fun d hd hr => ?_
      have : d.rest.size < size := hs ▸ d.shorter
      refine (bodyItems_ensures d.rest hr rfl).bind fun more hmore hr => ?_
      exact .ok ⟨List.forall_mem_cons.2 ⟨hd, hmore.1⟩, hmore.2⟩ hr
    · refine (statement_ensures i h rfl).bind fun s hstmt hr => ?_
      have : s.rest.size < size := hs ▸ s.shorter
      refine (bodyItems_ensures s.rest hr rfl).bind fun more hmore hr => ?_
      exact .ok ⟨hmore.1, hstmt.1, hmore.2⟩ hr
termination_by size
decreasing_by all_goals omega

theorem someParameters_ensures (i : Input) (h : i.Written) {size : Nat} (hs : i.size = size) :
    Ensures (fun ds _ => ∀ d ∈ ds, d.Named) (someParameters i) := by
  rw [someParameters]
  refine (typed_ensures h _).bind fun first hfirst hr => ?_
  split
  · rename_i d loc ts k hlt
    have : Input.size ⟨ts, k⟩ + 1 < size := hs ▸ hlt
    refine (someParameters_ensures ⟨ts, k⟩ hr.tail rfl).bind fun more hmore hr => ?_
    exact .ok (List.forall_mem_cons.2 ⟨hfirst.1, hmore⟩) hr
  · have only : ∀ d ∈ [first.value], Declaration.Named d := List.forall_mem_singleton.2 hfirst.1
    exact close_ensures (p := first.map ([·])) (P := (∀ d ∈ ·, Declaration.Named d)) only hr _ _
termination_by size
decreasing_by all_goals omega

theorem parameters_ensures {i : Input} (h : i.Written) :
    Ensures (fun ds _ => ∀ d ∈ ds, d.Named) (parameters i) := by
  unfold parameters
  split
  · exact .ok (fun _ hd => absurd hd List.not_mem_nil) h.tail
  · exact someParameters_ensures _ h rfl

theorem modifiers_subset (ts : List Lexeme) (m : Modifiers) : (modifiers ts m).2 ⊆ ts := by
  fun_induction modifiers ts m with
  | case1 loc ts m ih => exact List.subset_cons_of_subset _ ih
  | case2 loc ts m ih => exact List.subset_cons_of_subset _ ih
  | case3 loc ts m ih => exact List.subset_cons_of_subset _ ih
  | case4 => exact List.Subset.refl _

theorem skipModifiers_written {i : Input} (h : i.Written) : i.skipModifiers.Written := by
  intro l hl
  exact h l (modifiers_subset _ _ hl)

theorem isStatic_of_kind {m : Method} {isStatic : Bool}
    (h : m.kind = methodKind m.name isStatic m.returnType m.params) : m.isStatic = isStatic := by
  unfold methodKind at h
  unfold Method.isStatic
  split at h
  · rename_i isMain
    rw [h]
    exact isMain.2.1.symm
  · rw [h]

theorem method_ensures {i : Input} (h : i.Written) :
    Ensures (fun m _ => m.Shaped) (method i) := by
  refine (typeOf_ensures (skipModifiers_written h)).bind fun returnType htype hr => ?_
  refine (expectName_ensures hr _).bind fun word hword hr => ?_
  refine (close_ensures hword hr _ _).bind fun name hname hr => ?_
  refine (parameters_ensures hr).bind fun params hparams hr => ?_
  refine (expectMark_ensures hr _ _).bind fun opening _ hr => ?_
  refine (bodyItems_ensures _ hr rfl).bind fun items hitems hr => ?_
  refine (close_ensures hitems hr _ _).bind fun body hbody hr => ?_
  refine .ok ⟨⟨hname, htype.1, hparams, fun d hd => (hbody.1 d hd).1,
    Stmt.namedAll_of_shaped _ hbody.2⟩, ?_, fun d hd => (hbody.1 d hd).2, hbody.2⟩ hr
  rw [isStatic_of_kind rfl]

theorem not_void_of_field {i : Input} (h : isMethod i = .ok false) :
    i.skipModifiers.token ≠ .keyword .kVoid := by
  intro isVoid
  rw [isMethod, if_pos isVoid] at h
  cases h

theorem field_ensures {i : Input} (h : i.Written) (isField : isMethod i = .ok false) :
    Ensures (fun d _ => IsVariable d) (field i) := by
  refine (variableDeclaration_ensures (skipModifiers_written h) (not_void_of_field isField)).bind
    fun d hd hr => ?_
  exact .ok hd hr

theorem members_ensures (i : Input) (h : i.Written) {size : Nat} (hs : i.size = size) :
    Ensures (fun items _ => (∀ d ∈ items.1, IsVariable d) ∧ ∀ m ∈ items.2, m.Shaped)
      (members i) := by
  rw [members]
  split
  · exact .ok ⟨fun _ hd => absurd hd List.not_mem_nil, fun _ hm => absurd hm List.not_mem_nil⟩ h
  · exact .ok ⟨fun _ hd => absurd hd List.not_mem_nil, fun _ hm => absurd hm List.not_mem_nil⟩ h
  · cases kind : isMethod i with
    | error e => exact .error e
    | ok isMethod =>
        cases isMethod with
        | true =>
            refine (method_ensures h).bind fun m hm hr => ?_
            have : m.rest.size < size := hs ▸ m.shorter
            refine (members_ensures m.rest hr rfl).bind fun more hmore hr => ?_
            exact .ok ⟨hmore.1, List.forall_mem_cons.2 ⟨hm, hmore.2⟩⟩ hr
        | false =>
            refine (field_ensures h kind).bind fun d hd hr => ?_
            have : d.rest.size < size := hs ▸ d.shorter
            refine (members_ensures d.rest hr rfl).bind fun more hmore hr => ?_
            exact .ok ⟨List.forall_mem_cons.2 ⟨hd, hmore.1⟩, hmore.2⟩ hr
termination_by size
decreasing_by all_goals omega

/-! ## Programs -/

theorem importParts_ensures (i : Input) (h : i.Written) {size : Nat} (hs : i.size = size) :
    Ensures (fun parts _ => ∀ part ∈ parts, IsName part) (importParts i) := by
  rw [importParts.eq_def]
  split
  · rename_i loc ts k
    refine (expectName_ensures (i := ⟨ts, k⟩) h.tail _).bind fun part hpart hr => ?_
    have : part.rest.size < Input.size ⟨ts, k⟩ := part.shorter
    refine (importParts_ensures part.rest hr rfl).bind fun more hmore hr => ?_
    exact .ok (List.forall_mem_cons.2 ⟨hpart, hmore⟩) hr
  · refine (expectMark_ensures h _ _).bind fun mark _ hr => ?_
    exact .ok (fun _ hp => absurd hp List.not_mem_nil) hr
termination_by size
decreasing_by all_goals (simp only [Input.size, List.length_cons] at *; omega)

theorem importList_ensures (i : Input) (h : i.Written) {size : Nat} (hs : i.size = size) :
    Ensures (fun is _ => ∀ i ∈ is, i.path ≠ [] ∧ ∀ part ∈ i.path, IsName part)
      (importList i) := by
  rw [importList.eq_def]
  split
  · rename_i loc ts k
    refine (expectName_ensures (i := ⟨ts, k⟩) h.tail _).bind fun first hfirst hr => ?_
    refine (importParts_ensures first.rest hr rfl).bind fun parts hparts hr => ?_
    have : parts.rest.size < Input.size ⟨ts, k⟩ := Nat.lt_trans parts.shorter first.shorter
    refine (importList_ensures parts.rest hr rfl).bind fun more hmore hr => ?_
    refine .ok (List.forall_mem_cons.2 ⟨⟨List.cons_ne_nil _ _, ?_⟩, hmore⟩) hr
    exact List.forall_mem_cons.2 ⟨hfirst, hparts⟩
  · exact .ok (fun _ hi => absurd hi List.not_mem_nil) h
termination_by size
decreasing_by all_goals (simp only [Input.size, List.length_cons] at *; omega)

theorem skipPublic_written {i : Input} (h : i.Written) : i.skipPublic.Written := by
  unfold Input.skipPublic
  split
  · exact h.tail
  · exact h

theorem parentClass_ensures {i : Input} (h : i.Written) :
    Ensures (fun parent _ => ∀ name, parent = some name → IsName name) (parentClass i) := by
  unfold parentClass
  split
  · rename_i loc ts k
    refine (expectName_ensures (i := ⟨ts, k⟩) h.tail _).bind fun name hname hr => ?_
    refine .ok ?_ hr
    rintro other ⟨⟩
    exact hname
  · refine .ok ?_ h
    rintro other ⟨⟩

theorem classAfter_shaped {imports : List Import} {i : Input} {p : Program}
    (himports : ∀ i ∈ imports, i.path ≠ [] ∧ ∀ part ∈ i.path, IsName part) (h : i.Written)
    (hp : classAfter imports i = .ok p) : p.Shaped := by
  unfold classAfter at hp
  obtain ⟨word, hword, hp⟩ := exists_of_bind hp
  have hr := (expect_ensures (skipPublic_written h) _ _ word hword).2
  obtain ⟨name, hname, hp⟩ := exists_of_bind hp
  obtain ⟨isName, hr⟩ := expectName_ensures hr _ name hname
  obtain ⟨parent, hparent, hp⟩ := exists_of_bind hp
  obtain ⟨parentIsName, hr⟩ := parentClass_ensures hr parent hparent
  obtain ⟨opening, hopening, hp⟩ := exists_of_bind hp
  have hr := (expectMark_ensures hr _ _ opening hopening).2
  obtain ⟨items, hitems, hp⟩ := exists_of_bind hp
  obtain ⟨⟨fields, methods⟩, -⟩ := members_ensures _ hr rfl items hitems
  obtain ⟨body, -, hp⟩ := exists_of_bind hp
  split at hp
  · cases hp
  · cases hp
    exact ⟨⟨himports, isName, parentIsName, fun d hd => (fields d hd).1,
      fun m hm => (methods m hm).toNamed⟩, fun d hd => (fields d hd).2, methods⟩

theorem Program.shaped_of_ofText {source : String} {p : Program}
    (h : Program.ofText source = .ok p) : p.Shaped := by
  unfold Program.ofText at h
  obtain ⟨ls, hls, hp⟩ := exists_of_bind h
  unfold Program.ofLexemes at hp
  obtain ⟨head, hhead, hp⟩ := exists_of_bind hp
  obtain ⟨himports, hr⟩ := importList_ensures ⟨ls, 0⟩ (lex_written hls) rfl head hhead
  exact classAfter_shaped himports hr hp

/-- The names of a program that is read from a text are words, and no reserved ones. -/
theorem Program.named_of_ofText {source : String} {p : Program}
    (h : Program.ofText source = .ok p) : p.Named :=
  (Program.shaped_of_ofText h).toNamed

end JavaMinus.Source
