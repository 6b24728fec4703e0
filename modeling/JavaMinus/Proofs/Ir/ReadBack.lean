/-
# What is read back

The reader takes the tokens of a printable part for that part, but for the types: a class that has
the name of another type is read as that type, and one that is called `array` is not read at all.

`Reads` says what a reader answers.  It is stated with a condition, the one under which the reader
does not fail, so that one induction decides both what is read and whether anything is.
-/
import JavaMinus.Ir.Parser
import JavaMinus.Proofs.Ir.Tokens

namespace JavaMinus.Ir

/-! ## The parts as they are read -/

/-- Whether a type can be read: no class in it has the name of arrays. -/
def ElementType.readable : ElementType → Bool
  | .array element => element.readable
  | .object className => className != "array"
  | _ => true

def ElementType.readBack : ElementType → ElementType
  | .array element => .array element.readBack
  | .object className => .ofWord className
  | t => t

theorem ElementType.ofWord_other {word : String} (h : word ∉ ["i32", "bool", "V", "String"]) :
    ofWord word = .object word := by
  rw [ofWord.eq_5] <;>
  · rintro rfl
    exact h (by decide)

/-- Whether the types of an operand can be read. -/
def Element.readable : Element → Bool
  | .literal _ t | .var _ t => t.readable
  | .item _ index t => index.readable && t.readable

/-- The operand that the text of an operand stands for. -/
def Element.readBack : Element → Element
  | .literal value t => .literal value t.readBack
  | .var name t => .var name t.readBack
  | .item array index t => .item array index.readBack t.readBack

/-- Whether the types of a call can be read. -/
def Call.readable (c : Call) : Bool :=
  c.target.all Element.readable && (c.args.all Element.readable && c.returnType.readable)

def Call.readBack (c : Call) : Call :=
  { c with
    target := c.target.map Element.readBack
    args := c.args.map Element.readBack
    returnType := c.returnType.readBack }

def Instruction.readable : Instruction → Bool
  | .assign dest t rhs => dest.readable && (t.readable && rhs.readable)
  | .binary lhs o rhs => lhs.readable && (o.type.readable && rhs.readable)
  | .unary o operand => o.type.readable && operand.readable
  | .single operand => operand.readable
  | .call c => c.readable
  | .getField object field => object.readable && field.readable
  | .putField object field value => object.readable && (field.readable && value.readable)
  | .goto _ | .returnVoid => true
  | .branch condition _ => condition.readable
  | .return t value => t.readable && value.readable

def Instruction.readBack : Instruction → Instruction
  | .assign dest t rhs => .assign dest.readBack t.readBack rhs.readBack
  | .binary lhs o rhs => .binary lhs.readBack ⟨o.op, o.type.readBack⟩ rhs.readBack
  | .unary o operand => .unary ⟨o.op, o.type.readBack⟩ operand.readBack
  | .single operand => .single operand.readBack
  | .call c => .call c.readBack
  | .getField object field => .getField object.readBack field.readBack
  | .putField object field value => .putField object.readBack field.readBack value.readBack
  | .goto label => .goto label
  | .branch condition label => .branch condition.readBack label
  | .return t value => .return t.readBack value.readBack
  | .returnVoid => .returnVoid

/-! ## Answers of readers -/

variable {α β : Type} {m n : Nat} {holds holds' : Bool} {a : α} {b : β}
  {rest rest' : List Lexeme}

/-- The reader answers `a` and leaves `rest` if the condition holds, and else it fails. -/
def Reads (r : Reading α n) (holds : Bool) (a : α) (rest : List Lexeme) : Prop :=
  if holds then ∃ h, r = .ok ⟨a, rest, h⟩ else ∃ e, r = .error e

namespace Reads

theorem answer (h : rest.length < n) : Reads (.ok ⟨a, rest, h⟩ : Reading α n) true a rest :=
  ⟨h, rfl⟩

theorem answer_eq {a' : α} (h : rest.length < n) (ha : a' = a) :
    Reads (.ok ⟨a', rest, h⟩ : Reading α n) true a rest :=
  ha ▸ answer h

theorem failure (e : Error) : Reads (.error e : Reading α n) false a rest :=
  ⟨e, rfl⟩

theorem bind {r : Reading α m} {f : @Parsed (List Lexeme) List.length m α → Reading β n}
    (hr : Reads r holds a rest) (hf : ∀ h, Reads (f ⟨a, rest, h⟩) holds' b rest') :
    Reads (r >>= f) (holds && holds') b rest' := by
  cases holds with
  | false =>
      obtain ⟨e, rfl⟩ := hr
      exact failure e
  | true =>
      obtain ⟨h, rfl⟩ := hr
      exact hf h

/-- A last step that cannot fail. -/
theorem done {r : Reading α m} {f : @Parsed (List Lexeme) List.length m α → Reading β n}
    (hr : Reads r holds a rest) (hf : ∀ h, Reads (f ⟨a, rest, h⟩) true b rest') :
    Reads (r >>= f) holds b rest' := by
  have whole := hr.bind hf
  rwa [Bool.and_true] at whole

/-- A first step that cannot fail. -/
theorem first {r : Reading α m} {f : @Parsed (List Lexeme) List.length m α → Reading β n}
    (hr : Reads r true a rest) (hf : ∀ h, Reads (f ⟨a, rest, h⟩) holds b rest') :
    Reads (r >>= f) holds b rest' := by
  have whole := hr.bind hf
  rwa [Bool.true_and] at whole

end Reads

theorem andThen_reads {p : @Parsed (List Lexeme) List.length n α}
    {f : (ts : List Lexeme) → Reading β ts.length} (hf : Reads (f p.rest) holds b rest') :
    Reads (andThen p f) holds b rest' :=
  hf.done fun _ => .answer _

theorem expect_reads {mark : Mark} {rule : String} {line : Nat} :
    Reads (expect mark rule (⟨.mark mark, line⟩ :: rest)) true () rest := by
  rw [expect, if_pos rfl]
  exact .answer _

theorem close_reads {mark : Mark} {rule : String} {line : Nat}
    {h : (⟨.mark mark, line⟩ :: rest : List Lexeme).length < n} :
    Reads (close ⟨a, ⟨.mark mark, line⟩ :: rest, h⟩ mark rule) true a rest :=
  (andThen_reads expect_reads).done fun _ => .answer _

theorem expectName_reads {text rule : String} {line : Nat} :
    Reads (expectName rule (⟨.name text, line⟩ :: rest)) true text rest :=
  .answer _

/-! ## Lists of tokens -/

/-- The lexemes have these tokens, on whatever lines. -/
def Carries (ls : List Lexeme) (ts : List Token) : Prop := ls.map (·.token) = ts

theorem Carries.cons {ls : List Lexeme} {t : Token} {ts : List Token} (h : Carries ls (t :: ts)) :
    ∃ line ls', ls = ⟨t, line⟩ :: ls' ∧ Carries ls' ts := by
  obtain ⟨l, ls', rfl, rfl, hl⟩ := List.map_eq_cons_iff.1 h
  exact ⟨l.line, ls', rfl, hl⟩

theorem Carries.nil {ls : List Lexeme} (h : Carries ls []) : ls = [] :=
  List.map_eq_nil_iff.1 h

theorem Carries.append {ls : List Lexeme} {ts us : List Token} (h : Carries ls (ts ++ us)) :
    ∃ ls₁ ls₂, ls = ls₁ ++ ls₂ ∧ Carries ls₁ ts ∧ Carries ls₂ us :=
  List.map_eq_append_iff.1 h

theorem not_next {t : Token} (hr : next rest ≠ t) (line : Nat) (us : List Lexeme) :
    rest = ⟨t, line⟩ :: us → False := by
  rintro rfl
  exact hr rfl

/-! ## Types -/

theorem typeText_word {word : String} {line : Nat} (hr : next rest ≠ .mark .dot) :
    Reads (typeText (⟨.name word, line⟩ :: rest)) (word != "array") (.ofWord word) rest := by
  by_cases hw : word = "array"
  · subst hw
    rw [typeText.eq_2 _ _ (not_next hr)]
    exact .failure _
  · have named : (word != "array") = true := bne_iff_ne.2 hw
    rw [named, typeText.eq_3 _ _ _ (fun _ _ _ => hw) hw]
    exact .answer _

theorem typeText_reads {t : ElementType} (ht : t.Printable) (hr : next rest ≠ .mark .dot) :
    ∀ {ls : List Lexeme}, Carries ls t.tokens →
      Reads (typeText (ls ++ rest)) t.readable t.readBack rest := by
  induction t with
  | int32 | boolean | string | void | object className =>
      intro ls hl
      obtain ⟨line, us, rfl, hus⟩ := hl.cons
      rw [hus.nil]
      exact typeText_word hr
  | array element ih =>
      intro ls hl
      obtain ⟨line, us, rfl, hus⟩ := hl.cons
      obtain ⟨line', vs, rfl, hvs⟩ := hus.cons
      show Reads (typeText (⟨.name "array", line⟩ :: ⟨.mark .dot, line'⟩ :: (vs ++ rest))) _ _ _
      rw [typeText.eq_1]
      exact (ih ht hvs).done fun _ => .answer _
  | classRef className => exact ht.elim
  | this => exact ht.elim

theorem suffix_reads {t : ElementType} {ls : List Lexeme} (ht : t.Printable)
    (hr : next rest ≠ .mark .dot) (hl : Carries ls (.mark .dot :: t.tokens)) :
    Reads (suffix (ls ++ rest)) t.readable t.readBack rest := by
  obtain ⟨line, us, rfl, hus⟩ := hl.cons
  exact expect_reads.first fun _ => andThen_reads (typeText_reads ht hr hus)

theorem suffix_then {t : ElementType} {ls us : List Lexeme} {line : Nat} (ht : t.Printable)
    (hl : Carries ls t.tokens) (hr : next (us ++ rest) ≠ .mark .dot) :
    Reads (suffix (⟨.mark .dot, line⟩ :: (ls ++ us) ++ rest)) t.readable t.readBack
      (us ++ rest) := by
  rw [List.cons_append, List.append_assoc]
  exact expect_reads.first fun _ => andThen_reads (typeText_reads ht hr hl)

/-- What is read behind a field is dropped, whatever it is. -/
theorem droppedType_reads {t : ElementType} {ls : List Lexeme} (line : Nat)
    (ht : t.PrintableSuffix) (hr : next rest ≠ .mark .dot) (hl : Carries ls t.tokens) :
    ∃ t', Reads (suffix (⟨.mark .dot, line⟩ :: ls ++ rest)) t.readable t' rest := by
  have word : ∀ {word : String}, word ≠ "array" → Carries ls [.name word] →
      Reads (suffix (⟨.mark .dot, line⟩ :: ls ++ rest)) true (.ofWord word) rest := by
    intro word hw hl
    obtain ⟨line', us, rfl, hus⟩ := hl.cons
    rw [hus.nil]
    have read : Reads (typeText (⟨.name word, line'⟩ :: rest)) true _ rest :=
      bne_iff_ne.2 hw ▸ typeText_word hr
    exact expect_reads.first fun _ => andThen_reads read
  cases t with
  | this => exact ⟨_, word (by decide) hl⟩
  | classRef className => exact ⟨_, word ht.2 hl⟩
  | int32 | boolean | string | void | array | object =>
      exact ⟨_, expect_reads.first fun _ => andThen_reads (typeText_reads ht hr hl)⟩

/-! ## Operands -/

/-- Nothing that goes on an operand stands here. -/
def Complete (rest : List Lexeme) : Prop :=
  next rest ≠ .mark .dot ∧ next rest ≠ .mark .lbracket

theorem droppedSuffix_reads (hr : Complete rest) : Reads (droppedSuffix rest) true () rest := by
  rw [droppedSuffix.eq_2 _ (not_next hr.1)]
  exact .answer _

theorem nameOperand_this (hr : Complete rest) :
    Reads (nameOperand "this" rest) true (.var "this" .this) rest := by
  rw [nameOperand.eq_2 _ _ (not_next hr.1), if_pos rfl]
  exact (droppedSuffix_reads hr).done fun _ => .answer _

theorem nameOperand_class {name : String} (hn : name ≠ "this") (hr : Complete rest) :
    Reads (nameOperand name rest) true (.var name (.classRef name)) rest := by
  rw [nameOperand.eq_2 _ _ (not_next hr.1), if_neg hn]
  exact .answer _

theorem nameOperand_typed {name : String} {t : ElementType} {ls : List Lexeme}
    (hn : name ≠ "this") (ht : t.Printable) (hr : Complete rest)
    (hl : Carries ls (.mark .dot :: t.tokens)) :
    Reads (nameOperand name (ls ++ rest)) t.readable (.var name t.readBack) rest := by
  have suffix := suffix_reads ht hr.1 hl
  obtain ⟨line, us, rfl, -⟩ := hl.cons
  rw [List.cons_append, nameOperand.eq_1, if_neg hn]
  exact suffix.done fun _ => .answer _

theorem element_name {name : String} {line : Nat} {ts : List Lexeme}
    (h : next ts ≠ .mark .lbracket) :
    element (⟨.name name, line⟩ :: ts) = nameOperand name ts :=
  element.eq_4 _ _ _ (not_next h)

theorem var_reads {name : String} {t : ElementType} {ls : List Lexeme} (h : PrintableVar name t)
    (hr : Complete rest) (hl : Carries ls (Element.var name t).tokens) :
    Reads (element (ls ++ rest)) (Element.var name t).readable (Element.var name t).readBack
      rest := by
  cases t with
  | this =>
      obtain rfl : name = "this" := h
      obtain ⟨line, us, rfl, hus⟩ := hl.cons
      rw [hus.nil]
      show Reads (element (⟨.name "this", line⟩ :: rest)) _ _ _
      rw [element_name hr.2]
      exact nameOperand_this hr
  | classRef className =>
      obtain ⟨rfl, -, hn⟩ := h
      obtain ⟨line, us, rfl, hus⟩ := hl.cons
      rw [hus.nil]
      show Reads (element (⟨.name className, line⟩ :: rest)) _ _ _
      rw [element_name hr.2]
      exact nameOperand_class hn hr
  | int32 | boolean | string | void | array | object =>
      obtain ⟨-, hn, ht⟩ := h
      obtain ⟨line, us, rfl, hus⟩ := hl.cons
      have typed := nameOperand_typed hn ht hr hus
      obtain ⟨line', vs, rfl, -⟩ := hus.cons
      rw [List.cons_append, element_name (by simp [next])]
      exact typed

theorem literal_reads {value : String} {t : ElementType} {ls : List Lexeme}
    (h : PrintableLiteral value t) (hr : Complete rest)
    (hl : Carries ls (Element.literal value t).tokens) :
    Reads (element (ls ++ rest)) (Element.literal value t).readable
      (Element.literal value t).readBack rest := by
  rw [Element.tokens] at hl
  obtain ⟨line, us, rfl, hus⟩ := hl.cons
  rcases h with ⟨integer, ht⟩ | ⟨rfl, text, rfl, -⟩
  · rw [literalToken_integer integer, List.cons_append, element.eq_1]
    exact (suffix_reads ht hr.1 hus).done fun _ => .answer _
  · have suffix := suffix_reads (t := .string) trivial hr.1 hus
    obtain ⟨line', vs, rfl, -⟩ := hus.cons
    rw [literalToken_quote, List.cons_append, element.eq_2]
    refine Reads.done (a := ()) ?_ fun _ => .answer _
    rw [List.cons_append, droppedSuffix.eq_1]
    exact suffix.done fun _ => .answer _

theorem element_reads {e : Element} (h : e.Printable) :
    ∀ {ls rest : List Lexeme}, Complete rest → Carries ls e.tokens →
      Reads (element (ls ++ rest)) e.readable e.readBack rest := by
  induction e with
  | literal value t =>
      intro ls rest hr hl
      exact literal_reads h hr hl
  | var name t =>
      intro ls rest hr hl
      exact var_reads h hr hl
  | item array index t ih =>
      intro ls rest hr hl
      obtain ⟨-, hn, hindex, ht⟩ := h
      obtain ⟨line, us, rfl, hus⟩ := hl.cons
      obtain ⟨line', vs, rfl, hvs⟩ := hus.cons
      obtain ⟨inner, after, rfl, hinner, hafter⟩ := hvs.append
      obtain ⟨line'', type, rfl, htype⟩ := hafter.cons
      show Reads (element (⟨.name array, line⟩ :: ⟨.mark .lbracket, line'⟩ ::
        ((inner ++ ⟨.mark .rbracket, line''⟩ :: type) ++ rest))) _ _ _
      rw [element.eq_3, if_neg hn, List.append_assoc]
      refine (ih hindex (by simp [Complete, next]) hinner).bind fun _ => ?_
      refine close_reads.first fun _ => ?_
      exact (andThen_reads (suffix_reads ht hr.1 htype)).done fun _ => .answer _

def beginsOperand : Token → Bool
  | .name _ | .integer _ | .quoted _ => true
  | _ => false

theorem element_begins {e : Element} {ls : List Lexeme} (hl : Carries ls e.tokens) :
    beginsOperand (next (ls ++ rest)) = true := by
  cases e with
  | literal value t =>
      obtain ⟨line, us, rfl, -⟩ := hl.cons
      show beginsOperand (literalToken value) = true
      rcases literalToken_cases value with h | ⟨text, h⟩ <;> rw [h] <;> rfl
  | item array index t =>
      obtain ⟨line, us, rfl, -⟩ := hl.cons
      rfl
  | var name t =>
      cases t <;>
      · obtain ⟨line, us, rfl, -⟩ := hl.cons
        rfl

theorem element_next {e : Element} {ls : List Lexeme} (hl : Carries ls e.tokens) (m : Mark) :
    next (ls ++ rest) ≠ .mark m := by
  intro h
  have begins : beginsOperand (next (ls ++ rest)) = true := element_begins hl
  rw [h] at begins
  cases begins

/-- After a name that begins an operand comes what belongs to the operand, or what follows it. -/
theorem element_second {e : Element} {ls us : List Lexeme} {name : String} {line : Nat}
    (hl : Carries ls e.tokens) (h : ls ++ rest = ⟨.name name, line⟩ :: us) :
    next us = .mark .dot ∨ next us = .mark .lbracket ∨ ls = [⟨.name name, line⟩] ∧ us = rest := by
  cases e with
  | literal value t =>
      obtain ⟨line', vs, rfl, -⟩ := hl.cons
      rcases literalToken_cases value with ht | ⟨text, ht⟩ <;>
      · rw [ht] at h
        cases h
  | item array index t =>
      obtain ⟨line', vs, rfl, hvs⟩ := hl.cons
      obtain ⟨line'', ws, rfl, -⟩ := hvs.cons
      cases h
      exact .inr (.inl rfl)
  | var name t =>
      cases t with
      | this | classRef className =>
          obtain ⟨line', vs, rfl, hvs⟩ := hl.cons
          obtain rfl := hvs.nil
          cases h
          exact .inr (.inr ⟨rfl, rfl⟩)
      | int32 | boolean | string | void | array | object =>
          obtain ⟨line', vs, rfl, hvs⟩ := hl.cons
          obtain ⟨line'', ws, rfl, -⟩ := hvs.cons
          cases h
          exact .inl rfl

/-! ## Arguments -/

theorem following_complete {es : List Element} {ls : List Lexeme} (hr : Complete rest)
    (hl : Carries ls (followingTokens es)) : Complete (ls ++ rest) := by
  cases es with
  | nil =>
      rw [hl.nil]
      exact hr
  | cons e es =>
      obtain ⟨line, us, rfl, -⟩ := hl.cons
      constructor <;> simp [next]

theorem moreElements_reads {es : List Element} (hr : Complete rest)
    (hc : next rest ≠ .mark .comma) :
    ∀ {ls : List Lexeme}, (∀ e ∈ es, e.Printable) → Carries ls (followingTokens es) →
      Reads (moreElements (ls ++ rest)) (es.all Element.readable) (es.map Element.readBack)
        rest := by
  induction es with
  | nil =>
      intro ls _ hl
      rw [hl.nil, List.nil_append, moreElements.eq_2 _ (not_next hc)]
      exact .answer _
  | cons e es ih =>
      intro ls hes hl
      obtain ⟨line, us, rfl, hus⟩ := hl.cons
      obtain ⟨first, more, rfl, hfirst, hmore⟩ := hus.append
      rw [List.cons_append, moreElements.eq_1, List.append_assoc]
      refine (element_reads (hes e List.mem_cons_self) (following_complete hr hmore) hfirst).bind
        fun _ => ?_
      exact (ih (fun e' he => hes e' (List.mem_cons_of_mem e he)) hmore).done fun _ => .answer _

/-! ## Calls and fields -/

theorem callTarget_array {line : Nat} (hc : next rest = .mark .comma) :
    Reads (callTarget .new (⟨.name "array", line⟩ :: rest)) true none rest := by
  obtain ⟨line', us, rfl⟩ : ∃ line us, rest = ⟨.mark .comma, line⟩ :: us := by
    cases rest with
    | nil => cases hc
    | cons l us => exact ⟨l.line, us, by rw [← show l.token = .mark .comma from hc]⟩
  exact .answer _

/-- Only the class `array` can be mistaken for the word of a new array. -/
theorem callTarget_element {kind : CallKind} {e : Element} {ls : List Lexeme} (he : e.Printable)
    (hr : Complete rest) (hl : Carries ls e.tokens)
    (hn : kind = .new → e = .var "array" (.classRef "array") → next rest ≠ .mark .comma) :
    Reads (callTarget kind (ls ++ rest)) e.readable (some e.readBack) rest := by
  rw [callTarget.eq_2]
  · exact (element_reads he hr hl).done fun _ => .answer _
  · intro line line' us hk heq
    have second := element_second hl heq
    rcases second with h | h | ⟨rfl, rfl⟩
    · cases h
    · cases h
    · refine hn hk ?_ rfl
      cases e with
      | literal value t => simp [Carries, Element.tokens] at hl
      | item array index t => cases hl
      | var name t =>
          cases t with
          | classRef className =>
              obtain ⟨rfl, -⟩ := he
              cases hl
              rfl
          | this =>
              obtain rfl : name = "this" := he
              simp [Carries, Element.tokens] at hl
          | int32 | boolean | string | void | array | object => cases hl

theorem callMethod_reads {c : Call} {ls : List Lexeme}
    (hm : c.method.isSome = c.kind.isInvocation) (hl : Carries ls c.methodTokens) :
    Reads (callMethod c.kind (ls ++ rest)) true c.method rest := by
  unfold Call.methodTokens at hl
  cases hc : c.method with
  | none =>
      rw [hc] at hm hl
      rw [hl.nil, callMethod, if_neg (by simp [← hm])]
      exact .answer _
  | some m =>
      rw [hc] at hm hl
      obtain ⟨line, us, rfl, hus⟩ := hl.cons
      obtain ⟨line', vs, rfl, hvs⟩ := hus.cons
      rw [hvs.nil, callMethod, if_pos (by simp [← hm])]
      exact expect_reads.first fun _ => .answer _

/-- What stands between the target and the closing parenthesis of a call. -/
theorem callMiddle_complete {c : Call} {method args : List Lexeme} (hr : Complete rest)
    (hmethod : Carries method c.methodTokens) (hargs : Carries args (followingTokens c.args)) :
    Complete (method ++ (args ++ rest)) := by
  unfold Call.methodTokens at hmethod
  cases hm : c.method with
  | none =>
      rw [hm] at hmethod
      rw [hmethod.nil, List.nil_append]
      exact following_complete hr hargs
  | some m =>
      rw [hm] at hmethod
      obtain ⟨line, us, rfl, -⟩ := hmethod.cons
      constructor <;> simp [next]

theorem methodTokens_new {c : Call} (hc : c.Printable) (hk : c.kind = .new) :
    c.methodTokens = [] := by
  have hm : c.method.isSome = false := by
    rw [hc.method, hk]
    rfl
  rw [Call.methodTokens, Option.not_isSome_iff_eq_none.1 (Bool.eq_false_iff.1 hm), Option.elim]

theorem callTarget_reads {c : Call} {target method args : List Lexeme} (hc : c.Printable)
    (hr : Complete rest) (hnext : next rest ≠ .mark .comma) (htarget : Carries target c.targetTokens)
    (hmethod : Carries method c.methodTokens) (hargs : Carries args (followingTokens c.args)) :
    Reads (callTarget c.kind (target ++ (method ++ (args ++ rest))))
      (c.target.all Element.readable) (c.target.map Element.readBack)
      (method ++ (args ++ rest)) := by
  unfold Call.targetTokens at htarget
  cases ht : c.target with
  | none =>
      obtain ⟨hk, hne⟩ := hc.array ht
      rw [ht] at htarget
      obtain ⟨line, us, rfl, hus⟩ := htarget.cons
      rw [methodTokens_new hc hk] at hmethod
      rw [hus.nil, hk, hmethod.nil]
      refine callTarget_array ?_
      cases ha : c.args with
      | nil => exact absurd ha hne
      | cons e es =>
          rw [ha] at hargs
          obtain ⟨line', us', rfl, -⟩ := hargs.cons
          rfl
  | some e =>
      rw [ht] at htarget
      refine callTarget_element (hc.target e ht) (callMiddle_complete hr hmethod hargs) htarget ?_
      intro hk he
      rw [methodTokens_new hc hk] at hmethod
      rw [hc.notArray hk (by rw [ht, he])] at hargs
      rw [hmethod.nil, hargs.nil]
      exact hnext

theorem callAfter_reads {c : Call} {ls : List Lexeme} (hc : c.Printable)
    (hr : next rest ≠ .mark .dot)
    (hl : Carries ls (c.targetTokens ++ (c.methodTokens ++ (followingTokens c.args ++
      .mark .rparen :: .mark .dot :: c.returnType.tokens)))) :
    Reads (callAfter c.kind (ls ++ rest)) c.readable (.call c.readBack) rest := by
  obtain ⟨target, after, rfl, htarget, hafter⟩ := hl.append
  obtain ⟨method, after, rfl, hmethod, hafter⟩ := hafter.append
  obtain ⟨args, after, rfl, hargs, hafter⟩ := hafter.append
  obtain ⟨line, type, rfl, htype⟩ := hafter.cons
  rw [List.append_assoc, List.append_assoc, List.append_assoc, List.cons_append]
  have closed : Complete (⟨.mark .rparen, line⟩ :: (type ++ rest)) := by
    constructor <;> simp [next]
  have parenthesis : next (⟨.mark .rparen, line⟩ :: (type ++ rest)) ≠ .mark .comma := by
    simp [next]
  refine (callTarget_reads hc closed parenthesis htarget hmethod hargs).bind fun _ => ?_
  refine (callMethod_reads hc.method hmethod).first fun _ => ?_
  refine (moreElements_reads closed parenthesis hc.args hargs).bind fun _ => ?_
  refine expect_reads.first fun _ => ?_
  exact (suffix_reads hc.returnType hr htype).done fun _ => .answer _

theorem Element.readable_type (e : Element) : (e.readable && e.type.readable) = e.readable := by
  cases e with
  | literal value t => exact Bool.and_self _
  | var name t => exact Bool.and_self _
  | item array index t =>
      show (index.readable && t.readable && t.readable) = _
      rw [Bool.and_assoc, Bool.and_self]
      rfl

theorem comma_complete {line : Nat} : Complete (⟨.mark .comma, line⟩ :: rest) := by
  constructor <;> simp [next]

theorem rparen_complete {line : Nat} : Complete (⟨.mark .rparen, line⟩ :: rest) := by
  constructor <;> simp [next]

theorem getFieldAfter_reads {object field : Element} {ls : List Lexeme} (ho : object.Printable)
    (hf : field.Printable) (ht : field.type.PrintableSuffix) (hr : next rest ≠ .mark .dot)
    (hl : Carries ls (object.tokens ++ .mark .comma :: (field.tokens ++
      .mark .rparen :: .mark .dot :: field.type.tokens))) :
    Reads (getFieldAfter (ls ++ rest)) (Instruction.getField object field).readable
      (Instruction.getField object field).readBack rest := by
  obtain ⟨first, us, rfl, hfirst, hus⟩ := hl.append
  obtain ⟨line, vs, rfl, hvs⟩ := hus.cons
  obtain ⟨second, ws, rfl, hsecond, hws⟩ := hvs.append
  obtain ⟨line', type, rfl, htype⟩ := hws.cons
  obtain ⟨line'', word, rfl, hword⟩ := htype.cons
  rw [List.append_assoc, List.cons_append, List.append_assoc, List.cons_append]
  have same : (Instruction.getField object field).readable =
      (object.readable && (field.readable && field.type.readable)) := by
    rw [Element.readable_type]
    rfl
  rw [same]
  refine (element_reads ho comma_complete hfirst).bind fun _ => ?_
  refine close_reads.first fun _ => ?_
  refine (andThen_reads (element_reads hf rparen_complete hsecond)).bind fun _ => ?_
  refine close_reads.first fun _ => ?_
  obtain ⟨t', dropped⟩ := droppedType_reads line'' ht hr hword
  exact (andThen_reads dropped).done fun _ => .answer _

theorem putFieldAfter_reads {object field value : Element} {ls : List Lexeme}
    (ho : object.Printable) (hf : field.Printable) (hv : value.Printable)
    (hr : next rest ≠ .mark .dot)
    (hl : Carries ls (object.tokens ++ .mark .comma :: (field.tokens ++
      .mark .comma :: (value.tokens ++ [.mark .rparen, .mark .dot, .name "V"])))) :
    Reads (putFieldAfter (ls ++ rest)) (Instruction.putField object field value).readable
      (Instruction.putField object field value).readBack rest := by
  obtain ⟨first, us, rfl, hfirst, hus⟩ := hl.append
  obtain ⟨line, vs, rfl, hvs⟩ := hus.cons
  obtain ⟨second, ws, rfl, hsecond, hws⟩ := hvs.append
  obtain ⟨line', xs, rfl, hxs⟩ := hws.cons
  obtain ⟨third, ys, rfl, hthird, hys⟩ := hxs.append
  obtain ⟨line'', type, rfl, htype⟩ := hys.cons
  rw [List.append_assoc, List.cons_append, List.append_assoc, List.cons_append, List.append_assoc,
    List.cons_append]
  refine (element_reads ho comma_complete hfirst).bind fun _ => ?_
  refine close_reads.first fun _ => ?_
  refine (andThen_reads (element_reads hf comma_complete hsecond)).bind fun _ => ?_
  refine close_reads.first fun _ => ?_
  refine (andThen_reads (element_reads hv rparen_complete hthird)).done fun _ => ?_
  refine close_reads.first fun _ => ?_
  exact (andThen_reads (suffix_reads (t := .void) trivial hr htype)).first fun _ => .answer _

/-! ## Operations and right sides -/

theorem operation_operand {e : Element} {ls : List Lexeme} (hl : Carries ls e.tokens)
    (op : Operator) (line : Nat) (us : List Lexeme) :
    ls ++ rest = ⟨.operator op, line⟩ :: us → False := by
  intro h
  have begins : beginsOperand (next (ls ++ rest)) = true := element_begins hl
  rw [h] at begins
  cases begins

theorem operation_single {e : Element} {ls : List Lexeme} (he : e.Printable) (hr : Complete rest)
    (hop : ∀ op, next rest ≠ .operator op) (hl : Carries ls e.tokens) :
    Reads (operation (ls ++ rest)) e.readable (.single e.readBack) rest := by
  rw [operation.eq_2 _ (operation_operand hl)]
  refine (element_reads he hr hl).done fun h => ?_
  split
  · rename_i heq
    cases heq
    exact absurd rfl (hop _)
  · exact .answer _

theorem operation_binary {lhs rhs : Element} {o : Operation} {ls : List Lexeme}
    (hlhs : lhs.Printable) (ho : o.type.Printable) (hrhs : rhs.Printable) (hr : Complete rest)
    (hl : Carries ls (Instruction.binary lhs o rhs).tokens) :
    Reads (operation (ls ++ rest)) (Instruction.binary lhs o rhs).readable
      (Instruction.binary lhs o rhs).readBack rest := by
  obtain ⟨left, us, rfl, hleft, hus⟩ := hl.append
  obtain ⟨line, vs, rfl, hvs⟩ := hus.cons
  obtain ⟨line', ws, rfl, hws⟩ := hvs.cons
  obtain ⟨type, right, rfl, htype, hright⟩ := hws.append
  have operator : ∀ us, Complete (⟨.operator o.op, line⟩ :: us) := by
    intro us
    constructor <;> simp [next]
  rw [List.append_assoc, operation.eq_2 _ (operation_operand hleft)]
  refine (element_reads hlhs (operator _) hleft).bind fun _ => ?_
  refine (suffix_then ho htype (element_next hright _)).bind fun _ => ?_
  exact (andThen_reads (element_reads hrhs hr hright)).done fun _ => .answer _

theorem operation_unary {operand : Element} {o : Operation} {ls : List Lexeme} (hop : o.op = .not)
    (ho : o.type.Printable) (he : operand.Printable) (hr : Complete rest)
    (hl : Carries ls (Instruction.unary o operand).tokens) :
    Reads (operation (ls ++ rest)) (Instruction.unary o operand).readable
      (Instruction.unary o operand).readBack rest := by
  obtain ⟨line, us, rfl, hus⟩ := hl.cons
  obtain ⟨line', vs, rfl, hvs⟩ := hus.cons
  obtain ⟨type, inner, rfl, htype, hinner⟩ := hvs.append
  rw [List.cons_append, operation.eq_1, if_pos hop]
  refine (suffix_then ho htype (element_next hinner _)).bind fun _ => ?_
  exact (andThen_reads (element_reads he hr hinner)).done fun _ => .answer _

theorem operation_reads {i : Instruction} {ls : List Lexeme} (hi : i.PrintableCondition)
    (hr : Complete rest) (hop : ∀ op, next rest ≠ .operator op) (hl : Carries ls i.tokens) :
    Reads (operation (ls ++ rest)) i.readable i.readBack rest := by
  cases i with
  | binary lhs o rhs => exact operation_binary hi.1 hi.2.1 hi.2.2 hr hl
  | unary o operand => exact operation_unary hi.1 hi.2.1 hi.2.2 hr hl
  | single operand => exact operation_single hi hr hop hl
  | assign | call | getField | putField | goto | branch | «return» | returnVoid => exact hi.elim

/-- An operation or an operand is not taken for a call. -/
theorem rightSide_operation {i : Instruction} {ls : List Lexeme} (hi : i.PrintableCondition)
    (hr : next rest ≠ .mark .lparen) (hl : Carries ls i.tokens) :
    rightSide (ls ++ rest) = operation (ls ++ rest) := by
  refine rightSide.eq_2 _ ?_
  intro word line line' us h
  cases i with
  | binary lhs o rhs =>
      obtain ⟨left, vs, rfl, hleft, hvs⟩ := hl.append
      obtain ⟨line'', ws, rfl, -⟩ := hvs.cons
      rw [List.append_assoc] at h
      rcases element_second hleft h with h' | h' | ⟨-, h'⟩ <;> cases h'
  | unary o operand =>
      obtain ⟨line'', vs, rfl, -⟩ := hl.cons
      cases h
  | single operand =>
      rcases element_second hl h with h' | h' | ⟨-, rfl⟩
      · cases h'
      · cases h'
      · exact hr rfl
  | assign | call | getField | putField | goto | branch | «return» | returnVoid => exact hi.elim

theorem ofWord_word (kind : CallKind) : CallKind.ofWord? kind.word = some kind := by
  cases kind <;> rfl

theorem rightSide_call {c : Call} {ls : List Lexeme} (hc : c.Printable)
    (hr : next rest ≠ .mark .dot) (hl : Carries ls c.tokens) :
    Reads (rightSide (ls ++ rest)) c.readable (.call c.readBack) rest := by
  obtain ⟨line, us, rfl, hus⟩ := hl.cons
  obtain ⟨line', vs, rfl, hvs⟩ := hus.cons
  rw [List.cons_append, List.cons_append, rightSide.eq_1, ofWord_word]
  exact (callAfter_reads hc hr hvs).done fun _ => .answer _

theorem rightSide_getField {object field : Element} {ls : List Lexeme} (ho : object.Printable)
    (hf : field.Printable) (ht : field.type.PrintableSuffix) (hr : next rest ≠ .mark .dot)
    (hl : Carries ls (Instruction.getField object field).tokens) :
    Reads (rightSide (ls ++ rest)) (Instruction.getField object field).readable
      (Instruction.getField object field).readBack rest := by
  obtain ⟨line, us, rfl, hus⟩ := hl.cons
  obtain ⟨line', vs, rfl, hvs⟩ := hus.cons
  rw [List.cons_append, List.cons_append, rightSide.eq_1]
  exact (getFieldAfter_reads ho hf ht hr hvs).done fun _ => .answer _

theorem rightSide_putField {object field value : Element} {ls : List Lexeme}
    (ho : object.Printable) (hf : field.Printable) (hv : value.Printable)
    (hr : next rest ≠ .mark .dot)
    (hl : Carries ls (Instruction.putField object field value).tokens) :
    Reads (rightSide (ls ++ rest)) (Instruction.putField object field value).readable
      (Instruction.putField object field value).readBack rest := by
  obtain ⟨line, us, rfl, hus⟩ := hl.cons
  obtain ⟨line', vs, rfl, hvs⟩ := hus.cons
  rw [List.cons_append, List.cons_append, rightSide.eq_1]
  exact (putFieldAfter_reads ho hf hv hr hvs).done fun _ => .answer _

theorem semicolon_complete (hr : next rest = .mark .semicolon) : Complete rest := by
  constructor <;> simp [hr]

theorem rightSide_reads {i : Instruction} {ls : List Lexeme} (hi : i.PrintableRight)
    (hr : next rest = .mark .semicolon) (hl : Carries ls i.tokens) :
    Reads (rightSide (ls ++ rest)) i.readable i.readBack rest := by
  have complete := semicolon_complete hr
  have plain : ∀ {j : Instruction}, j.PrintableCondition → Carries ls j.tokens →
      Reads (rightSide (ls ++ rest)) j.readable j.readBack rest := by
    intro j hj hls
    rw [rightSide_operation hj (by simp [hr]) hls]
    exact operation_reads hj complete (by simp [hr]) hls
  cases i with
  | binary lhs o rhs => exact plain (j := .binary lhs o rhs) hi hl
  | unary o operand => exact plain (j := .unary o operand) hi hl
  | single operand => exact plain (j := .single operand) hi hl
  | call c => exact rightSide_call hi complete.1 hl
  | getField object field => exact rightSide_getField hi.1 hi.2.1 hi.2.2 complete.1 hl
  | putField object field value => exact rightSide_putField hi.1 hi.2.1 hi.2.2 complete.1 hl
  | assign | goto | branch | «return» | returnVoid => exact hi.elim

/-! ## Assignments -/

/-- The token neither makes an assignment of an instruction nor ends it, nor marks a label. -/
def passes : Token → Bool
  | .mark .colonEq | .mark .colon | .mark .semicolon | .mark .rbrace | .endOfText => false
  | _ => true

theorem ElementType.tokens_pass (t : ElementType) : t.tokens.all passes = true := by
  induction t with
  | array element ih => exact ih
  | int32 | boolean | string | object | classRef | this | void => rfl

theorem Element.tokens_pass (e : Element) : e.tokens.all passes = true := by
  induction e with
  | literal value t =>
      rw [Element.tokens, List.all_cons]
      rcases literalToken_cases value with h | ⟨text, h⟩ <;> rw [h] <;> exact t.tokens_pass
  | var name t =>
      cases t with
      | this | classRef => rfl
      | int32 | boolean | string | void | array | object => exact ElementType.tokens_pass _
  | item array index t ih =>
      show (index.tokens ++ .mark .rbracket :: .mark .dot :: t.tokens).all passes = true
      rw [List.all_append, ih]
      exact t.tokens_pass

theorem following_pass (es : List Element) : (followingTokens es).all passes = true := by
  rw [followingTokens, List.all_flatMap, List.all_eq_true]
  intro e _
  exact e.tokens_pass

theorem Call.tokens_pass (c : Call) : c.tokens.all passes = true := by
  have target : c.targetTokens.all passes = true := by
    rw [Call.targetTokens]
    cases c.target with
    | none => rfl
    | some e => exact e.tokens_pass
  have method : c.methodTokens.all passes = true := by
    rw [Call.methodTokens]
    cases c.method <;> rfl
  show (c.targetTokens ++ _).all passes = true
  rw [List.all_append, List.all_append, List.all_append, target, method, following_pass]
  exact c.returnType.tokens_pass

theorem isAssignment_append {ls : List Lexeme} {ts : List Token} (hl : Carries ls ts)
    (h : ts.all passes = true) : isAssignment (ls ++ rest) = isAssignment rest := by
  induction ls generalizing ts with
  | nil => rfl
  | cons l ls ih =>
      obtain rfl : ts = l.token :: ls.map (·.token) := hl.symm
      rw [List.all_cons, Bool.and_eq_true] at h
      rw [List.cons_append, isAssignment.eq_5]
      · exact ih rfl h.2
      all_goals
        rintro line rfl
        cases h.1

theorem isAssignment_semicolon (hr : next rest = .mark .semicolon) :
    isAssignment rest = false := by
  cases rest with
  | nil => rfl
  | cons l ls =>
      obtain ⟨token, line⟩ := l
      obtain rfl : token = .mark .semicolon := hr
      rfl

theorem instruction_plain {ls : List Lexeme} {ts : List Token} (hl : Carries ls ts)
    (h : ts.all passes = true) (hr : next rest = .mark .semicolon) :
    instruction (ls ++ rest) = plainInstruction (ls ++ rest) := by
  rw [instruction, if_neg]
  rw [isAssignment_append hl h, isAssignment_semicolon hr]
  exact Bool.false_ne_true

theorem right_next {i : Instruction} {ls : List Lexeme} (hi : i.PrintableRight)
    (hl : Carries ls i.tokens) (m : Mark) : next (ls ++ rest) ≠ .mark m := by
  cases i with
  | binary lhs o rhs =>
      obtain ⟨left, us, rfl, hleft, -⟩ := hl.append
      rw [List.append_assoc]
      exact element_next hleft m
  | unary o operand =>
      obtain ⟨line, us, rfl, -⟩ := hl.cons
      exact Token.noConfusion
  | single operand => exact element_next hl m
  | call c =>
      obtain ⟨line, us, rfl, -⟩ := hl.cons
      exact Token.noConfusion
  | getField object field =>
      obtain ⟨line, us, rfl, -⟩ := hl.cons
      exact Token.noConfusion
  | putField object field value =>
      obtain ⟨line, us, rfl, -⟩ := hl.cons
      exact Token.noConfusion
  | assign | goto | branch | «return» | returnVoid => exact hi.elim

theorem assign_reads {dest : Element} {t : ElementType} {rhs : Instruction} {ls : List Lexeme}
    (hd : dest.Printable) (ht : t.Printable) (hrhs : rhs.PrintableRight)
    (hr : next rest = .mark .semicolon) (hl : Carries ls (Instruction.assign dest t rhs).tokens) :
    Reads (instruction (ls ++ rest)) (Instruction.assign dest t rhs).readable
      (Instruction.assign dest t rhs).readBack rest := by
  obtain ⟨target, us, rfl, htarget, hus⟩ := hl.append
  obtain ⟨line, vs, rfl, hvs⟩ := hus.cons
  obtain ⟨line', ws, rfl, hws⟩ := hvs.cons
  obtain ⟨type, right, rfl, htype, hright⟩ := hws.append
  rw [List.append_assoc, instruction, if_pos]
  · refine (element_reads hd (by constructor <;> simp [next]) htarget).bind fun _ => ?_
    refine close_reads.first fun _ => ?_
    refine (andThen_reads (suffix_then ht htype (right_next hrhs hright _))).bind fun _ => ?_
    exact (andThen_reads (rightSide_reads hrhs hr hright)).done fun _ => .answer _
  · rw [isAssignment_append htarget dest.tokens_pass]
    rfl

/-! ## Instructions -/

theorem condition_pass {i : Instruction} (hi : i.PrintableCondition) :
    i.tokens.all passes = true := by
  cases i with
  | binary lhs o rhs =>
      show (lhs.tokens ++ (.operator o.op :: .mark .dot :: (o.type.tokens ++ rhs.tokens))).all
        passes = true
      simp [passes, lhs.tokens_pass, o.type.tokens_pass, rhs.tokens_pass]
  | unary o operand =>
      show (o.type.tokens ++ operand.tokens).all passes = true
      rw [List.all_append, o.type.tokens_pass, operand.tokens_pass]
      rfl
  | single operand => exact operand.tokens_pass
  | assign | call | getField | putField | goto | branch | «return» | returnVoid => exact hi.elim

theorem goto_reads {label : String} {ls : List Lexeme} (hr : next rest = .mark .semicolon)
    (hl : Carries ls (Instruction.goto label).tokens) :
    Reads (instruction (ls ++ rest)) true (.goto label) rest := by
  rw [instruction_plain hl rfl hr]
  obtain ⟨line, us, rfl, hus⟩ := hl.cons
  obtain ⟨line', vs, rfl, hvs⟩ := hus.cons
  rw [hvs.nil]
  exact .answer _

theorem branch_reads {condition : Instruction} {label : String} {ls : List Lexeme}
    (hc : condition.PrintableCondition) (hr : next rest = .mark .semicolon)
    (hl : Carries ls (Instruction.branch condition label).tokens) :
    Reads (instruction (ls ++ rest)) condition.readable (.branch condition.readBack label)
      rest := by
  rw [instruction_plain hl _ hr]
  · obtain ⟨line, us, rfl, hus⟩ := hl.cons
    obtain ⟨line', vs, rfl, hvs⟩ := hus.cons
    obtain ⟨inner, ws, rfl, hinner, hws⟩ := hvs.append
    obtain ⟨line'', xs, rfl, hxs⟩ := hws.cons
    obtain ⟨line₁, ys, rfl, hys⟩ := hxs.cons
    obtain ⟨line₂, zs, rfl, hzs⟩ := hys.cons
    rw [hzs.nil, List.cons_append, List.cons_append, plainInstruction.eq_2, List.append_assoc]
    refine (Reads.done ?_ fun _ => .answer _)
    refine (operation_reads hc rparen_complete (by simp [next]) hinner).done fun _ => ?_
    refine close_reads.first fun _ => ?_
    exact expectName_reads.first fun _ => .answer _
  · show (condition.tokens ++ [Token.mark .rparen, .name "goto", .name label]).all passes = true
    rw [List.all_append, condition_pass hc]
    rfl

theorem return_reads {t : ElementType} {value : Element} {ls : List Lexeme} (ht : t.Printable)
    (hv : value.Printable) (hr : next rest = .mark .semicolon)
    (hl : Carries ls (Instruction.return t value).tokens) :
    Reads (instruction (ls ++ rest)) (Instruction.return t value).readable
      (Instruction.return t value).readBack rest := by
  rw [instruction_plain hl _ hr]
  · obtain ⟨line, us, rfl, hus⟩ := hl.cons
    obtain ⟨line', vs, rfl, hvs⟩ := hus.cons
    obtain ⟨type, inner, rfl, htype, hinner⟩ := hvs.append
    have given : ∀ m, next (inner ++ rest) ≠ .mark m := element_next hinner
    rw [List.cons_append, List.cons_append, plainInstruction.eq_3]
    refine (Reads.done ?_ fun _ => .answer _)
    refine (suffix_then ht htype (given _)).bind fun _ => ?_
    rw [if_neg (given _)]
    exact (andThen_reads (element_reads hv (semicolon_complete hr) hinner)).done fun _ =>
      .answer _
  · show (t.tokens ++ value.tokens).all passes = true
    rw [List.all_append, t.tokens_pass, value.tokens_pass]
    rfl

theorem returnVoid_reads {ls : List Lexeme} (hr : next rest = .mark .semicolon)
    (hl : Carries ls Instruction.returnVoid.tokens) :
    Reads (instruction (ls ++ rest)) true .returnVoid rest := by
  rw [instruction_plain hl rfl hr]
  obtain ⟨line, us, rfl, hus⟩ := hl.cons
  have suffix := suffix_reads (t := .void) trivial (semicolon_complete hr).1 hus
  obtain ⟨line', vs, rfl, -⟩ := hus.cons
  rw [List.cons_append, List.cons_append, plainInstruction.eq_3]
  refine (Reads.done ?_ fun _ => .answer _)
  refine suffix.first fun _ => ?_
  rw [if_pos hr, if_pos (show ElementType.void.readBack = .void from rfl)]
  exact .answer _

theorem plainInstruction_opened {word : String} {line line' : Nat} {us : List Lexeme}
    (hw : word ≠ "if") :
    plainInstruction (⟨.name word, line⟩ :: ⟨.mark .lparen, line'⟩ :: us) =
      rightSide (⟨.name word, line⟩ :: ⟨.mark .lparen, line'⟩ :: us) := by
  refine plainInstruction.eq_4 _ ?_ ?_ ?_
  · intro line label line' us h
    cases h
  · intro line line' us h
    cases h
    exact hw rfl
  · intro line line' us h
    cases h

/-- An instruction that is written with parentheses is read like a right side. -/
theorem instruction_opened {word : String} {ts : List Token} {ls : List Lexeme}
    (hts : (Token.name word :: .mark .lparen :: ts).all passes = true) (hw : word ≠ "if")
    (hr : next rest = .mark .semicolon)
    (hl : Carries ls (.name word :: .mark .lparen :: ts)) :
    instruction (ls ++ rest) = rightSide (ls ++ rest) := by
  rw [instruction_plain hl hts hr]
  obtain ⟨line, us, rfl, hus⟩ := hl.cons
  obtain ⟨line', vs, rfl, -⟩ := hus.cons
  exact plainInstruction_opened hw

theorem getField_pass (object field : Element) :
    (Instruction.getField object field).tokens.all passes = true := by
  simp [Instruction.tokens, passes, object.tokens_pass, field.tokens_pass, field.type.tokens_pass]

theorem putField_pass (object field value : Element) :
    (Instruction.putField object field value).tokens.all passes = true := by
  simp [Instruction.tokens, passes, object.tokens_pass, field.tokens_pass, value.tokens_pass]

theorem kindWord_ne_if (kind : CallKind) : kind.word ≠ "if" := by
  cases kind <;> decide

/-- A dot after a name shows the type of a variable. -/
theorem element_dot {e : Element} {ls us : List Lexeme} {name : String} {line line' : Nat}
    (hr : Complete rest) (hl : Carries ls e.tokens)
    (h : ls ++ rest = ⟨.name name, line⟩ :: ⟨.mark .dot, line'⟩ :: us) :
    ∃ t, e = .var name t ∧ ∀ className, t ≠ .classRef className := by
  cases e with
  | literal value t =>
      obtain ⟨line₁, vs, rfl, -⟩ := hl.cons
      rcases literalToken_cases value with ht | ⟨text, ht⟩ <;>
      · rw [ht] at h
        cases h
  | item array index t =>
      obtain ⟨line₁, vs, rfl, hvs⟩ := hl.cons
      obtain ⟨line₂, ws, rfl, -⟩ := hvs.cons
      cases h
  | var word t =>
      cases t with
      | this | classRef className =>
          obtain ⟨line₁, vs, rfl, hvs⟩ := hl.cons
          obtain rfl := hvs.nil
          cases h
          exact absurd rfl hr.1
      | int32 | boolean | string | void | array | object =>
          obtain ⟨line₁, vs, rfl, hvs⟩ := hl.cons
          obtain ⟨line₂, ws, rfl, -⟩ := hvs.cons
          cases h
          exact ⟨_, rfl, fun _ => ElementType.noConfusion⟩

/-- An operand at the beginning is not taken for the name of an instruction. -/
theorem plainInstruction_operand {e : Element} {ls : List Lexeme} (he : e.Begins)
    (hr : Complete rest) (hn : ∀ name, next rest ≠ .name name) (hp : next rest ≠ .mark .lparen)
    (hl : Carries ls e.tokens) : plainInstruction (ls ++ rest) = rightSide (ls ++ rest) := by
  refine plainInstruction.eq_4 _ ?_ ?_ ?_
  · intro line label line' us h
    rcases element_second hl h with h' | h' | ⟨-, rfl⟩
    · cases h'
    · cases h'
    · exact hn label rfl
  · intro line line' us h
    rcases element_second hl h with h' | h' | ⟨-, rfl⟩
    · cases h'
    · cases h'
    · exact hp rfl
  · intro line line' us h
    obtain ⟨t, rfl, typed⟩ := element_dot hr hl h
    exact typed "ret" (he t rfl)

theorem operation_instruction {i : Instruction} {ls : List Lexeme} (hi : i.PrintableCondition)
    (hp : plainInstruction (ls ++ rest) = rightSide (ls ++ rest))
    (hr : next rest = .mark .semicolon) (hl : Carries ls i.tokens) :
    Reads (instruction (ls ++ rest)) i.readable i.readBack rest := by
  rw [instruction_plain hl (condition_pass hi) hr, hp,
    rightSide_operation hi (by simp [hr]) hl]
  exact operation_reads hi (semicolon_complete hr) (by simp [hr]) hl

/-- The reader takes the tokens of an instruction for that instruction. -/
theorem instruction_reads {i : Instruction} {ls : List Lexeme} (hi : i.Printable)
    (hr : next rest = .mark .semicolon) (hl : Carries ls i.tokens) :
    Reads (instruction (ls ++ rest)) i.readable i.readBack rest := by
  have complete := semicolon_complete hr
  cases i with
  | assign dest t rhs => exact assign_reads hi.1 hi.2.1 hi.2.2 hr hl
  | binary lhs o rhs =>
      obtain ⟨begins, printable⟩ := hi
      refine operation_instruction (i := .binary lhs o rhs) printable ?_ hr hl
      obtain ⟨left, us, rfl, hleft, hus⟩ := hl.append
      obtain ⟨line, vs, rfl, -⟩ := hus.cons
      rw [List.append_assoc]
      exact plainInstruction_operand begins (by constructor <;> simp [next])
        (fun _ => Token.noConfusion) (by simp [next]) hleft
  | unary o operand =>
      refine operation_instruction (i := .unary o operand) hi ?_ hr hl
      obtain ⟨line, us, rfl, -⟩ := hl.cons
      refine plainInstruction.eq_4 _ ?_ ?_ ?_ <;>
      · intros
        rename_i h
        cases h
  | single operand =>
      refine operation_instruction (i := .single operand) hi.2 ?_ hr hl
      exact plainInstruction_operand hi.1 complete (by simp [hr]) (by simp [hr]) hl
  | call c =>
      rw [instruction_opened c.tokens_pass (kindWord_ne_if c.kind) hr hl]
      exact rightSide_call hi complete.1 hl
  | getField object field =>
      rw [instruction_opened (getField_pass object field) (by decide) hr hl]
      exact rightSide_getField hi.1 hi.2.1 hi.2.2 complete.1 hl
  | putField object field value =>
      rw [instruction_opened (putField_pass object field value) (by decide) hr hl]
      exact rightSide_putField hi.1 hi.2.1 hi.2.2 complete.1 hl
  | goto label => exact goto_reads hr hl
  | branch condition label => exact branch_reads hi.1 hr hl
  | «return» t value => exact return_reads hi.1 hi.2 hr hl
  | returnVoid => exact returnVoid_reads hr hl

end JavaMinus.Ir
