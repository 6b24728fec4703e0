/-
# Bodies, members and units read back

The tokens of a whole unit, and what the reader makes of them.  Labels are read ahead of the
instruction they mark, so a body is followed line by line, each with the labels that have piled up
before it.

A modifier is a word that another name follows, so the only name in danger of being taken for one is
that of a class with a superclass.
-/
import JavaMinus.Proofs.Ir.ReadBack

namespace JavaMinus.Ir

open Character

variable {ls rest : List Lexeme} {line : Nat}

/-! ## Bodies -/

def labelTokens (names : List String) : List Token :=
  names.flatMap fun name => [.name name, .mark .colon]

/-- The tokens of an instruction with its labels and its semicolon. -/
def Labeled.tokens (l : Labeled) : List Token :=
  labelTokens l.labels ++ (l.instruction.tokens ++ [.mark .semicolon])

/-- The tokens of a body and the brace that closes it. -/
def bodyTokens (body : List Labeled) (trailing : List String) : List Token :=
  body.flatMap Labeled.tokens ++ (labelTokens trailing ++ [.mark .rbrace])

def Labeled.readBack (l : Labeled) : Labeled := ⟨l.labels, l.instruction.readBack⟩

/-- No labels stand here. -/
def Unlabeled (ts : List Lexeme) : Prop := labels ts = ([], ts)

theorem labels_reads {names : List String} (hr : Unlabeled rest) :
    ∀ {ls : List Lexeme}, Carries ls (labelTokens names) →
      (labels (ls ++ rest)).1 = names ∧ (labels (ls ++ rest)).2 = rest := by
  induction names with
  | nil =>
      intro ls hl
      rw [hl.nil]
      exact Prod.mk.inj hr
  | cons name names ih =>
      intro ls hl
      obtain ⟨line, us, rfl, hus⟩ := hl.cons
      obtain ⟨line', vs, rfl, hvs⟩ := hus.cons
      obtain ⟨marks, after⟩ := ih hvs
      rw [List.cons_append, List.cons_append, labels, marks, after]
      exact ⟨rfl, rfl⟩

theorem instruction_unlabeled {i : Instruction} (hr : next rest = .mark .semicolon)
    (hl : Carries ls i.tokens) : Unlabeled (ls ++ rest) := by
  refine labels.eq_2 _ ?_
  intro label line line' ts h
  cases i with
  | assign dest t rhs =>
      obtain ⟨target, us, rfl, htarget, hus⟩ := hl.append
      obtain ⟨line'', vs, rfl, -⟩ := hus.cons
      rw [List.append_assoc] at h
      rcases element_second htarget h with h' | h' | ⟨-, h'⟩ <;> cases h'
  | binary lhs o rhs =>
      obtain ⟨left, us, rfl, hleft, hus⟩ := hl.append
      obtain ⟨line'', vs, rfl, -⟩ := hus.cons
      rw [List.append_assoc] at h
      rcases element_second hleft h with h' | h' | ⟨-, h'⟩ <;> cases h'
  | single operand =>
      rcases element_second hl h with h' | h' | ⟨-, rfl⟩
      · cases h'
      · cases h'
      · cases hr
  | unary o operand =>
      obtain ⟨line₁, us, rfl, -⟩ := hl.cons
      cases h
  | call | getField | putField | goto | branch | «return» | returnVoid =>
      obtain ⟨line₁, us, rfl, hus⟩ := hl.cons
      obtain ⟨line₂, vs, rfl, -⟩ := hus.cons
      cases h

def beginsInstruction : Token → Bool
  | .mark _ | .endOfText => false
  | _ => true

theorem beginsInstruction_of_operand {t : Token} (h : beginsOperand t = true) :
    beginsInstruction t = true := by
  cases t with
  | name | integer | quoted | operator => rfl
  | mark | endOfText => cases h

theorem instruction_begins {i : Instruction} (hl : Carries ls i.tokens) :
    beginsInstruction (next (ls ++ rest)) = true := by
  cases i with
  | assign dest t rhs =>
      obtain ⟨target, us, rfl, htarget, -⟩ := hl.append
      rw [List.append_assoc]
      exact beginsInstruction_of_operand (element_begins htarget)
  | binary lhs o rhs =>
      obtain ⟨left, us, rfl, hleft, -⟩ := hl.append
      rw [List.append_assoc]
      exact beginsInstruction_of_operand (element_begins hleft)
  | single operand => exact beginsInstruction_of_operand (element_begins hl)
  | unary | call | getField | putField | goto | branch | «return» | returnVoid =>
      obtain ⟨line₁, us, rfl, -⟩ := hl.cons
      rfl

/-- The labels that stand before the brace are those after the last instruction. -/
theorem bodyAfter_end {ts : List Lexeme} (h : (labels ts).2 = ⟨.mark .rbrace, line⟩ :: rest) :
    Reads (bodyAfter ts) true ([], (labels ts).1) rest := by
  have closing : ∀ rule, Reads (expect .rbrace rule (labels ts).2) true () rest := by
    intro rule
    rw [h]
    exact expect_reads
  unfold bodyAfter
  split
  · exact (closing _).first fun _ => .answer _
  · rename_i hn
    rw [h] at hn
    cases hn
  · rename_i hn _
    rw [h] at hn
    exact absurd rfl hn

theorem bodyAfter_instruction {ts us : List Lexeme} {i : Instruction} {body : List Labeled}
    {trailing : List String} {holds holds' : Bool}
    (hb : beginsInstruction (next (labels ts).2) = true)
    (hi : Reads (instruction (labels ts).2) holds i (⟨.mark .semicolon, line⟩ :: us))
    (hmore : Reads (bodyAfter us) holds' (body, trailing) rest) :
    Reads (bodyAfter ts) (holds && holds') (⟨(labels ts).1, i⟩ :: body, trailing) rest := by
  rw [bodyAfter.eq_def]
  split
  · rename_i hn
    rw [hn] at hb
    cases hb
  · rename_i hn
    rw [hn] at hb
    cases hb
  · refine hi.bind fun _ => ?_
    refine close_reads.first fun _ => ?_
    exact hmore.done fun _ => .answer _

/-- A line of a body is read as that line, if the lines after it are read. -/
theorem labeled_reads {l : Labeled} {body : List Labeled} {trailing : List String} {holds : Bool}
    {rest' : List Lexeme} (hi : l.instruction.Printable) (hl : Carries ls l.tokens)
    (hmore : Reads (bodyAfter rest) holds (body, trailing) rest') :
    Reads (bodyAfter (ls ++ rest)) (l.instruction.readable && holds)
      (l.readBack :: body, trailing) rest' := by
  obtain ⟨names, us, rfl, hnames, hus⟩ := hl.append
  obtain ⟨inner, vs, rfl, hinner, hvs⟩ := hus.append
  obtain ⟨line, ws, rfl, hws⟩ := hvs.cons
  rw [hws.nil, List.append_assoc, List.append_assoc, List.singleton_append]
  have unlabeled : Unlabeled (inner ++ ⟨.mark .semicolon, line⟩ :: rest) :=
    instruction_unlabeled rfl hinner
  obtain ⟨marks, after⟩ := labels_reads unlabeled hnames
  have begins : beginsInstruction (next (inner ++ ⟨.mark .semicolon, line⟩ :: rest)) = true :=
    instruction_begins hinner
  have read : Reads (instruction (inner ++ ⟨.mark .semicolon, line⟩ :: rest)) _ _ _ :=
    instruction_reads hi rfl hinner
  rw [← after] at begins read
  rw [Labeled.readBack, ← marks]
  exact bodyAfter_instruction begins read hmore

theorem body_reads {body : List Labeled} {trailing : List String} :
    ∀ {ls : List Lexeme}, (∀ l ∈ body, l.instruction.Printable) →
      Carries ls (bodyTokens body trailing) →
      Reads (bodyAfter (ls ++ rest)) (body.all fun l => l.instruction.readable)
        (body.map Labeled.readBack, trailing) rest := by
  induction body with
  | nil =>
      intro ls _ hl
      rw [bodyTokens, List.flatMap_nil, List.nil_append] at hl
      obtain ⟨names, us, rfl, hnames, hus⟩ := hl.append
      obtain ⟨line, vs, rfl, hvs⟩ := hus.cons
      rw [hvs.nil, List.append_assoc]
      have unlabeled : Unlabeled (⟨.mark .rbrace, line⟩ :: rest) := rfl
      obtain ⟨marks, after⟩ := labels_reads unlabeled hnames
      have ended := bodyAfter_end after
      rwa [marks] at ended
  | cons l body ih =>
      intro ls hbody hl
      rw [bodyTokens, List.flatMap_cons, List.append_assoc] at hl
      obtain ⟨first, more, rfl, hfirst, hmore⟩ := hl.append
      rw [List.append_assoc]
      exact labeled_reads (hbody l List.mem_cons_self) hfirst
        (ih (fun l' hl' => hbody l' (List.mem_cons_of_mem l hl')) hmore)

/-! ## Fields and methods -/

/-- The modifier words of a member. -/
def modifierWords (access : Access) (isStatic isFinal : Bool) : List String :=
  access.keyword?.toList ++
    ((if isStatic then ["static"] else []) ++ (if isFinal then ["final"] else []))

def modifierTokens (access : Access) (isStatic isFinal : Bool) : List Token :=
  (modifierWords access isStatic isFinal).map Token.name

def Field.tokens (f : Field) : List Token :=
  modifierTokens f.access f.isStatic f.isFinal ++
    .name f.name :: .mark .dot :: (f.type.tokens ++ [.mark .semicolon])

def Field.readBack (f : Field) : Field := { f with type := f.type.readBack }

def paramTokens : List Element → List Token
  | [] => []
  | e :: es => e.tokens ++ followingTokens es

/-- The directive that a method or a constructor begins with. -/
def Method.directive (m : Method) : String := if m.isConstructor then "construct" else "method"

def Method.tokensFromName (m : Method) : List Token :=
  .name m.name :: .mark .lparen :: (paramTokens m.params ++ .mark .rparen :: .mark .dot ::
    (m.returnType.tokens ++ .mark .lbrace :: bodyTokens m.body m.trailing))

/-- The tokens of a method after its directive; a constructor has no modifiers. -/
def Method.tokens (m : Method) : List Token :=
  (if m.isConstructor then [] else modifierTokens m.access m.isStatic m.isFinal) ++
    m.tokensFromName

structure Method.Printable (m : Method) : Prop where
  name : isWord m.name.toList = true
  params : ∀ e ∈ m.params, e.Printable
  returnType : m.returnType.Printable
  body : ∀ l ∈ m.body, (∀ name ∈ l.labels, isWord name.toList = true) ∧ l.instruction.Printable
  trailing : ∀ name ∈ m.trailing, isWord name.toList = true
  constructor : m.isConstructor = true →
    m.access = .publicAccess ∧ m.isStatic = false ∧ m.isFinal = false

def Method.readable (m : Method) : Bool :=
  m.params.all Element.readable &&
    (m.returnType.readable && m.body.all fun l => l.instruction.readable)

def Method.readBack (m : Method) : Method :=
  { m with
    params := m.params.map Element.readBack
    returnType := m.returnType.readBack
    body := m.body.map Labeled.readBack }

theorem add_modifierWords (access : Access) (isStatic isFinal : Bool) :
    (modifierWords access isStatic isFinal).foldlM Modifiers.add? noModifiers =
      some ⟨access, isStatic, isFinal⟩ := by
  cases access <;> cases isStatic <;> cases isFinal <;> rfl

/-- No more modifiers are read from here on. -/
def EndsModifiers (ts : List Lexeme) : Prop := ∀ m, modifiers ts m = (m, ts)

theorem endsModifiers_last {name : String} (hr : ∀ word, next rest ≠ .name word) :
    EndsModifiers (⟨.name name, line⟩ :: rest) := by
  intro m
  refine modifiers.eq_2 _ _ ?_
  intro word line' word' line'' ts h
  cases h
  exact hr word' rfl

theorem endsModifiers_other {name : String} (h : ∀ m : Modifiers, m.add? name = none) :
    EndsModifiers (⟨.name name, line⟩ :: rest) := by
  intro m
  unfold modifiers
  split
  · rename_i heq
    cases heq
    rw [h]
  · rfl

theorem modifiers_words {words : List String} {name : String}
    (hr : EndsModifiers (⟨.name name, line⟩ :: rest)) :
    ∀ {m m' : Modifiers} {ls : List Lexeme}, words.foldlM Modifiers.add? m = some m' →
      Carries ls (words.map Token.name) →
      modifiers (ls ++ ⟨.name name, line⟩ :: rest) m = (m', ⟨.name name, line⟩ :: rest) := by
  induction words with
  | nil =>
      intro m m' ls hm hl
      cases hm
      rw [hl.nil]
      exact hr m
  | cons word words ih =>
      intro m m' ls hm hl
      obtain ⟨line', us, rfl, hus⟩ := hl.cons
      rw [List.foldlM_cons] at hm
      obtain ⟨added, hadd, hrest⟩ := Option.bind_eq_some_iff.1 hm
      rw [← ih hrest hus]
      cases words with
      | nil =>
          rw [hus.nil]
          show modifiers (⟨.name word, line'⟩ :: ⟨.name name, line⟩ :: rest) m = _
          rw [modifiers, hadd]
          rfl
      | cons word' words =>
          obtain ⟨line'', vs, rfl, -⟩ := hus.cons
          show modifiers (⟨.name word, line'⟩ :: ⟨.name word', line''⟩ :: _) m = _
          rw [modifiers, hadd]
          rfl

theorem modifiers_reads {access : Access} {isStatic isFinal : Bool} {name : String}
    (hr : EndsModifiers (⟨.name name, line⟩ :: rest))
    (hl : Carries ls (modifierTokens access isStatic isFinal)) :
    modifiers (ls ++ ⟨.name name, line⟩ :: rest) noModifiers =
      (⟨access, isStatic, isFinal⟩, ⟨.name name, line⟩ :: rest) :=
  modifiers_words hr (add_modifierWords access isStatic isFinal) hl

theorem field_after {f : Field} {words after : List Lexeme} {line' : Nat} {holds : Bool}
    (hwords : Carries words (modifierTokens f.access f.isStatic f.isFinal))
    (hr : ∀ word, next after ≠ .name word)
    (ht : Reads (suffix after) holds f.type.readBack (⟨.mark .semicolon, line'⟩ :: rest)) :
    Reads (field (words ++ ⟨.name f.name, line⟩ :: after)) holds f.readBack rest := by
  have modified : modifiers (words ++ ⟨.name f.name, line⟩ :: after) noModifiers = _ :=
    modifiers_reads (endsModifiers_last hr) hwords
  have named : ∀ rule, Reads (expectName rule
      (modifiers (words ++ ⟨.name f.name, line⟩ :: after) noModifiers).2) true f.name after := by
    intro rule
    rw [modified]
    exact expectName_reads
  unfold field
  refine (named _).first fun _ => ?_
  refine (andThen_reads ht).done fun _ => ?_
  refine close_reads.first fun _ => ?_
  refine .answer_eq _ ?_
  simp only [modified]
  rfl

theorem field_reads {f : Field} (ht : f.type.Printable) (hl : Carries ls f.tokens) :
    Reads (field (ls ++ rest)) f.type.readable f.readBack rest := by
  obtain ⟨words, us, rfl, hwords, hus⟩ := hl.append
  obtain ⟨line, vs, rfl, hvs⟩ := hus.cons
  obtain ⟨line', ws, rfl, hws⟩ := hvs.cons
  obtain ⟨type, xs, rfl, htype, hxs⟩ := hws.append
  obtain ⟨line'', ys, rfl, hys⟩ := hxs.cons
  rw [hys.nil, List.append_assoc]
  have typed : Reads (suffix (⟨.mark .dot, line'⟩ :: (type ++ [⟨.mark .semicolon, line''⟩]) ++
      rest)) _ _ _ := suffix_then ht htype (by simp [next])
  exact field_after hwords (fun _ => Token.noConfusion) typed

theorem parameters_reads {es : List Element} (hes : ∀ e ∈ es, e.Printable)
    (hl : Carries ls (paramTokens es)) :
    Reads (parameters (ls ++ ⟨.mark .rparen, line⟩ :: rest)) (es.all Element.readable)
      (es.map Element.readBack) rest := by
  cases es with
  | nil =>
      rw [hl.nil]
      exact .answer _
  | cons e es =>
      obtain ⟨first, more, rfl, hfirst, hmore⟩ := hl.append
      rw [List.append_assoc, parameters.eq_2 _ (not_next (element_next hfirst _))]
      refine (element_reads (hes e List.mem_cons_self) (following_complete rparen_complete hmore)
        hfirst).bind fun _ => ?_
      refine (moreElements_reads rparen_complete (by simp [next])
        (fun e' he => hes e' (List.mem_cons_of_mem e he)) hmore).done fun _ => ?_
      exact expect_reads.first fun _ => .answer _

theorem methodAfter_reads {m : Method} {mods : Modifiers} (hm : m.Printable)
    (hl : Carries ls m.tokensFromName) :
    Reads (methodAfter mods m.isConstructor (ls ++ rest)) m.readable
      { m.readBack with access := mods.access, isStatic := mods.isStatic, isFinal := mods.isFinal }
      rest := by
  obtain ⟨line₁, us₁, rfl, hus₁⟩ := hl.cons
  obtain ⟨line₂, us₂, rfl, hus₂⟩ := hus₁.cons
  obtain ⟨params, us₃, rfl, hparams, hus₃⟩ := hus₂.append
  obtain ⟨line₄, us₄, rfl, hus₄⟩ := hus₃.cons
  obtain ⟨line₅, us₅, rfl, hus₅⟩ := hus₄.cons
  obtain ⟨type, us₆, rfl, htype, hus₆⟩ := hus₅.append
  obtain ⟨line₇, body, rfl, hbody⟩ := hus₆.cons
  rw [List.cons_append, List.cons_append, List.append_assoc]
  refine expectName_reads.first fun _ => ?_
  refine close_reads.first fun _ => ?_
  refine (andThen_reads (parameters_reads hm.params hparams)).bind fun _ => ?_
  refine (andThen_reads (suffix_then hm.returnType htype (by simp [next]))).bind fun _ => ?_
  refine close_reads.first fun _ => ?_
  refine (andThen_reads (body_reads (fun l hl => (hm.body l hl).2) hbody)).done fun _ => ?_
  exact .answer _

theorem method_after {m m' : Method} {words after : List Lexeme} {name : String} {holds : Bool}
    (hwords : Carries words (modifierTokens m.access m.isStatic m.isFinal))
    (hr : ∀ word, next after ≠ .name word)
    (h : Reads (methodAfter ⟨m.access, m.isStatic, m.isFinal⟩ false (⟨.name name, line⟩ :: after))
      holds m' rest) :
    Reads (method (words ++ ⟨.name name, line⟩ :: after)) holds m' rest := by
  have modified : modifiers (words ++ ⟨.name name, line⟩ :: after) noModifiers = _ :=
    modifiers_reads (endsModifiers_last hr) hwords
  have inner : Reads (methodAfter (modifiers (words ++ ⟨.name name, line⟩ :: after) noModifiers).1
      false (modifiers (words ++ ⟨.name name, line⟩ :: after) noModifiers).2) holds m' rest := by
    rw [modified]
    exact h
  exact inner.done fun _ => .answer _

theorem method_reads {m : Method} (hm : m.Printable) (hc : m.isConstructor = false)
    (hl : Carries ls m.tokens) : Reads (method (ls ++ rest)) m.readable m.readBack rest := by
  rw [Method.tokens, hc, if_neg Bool.false_ne_true] at hl
  obtain ⟨words, us, rfl, hwords, hus⟩ := hl.append
  have inner : Reads (methodAfter ⟨m.access, m.isStatic, m.isFinal⟩ m.isConstructor (us ++ rest))
      _ _ _ := methodAfter_reads hm hus
  rw [hc] at inner
  obtain ⟨line, vs, rfl, hvs⟩ := hus.cons
  obtain ⟨line', ws, rfl, -⟩ := hvs.cons
  rw [List.append_assoc]
  exact method_after hwords (fun _ => Token.noConfusion) inner

theorem constructor_reads {m : Method} (hm : m.Printable) (hc : m.isConstructor = true)
    (hl : Carries ls m.tokens) :
    Reads (constructor (ls ++ rest)) m.readable m.readBack rest := by
  rw [Method.tokens, if_pos hc, List.nil_append] at hl
  have inner : Reads (methodAfter ⟨m.access, m.isStatic, m.isFinal⟩ m.isConstructor (ls ++ rest))
      _ _ _ := methodAfter_reads hm hl
  obtain ⟨access, isStatic, isFinal⟩ := hm.constructor hc
  rw [access, isStatic, isFinal, hc] at inner
  rw [Method.readBack, access, isStatic, isFinal]
  exact inner

/-! ## Units -/

/-- The tokens of the members of a class and the brace that closes it. -/
def memberTokens (fields : List Field) (methods : List Method) : List Token :=
  fields.flatMap (fun f => .mark .dot :: .name "field" :: f.tokens) ++
    (methods.flatMap (fun m => .mark .dot :: .name m.directive :: m.tokens) ++ [.mark .rbrace])

theorem memberTokens_method (m : Method) (methods : List Method) :
    memberTokens [] (m :: methods) =
      .mark .dot :: .name m.directive :: (m.tokens ++ memberTokens [] methods) := by
  simp [memberTokens]

theorem memberTokens_field (f : Field) (fields : List Field) (methods : List Method) :
    memberTokens (f :: fields) methods =
      .mark .dot :: .name "field" :: (f.tokens ++ memberTokens fields methods) := by
  simp [memberTokens]

theorem methods_read {methods : List Method} :
    ∀ {ls : List Lexeme}, (∀ m ∈ methods, m.Printable) → Carries ls (memberTokens [] methods) →
      Reads (members (ls ++ rest)) (methods.all Method.readable)
        ([], methods.map Method.readBack) rest := by
  induction methods with
  | nil =>
      intro ls _ hl
      obtain ⟨line, us, rfl, hus⟩ := hl.cons
      rw [hus.nil]
      show Reads (members (⟨.mark .rbrace, line⟩ :: rest)) _ _ _
      rw [members.eq_1]
      exact .answer _
  | cons m methods ih =>
      intro ls hms hl
      rw [memberTokens_method] at hl
      obtain ⟨line, us, rfl, hus⟩ := hl.cons
      obtain ⟨line', vs, rfl, hvs⟩ := hus.cons
      obtain ⟨first, more, rfl, hfirst, hmore⟩ := hvs.append
      have hm := hms m List.mem_cons_self
      have later := ih (fun m' hm' => hms m' (List.mem_cons_of_mem m hm')) hmore
      show Reads (members (⟨.mark .dot, line⟩ :: ⟨.name m.directive, line'⟩ ::
        ((first ++ more) ++ rest))) _ _ _
      rw [List.append_assoc, members.eq_2 _ (fun _ _ h => by cases h)]
      refine expect_reads.first fun _ => ?_
      refine (andThen_reads expectName_reads).first fun _ => ?_
      cases hc : m.isConstructor with
      | false =>
          have hd : m.directive = "method" := by rw [Method.directive, hc]; rfl
          rw [if_neg (by simp [hd]), if_pos hd]
          refine (andThen_reads (method_reads hm hc hfirst)).bind fun _ => ?_
          exact later.done fun _ => .answer _
      | true =>
          have hd : m.directive = "construct" := by rw [Method.directive, hc]; rfl
          rw [if_neg (by simp [hd]), if_neg (by simp [hd]), if_pos hd]
          refine (andThen_reads (constructor_reads hm hc hfirst)).bind fun _ => ?_
          exact later.done fun _ => .answer _

theorem members_reads {fields : List Field} {methods : List Method}
    (hms : ∀ m ∈ methods, m.Printable) :
    ∀ {ls : List Lexeme}, (∀ f ∈ fields, f.type.Printable) →
      Carries ls (memberTokens fields methods) →
      Reads (members (ls ++ rest))
        ((fields.all fun f => f.type.readable) && methods.all Method.readable)
        (fields.map Field.readBack, methods.map Method.readBack) rest := by
  induction fields with
  | nil =>
      intro ls _ hl
      exact methods_read hms hl
  | cons f fields ih =>
      intro ls hfs hl
      rw [memberTokens_field] at hl
      obtain ⟨line, us, rfl, hus⟩ := hl.cons
      obtain ⟨line', vs, rfl, hvs⟩ := hus.cons
      obtain ⟨first, more, rfl, hfirst, hmore⟩ := hvs.append
      have later := ih (fun f' hf' => hfs f' (List.mem_cons_of_mem f hf')) hmore
      show Reads (members (⟨.mark .dot, line⟩ :: ⟨.name "field", line'⟩ ::
        ((first ++ more) ++ rest))) _ _ _
      rw [List.append_assoc, members.eq_2 _ (fun _ _ h => by cases h), List.all_cons,
        Bool.and_assoc]
      refine expect_reads.first fun _ => ?_
      refine (andThen_reads expectName_reads).first fun _ => ?_
      rw [if_pos rfl]
      refine (andThen_reads (field_reads (hfs f List.mem_cons_self) hfirst)).bind fun _ => ?_
      exact later.done fun _ => .answer _

/-- The parts of an import after its first, and the semicolon. -/
def importPartTokens (parts : List String) : List Token :=
  parts.flatMap (fun part => [.mark .dot, .name part]) ++ [.mark .semicolon]

/-- The tokens of an import of a path with these parts. -/
def importTokens : List String → List Token
  | [] => []
  | part :: parts => .name "import" :: .name part :: importPartTokens parts

theorem importParts_reads {parts : List String} :
    ∀ {ls : List Lexeme}, Carries ls (importPartTokens parts) →
      Reads (importParts (ls ++ rest)) true parts rest := by
  induction parts with
  | nil =>
      intro ls hl
      obtain ⟨line, us, rfl, hus⟩ := hl.cons
      rw [hus.nil]
      show Reads (importParts (⟨.mark .semicolon, line⟩ :: rest)) _ _ _
      rw [importParts.eq_2 _ (fun _ _ h => by cases h)]
      exact expect_reads.first fun _ => .answer _
  | cons part parts ih =>
      intro ls hl
      obtain ⟨line, us, rfl, hus⟩ := hl.cons
      obtain ⟨line', vs, rfl, hvs⟩ := hus.cons
      show Reads (importParts (⟨.mark .dot, line⟩ :: ⟨.name part, line'⟩ :: (vs ++ rest))) _ _ _
      rw [importParts.eq_1]
      refine expectName_reads.first fun _ => ?_
      exact (ih hvs).first fun _ => .answer _

theorem imports_reads {paths : List (List String)} (hr : next rest ≠ .name "import") :
    ∀ {ls : List Lexeme}, (∀ path ∈ paths, path ≠ []) →
      Carries ls (paths.flatMap importTokens) →
      Reads (imports (ls ++ rest)) true (paths.map (".".intercalate ·)) rest := by
  induction paths with
  | nil =>
      intro ls _ hl
      rw [hl.nil, List.nil_append, imports.eq_2 _ (not_next hr)]
      exact .answer _
  | cons path paths ih =>
      intro ls hpaths hl
      obtain ⟨part, parts, rfl⟩ := List.exists_cons_of_ne_nil (hpaths path List.mem_cons_self)
      rw [List.flatMap_cons] at hl
      obtain ⟨first, more, rfl, hfirst, hmore⟩ := hl.append
      obtain ⟨line, us, rfl, hus⟩ := hfirst.cons
      obtain ⟨line', vs, rfl, hvs⟩ := hus.cons
      have later := ih (fun path' h => hpaths path' (List.mem_cons_of_mem _ h)) hmore
      show Reads (imports (⟨.name "import", line⟩ :: ⟨.name part, line'⟩ ::
        ((vs ++ more) ++ rest))) _ _ _
      rw [List.append_assoc, imports.eq_1]
      refine expectName_reads.first fun _ => ?_
      refine (andThen_reads (importParts_reads hvs)).first fun _ => ?_
      exact later.first fun _ => .answer _

/-- The tokens of the superclass, if there is one. -/
def parentTokens : Option String → List Token
  | none => []
  | some name => [.name "extends", .name name]

def ClassUnit.tokens (u : ClassUnit) (paths : List (List String)) : List Token :=
  paths.flatMap importTokens ++ (modifierTokens u.access false false ++ .name u.name ::
    (parentTokens u.superClass ++ .mark .lbrace :: memberTokens u.fields u.methods))

/-- A unit that can be written, with the parts of its imports. -/
structure ClassUnit.Printable (u : ClassUnit) (paths : List (List String)) : Prop where
  imports : u.imports = paths.map (".".intercalate ·)
  parts : ∀ path ∈ paths, path ≠ [] ∧ ∀ part ∈ path, isWord part.toList = true
  name : isWord u.name.toList = true
  /-- A class that begins with its name does not begin with an import. -/
  notImport : u.access = .defaultAccess → u.name ≠ "import"
  superClass : ∀ parent, u.superClass = some parent → isWord parent.toList = true
  fields : ∀ f ∈ u.fields, isWord f.name.toList = true ∧ f.type.Printable
  methods : ∀ m ∈ u.methods, m.Printable

/-- Whether the head of the class can be read: with a superclass, the word `extends` follows the
name of the class, which is taken for a modifier if it looks like one. -/
def ClassUnit.headReadable (u : ClassUnit) : Bool :=
  u.superClass.isNone || (noModifiers.add? u.name).isNone

def ClassUnit.readable (u : ClassUnit) : Bool :=
  u.headReadable && ((u.fields.all fun f => f.type.readable) && u.methods.all Method.readable)

def ClassUnit.readBack (u : ClassUnit) : ClassUnit :=
  { u with fields := u.fields.map Field.readBack, methods := u.methods.map Method.readBack }

/-- The words that are modifiers where another name follows. -/
def modifierNames : List String := ["public", "private", "protected", "default", "static", "final"]

theorem add_isNone_eq (m : Modifiers) (word : String) :
    (m.add? word).isNone = !modifierNames.contains word := by
  by_cases h : word ∈ modifierNames
  · have same : (m.add? word).isNone = false := by
      simp only [modifierNames, List.mem_cons, List.not_mem_nil, or_false] at h
      rcases h with rfl | rfl | rfl | rfl | rfl | rfl <;> rfl
    rw [same, List.contains_iff_mem.2 h]
    rfl
  · have named : Access.ofWord? word = none := by
      rw [Access.ofWord?.eq_5] <;>
      · rintro rfl
        exact h (by decide)
    have isStatic : word ≠ "static" := by
      rintro rfl
      exact h (by decide)
    have isFinal : word ≠ "final" := by
      rintro rfl
      exact h (by decide)
    rw [Modifiers.add?, named, if_neg isStatic, if_neg isFinal,
      Bool.eq_false_iff.2 (mt List.contains_iff_mem.1 h)]
    rfl

/-- The result is `a` if the condition holds, and an error if not. -/
def Yields {α : Type} (r : Except Error α) (holds : Bool) (a : α) : Prop :=
  if holds then r = .ok a else ∃ e, r = .error e

theorem Reads.yields {α β : Type} {n : Nat} {r : Reading α n} {holds holds' : Bool} {a : α} {b : β}
    {f : @Parsed (List Lexeme) List.length n α → Except Error β} (hr : Reads r holds a rest)
    (hf : ∀ h, Yields (f ⟨a, rest, h⟩) holds' b) : Yields (r >>= f) (holds && holds') b := by
  cases holds with
  | false =>
      obtain ⟨e, rfl⟩ := hr
      exact ⟨e, rfl⟩
  | true =>
      obtain ⟨h, rfl⟩ := hr
      exact hf h

theorem parentClass_reads {parent : Option String} (hr : next rest ≠ .name "extends")
    (hl : Carries ls (parentTokens parent)) :
    Reads (parentClass (ls ++ rest)) true parent rest := by
  cases parent with
  | none =>
      rw [hl.nil, List.nil_append, parentClass.eq_2 _ (not_next hr)]
      exact .answer _
  | some name =>
      obtain ⟨line, us, rfl, hus⟩ := hl.cons
      obtain ⟨line', vs, rfl, hvs⟩ := hus.cons
      rw [hvs.nil]
      exact expectName_reads.first fun _ => .answer _

/-- A first step that cannot fail. -/
theorem Reads.yields_first {α β : Type} {n : Nat} {r : Reading α n} {holds : Bool} {a : α} {b : β}
    {f : @Parsed (List Lexeme) List.length n α → Except Error β} (hr : Reads r true a rest)
    (hf : ∀ h, Yields (f ⟨a, rest, h⟩) holds b) : Yields (r >>= f) holds b := by
  have whole := hr.yields hf
  rwa [Bool.true_and] at whole

theorem className_ends {u : ClassUnit} {parent : List Lexeme} {line' : Nat}
    (hparent : Carries parent (parentTokens u.superClass)) (hu : u.headReadable = true) :
    EndsModifiers (⟨.name u.name, line⟩ :: (parent ++ ⟨.mark .lbrace, line'⟩ :: rest)) := by
  cases hs : u.superClass with
  | none =>
      rw [hs] at hparent
      rw [hparent.nil]
      exact endsModifiers_last fun _ => Token.noConfusion
  | some name =>
      rw [ClassUnit.headReadable, hs, Option.isNone_some, Bool.false_or] at hu
      refine endsModifiers_other fun m => ?_
      rw [add_isNone_eq, ← add_isNone_eq m] at hu
      exact Option.isNone_iff_eq_none.1 hu

/-- A name that looks like a modifier is taken for one, and then `extends` for the name. -/
theorem className_taken {u : ClassUnit} {words : List Lexeme} {after : Lexeme} {line' : Nat}
    (hu : u.headReadable = false)
    (hwords : Carries words (modifierTokens u.access false false)) :
    ∃ m, modifiers (words ++ ⟨.name u.name, line⟩ :: ⟨.name "extends", line'⟩ :: after :: rest)
      noModifiers = (m, ⟨.name "extends", line'⟩ :: after :: rest) := by
  have looks := (Bool.or_eq_false_iff.1 hu).2
  rw [add_isNone_eq, ← add_isNone_eq ⟨u.access, false, false⟩] at looks
  obtain ⟨m, hm⟩ : ∃ m, Modifiers.add? ⟨u.access, false, false⟩ u.name = some m := by
    cases hm : Modifiers.add? ⟨u.access, false, false⟩ u.name with
    | none => simp [hm] at looks
    | some m => exact ⟨m, rfl⟩
  have taken : (modifierWords u.access false false ++ [u.name]).foldlM Modifiers.add? noModifiers =
      some m := by
    rw [List.foldlM_append, add_modifierWords]
    show [u.name].foldlM Modifiers.add? ⟨u.access, false, false⟩ = _
    rw [List.foldlM_cons, hm]
    rfl
  have carried : Carries (words ++ [⟨.name u.name, line⟩])
      ((modifierWords u.access false false ++ [u.name]).map Token.name) := by
    rw [Carries, List.map_append, List.map_append, hwords]
    rfl
  have stops : EndsModifiers (⟨.name "extends", line'⟩ :: after :: rest) :=
    endsModifiers_other fun _ => rfl
  have read := modifiers_words stops taken carried
  rw [List.append_assoc] at read
  exact ⟨m, read⟩

/-- The reader takes the tokens of a unit for that unit. -/
theorem ofLexemes_reads {u : ClassUnit} {paths : List (List String)} (h : u.Printable paths)
    (hl : Carries ls (u.tokens paths ++ [.endOfText])) :
    Yields (ClassUnit.ofLexemes ls) u.readable u.readBack := by
  obtain ⟨all, last, rfl, hall, hlast⟩ := hl.append
  obtain ⟨imported, us, rfl, himported, hus⟩ := hall.append
  obtain ⟨words, vs, rfl, hwords, hvs⟩ := hus.append
  obtain ⟨line, ws, rfl, hws⟩ := hvs.cons
  obtain ⟨parent, xs, rfl, hparent, hxs⟩ := hws.append
  obtain ⟨line', body, rfl, hbody⟩ := hxs.cons
  rw [List.append_assoc, List.append_assoc, List.cons_append, List.append_assoc, List.cons_append]
  have notImport : next (words ++ ⟨.name u.name, line⟩ :: (parent ++ ⟨.mark .lbrace, line'⟩ ::
      (body ++ last))) ≠ .name "import" := by
    cases ha : u.access with
    | publicAccess | privateAccess | protectedAccess =>
        rw [ha] at hwords
        obtain ⟨line'', ys, rfl, -⟩ := hwords.cons
        simp [next]
    | defaultAccess =>
        rw [ha] at hwords
        obtain rfl := hwords.nil
        simpa [next] using h.notImport ha
  unfold ClassUnit.ofLexemes
  refine (imports_reads notImport (fun path hp => (h.parts path hp).1) himported).yields_first
    fun _ => ?_
  dsimp only
  cases hu : u.headReadable with
  | true =>
      have modified : modifiers (words ++ ⟨.name u.name, line⟩ :: (parent ++
          ⟨.mark .lbrace, line'⟩ :: (body ++ last))) noModifiers = _ :=
        modifiers_reads (className_ends hparent hu) hwords
      rw [modified, ClassUnit.readable, hu, Bool.true_and,
        ← Bool.and_true (List.all u.fields _ && List.all u.methods _)]
      refine expectName_reads.yields_first fun _ => ?_
      refine (parentClass_reads (by simp [next]) hparent).yields_first fun _ => ?_
      refine expect_reads.yields_first fun _ => ?_
      refine (members_reads h.methods (fun f hf => (h.fields f hf).2) hbody).yields fun _ => ?_
      obtain ⟨line'', ys, rfl, hys⟩ := hlast.cons
      rw [ClassUnit.readBack, h.imports]
      rfl
  | false =>
      obtain ⟨name, hs⟩ : ∃ name, u.superClass = some name := by
        cases hs : u.superClass with
        | none => simp [ClassUnit.headReadable, hs] at hu
        | some name => exact ⟨name, rfl⟩
      rw [hs] at hparent
      obtain ⟨line₁, zs, rfl, hzs⟩ := hparent.cons
      obtain ⟨line₂, ys, rfl, hys⟩ := hzs.cons
      obtain ⟨m, taken⟩ : ∃ m, modifiers (words ++ ⟨.name u.name, line⟩ ::
          (⟨.name "extends", line₁⟩ :: ⟨.name name, line₂⟩ :: ys ++ ⟨.mark .lbrace, line'⟩ ::
            (body ++ last))) noModifiers = (m, _) := className_taken hu hwords
      rw [taken, ClassUnit.readable, hu, Bool.false_and]
      refine expectName_reads.yields_first fun _ => ?_
      obtain rfl := hys.nil
      by_cases he : name = "extends"
      · subst he
        exact ⟨_, rfl⟩
      · have other : next (⟨.name name, line₂⟩ ::
            ([] ++ ⟨.mark .lbrace, line'⟩ :: (body ++ last))) ≠ .name "extends" := by
          simpa [next] using he
        have none : Carries [] (parentTokens none) := rfl
        refine (parentClass_reads other none).yields_first fun _ => ?_
        exact ⟨_, rfl⟩

theorem ofText_yields {text : String} {u : ClassUnit} {paths : List (List String)}
    (hu : u.Printable paths) (hs : Spells text (u.tokens paths)) :
    Yields (ClassUnit.ofText text) u.readable u.readBack := by
  obtain ⟨ls, hls, carried⟩ := lex_of_scans (scans_of_spells hs)
  unfold ClassUnit.ofText
  rw [hls]
  exact ofLexemes_reads hu carried

end JavaMinus.Ir
