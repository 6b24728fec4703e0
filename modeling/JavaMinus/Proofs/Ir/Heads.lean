/-
# The text of heads

The lines of imports and fields, and the lines that open methods and classes, spell the tokens that
the reader takes for them.  All of them end in a separator or a brace, so they are complete whatever
follows.
-/
import JavaMinus.Proofs.Ir.Members

namespace JavaMinus.Ir

open Character

/-! ## Modifiers -/

theorem words_spell {words : List String} (h : ∀ word ∈ words, isWord word.toList = true) :
    Spells (String.join (words.map (· ++ " "))) (words.map Token.name) := by
  rw [List.map_eq_flatMap (f := Token.name)]
  exact join_spells fun word hw => worded_spells (h word hw)

theorem modifiersText_eq (access : Access) (isStatic isFinal : Bool) :
    modifiersText access isStatic isFinal =
      String.join ((modifierWords access isStatic isFinal).map (· ++ " ")) := by
  cases access <;> cases isStatic <;> cases isFinal <;> rfl

theorem modifierWords_isWord (access : Access) (isStatic isFinal : Bool) :
    ∀ word ∈ modifierWords access isStatic isFinal, isWord word.toList = true := by
  cases access <;> cases isStatic <;> cases isFinal <;> decide

theorem modifiers_spell (access : Access) (isStatic isFinal : Bool) :
    Spells (modifiersText access isStatic isFinal) (modifierTokens access isStatic isFinal) := by
  rw [modifiersText_eq]
  exact words_spell (modifierWords_isWord access isStatic isFinal)

/-! ## Imports -/

theorem path_spells {part : String} {parts : List String} (h : isWord part.toList = true)
    (hs : ∀ p ∈ parts, isWord p.toList = true) :
    SpellsApart (".".intercalate (part :: parts))
      (.name part :: parts.flatMap fun p => [.mark .dot, .name p]) := by
  induction parts generalizing part with
  | nil =>
      rw [String.intercalate_singleton]
      exact spells_word h
  | cons p parts ih =>
      have more := ih (hs p List.mem_cons_self) fun p' h' => hs p' (List.mem_cons_of_mem p h')
      have whole := ((spells_word h).append spells_dot rfl rfl).then more
      rw [String.intercalate_cons_cons]
      exact whole

theorem import_spells {path : List String} (hne : path ≠ [])
    (h : ∀ part ∈ path, isWord part.toList = true) :
    Spells (importText (".".intercalate path)) (importTokens path) := by
  obtain ⟨part, parts, rfl⟩ := List.exists_cons_of_ne_nil hne
  have opened : Spells "import " [.name "import"] := (worded_spells (w := "import") rfl).congr rfl
  have named := opened.then (path_spells (h part List.mem_cons_self)
    fun p hp => h p (List.mem_cons_of_mem part hp))
  have whole := named.append spells_semicolon rfl rfl
  simpa only [importText, importTokens, importPartTokens, List.cons_append, List.nil_append]
    using whole

/-! ## Members -/

theorem field_spells {f : Field} (hn : isWord f.name.toList = true) (ht : f.type.Printable) :
    Spells f.text (.mark .dot :: .name "field" :: f.tokens) := by
  have opened : Spells ".field " [.mark .dot, .name "field"] :=
    (spells_dot.append (worded_spells (w := "field") rfl)).congr rfl
  have typed := typed_spells (spells_word hn) ht
  have modified := (opened.append (modifiers_spell f.access f.isStatic f.isFinal)).then typed
  have whole := modified.append spells_semicolon rfl rfl
  simpa only [Field.text, Field.tokens, String.append_assoc, List.append_assoc, List.cons_append,
    List.nil_append] using whole

theorem params_spell {es : List Element} (h : ∀ e ∈ es, e.Printable) :
    SpellsApart (commaList (es.map Element.text)) (paramTokens es) := by
  cases es with
  | nil => exact Spells.nil.apart
  | cons e es =>
      exact commaList_spells (Element.text_spells (h e List.mem_cons_self))
        fun e' h' => h e' (List.mem_cons_of_mem e h')

/-- A blank and an opening brace, the end of every line that opens something. -/
theorem opening_spells : Spells " \x7b" [.mark .lbrace] :=
  (spells_blank.append spells_lbrace).congr rfl

/-- The tokens of the line that opens a method. -/
def Method.headTokens (m : Method) : List Token :=
  .mark .dot :: .name m.directive ::
    ((if m.isConstructor then [] else modifierTokens m.access m.isStatic m.isFinal) ++
      .name m.name :: .mark .lparen :: (paramTokens m.params ++ .mark .rparen :: .mark .dot ::
        (m.returnType.tokens ++ [.mark .lbrace])))

theorem directive_spells (m : Method) :
    Spells (if m.isConstructor then ".construct "
      else ".method " ++ modifiersText m.access m.isStatic m.isFinal)
      (.mark .dot :: .name m.directive ::
        if m.isConstructor then [] else modifierTokens m.access m.isStatic m.isFinal) := by
  rw [Method.directive]
  cases m.isConstructor with
  | true => exact (spells_dot.append (worded_spells (w := "construct") rfl)).congr rfl
  | false =>
      have opened : Spells ".method " [.mark .dot, .name "method"] :=
        (spells_dot.append (worded_spells (w := "method") rfl)).congr rfl
      exact opened.append (modifiers_spell m.access m.isStatic m.isFinal)

theorem Method.head_spells {m : Method} (hn : isWord m.name.toList = true)
    (hp : ∀ e ∈ m.params, e.Printable) (hr : m.returnType.Printable) :
    Spells m.headText m.headTokens := by
  have named := (directive_spells m).append (opened_spells hn)
  have passed := (named.then (params_spell hp)).append closedDot_spells rfl rfl
  have whole := (passed.then (ElementType.text_spells hr)).append opening_spells rfl rfl
  simpa only [Method.headText, Method.headTokens, String.append_assoc, List.append_assoc,
    List.cons_append, List.nil_append] using whole

theorem Method.headTokens_append (m : Method) :
    m.headTokens ++ bodyTokens m.body m.trailing = .mark .dot :: .name m.directive :: m.tokens := by
  simp [headTokens, tokens, tokensFromName]

/-! ## Classes -/

def ClassUnit.headTokens (u : ClassUnit) : List Token :=
  modifierTokens u.access false false ++
    .name u.name :: (parentTokens u.superClass ++ [.mark .lbrace])

theorem ClassUnit.head_spells {u : ClassUnit} (hn : isWord u.name.toList = true)
    (hp : ∀ parent, u.superClass = some parent → isWord parent.toList = true) :
    Spells u.headText u.headTokens := by
  have named := (modifiers_spell u.access false false).then (spells_word hn)
  cases hs : u.superClass with
  | none =>
      have whole := named.append opening_spells rfl rfl
      simpa [ClassUnit.headText, ClassUnit.headTokens, hs, parentTokens, String.append_assoc]
        using whole
  | some parent =>
      have extending : Spells " extends " [.name "extends"] :=
        (spells_blank.append (worded_spells (w := "extends") rfl)).congr rfl
      have extended := (named.append extending rfl rfl).then (spells_word (hp parent hs))
      have whole := extended.append opening_spells rfl rfl
      simpa [ClassUnit.headText, ClassUnit.headTokens, hs, parentTokens, String.append_assoc]
        using whole

end JavaMinus.Ir
