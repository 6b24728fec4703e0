/-
# The text of a program is the program

What is written of a program that was read is read as the same program, tags and places aside
(`Program.ofText_written`).  The members of a class and the items of a body may be mixed in a text;
the program keeps fields apart from methods and local variables apart from statements, and what is
written has them in this order.

The kind of a method is not written.  It is that of its signature, so it is found again.
-/
import JavaMinus.Proofs.Lowering.Names
import JavaMinus.Proofs.Source.Rereading

namespace JavaMinus.Source

variable {α β : Type} {m n : Nat}

/-! ## Types and variables -/

/-- After a reader that answers the others go on with what it leaves. -/
theorem Reads.answers {P : α → Prop} {Q : β → Prop} {rest : List Token} {r : Reading α m}
    {f : Parsed Input.size m α → Except Error β} (hr : Reads P rest r)
    (hf : ∀ p, P p.value → p.rest.left = rest → ∃ b, f p = .ok b ∧ Q b) :
    ∃ b, (r >>= f) = .ok b ∧ Q b := by
  obtain ⟨p, rfl, hp, hrest⟩ := hr
  exact hf p hp hrest

theorem typeName_of_named {t : Ty} (h : t.Named) : typeName? (.ofWord t.name) = some t.name := by
  rcases h with h | h | h | h
  · rw [h]
    decide
  · rw [h]
    decide
  · rw [h]
    decide
  · rw [ofWord_of_isName h]
    rfl

theorem typeOf_reads {t : Ty} (named : t.Named) {i : Input} {text : String} {rest : List Token}
    (hi : i.left = t.tokens ++ .name text :: rest) :
    Reads (· = t) (.name text :: rest) (typeOf i) := by
  have read := typeName_of_named named
  obtain ⟨name, isArray⟩ := t
  cases isArray with
  | true =>
      obtain ⟨loc, ls, k, rfl, hls⟩ := i.exists_of_left hi
      obtain ⟨⟨_, opening⟩, us, rfl, rfl, hus⟩ := List.map_eq_cons_iff.1 hls
      obtain ⟨⟨_, closing⟩, vs, rfl, rfl, hvs⟩ := List.map_eq_cons_iff.1 hus
      simp only [typeOf, read]
      exact .ok rfl hvs
  | false =>
      obtain ⟨loc, ls, k, rfl, hls⟩ := i.exists_of_left hi
      obtain ⟨⟨_, loc'⟩, us, rfl, rfl, hus⟩ := List.map_eq_cons_iff.1 hls
      simp only [typeOf, read]
      exact .ok rfl hls

theorem typed_reads {d : Declaration} (named : d.Named) {i : Input} {rest : List Token}
    (hi : i.left = d.tokens ++ rest) (rule : String) :
    Reads (·.untagged = d.untagged) rest (typed i rule) := by
  rw [Declaration.tokens, List.append_assoc, List.singleton_append] at hi
  refine (typeOf_reads named.2 hi).bind fun type htype hr => ?_
  refine (expectName_reads hr _).bind fun name hname hr => ?_
  refine .ok ?_ hr
  simp only [Parsed.within, Parsed.map, Declaration.untagged, htype, hname]

theorem variableDeclaration_reads {d : Declaration} (named : d.Named) {i : Input}
    {rest : List Token} (hi : i.left = d.tokens ++ .mark .semicolon :: rest) :
    Reads (·.untagged = d.untagged) rest (variableDeclaration i) := by
  refine (typed_reads named hi _).bind fun p hp hr => ?_
  obtain ⟨q, hq, same, hr⟩ := close_reads hr "Expected ';' after variable declaration"
  exact ⟨q, hq, same ▸ hp, hr⟩

/-! ## Parameters -/

theorem someParameters_reads (d : Declaration) (ds : List Declaration) (named : d.Named)
    (others : ∀ d ∈ ds, d.Named) {i : Input} {rest : List Token}
    (hi : i.left = parameterTokens (d :: ds) ++ .mark .rparen :: rest) :
    Reads (·.map Declaration.untagged = (d :: ds).map Declaration.untagged) rest
      (someParameters i) := by
  induction ds generalizing d i with
  | nil =>
      rw [someParameters]
      refine (typed_reads named hi _).bind fun first hfirst hr => ?_
      split
      · cases hr
      · obtain ⟨q, hq, same, hr⟩ := close_reads (p := first.map ([·])) hr
          "Expected ')' after parameters"
        refine ⟨q, hq, ?_, hr⟩
        rw [same]
        exact congrArg ([·]) hfirst
  | cons d' ds ih =>
      obtain ⟨second, others⟩ := List.forall_mem_cons.1 others
      rw [parameterTokens, List.append_assoc, List.cons_append] at hi
      rw [someParameters]
      refine (typed_reads named hi _).bind fun first hfirst hr => ?_
      split
      · rename_i e loc ts k hlt
        have left : Input.left ⟨ts, k⟩ = parameterTokens (d' :: ds) ++ .mark .rparen :: rest :=
          (List.cons.inj hr).2
        refine (ih d' second others left).bind fun more hmore hr => ?_
        refine .ok ?_ hr
        have same : e.untagged = d.untagged := hfirst
        simp only [Parsed.within, Parsed.map, List.map_cons, same] at hmore ⊢
        rw [hmore]
      · rename_i noComma
        obtain ⟨e, i', hlt⟩ := first
        obtain ⟨loc, ls, k, rfl, -⟩ := i'.exists_of_left hr
        exact absurd rfl (noComma _ _ _ _ _)

theorem parameters_reads {ds : List Declaration} (named : ∀ d ∈ ds, d.Named) {i : Input}
    {rest : List Token} (hi : i.left = parameterTokens ds ++ .mark .rparen :: rest) :
    Reads (·.map Declaration.untagged = ds.map Declaration.untagged) rest (parameters i) := by
  cases ds with
  | nil =>
      obtain ⟨loc, ls, k, rfl, left⟩ := i.exists_of_left hi
      exact .ok rfl left
  | cons d ds =>
      obtain ⟨first, others⟩ := List.forall_mem_cons.1 named
      unfold parameters
      split
      · -- a type does not begin with a parenthesis
        obtain ⟨w, tokens⟩ : ∃ w, parameterTokens (d :: ds) = .ofWord d.type.name :: w := by
          cases ds
          all_goals exact ⟨_, rfl⟩
        rw [tokens] at hi
        have isType := typeName_of_named first.2
        rw [← (List.cons.inj hi).1] at isType
        cases isType
      · exact someParameters_reads d ds first others hi

/-! ## Bodies -/

theorem startsDeclaration_of_variable {d : Declaration} (named : d.Named)
    (storable : d.type.isVoid = false) {i : Input} {rest : List Token}
    (hi : i.left = d.tokens ++ rest) : startsDeclaration i.tokens = true := by
  obtain ⟨name, ⟨typeName, isArray⟩, place⟩ := d
  obtain ⟨loc, ls, k, rfl, hls⟩ := i.exists_of_left hi
  rcases named.2 with primitive | primitive | primitive | isName
  · obtain rfl : typeName = "int" := primitive
    rfl
  · obtain rfl : typeName = "boolean" := primitive
    rfl
  · obtain rfl : typeName = "void" := primitive
    cases storable
  · rw [ofWord_of_isName isName]
    cases isArray with
    | true =>
        obtain ⟨⟨_, _⟩, us, rfl, rfl, hus⟩ := List.map_eq_cons_iff.1 hls
        obtain ⟨⟨_, _⟩, vs, rfl, rfl, hvs⟩ := List.map_eq_cons_iff.1 hus
        obtain ⟨⟨_, _⟩, ws, rfl, rfl, -⟩ := List.map_eq_cons_iff.1 hvs
        rfl
    | false =>
        obtain ⟨⟨_, _⟩, us, rfl, rfl, -⟩ := List.map_eq_cons_iff.1 hls
        rfl

theorem typeName_of_left {t : Ty} (named : t.Named) {i : Input} {rest : List Token}
    (hi : i.left = .ofWord t.name :: rest) : typeName? i.token = some t.name := by
  rw [i.token_of_left hi]
  exact typeName_of_named named

theorem items_reads_statements (ss : List Stmt) (shaped : Stmt.ShapedAll ss) {i : Input}
    {rest : List Token} (hi : i.left = Stmt.tokensOf ss ++ .mark .rbrace :: rest) :
    Reads (fun items => items.1 = [] ∧ Stmt.untaggedAll items.2 = Stmt.untaggedAll ss)
      (.mark .rbrace :: rest) (bodyItems i) := by
  induction ss generalizing i with
  | nil =>
      rw [Stmt.tokensOf, List.nil_append] at hi
      rw [bodyItems, i.token_of_left hi]
      exact .ok ⟨rfl, rfl⟩ hi
  | cons s ss ih =>
      rw [Stmt.tokensOf, List.append_assoc] at hi
      have starts := shaped.1.token_starts hi
      rw [bodyItems]
      split
      · rename_i isBrace
        rw [isBrace] at starts
        cases starts
      · rename_i isEnd
        rw [isEnd] at starts
        cases starts
      · rw [if_neg (by rw [shaped.1.not_declaration hi]; exact Bool.false_ne_true)]
        have noElse : NoElse (Stmt.tokensOf ss ++ .mark .rbrace :: rest) :=
          noElse_of_shaped shaped.2 rest
        refine (statement_reads s shaped.1 hi fun _ => noElse).bind fun p hp hr => ?_
        refine (ih shaped.2 hr).bind fun q hq hr => ?_
        refine .ok ⟨hq.1, ?_⟩ hr
        simp only [Parsed.within, Parsed.map, Stmt.untaggedAll, hp, hq.2]

theorem bodyItems_reads (ds : List Declaration) {ss : List Stmt} (named : ∀ d ∈ ds, d.Named)
    (storable : Storable ds) (shaped : Stmt.ShapedAll ss) {i : Input} {rest : List Token}
    (hi : i.left = variableTokens ds ++ (Stmt.tokensOf ss ++ .mark .rbrace :: rest)) :
    Reads (fun items => items.1.map Declaration.untagged = ds.map Declaration.untagged ∧
        Stmt.untaggedAll items.2 = Stmt.untaggedAll ss)
      (.mark .rbrace :: rest) (bodyItems i) := by
  induction ds generalizing i with
  | nil =>
      obtain ⟨p, hp, ⟨noVariables, same⟩, hr⟩ := items_reads_statements ss shaped hi
      exact ⟨p, hp, ⟨by rw [noVariables], same⟩, hr⟩
  | cons d ds ih =>
      obtain ⟨first, others⟩ := List.forall_mem_cons.1 named
      obtain ⟨filled, filledAll⟩ := List.forall_mem_cons.1 storable
      have left : i.left = d.tokens ++ .mark .semicolon ::
          (variableTokens ds ++ (Stmt.tokensOf ss ++ .mark .rbrace :: rest)) := by
        simpa [variableTokens] using hi
      have isType := typeName_of_left first.2 left
      rw [bodyItems]
      split
      · rename_i isBrace
        rw [isBrace] at isType
        cases isType
      · rename_i isEnd
        rw [isEnd] at isType
        cases isType
      · rw [if_pos (startsDeclaration_of_variable first filled left)]
        refine (variableDeclaration_reads first left).bind fun p hp hr => ?_
        refine (ih others filledAll hr).bind fun q hq hr => ?_
        refine .ok ⟨?_, hq.2⟩ hr
        simp only [Parsed.within, Parsed.map, List.map_cons, hp, hq.1]

/-! ## Methods -/

theorem modifiers_of_type {ts : List Lexeme} {t : Token} {rest : List Token} {name : String}
    (hts : ts.map Lexeme.token = t :: rest) (isType : typeName? t = some name) (m : Modifiers) :
    modifiers ts m = (m, ts) := by
  unfold modifiers
  split
  · obtain ⟨rfl, -⟩ := List.cons.inj hts
    cases isType
  · obtain ⟨rfl, -⟩ := List.cons.inj hts
    cases isType
  · obtain ⟨rfl, -⟩ := List.cons.inj hts
    cases isType
  · rfl

theorem modifiers_reads (m : Modifiers) {i : Input} {t : Token} {rest : List Token} {name : String}
    (hi : i.left = modifierTokens m ++ t :: rest) (isType : typeName? t = some name) :
    (modifiers i.tokens ⟨false, false⟩).1 = m ∧ i.skipModifiers.left = t :: rest := by
  obtain ⟨isPublic, isStatic⟩ := m
  obtain ⟨ts, k⟩ := i
  have skipped : ∃ us, modifiers ts ⟨false, false⟩ = (⟨isPublic, isStatic⟩, us) ∧
      us.map Lexeme.token = t :: rest := by
    cases isPublic with
    | true =>
        obtain ⟨⟨_, _⟩, us, rfl, rfl, hus⟩ := List.map_eq_cons_iff.1 hi
        rw [modifiers]
        cases isStatic with
        | true =>
            obtain ⟨⟨_, _⟩, vs, rfl, rfl, hvs⟩ := List.map_eq_cons_iff.1 hus
            rw [modifiers]
            exact ⟨vs, modifiers_of_type hvs isType _, hvs⟩
        | false => exact ⟨us, modifiers_of_type hus isType _, hus⟩
    | false =>
        cases isStatic with
        | true =>
            obtain ⟨⟨_, _⟩, us, rfl, rfl, hus⟩ := List.map_eq_cons_iff.1 hi
            rw [modifiers]
            exact ⟨us, modifiers_of_type hus isType _, hus⟩
        | false => exact ⟨ts, modifiers_of_type hi isType _, hi⟩
  obtain ⟨us, same, left⟩ := skipped
  refine ⟨congrArg Prod.fst same, ?_⟩
  rw [Input.skipModifiers, same]
  exact left

/-- The places of the parameters do not matter to the kind of a method. -/
theorem methodKind_of_untagged {ds es : List Declaration}
    (h : ds.map Declaration.untagged = es.map Declaration.untagged) (name : String)
    (isStatic : Bool) (returnType : Ty) :
    methodKind name isStatic returnType ds = methodKind name isStatic returnType es := by
  have types : ds.map (·.type) = es.map (·.type) := by
    have same := congrArg (List.map (·.type)) h
    rwa [List.map_map, List.map_map] at same
  rw [methodKind, types]
  rfl

theorem Method.tokens_append {m : Method} {rest : List Token} :
    m.tokens ++ rest = modifierTokens ⟨m.isPublic, m.isStatic⟩ ++
      (m.returnType.tokens ++ .name m.name :: .mark .lparen ::
        (parameterTokens m.params ++ .mark .rparen :: .mark .lbrace ::
          (variableTokens m.locals ++ (Stmt.tokensOf m.body ++ .mark .rbrace :: rest)))) := by
  simp [Method.tokens]

theorem method_reads {m : Method} (shaped : m.Shaped) {i : Input}
    {rest : List Token} (hi : i.left = m.tokens ++ rest) :
    Reads (·.untagged = m.untagged) rest (method i) := by
  rw [Method.tokens_append] at hi
  obtain ⟨mods, left⟩ := modifiers_reads _ hi (typeName_of_named shaped.returnType)
  refine (typeOf_reads shaped.returnType left).bind fun returnType hreturn hr => ?_
  refine (expectName_reads hr _).bind fun word hword hr => ?_
  refine (close_reads hr _).bind fun name hname hr => ?_
  refine (parameters_reads shaped.params hr).bind fun params hparams hr => ?_
  refine (expectMark_reads hr _).bind fun opening _ hr => ?_
  refine (bodyItems_reads m.locals shaped.locals shaped.storable shaped.statements hr).bind
    fun items hitems hr => ?_
  refine (close_reads hr _).bind fun body hbody hr => ?_
  refine .ok ?_ hr
  rw [← hbody] at hitems
  rw [hword] at hname
  simp only [Method.untagged, mods, hreturn, hname, hparams, hitems, shaped.kind,
    methodKind_of_untagged hparams]

/-! ## Members -/

theorem variable_left {d : Declaration} {rest : List Token} :
    d.tokens ++ rest = .ofWord d.type.name ::
      ((if d.type.isArray then [.mark .lbracket, .mark .rbracket] else []) ++
        .name d.name :: rest) := by
  simp [Declaration.tokens, Ty.tokens]

/-- A type, a name and a parenthesis are the head of a method. -/
theorem isMethod_of_method {m : Method} (named : m.Named) {i : Input} {rest : List Token}
    (hi : i.left = m.tokens ++ rest) : isMethod i = .ok true := by
  rw [Method.tokens_append] at hi
  obtain ⟨-, left⟩ := modifiers_reads _ hi (typeName_of_named named.returnType)
  rw [isMethod]
  split
  · rfl
  · have head := left.trans (variable_left (d := ⟨m.name, m.returnType, default⟩)).symm
    obtain ⟨p, hp, -, hr⟩ := typed_reads ⟨named.name, named.returnType⟩ head "Expected member name"
    rw [hp]
    show Except.ok (decide (p.rest.token = .mark .lparen)) = _
    rw [p.rest.token_of_left hr]
    rfl

theorem skipModifiers_of_field {d : Declaration} (named : d.Named) {i : Input} {rest : List Token}
    (hi : i.left = d.tokens ++ rest) : i.skipModifiers = i := by
  have skipped : modifiers i.tokens ⟨false, false⟩ = (⟨false, false⟩, i.tokens) :=
    modifiers_of_type (hi.trans variable_left) (typeName_of_named named.2) _
  rw [Input.skipModifiers, skipped]

theorem isMethod_of_field {d : Declaration} (named : d.Named) (storable : d.type.isVoid = false)
    {i : Input} {rest : List Token} (hi : i.left = d.tokens ++ .mark .semicolon :: rest) :
    isMethod i = .ok false := by
  have filled : i.token ≠ .keyword .kVoid := by
    intro isVoid
    have isType := typeName_of_left named.2 (hi.trans variable_left)
    rw [isVoid] at isType
    rw [Ty.isVoid, ← Option.some.inj isType] at storable
    cases storable
  rw [isMethod, skipModifiers_of_field named hi, if_neg filled]
  obtain ⟨p, hp, -, hr⟩ := typed_reads named hi "Expected member name"
  rw [hp]
  show Except.ok (decide (p.rest.token = .mark .lparen)) = _
  rw [p.rest.token_of_left hr]
  rfl

theorem field_reads {d : Declaration} (named : d.Named) {i : Input} {rest : List Token}
    (hi : i.left = d.tokens ++ .mark .semicolon :: rest) :
    Reads (·.untagged = d.untagged) rest (field i) := by
  have left : i.skipModifiers.left = d.tokens ++ .mark .semicolon :: rest := by
    rwa [skipModifiers_of_field named hi]
  refine (variableDeclaration_reads named left).bind fun p hp hr => ?_
  exact .ok hp hr

theorem begins_of_type (mods : Modifiers) {t : Token} {name : String} (rest : List Token)
    (isType : typeName? t = some name) :
    ∃ u w, modifierTokens mods ++ t :: rest = u :: w ∧ u ≠ .mark .rbrace ∧ u ≠ .endOfText := by
  obtain ⟨isPublic, isStatic⟩ := mods
  cases isPublic with
  | true => exact ⟨_, _, rfl, by decide, by decide⟩
  | false =>
      cases isStatic with
      | true => exact ⟨_, _, rfl, by decide, by decide⟩
      | false =>
          refine ⟨t, rest, rfl, ?_, ?_⟩
          all_goals
            rintro rfl
            cases isType

theorem members_reads_methods (ms : List Method) (shaped : ∀ m ∈ ms, m.Shaped) {i : Input}
    {rest : List Token}
    (hi : i.left = ms.flatMap Method.tokens ++ .mark .rbrace :: rest) :
    Reads (fun items => items.1 = [] ∧ items.2.map Method.untagged = ms.map Method.untagged)
      (.mark .rbrace :: rest) (members i) := by
  induction ms generalizing i with
  | nil =>
      rw [members, i.token_of_left hi]
      exact .ok ⟨rfl, rfl⟩ hi
  | cons m ms ih =>
      obtain ⟨first, others⟩ := List.forall_mem_cons.1 shaped
      rw [List.flatMap_cons, List.append_assoc] at hi
      obtain ⟨u, w, tokens, noBrace, noEnd⟩ :=
        begins_of_type ⟨m.isPublic, m.isStatic⟩ _ (typeName_of_named first.returnType)
      have next := i.token_of_left ((hi.trans Method.tokens_append).trans tokens)
      rw [members]
      split
      · rename_i isBrace
        exact absurd (next.symm.trans isBrace) noBrace
      · rename_i isEnd
        exact absurd (next.symm.trans isEnd) noEnd
      · rw [isMethod_of_method first.toNamed hi]
        refine (method_reads first hi).bind fun p hp hr => ?_
        refine (ih others hr).bind fun q hq hr => ?_
        refine .ok ⟨hq.1, ?_⟩ hr
        simp only [Parsed.within, Parsed.map, List.map_cons, hp, hq.2]

theorem members_reads (ds : List Declaration) {ms : List Method} (named : ∀ d ∈ ds, d.Named)
    (storable : Storable ds) (shaped : ∀ m ∈ ms, m.Shaped) {i : Input} {rest : List Token}
    (hi : i.left = variableTokens ds ++ (ms.flatMap Method.tokens ++ .mark .rbrace :: rest)) :
    Reads (fun items => items.1.map Declaration.untagged = ds.map Declaration.untagged ∧
        items.2.map Method.untagged = ms.map Method.untagged)
      (.mark .rbrace :: rest) (members i) := by
  induction ds generalizing i with
  | nil =>
      obtain ⟨p, hp, ⟨noFields, same⟩, hr⟩ := members_reads_methods ms shaped hi
      exact ⟨p, hp, ⟨by rw [noFields], same⟩, hr⟩
  | cons d ds ih =>
      obtain ⟨first, others⟩ := List.forall_mem_cons.1 named
      obtain ⟨filled, filledAll⟩ := List.forall_mem_cons.1 storable
      have left : i.left = d.tokens ++ .mark .semicolon ::
          (variableTokens ds ++ (ms.flatMap Method.tokens ++ .mark .rbrace :: rest)) := by
        simpa [variableTokens] using hi
      have isType := typeName_of_left first.2 (left.trans variable_left)
      rw [members]
      split
      · rename_i isBrace
        rw [isBrace] at isType
        cases isType
      · rename_i isEnd
        rw [isEnd] at isType
        cases isType
      · rw [isMethod_of_field first filled left]
        refine (field_reads first left).bind fun p hp hr => ?_
        refine (ih others filledAll hr).bind fun q hq hr => ?_
        refine .ok ⟨?_, hq.2⟩ hr
        simp only [Parsed.within, Parsed.map, List.map_cons, hp, hq.1]

/-! ## Imports and the class -/

theorem importParts_reads (parts : List String) {i : Input} {rest : List Token}
    (hi : i.left = partTokens parts ++ .mark .semicolon :: rest) :
    Reads (· = parts) rest (importParts i) := by
  induction parts generalizing i with
  | nil =>
      obtain ⟨loc, ls, k, rfl, left⟩ := i.exists_of_left hi
      rw [importParts.eq_def]
      refine (expectMark_reads hi _).bind fun mark _ hr => ?_
      exact .ok rfl hr
  | cons part parts ih =>
      obtain ⟨loc, ls, k, rfl, left⟩ := i.exists_of_left hi
      rw [importParts.eq_def]
      refine (expectName_reads (i := ⟨ls, k⟩) left _).bind fun name hname hr => ?_
      refine (ih hr).bind fun more hmore hr => ?_
      refine .ok ?_ hr
      simp only [Parsed.within, Parsed.map, hname, hmore]

theorem importList_reads (imports : List Import) (named : ∀ i ∈ imports, i.path ≠ []) {i : Input}
    {rest : List Token} (hi : i.left = imports.flatMap Import.tokens ++ .keyword .kClass :: rest) :
    Reads (·.map Import.untagged = imports.map Import.untagged) (.keyword .kClass :: rest)
      (importList i) := by
  induction imports generalizing i with
  | nil =>
      obtain ⟨loc, ls, k, rfl, left⟩ := i.exists_of_left hi
      rw [importList.eq_def]
      exact .ok rfl hi
  | cons item imports ih =>
      obtain ⟨first, others⟩ := List.forall_mem_cons.1 named
      obtain ⟨path, place⟩ := item
      cases path with
      | nil => exact absurd rfl first
      | cons part parts =>
          have tokens : i.left = .keyword .kImport :: .name part :: (partTokens parts ++
              .mark .semicolon :: (imports.flatMap Import.tokens ++ .keyword .kClass :: rest)) := by
            simpa [Import.tokens] using hi
          obtain ⟨loc, ls, k, rfl, left⟩ := i.exists_of_left tokens
          rw [importList.eq_def]
          refine (expectName_reads (i := ⟨ls, k⟩) left _).bind fun name hname hr => ?_
          refine (importParts_reads parts hr).bind fun more hmore hr => ?_
          refine (ih others hr).bind fun p hp hr => ?_
          refine .ok ?_ hr
          simp only [Parsed.within, Parsed.map, List.map_cons, Import.untagged, hname,
            hmore] at hp ⊢
          rw [hp]

theorem parentClass_reads (parent : Option String) {i : Input} {rest : List Token}
    (hi : i.left = parentTokens parent ++ .mark .lbrace :: rest) :
    Reads (· = parent) (.mark .lbrace :: rest) (parentClass i) := by
  cases parent with
  | none =>
      obtain ⟨loc, ls, k, rfl, left⟩ := i.exists_of_left hi
      exact .ok rfl hi
  | some name =>
      obtain ⟨loc, ls, k, rfl, left⟩ := i.exists_of_left hi
      refine (expectName_reads (i := ⟨ls, k⟩) left _).bind fun p hp hr => ?_
      refine .ok ?_ hr
      simp only [Parsed.within, Parsed.map, hp]

theorem classAfter_reads {p : Program} (shaped : p.Shaped) {imports : List Import}
    (same : imports.map Import.untagged = p.imports.map Import.untagged) {i : Input}
    (hi : i.left = .keyword .kClass :: .name p.className ::
      (parentTokens p.superClass ++ .mark .lbrace :: (variableTokens p.fields ++
        (p.methods.flatMap Method.tokens ++ [.mark .rbrace, .endOfText])))) :
    ∃ q, classAfter imports i = .ok q ∧ q.untagged = p.untagged := by
  have noPublic : i.skipPublic = i := by
    obtain ⟨loc, ls, k, rfl, -⟩ := i.exists_of_left hi
    rfl
  rw [← noPublic] at hi
  unfold classAfter
  refine (expect_reads hi _).answers fun word _ hr => ?_
  refine (expectName_reads hr _).answers fun name sameName hr => ?_
  refine (parentClass_reads p.superClass hr).answers fun parent sameParent hr => ?_
  refine (expectMark_reads hr _).answers fun opening _ hr => ?_
  refine (members_reads p.fields shaped.fields shaped.storable shaped.shaped hr).answers
    fun items sameItems hr => ?_
  refine (expectMark_reads hr _).answers fun body _ hr => ?_
  have ended : body.rest.token = .endOfText := body.rest.token_of_left hr
  rw [if_neg (not_not_intro ended)]
  refine ⟨_, rfl, ?_⟩
  simp only [Program.untagged, same, sameName, sameParent, sameItems]

/-! ## The tokens of a program can be written -/

theorem type_spellable {t : Ty} (h : t.Named) : Spellable t.tokens := by
  have word : Character.isWord t.name.toList = true := by
    rcases h with h | h | h | h
    · rw [h]
      decide
    · rw [h]
      decide
    · rw [h]
      decide
    · exact h.1
  rw [Ty.tokens, spellable_cons]
  refine ⟨ofWord_writable word, ?_⟩
  split
  all_goals simp

theorem Declaration.Named.spellable {d : Declaration} (h : d.Named) : Spellable d.tokens := by
  simp [Declaration.tokens, h.1, type_spellable h.2]

theorem variableTokens_spellable {ds : List Declaration} (h : ∀ d ∈ ds, d.Named) :
    Spellable (variableTokens ds) := by
  refine spellable_flatMap fun d hd => ?_
  simp [(h d hd).spellable]

theorem parameterTokens_spellable {ds : List Declaration} (h : ∀ d ∈ ds, d.Named) :
    Spellable (parameterTokens ds) := by
  induction ds with
  | nil => simp [parameterTokens]
  | cons d ds ih =>
      obtain ⟨first, others⟩ := List.forall_mem_cons.1 h
      cases ds with
      | nil => exact first.spellable
      | cons d' ds => simp [parameterTokens, first.spellable, ih others]

mutual

theorem Stmt.spellable : ∀ s : Stmt, s.Shaped → Spellable s.tokens
  | .block _ body, h => by simp [Stmt.tokens, Stmt.spellableAll body h]
  | .ifThen _ c s, h => by simp [Stmt.tokens, h.1.spellable, s.spellable h.2]
  | .ifElse _ c yes no, h => by
      simp [Stmt.tokens, h.1.spellable, yes.spellable h.2.1, no.spellable h.2.2.2]
  | .while _ c s, h => by simp [Stmt.tokens, h.1.spellable, s.spellable h.2]
  | .expr e, h => by simp [Stmt.tokens, Expr.Shaped.spellable h]
  | .assign _ _ value, h => by simp [Stmt.tokens, h.1, h.2.spellable]
  | .assignElement _ _ index value, h => by
      simp [Stmt.tokens, h.1, h.2.1.spellable, h.2.2.spellable]
  | .return _ none, _ => by simp [Stmt.tokens]
  | .return _ (some value), h => by simp [Stmt.tokens, Expr.Shaped.spellable h]

theorem Stmt.spellableAll : ∀ ss : List Stmt, Stmt.ShapedAll ss → Spellable (Stmt.tokensOf ss)
  | [], _ => by simp [Stmt.tokensOf]
  | s :: ss, h => by simp [Stmt.tokensOf, s.spellable h.1, Stmt.spellableAll ss h.2]

end

theorem Method.spellable {m : Method} (shaped : m.Shaped) : Spellable m.tokens := by
  have modifiers : Spellable (modifierTokens ⟨m.isPublic, m.isStatic⟩) := by
    simp only [modifierTokens, spellable_append]
    constructor
    all_goals
      split
      all_goals simp
  simp [Method.tokens, modifiers, shaped.name, type_spellable shaped.returnType,
    parameterTokens_spellable shaped.params, variableTokens_spellable shaped.locals,
    Stmt.spellableAll m.body shaped.statements]

theorem Import.spellable {i : Import} (h : ∀ part ∈ i.path, IsName part) : Spellable i.tokens := by
  obtain ⟨path, loc⟩ := i
  cases path with
  | nil => simp [Import.tokens]
  | cons first parts =>
      obtain ⟨isName, others⟩ := List.forall_mem_cons.1 h
      have path : Spellable (partTokens parts) :=
        spellable_flatMap fun part hpart => by simp [others part hpart]
      simp [Import.tokens, isName, path]

/-! ## Programs -/

theorem Program.spellable {p : Program} (shaped : p.Shaped) : Spellable p.tokens := by
  have imports : Spellable (p.imports.flatMap Import.tokens) :=
    spellable_flatMap fun i hi => Import.spellable (shaped.imports i hi).2
  have parent : Spellable (parentTokens p.superClass) := by
    cases hp : p.superClass with
    | none => exact spellable_nil
    | some name => simp [parentTokens, shaped.superClass name hp]
  have methods : Spellable (p.methods.flatMap Method.tokens) :=
    spellable_flatMap fun m hm => Method.spellable (shaped.shaped m hm)
  simp [Program.tokens, imports, shaped.className, parent, variableTokens_spellable shaped.fields,
    methods]

/-- The text of a program that was read is read as the same program, tags and places aside. -/
theorem Program.ofText_written {source : String} {p : Program}
    (h : Program.ofText source = .ok p) :
    ∃ q, Program.ofText p.written = .ok q ∧ q.untagged = p.untagged := by
  have shaped := Program.shaped_of_ofText h
  obtain ⟨ls, lexed, tokens⟩ := lex_spelled (Program.spellable shaped)
  have left : Input.left ⟨ls, 0⟩ = p.imports.flatMap Import.tokens ++ .keyword .kClass ::
      .name p.className :: (parentTokens p.superClass ++ .mark .lbrace ::
        (variableTokens p.fields ++
          (p.methods.flatMap Method.tokens ++ [.mark .rbrace, .endOfText]))) :=
    tokens.trans (by simp [Program.tokens])
  obtain ⟨head, hhead, same, hr⟩ :=
    importList_reads p.imports (fun i hi => (shaped.imports i hi).1) left
  obtain ⟨q, hq, untagged⟩ := classAfter_reads shaped same hr
  refine ⟨q, ?_, untagged⟩
  rw [Program.ofText, Program.written, lexed]
  show Program.ofLexemes ls = _
  rw [Program.ofLexemes, hhead]
  exact hq

/-- A class whose members are mixed, and whose method mixes a variable with its statements. -/
def mixedClass : String :=
  "public class A \x7b static void main(String[] a) \x7b if (true) if (1 < 2) a; " ++
    "else (a)[0] = (3); int x; \x7d int[] f; \x7d"

/-- The field and the variable are moved to the front, the parentheses around the array go, and the
`else` stays with the second `if`. -/
theorem Program.ofText_written_of_mixed :
    ∃ p, Program.ofText mixedClass = .ok p ∧
      p.written = "class A \x7b int [ ] f ; static void main ( String [ ] a ) \x7b int x ; " ++
        "if ( true ) if ( 1 < 2 ) a ; else a [ 0 ] = ( 3 ) ; \x7d \x7d " ∧
      p.methods.all Method.isMain = true ∧
      ∃ q, Program.ofText p.written = .ok q ∧ q.untagged = p.untagged := by
  obtain ⟨p, hp, ht⟩ := Compiler.exists_of_any (Program.ofText mixedClass)
    (fun p => p.methods.all Method.isMain &&
      p.written == "class A \x7b int [ ] f ; static void main ( String [ ] a ) \x7b int x ; " ++
        "if ( true ) if ( 1 < 2 ) a ; else a [ 0 ] = ( 3 ) ; \x7d \x7d ") (by decide +kernel)
  rw [Bool.and_eq_true, beq_iff_eq] at ht
  exact ⟨p, hp, ht.2, ht.1, Program.ofText_written hp⟩

end JavaMinus.Source
