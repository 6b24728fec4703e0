/-
# A unit read back from its text

The text of a whole unit, line by line, and the units that the reader gives back as they were.

A unit is well formed if its text shows all that it says: names are words, a class has none of the
words for types, the receiver's type stands on the receiver alone, and so on.  What the name of a
method may hold is a parameter, for the name stands between quotes, which have to be closed on the
same line.
-/
import JavaMinus.Proofs.Ir.Heads

namespace JavaMinus.Ir

open Character

/-! ## The text of a unit -/

/-- The indentation of the members of a class. -/
def indentation : String := "    "

def labelText (label : String) : String := label ++ ":\n"

/-- An instruction on its line, below the labels that mark it. -/
def Labeled.text (l : Labeled) : String :=
  String.join (l.labels.map labelText) ++
    (indentation ++ indentation ++ l.instruction.text ++ ";\n")

/-- A method: its head, the instructions, the labels after the last one, and a brace. -/
def Method.text (m : Method) : String :=
  indentation ++ m.headText ++ "\n" ++
    (String.join (m.body.map Labeled.text) ++
      (String.join (m.trailing.map labelText) ++ (indentation ++ "\x7d\n")))

/-- A unit: the imports, the head of the class, its fields and methods, and a brace. -/
def ClassUnit.text (u : ClassUnit) : String :=
  String.join (u.imports.map fun path => importText path ++ "\n") ++ (u.headText ++ "\n" ++
    (String.join (u.fields.map fun f => indentation ++ f.text ++ "\n") ++
      (String.join (u.methods.map Method.text) ++ "\x7d\n")))

theorem indentation_spells : Spells indentation [] :=
  fun _ _ h => .gap rfl (.gap rfl (.gap rfl (.gap rfl h)))

/-- A brace at the end of a line, the last one of everything that is opened. -/
theorem closing_spells : Spells "\x7d\n" [.mark .rbrace] :=
  (spells_rbrace.append spells_lineBreak).congr rfl

theorem labels_spell {names : List String} (h : ∀ name ∈ names, isWord name.toList = true) :
    Spells (String.join (names.map labelText)) (labelTokens names) :=
  join_spells fun name hn => (spells_word (h name hn)).append spells_colonBreak rfl rfl

theorem Labeled.text_spells {l : Labeled} (hl : ∀ name ∈ l.labels, isWord name.toList = true)
    (hi : l.instruction.Printable) : Spells l.text l.tokens := by
  have ending : Spells ";\n" [.mark .semicolon] :=
    (spells_semicolon.append spells_lineBreak).congr rfl
  have code := (indentation_spells.append indentation_spells).then (Instruction.text_spells hi)
  exact (labels_spell hl).append (code.append ending rfl rfl)

theorem Method.text_spells {m : Method} (h : m.Printable) :
    Spells m.text (.mark .dot :: .name m.directive :: m.tokens) := by
  have head := (indentation_spells.append (head_spells h.name h.params h.returnType)).append
    spells_lineBreak
  have closing := indentation_spells.append closing_spells
  have body : Spells (String.join (m.body.map Labeled.text)) (m.body.flatMap Labeled.tokens) :=
    join_spells fun l hl => Labeled.text_spells (h.body l hl).1 (h.body l hl).2
  have whole := head.append (body.append ((labels_spell h.trailing).append closing))
  rw [← m.headTokens_append, bodyTokens]
  simpa only [text, List.append_nil, List.nil_append] using whole

theorem ClassUnit.text_spells {u : ClassUnit} {paths : List (List String)} (h : u.Printable paths) :
    Spells u.text (u.tokens paths) := by
  have imports : Spells (String.join (u.imports.map fun path => importText path ++ "\n"))
      (paths.flatMap importTokens) := by
    rw [h.imports, List.map_map]
    refine join_spells fun path hp => ?_
    have line := (import_spells (h.parts path hp).1 (h.parts path hp).2).append spells_lineBreak
    rwa [List.append_nil] at line
  have fields : Spells (String.join (u.fields.map fun f => indentation ++ f.text ++ "\n"))
      (u.fields.flatMap fun f => .mark .dot :: .name "field" :: f.tokens) := by
    refine join_spells fun f hf => ?_
    obtain ⟨name, type⟩ := h.fields f hf
    have line := (indentation_spells.append (field_spells name type)).append spells_lineBreak
    rwa [List.append_nil] at line
  have methods : Spells (String.join (u.methods.map Method.text))
      (u.methods.flatMap fun m => .mark .dot :: .name m.directive :: m.tokens) :=
    join_spells fun m hm => Method.text_spells (h.methods m hm)
  have head := (head_spells h.name h.superClass).append spells_lineBreak
  have whole := imports.append (head.append (fields.append (methods.append closing_spells)))
  simpa only [text, tokens, headTokens, memberTokens, List.append_nil, List.append_assoc,
    List.cons_append, List.nil_append] using whole

/-! ## Well-formed units -/

/-- The words that stand for no class in the place of a type. -/
def typeWords : List String := ["i32", "bool", "V", "String", "array"]

/-- A type that its text shows. -/
def ElementType.WellFormed : ElementType → Prop
  | .int32 | .boolean | .string | .void => True
  | .array element => element.WellFormed
  | .object className => isWord className.toList = true ∧ className ∉ typeWords
  | .classRef _ | .this => False

/-- A literal is a number, or a text of one line between quotes. -/
def LiteralWellFormed (value : String) (t : ElementType) : Prop :=
  isInteger value.toList = true ∧ t.WellFormed ∨
    t = .string ∧ ∃ text, value = Token.quote text ∧ text.toList.all staysInQuotes = true

/-- The receiver is called `this` and nothing else is; a bare class has its own name. -/
def VarWellFormed (name : String) : ElementType → Prop
  | .this => name = "this"
  | .classRef className => className = name ∧ isWord name.toList = true ∧ name ≠ "this"
  | t => isWord name.toList = true ∧ name ≠ "this" ∧ t.WellFormed

/-- An operand that its text shows. -/
def Element.WellFormed : Element → Prop
  | .literal value t => LiteralWellFormed value t
  | .var name t => VarWellFormed name t
  | .item array index t =>
      isWord array.toList = true ∧ array ≠ "this" ∧ index.WellFormed ∧ t.WellFormed

/-- A call that its text shows, where the name of a method may hold some characters. -/
structure Call.WellFormed (quotable : Char → Bool) (c : Call) : Prop where
  target : ∀ e, c.target = some e → e.WellFormed
  /-- Only a new array has no target, and it has a size. -/
  newArray : c.target = none → c.kind = .new ∧ c.args ≠ []
  notArray : c.kind = .new → c.target ≠ some (.var "array" (.classRef "array"))
  method : c.method.isSome = c.kind.isInvocation
  quoted : ∀ m, c.method = some m → m.toList.all quotable = true
  args : ∀ e ∈ c.args, e.WellFormed
  returnType : c.returnType.WellFormed

/-- The condition of a branch: an operation or an operand. -/
def Instruction.ConditionWellFormed : Instruction → Prop
  | .binary lhs o rhs => lhs.WellFormed ∧ o.type.WellFormed ∧ rhs.WellFormed
  | .unary o operand => o.op = .not ∧ o.type.WellFormed ∧ operand.WellFormed
  | .single operand => operand.WellFormed
  | _ => False

/-- The right side of an assignment: an operation, an operand, a call or what is written like one.
The type after the reading of a field cannot be that of a bare class `array`. -/
def Instruction.RightWellFormed (quotable : Char → Bool) : Instruction → Prop
  | .call c => c.WellFormed quotable
  | .getField object field =>
      object.WellFormed ∧ field.WellFormed ∧ field.type ≠ .classRef "array"
  | .putField object field value => object.WellFormed ∧ field.WellFormed ∧ value.WellFormed
  | i => i.ConditionWellFormed

/-- An instruction that its text shows. -/
def Instruction.WellFormed (quotable : Char → Bool) : Instruction → Prop
  | .assign dest t rhs => dest.WellFormed ∧ t.WellFormed ∧ rhs.RightWellFormed quotable
  | .binary lhs o rhs =>
      lhs.Begins ∧ lhs.WellFormed ∧ o.type.WellFormed ∧ rhs.WellFormed
  | .single operand => operand.Begins ∧ operand.WellFormed
  | .goto label => isWord label.toList = true
  | .branch condition label => condition.ConditionWellFormed ∧ isWord label.toList = true
  | .return t value => t.WellFormed ∧ value.WellFormed
  | .returnVoid => True
  | i => i.RightWellFormed quotable

/-- A method that its text shows; that of a constructor shows no modifiers. -/
structure Method.WellFormed (quotable : Char → Bool) (m : Method) : Prop where
  name : isWord m.name.toList = true
  params : ∀ e ∈ m.params, e.WellFormed
  returnType : m.returnType.WellFormed
  labels : ∀ l ∈ m.body, ∀ name ∈ l.labels, isWord name.toList = true
  instructions : ∀ l ∈ m.body, l.instruction.WellFormed quotable
  trailing : ∀ name ∈ m.trailing, isWord name.toList = true
  constructor : m.isConstructor = true →
    m.access = .publicAccess ∧ m.isStatic = false ∧ m.isFinal = false

/-- The text of an import: one or more words with dots between. -/
def ImportWellFormed (path : String) : Prop :=
  ∃ parts, ".".intercalate parts = path ∧ parts ≠ [] ∧ ∀ part ∈ parts, isWord part.toList = true

/-- A unit that its text shows. -/
structure ClassUnit.WellFormed (quotable : Char → Bool) (u : ClassUnit) : Prop where
  imports : ∀ path ∈ u.imports, ImportWellFormed path
  name : isWord u.name.toList = true
  notImport : u.name ≠ "import"
  notModifier : u.name ∉ modifierNames
  superClass : ∀ parent, u.superClass = some parent → isWord parent.toList = true
  fields : ∀ f ∈ u.fields, isWord f.name.toList = true ∧ f.type.WellFormed
  methods : ∀ m ∈ u.methods, m.WellFormed quotable

/-! ## What is well formed comes back -/

theorem map_eq_self {α : Type} {f : α → α} {xs : List α} (h : ∀ x ∈ xs, f x = x) :
    xs.map f = xs :=
  (List.map_congr_left h).trans (List.map_id xs)

/-- A well-formed type can be written and read, and is read as itself. -/
theorem ElementType.WellFormed.comesBack {t : ElementType} (h : t.WellFormed) :
    t.Printable ∧ t.readable = true ∧ t.readBack = t := by
  induction t with
  | int32 | boolean | string | void => exact ⟨trivial, rfl, rfl⟩
  | array element ih =>
      obtain ⟨printable, readable, same⟩ := ih h
      exact ⟨printable, readable, congrArg ElementType.array same⟩
  | object className =>
      obtain ⟨word, other⟩ := h
      simp only [typeWords, List.mem_cons, List.not_mem_nil, or_false, not_or] at other
      refine ⟨word, by simp [ElementType.readable, other], ?_⟩
      exact ElementType.ofWord_other (by simp [other])
  | classRef | this => exact h.elim

theorem literal_comesBack {value : String} {t : ElementType} (h : LiteralWellFormed value t) :
    PrintableLiteral value t ∧ t.readable = true ∧ t.readBack = t := by
  rcases h with ⟨integer, ht⟩ | ⟨rfl, quoted⟩
  · obtain ⟨printable, readable, same⟩ := ht.comesBack
    exact ⟨.inl ⟨integer, printable⟩, readable, same⟩
  · exact ⟨.inr ⟨rfl, quoted⟩, rfl, rfl⟩

theorem var_comesBack {name : String} {t : ElementType} (h : VarWellFormed name t) :
    PrintableVar name t ∧ t.readable = true ∧ t.readBack = t := by
  cases t with
  | this | classRef => exact ⟨h, rfl, rfl⟩
  | int32 | boolean | string | void | array | object =>
      obtain ⟨word, notThis, ht⟩ := h
      obtain ⟨printable, same⟩ := ht.comesBack
      exact ⟨⟨word, notThis, printable⟩, same⟩

theorem Element.WellFormed.comesBack {e : Element} (h : e.WellFormed) :
    e.Printable ∧ e.readable = true ∧ e.readBack = e := by
  induction e with
  | literal value t =>
      obtain ⟨printable, readable, same⟩ := literal_comesBack h
      exact ⟨printable, readable, congrArg (Element.literal value) same⟩
  | var name t =>
      obtain ⟨printable, readable, same⟩ := var_comesBack h
      exact ⟨printable, readable, congrArg (Element.var name) same⟩
  | item array index t ih =>
      obtain ⟨word, notThis, hindex, ht⟩ := h
      obtain ⟨indexPrintable, indexReadable, indexSame⟩ := ih hindex
      obtain ⟨printable, readable, same⟩ := ht.comesBack
      refine ⟨⟨word, notThis, indexPrintable, printable⟩, ?_, ?_⟩
      · rw [Element.readable, indexReadable, readable]
        rfl
      · rw [Element.readBack, indexSame, same]

theorem elements_comeBack {es : List Element} (h : ∀ e ∈ es, e.WellFormed) :
    (∀ e ∈ es, e.Printable) ∧ es.all Element.readable = true ∧ es.map Element.readBack = es :=
  ⟨fun e he => (h e he).comesBack.1, List.all_eq_true.2 fun e he => (h e he).comesBack.2.1,
    map_eq_self fun e he => (h e he).comesBack.2.2⟩

theorem target_comesBack {target : Option Element} (h : ∀ e, target = some e → e.WellFormed) :
    (∀ e, target = some e → e.Printable) ∧ target.all Element.readable = true ∧
      target.map Element.readBack = target := by
  cases target with
  | none => exact ⟨(fun e he => nomatch he), rfl, rfl⟩
  | some e =>
      obtain ⟨printable, readable, same⟩ := (h e rfl).comesBack
      refine ⟨?_, readable, congrArg some same⟩
      rintro e' ⟨⟩
      exact printable

theorem Call.WellFormed.comesBack {c : Call} (h : c.WellFormed staysInQuotes) :
    c.Printable ∧ c.readable = true ∧ c.readBack = c := by
  obtain ⟨target, targetReadable, targetSame⟩ := target_comesBack h.target
  obtain ⟨args, argsReadable, argsSame⟩ := elements_comeBack h.args
  obtain ⟨result, resultReadable, resultSame⟩ := h.returnType.comesBack
  refine ⟨?_, ?_, ?_⟩
  · exact ⟨target, h.newArray, fun kind bare => absurd bare (h.notArray kind), h.method, h.quoted,
      args, result⟩
  · rw [Call.readable, targetReadable, argsReadable, resultReadable]
    rfl
  · rw [Call.readBack, targetSame, argsSame, resultSame]

theorem Instruction.ConditionWellFormed.comesBack {i : Instruction} (h : i.ConditionWellFormed) :
    i.PrintableCondition ∧ i.readable = true ∧ i.readBack = i := by
  cases i with
  | binary lhs o rhs =>
      obtain ⟨left, leftReadable, leftSame⟩ := h.1.comesBack
      obtain ⟨type, typeReadable, typeSame⟩ := h.2.1.comesBack
      obtain ⟨right, rightReadable, rightSame⟩ := h.2.2.comesBack
      refine ⟨⟨left, type, right⟩, ?_, ?_⟩
      · rw [Instruction.readable, leftReadable, typeReadable, rightReadable]
        rfl
      · rw [Instruction.readBack, leftSame, typeSame, rightSame]
  | unary o operand =>
      obtain ⟨type, typeReadable, typeSame⟩ := h.2.1.comesBack
      obtain ⟨inner, innerReadable, innerSame⟩ := h.2.2.comesBack
      refine ⟨⟨h.1, type, inner⟩, ?_, ?_⟩
      · rw [Instruction.readable, typeReadable, innerReadable]
        rfl
      · rw [Instruction.readBack, typeSame, innerSame]
  | single operand =>
      obtain ⟨printable, readable, same⟩ := Element.WellFormed.comesBack h
      exact ⟨printable, readable, congrArg Instruction.single same⟩
  | assign | call | getField | putField | goto | branch | «return» | returnVoid => exact h.elim

/-- The type of an operand can be written behind it, but for a bare class `array`. -/
theorem Element.WellFormed.suffix {e : Element} (h : e.WellFormed)
    (ha : e.type ≠ .classRef "array") : e.type.PrintableSuffix := by
  cases e with
  | literal value t =>
      rcases h with ⟨-, ht⟩ | ⟨rfl, -⟩
      · exact ht.comesBack.1.suffix
      · exact trivial
  | item array index t => exact h.2.2.2.comesBack.1.suffix
  | var name t =>
      cases t with
      | this => exact trivial
      | classRef className =>
          obtain ⟨rfl, word, -⟩ := h
          exact ⟨word, fun same => ha (congrArg ElementType.classRef same)⟩
      | int32 | boolean | string | void | array | object => exact h.2.2.comesBack.1.suffix

theorem getField_comesBack {object field : Element} (ho : object.WellFormed)
    (hf : field.WellFormed) (ha : field.type ≠ .classRef "array") :
    (object.Printable ∧ field.Printable ∧ field.type.PrintableSuffix) ∧
      (Instruction.getField object field).readable = true ∧
      (Instruction.getField object field).readBack = .getField object field := by
  obtain ⟨owner, ownerReadable, ownerSame⟩ := ho.comesBack
  obtain ⟨member, memberReadable, memberSame⟩ := hf.comesBack
  refine ⟨⟨owner, member, hf.suffix ha⟩, ?_, ?_⟩
  · rw [Instruction.readable, ownerReadable, memberReadable]
    rfl
  · rw [Instruction.readBack, ownerSame, memberSame]

theorem putField_comesBack {object field value : Element} (ho : object.WellFormed)
    (hf : field.WellFormed) (hv : value.WellFormed) :
    (object.Printable ∧ field.Printable ∧ value.Printable) ∧
      (Instruction.putField object field value).readable = true ∧
      (Instruction.putField object field value).readBack = .putField object field value := by
  obtain ⟨owner, ownerReadable, ownerSame⟩ := ho.comesBack
  obtain ⟨member, memberReadable, memberSame⟩ := hf.comesBack
  obtain ⟨stored, storedReadable, storedSame⟩ := hv.comesBack
  refine ⟨⟨owner, member, stored⟩, ?_, ?_⟩
  · rw [Instruction.readable, ownerReadable, memberReadable, storedReadable]
    rfl
  · rw [Instruction.readBack, ownerSame, memberSame, storedSame]

theorem Instruction.RightWellFormed.comesBack {i : Instruction}
    (h : i.RightWellFormed staysInQuotes) :
    i.PrintableRight ∧ i.readable = true ∧ i.readBack = i := by
  cases i with
  | call c =>
      obtain ⟨printable, readable, same⟩ := Call.WellFormed.comesBack h
      exact ⟨printable, readable, congrArg Instruction.call same⟩
  | getField object field => exact getField_comesBack h.1 h.2.1 h.2.2
  | putField object field value => exact putField_comesBack h.1 h.2.1 h.2.2
  | binary lhs o rhs => exact ConditionWellFormed.comesBack (i := .binary lhs o rhs) h
  | unary o operand => exact ConditionWellFormed.comesBack (i := .unary o operand) h
  | single operand => exact ConditionWellFormed.comesBack (i := .single operand) h
  | assign | goto | branch | «return» | returnVoid => exact h.elim

theorem Instruction.WellFormed.comesBack {i : Instruction} (h : i.WellFormed staysInQuotes) :
    i.Printable ∧ i.readable = true ∧ i.readBack = i := by
  cases i with
  | assign dest t rhs =>
      obtain ⟨target, targetReadable, targetSame⟩ := h.1.comesBack
      obtain ⟨type, typeReadable, typeSame⟩ := h.2.1.comesBack
      obtain ⟨right, rightReadable, rightSame⟩ := h.2.2.comesBack
      refine ⟨⟨target, type, right⟩, ?_, ?_⟩
      · rw [Instruction.readable, targetReadable, typeReadable, rightReadable]
        rfl
      · rw [Instruction.readBack, targetSame, typeSame, rightSame]
  | binary lhs o rhs =>
      obtain ⟨printable, same⟩ := ConditionWellFormed.comesBack (i := .binary lhs o rhs) h.2
      exact ⟨⟨h.1, printable⟩, same⟩
  | single operand =>
      obtain ⟨printable, same⟩ := ConditionWellFormed.comesBack (i := .single operand) h.2
      exact ⟨⟨h.1, printable⟩, same⟩
  | unary o operand => exact ConditionWellFormed.comesBack (i := .unary o operand) h
  | call c => exact RightWellFormed.comesBack (i := .call c) h
  | getField object field => exact getField_comesBack h.1 h.2.1 h.2.2
  | putField object field value => exact putField_comesBack h.1 h.2.1 h.2.2
  | goto => exact ⟨h, rfl, rfl⟩
  | branch condition label =>
      obtain ⟨printable, readable, same⟩ := h.1.comesBack
      exact ⟨⟨printable, h.2⟩, readable, by rw [Instruction.readBack, same]⟩
  | «return» t value =>
      obtain ⟨type, typeReadable, typeSame⟩ := h.1.comesBack
      obtain ⟨result, resultReadable, resultSame⟩ := h.2.comesBack
      refine ⟨⟨type, result⟩, ?_, ?_⟩
      · rw [Instruction.readable, typeReadable, resultReadable]
        rfl
      · rw [Instruction.readBack, typeSame, resultSame]
  | returnVoid => exact ⟨trivial, rfl, rfl⟩

theorem Method.WellFormed.comesBack {m : Method} (h : m.WellFormed staysInQuotes) :
    m.Printable ∧ m.readable = true ∧ m.readBack = m := by
  obtain ⟨params, paramsReadable, paramsSame⟩ := elements_comeBack h.params
  obtain ⟨result, resultReadable, resultSame⟩ := h.returnType.comesBack
  have body := fun l hl => (h.instructions l hl).comesBack
  have bodySame : m.body.map Labeled.readBack = m.body :=
    map_eq_self fun l hl => by rw [Labeled.readBack, (body l hl).2.2]
  refine ⟨?_, ?_, ?_⟩
  · exact ⟨h.name, params, result, fun l hl => ⟨h.labels l hl, (body l hl).1⟩, h.trailing,
      h.constructor⟩
  · rw [Method.readable, paramsReadable, resultReadable, Bool.true_and, Bool.true_and]
    exact List.all_eq_true.2 fun l hl => (body l hl).2.1
  · rw [Method.readBack, paramsSame, resultSame, bodySame]

theorem exists_paths {imports : List String} (h : ∀ path ∈ imports, ImportWellFormed path) :
    ∃ paths : List (List String), imports = paths.map (".".intercalate ·) ∧
      ∀ path ∈ paths, path ≠ [] ∧ ∀ part ∈ path, isWord part.toList = true := by
  induction imports with
  | nil => exact ⟨[], rfl, List.forall_mem_nil _⟩
  | cons path imports ih =>
      obtain ⟨⟨parts, rfl, words⟩, rest⟩ := List.forall_mem_cons.1 h
      obtain ⟨paths, rfl, hpaths⟩ := ih rest
      exact ⟨parts :: paths, rfl, List.forall_mem_cons.2 ⟨words, hpaths⟩⟩

theorem ClassUnit.WellFormed.comesBack {u : ClassUnit} (h : u.WellFormed staysInQuotes) :
    (∃ paths, u.Printable paths) ∧ u.readable = true ∧ u.readBack = u := by
  obtain ⟨paths, imports, parts⟩ := exists_paths h.imports
  have types := fun f hf => (h.fields f hf).2.comesBack
  have methods := fun m hm => (h.methods m hm).comesBack
  have fieldsSame : u.fields.map Field.readBack = u.fields :=
    map_eq_self fun f hf => by rw [Field.readBack, (types f hf).2.2]
  have methodsSame : u.methods.map Method.readBack = u.methods :=
    map_eq_self fun m hm => (methods m hm).2.2
  refine ⟨⟨paths, ?_⟩, ?_, ?_⟩
  · exact ⟨imports, parts, h.name, fun _ => h.notImport, h.superClass,
      fun f hf => ⟨(h.fields f hf).1, (types f hf).1⟩, fun m hm => (methods m hm).1⟩
  · have head : u.headReadable = true := by
      rw [ClassUnit.headReadable, add_isNone_eq, Bool.eq_false_iff.2 (mt List.contains_iff_mem.1
        h.notModifier)]
      exact Bool.or_true _
    rw [ClassUnit.readable, head, Bool.true_and, Bool.and_eq_true]
    exact ⟨List.all_eq_true.2 fun f hf => (types f hf).2.1,
      List.all_eq_true.2 fun m hm => (methods m hm).2.1⟩
  · rw [ClassUnit.readBack, fieldsSame, methodsSame]

/-- A well-formed unit is read back from its text as it was. -/
theorem ofText_text {u : ClassUnit} (h : u.WellFormed staysInQuotes) :
    ClassUnit.ofText u.text = .ok u := by
  obtain ⟨⟨paths, printable⟩, readable, same⟩ := h.comesBack
  have read := ofText_yields printable (ClassUnit.text_spells printable)
  rw [readable, same] at read
  exact read

/-- A constructor that calls a method on the new object. -/
def constructorCalling (method : String) : Method :=
  ⟨"Counter", .publicAccess, false, false, true, [], .void,
    [⟨[], .call ⟨.invokeSpecial, some (.var "this" .this), some method, [], .void⟩⟩,
      ⟨[], .returnVoid⟩], []⟩

/-- A method that runs through an array up to a bound, which is called `goto`. -/
def fill : Method :=
  ⟨"fill", .publicAccess, false, true, false,
    [.var "items" (.array .int32), .var "goto" .int32], .object "Counter",
    [⟨[], .assign (.var "i" .int32) .int32
        (.getField (.var "this" .this) (.var "start" .int32))⟩,
      ⟨["Loop"], .branch
        (.binary (.var "i" .int32) ⟨.gte, .boolean⟩ (.var "goto" .int32)) "End"⟩,
      ⟨[], .assign (.item "items" (.var "i" .int32) .int32) .int32
        (.single (.literal "-1" .int32))⟩,
      ⟨[], .assign (.var "i" .int32) .int32
        (.binary (.var "i" .int32) ⟨.add, .int32⟩ (.literal "1" .int32))⟩,
      ⟨[], .goto "Loop"⟩,
      ⟨["End"], .return (.object "Counter") (.var "this" .this)⟩], ["Last"]⟩

/-- A class with an import, a superclass, a field and some methods. -/
def counter (methods : List Method) : ClassUnit :=
  ⟨["io.File"], "Counter", .publicAccess, some "Base",
    [⟨"start", .privateAccess, false, false, .int32⟩], methods⟩

theorem constructorCalling_wellFormed {quotable : Char → Bool} {method : String}
    (h : method.toList.all quotable = true) : (constructorCalling method).WellFormed quotable := by
  have call : Call.WellFormed quotable
      ⟨.invokeSpecial, some (.var "this" .this), some method, [], .void⟩ := by
    refine ⟨?_, nofun, nofun, rfl, ?_, List.forall_mem_nil _, trivial⟩
    · rintro e ⟨⟩
      rfl
    · rintro m ⟨⟩
      exact h
  have instructions : ∀ l ∈ (constructorCalling method).body, l.instruction.WellFormed quotable :=
    List.forall_mem_cons.2 ⟨call, List.forall_mem_singleton.2 trivial⟩
  have name : isWord "Counter".toList = true := by decide
  exact ⟨name, List.forall_mem_nil _, trivial, by simp [constructorCalling], instructions,
    List.forall_mem_nil _, fun _ => ⟨rfl, rfl, rfl⟩⟩

theorem fill_wellFormed (quotable : Char → Bool) : fill.WellFormed quotable := by
  refine ⟨rfl, ?_, ?_, ?_, ?_, ?_, nofun⟩
  · simp +decide [fill, Element.WellFormed, VarWellFormed, ElementType.WellFormed]
  · simp +decide [fill, ElementType.WellFormed]
  · decide
  · simp +decide [fill, Instruction.WellFormed, Instruction.RightWellFormed,
      Instruction.ConditionWellFormed, Element.WellFormed, VarWellFormed, LiteralWellFormed,
      ElementType.WellFormed, Element.type]
  · decide

theorem counter_wellFormed {quotable : Char → Bool} {methods : List Method}
    (h : ∀ m ∈ methods, m.WellFormed quotable) : (counter methods).WellFormed quotable := by
  have name : isWord "Counter".toList = true ∧ "Counter" ≠ "import" ∧
      "Counter" ∉ modifierNames := by decide
  refine ⟨?_, name.1, name.2.1, name.2.2, ?_, ?_, h⟩
  · exact List.forall_mem_singleton.2 ⟨["io", "File"], rfl, by decide, by decide⟩
  · rintro parent ⟨⟩
    rfl
  · exact List.forall_mem_singleton.2 ⟨by decide, trivial⟩

/-- The class with both members, where the constructor calls that of the superclass. -/
theorem ofText_text_counter :
    (counter [constructorCalling "<init>", fill]).WellFormed staysInQuotes ∧
      ClassUnit.ofText (counter [constructorCalling "<init>", fill]).text =
        .ok (counter [constructorCalling "<init>", fill]) := by
  have wellFormed : (counter [constructorCalling "<init>", fill]).WellFormed staysInQuotes :=
    counter_wellFormed (List.forall_mem_cons.2 ⟨constructorCalling_wellFormed (by decide),
      List.forall_mem_singleton.2 (fill_wellFormed staysInQuotes)⟩)
  exact ⟨wellFormed, ofText_text wellFormed⟩

/-- It is not enough that the name of a method has no quotes in it: one with a line break is not
read. -/
theorem not_ofText_text_lineBreak :
    (counter [constructorCalling "a\nb"]).WellFormed (· != '"') ∧
      ∃ e, ClassUnit.ofText (counter [constructorCalling "a\nb"]).text = .error e := by
  have refused : (ClassUnit.ofText (counter [constructorCalling "a\nb"]).text).toOption.isSome =
      false := by
    decide +kernel
  refine ⟨counter_wellFormed (List.forall_mem_singleton.2
    (constructorCalling_wellFormed (by decide))), ?_⟩
  cases read : ClassUnit.ofText (counter [constructorCalling "a\nb"]).text with
  | error e => exact ⟨e, rfl⟩
  | ok u =>
      rw [read] at refused
      cases refused

end JavaMinus.Ir
