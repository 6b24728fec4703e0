/-
# The tokens of the intermediate form

Each part of a unit as the tokens that its text is cut into.  A part is printable if its names are
words, its literals numbers or quoted texts, and its types and operands such as a text can tell apart:
the type of the receiver stands on the receiver alone, and a bare class name is that of its class.
-/
import JavaMinus.Proofs.Ir.Spelling

namespace JavaMinus.Ir

open Character

/-! ## Types -/

/-- A type that can be written: its class name is a word.  The receiver's type and a bare class have
no text of their own. -/
def ElementType.Printable : ElementType → Prop
  | .int32 | .boolean | .string | .void => True
  | .array element => element.Printable
  | .object className => isWord className.toList = true
  | .classRef _ | .this => False

def ElementType.tokens : ElementType → List Token
  | .array element => .name "array" :: .mark .dot :: element.tokens
  | t => [.name t.text]

theorem ElementType.text_spells {t : ElementType} (h : t.Printable) :
    SpellsApart t.text t.tokens := by
  induction t with
  | int32 | boolean | string | void => exact spells_word rfl
  | array element ih =>
      have head : Spells "array." [.name "array", .mark .dot] :=
        ((spells_word (w := "array") rfl).append spells_dot rfl rfl).congr rfl
      exact head.then (ih h)
  | object className => exact spells_word h
  | classRef className => exact h.elim
  | this => exact h.elim

/-- A type that can be written behind a field, where it is not kept: the receiver and a bare class
show a word there. -/
def ElementType.PrintableSuffix : ElementType → Prop
  | .this => True
  | .classRef className => isWord className.toList = true ∧ className ≠ "array"
  | t => t.Printable

theorem ElementType.Printable.suffix {t : ElementType} (h : t.Printable) : t.PrintableSuffix := by
  cases t with
  | this | classRef className => exact h.elim
  | int32 | boolean | string | void | array | object => exact h

theorem ElementType.suffix_spells {t : ElementType} (h : t.PrintableSuffix) :
    SpellsApart t.text t.tokens := by
  cases t with
  | this => exact spells_word rfl
  | classRef className => exact spells_word h.1
  | int32 | boolean | string | void | array | object => exact ElementType.text_spells h

/-! ## Operands -/

/-- The token of a literal: a text between quotes, or a number. -/
def literalToken (value : String) : Token :=
  match value.toList with
  | '"' :: cs => .quoted (String.ofList cs.dropLast)
  | _ => .integer value

theorem literalToken_cases (value : String) :
    literalToken value = .integer value ∨ ∃ text, literalToken value = .quoted text := by
  unfold literalToken
  split
  · exact .inr ⟨_, rfl⟩
  · exact .inl rfl

theorem literalToken_integer {value : String} (h : isInteger value.toList = true) :
    literalToken value = .integer value := by
  unfold literalToken
  split
  · rename_i cs heq
    rw [heq] at h
    cases h
  · rfl

theorem literalToken_quote (text : String) : literalToken (Token.quote text) = .quoted text := by
  have chars : (Token.quote text).toList = '"' :: (text.toList ++ ['"']) := by
    rw [Token.quote, String.toList_append, String.toList_append]
    rfl
  rw [literalToken, chars]
  show Token.quoted (String.ofList (text.toList ++ ['"']).dropLast) = _
  rw [List.dropLast_concat, String.ofList_toList]

/-- A literal that can be written: a number, or a text between quotes on one line. -/
def PrintableLiteral (value : String) (t : ElementType) : Prop :=
  isInteger value.toList = true ∧ t.Printable ∨
    t = .string ∧ ∃ text, value = Token.quote text ∧ text.toList.all staysInQuotes = true

/-- A variable that can be written: the receiver, a bare class, or a name with its type. -/
def PrintableVar (name : String) : ElementType → Prop
  | .this => name = "this"
  | .classRef className => className = name ∧ isWord name.toList = true ∧ name ≠ "this"
  | t => isWord name.toList = true ∧ name ≠ "this" ∧ t.Printable

/-- An operand that can be written. -/
def Element.Printable : Element → Prop
  | .literal value t => PrintableLiteral value t
  | .var name t => PrintableVar name t
  | .item array index t =>
      isWord array.toList = true ∧ array ≠ "this" ∧ index.Printable ∧ t.Printable

def Element.tokens : Element → List Token
  | .literal value t => literalToken value :: .mark .dot :: t.tokens
  | .var name .this => [.name name]
  | .var name (.classRef _) => [.name name]
  | .var name t => .name name :: .mark .dot :: t.tokens
  | .item array index t =>
      .name array :: .mark .lbracket :: (index.tokens ++ .mark .rbracket :: .mark .dot :: t.tokens)

theorem typed_spells {w : String} {head : Token} {t : ElementType} (hw : SpellsApart w [head])
    (ht : t.Printable) : SpellsApart (w ++ "." ++ t.text) (head :: .mark .dot :: t.tokens) :=
  (hw.append spells_dot rfl rfl).then (ElementType.text_spells ht)

theorem var_spells {name : String} {t : ElementType} (h : PrintableVar name t) :
    SpellsApart (Element.var name t).text (Element.var name t).tokens := by
  cases t with
  | this =>
      obtain rfl : name = "this" := h
      exact spells_word rfl
  | classRef className => exact spells_word h.2.1
  | int32 | boolean | string | void | array | object =>
      exact typed_spells (spells_word h.1) h.2.2

theorem literal_spells {value : String} {t : ElementType} (h : PrintableLiteral value t) :
    SpellsApart (Element.literal value t).text (Element.literal value t).tokens := by
  rw [Element.tokens]
  rcases h with ⟨integer, ht⟩ | ⟨rfl, text, rfl, quoted⟩
  · rw [literalToken_integer integer]
    exact typed_spells (spells_integer integer) ht
  · rw [literalToken_quote]
    exact typed_spells (t := .string) (spells_quoted quoted).apart trivial

theorem Element.text_spells {e : Element} (h : e.Printable) : SpellsApart e.text e.tokens := by
  induction e with
  | literal value t => exact literal_spells h
  | var name t => exact var_spells h
  | item array index t ih =>
      obtain ⟨harray, -, hindex, ht⟩ := h
      have opened : Spells (array ++ "[") [.name array, .mark .lbracket] :=
        (spells_word harray).append spells_lbracket rfl rfl
      have closing : Spells "]." [.mark .rbracket, .mark .dot] :=
        (spells_rbracket.append spells_dot).congr rfl
      have typed := ((opened.then (ih hindex)).append closing rfl rfl).then
        (ElementType.text_spells ht)
      simpa only [Element.text, Element.tokens, List.append_assoc, List.cons_append,
        List.nil_append] using typed

/-! ## Instructions -/

/-- Operands, each after a comma. -/
def followingTokens (es : List Element) : List Token :=
  es.flatMap fun e => .mark .comma :: e.tokens

/-- What stands first between the parentheses of a call; a new array has a word of its own there. -/
def Call.targetTokens (c : Call) : List Token := (c.target.map Element.tokens).getD [.name "array"]

/-- The name of the method, after a comma. -/
def Call.methodTokens (c : Call) : List Token :=
  c.method.elim [] fun m => [.mark .comma, .quoted m]

def Call.tokens (c : Call) : List Token :=
  .name c.kind.word :: .mark .lparen ::
    (c.targetTokens ++ (c.methodTokens ++ (followingTokens c.args ++
      .mark .rparen :: .mark .dot :: c.returnType.tokens)))

@[grind =] def Instruction.tokens : Instruction → List Token
  | .assign dest t rhs => dest.tokens ++ .mark .colonEq :: .mark .dot :: (t.tokens ++ rhs.tokens)
  | .binary lhs o rhs =>
      lhs.tokens ++ .operator o.op :: .mark .dot :: (o.type.tokens ++ rhs.tokens)
  | .unary o operand => .operator o.op :: .mark .dot :: (o.type.tokens ++ operand.tokens)
  | .single operand => operand.tokens
  | .call c => c.tokens
  | .getField object field =>
      .name "getfield" :: .mark .lparen :: (object.tokens ++ .mark .comma :: (field.tokens ++
        .mark .rparen :: .mark .dot :: field.type.tokens))
  | .putField object field value =>
      .name "putfield" :: .mark .lparen :: (object.tokens ++ .mark .comma :: (field.tokens ++
        .mark .comma :: (value.tokens ++ [.mark .rparen, .mark .dot, .name "V"])))
  | .goto label => [.name "goto", .name label]
  | .branch condition label =>
      .name "if" :: .mark .lparen ::
        (condition.tokens ++ [.mark .rparen, .name "goto", .name label])
  | .return t value => .name "ret" :: .mark .dot :: (t.tokens ++ value.tokens)
  | .returnVoid => [.name "ret", .mark .dot, .name "V"]

/-- A call that can be written: one that invokes has a target and a method, any other no method, and
only the creation of an array has no target, but a size. -/
structure Call.Printable (c : Call) : Prop where
  target : ∀ e, c.target = some e → e.Printable
  array : c.target = none → c.kind = .new ∧ c.args ≠ []
  notArray : c.kind = .new → c.target = some (.var "array" (.classRef "array")) → c.args = []
  method : c.method.isSome = c.kind.isInvocation
  quoted : ∀ m, c.method = some m → m.toList.all staysInQuotes = true
  args : ∀ e ∈ c.args, e.Printable
  returnType : c.returnType.Printable

/-- What can be written on the right of an assignment: an operation, a call or an operand, or what is
written like a call. -/
def Instruction.PrintableRight : Instruction → Prop
  | .binary lhs o rhs => lhs.Printable ∧ o.type.Printable ∧ rhs.Printable
  | .unary o operand => o.op = .not ∧ o.type.Printable ∧ operand.Printable
  | .single operand => operand.Printable
  | .call c => c.Printable
  | .getField object field => object.Printable ∧ field.Printable ∧ field.type.PrintableSuffix
  | .putField object field value => object.Printable ∧ field.Printable ∧ value.Printable
  | _ => False

/-- What can be written as a condition: an operation or an operand. -/
def Instruction.PrintableCondition : Instruction → Prop
  | .binary lhs o rhs => lhs.Printable ∧ o.type.Printable ∧ rhs.Printable
  | .unary o operand => o.op = .not ∧ o.type.Printable ∧ operand.Printable
  | .single operand => operand.Printable
  | _ => False

/-- An operand with which an instruction can begin: a variable called `ret` would make a return of it,
unless it shows no type. -/
def Element.Begins (e : Element) : Prop := ∀ t, e = .var "ret" t → t = .classRef "ret"

/-- What can be written as an instruction of a body. -/
def Instruction.Printable : Instruction → Prop
  | .assign dest t rhs => dest.Printable ∧ t.Printable ∧ rhs.PrintableRight
  | .binary lhs o rhs => lhs.Begins ∧ lhs.Printable ∧ o.type.Printable ∧ rhs.Printable
  | .unary o operand => o.op = .not ∧ o.type.Printable ∧ operand.Printable
  | .single operand => operand.Begins ∧ operand.Printable
  | .call c => c.Printable
  | .getField object field => object.Printable ∧ field.Printable ∧ field.type.PrintableSuffix
  | .putField object field value => object.Printable ∧ field.Printable ∧ value.Printable
  | .goto label => isWord label.toList = true
  | .branch condition label => condition.PrintableCondition ∧ isWord label.toList = true
  | .return t value => t.Printable ∧ value.Printable
  | .returnVoid => True

/-! ## The text of an instruction -/

theorem spells_commaBlank : Spells ", " [.mark .comma] :=
  (spells_comma.append spells_blank).congr rfl

theorem commaList_singleton (s : String) : commaList [s] = s :=
  String.intercalate_singleton

theorem commaList_cons_cons (s t : String) (texts : List String) :
    commaList (s :: t :: texts) = s ++ ", " ++ commaList (t :: texts) :=
  String.intercalate_cons_cons

theorem commaList_spells {first : String} {ts : List Token} {es : List Element}
    (h : SpellsApart first ts) (hes : ∀ e ∈ es, e.Printable) :
    SpellsApart (commaList (first :: es.map Element.text)) (ts ++ followingTokens es) := by
  induction es generalizing first ts with
  | nil =>
      rw [List.map_nil, commaList_singleton, followingTokens, List.flatMap_nil, List.append_nil]
      exact h
  | cons e es ih =>
      have rest := ih (Element.text_spells (hes e List.mem_cons_self))
        fun e' he => hes e' (List.mem_cons_of_mem e he)
      have whole := (h.append spells_commaBlank rfl rfl).then rest
      rw [List.map_cons, commaList_cons_cons]
      simpa only [followingTokens, List.flatMap_cons, List.append_assoc, List.cons_append,
        List.nil_append] using whole

theorem target_spells {c : Call} (h : ∀ e, c.target = some e → e.Printable) :
    SpellsApart ((c.target.map Element.text).getD "array") c.targetTokens := by
  rw [Call.targetTokens]
  cases ht : c.target with
  | none => exact spells_word rfl
  | some e => exact Element.text_spells (h e ht)

theorem parts_spells {c : Call} (h : c.Printable) :
    SpellsApart (commaList c.parts) (c.targetTokens ++ (c.methodTokens ++ followingTokens c.args)) := by
  have target := target_spells h.target
  rw [Call.parts, Call.methodTokens]
  cases hm : c.method with
  | none => exact commaList_spells target h.args
  | some m =>
      have quoted := (spells_quoted (h.quoted m hm)).apart
      have rest := commaList_spells quoted h.args
      have whole := (target.append spells_commaBlank rfl rfl).then rest
      show SpellsApart (commaList (_ :: _ :: c.args.map Element.text)) _
      rw [commaList_cons_cons]
      simpa only [Option.elim, List.append_assoc, List.cons_append, List.nil_append] using whole

theorem kindWord_isWord (kind : CallKind) : isWord kind.word.toList = true := by
  cases kind <;> rfl

theorem opened_spells {w : String} (hw : isWord w.toList = true) :
    Spells (w ++ "(") [.name w, .mark .lparen] :=
  (spells_word hw).append spells_lparen rfl rfl

theorem closedDot_spells : Spells ")." [.mark .rparen, .mark .dot] :=
  (spells_rparen.append spells_dot).congr rfl

theorem call_spells {c : Call} (h : c.Printable) : SpellsApart c.text c.tokens := by
  have opened := (opened_spells (kindWord_isWord c.kind)).then (parts_spells h)
  have whole := (opened.append closedDot_spells rfl rfl).then (ElementType.text_spells h.returnType)
  simpa only [Call.text, Call.tokens, List.append_assoc, List.cons_append, List.nil_append]
    using whole

theorem operation_spells {o : Operation} (h : o.type.Printable) :
    Spells (o.op.symbol ++ "." ++ o.type.text ++ " ")
      (.operator o.op :: .mark .dot :: o.type.tokens) := by
  have typed := typed_spells (spells_operator o.op) h
  simpa only [List.append_nil] using typed.append spells_blank rfl rfl

theorem binary_spells {lhs rhs : Element} {o : Operation} (hl : lhs.Printable)
    (ho : o.type.Printable) (hr : rhs.Printable) :
    SpellsApart (Instruction.binary lhs o rhs).text (Instruction.binary lhs o rhs).tokens := by
  have left := (Element.text_spells hl).append spells_blank rfl rfl
  have whole := (left.append (operation_spells ho)).then (Element.text_spells hr)
  simpa only [Instruction.text, Instruction.tokens, String.append_assoc, List.append_assoc,
    List.cons_append, List.nil_append] using whole

theorem unary_spells {operand : Element} {o : Operation} (ho : o.type.Printable)
    (he : operand.Printable) :
    SpellsApart (Instruction.unary o operand).text (Instruction.unary o operand).tokens := by
  have whole := (operation_spells ho).then (Element.text_spells he)
  simpa only [Instruction.text, Instruction.tokens, String.append_assoc, List.append_assoc,
    List.cons_append, List.nil_append] using whole

theorem getField_spells {object field : Element} (ho : object.Printable) (hf : field.Printable)
    (ht : field.type.PrintableSuffix) :
    SpellsApart (Instruction.getField object field).text
      (Instruction.getField object field).tokens := by
  have only : ∀ e ∈ [field], e.Printable := List.forall_mem_singleton.2 hf
  have parts := commaList_spells (Element.text_spells ho) only
  have opened : Spells "getfield(" [.name "getfield", .mark .lparen] :=
    (opened_spells (w := "getfield") rfl).congr rfl
  have whole := ((opened.then parts).append closedDot_spells rfl rfl).then
    (ElementType.suffix_spells ht)
  simpa only [Instruction.text, Instruction.tokens, followingTokens, List.flatMap_cons,
    List.flatMap_nil, List.map_cons, List.map_nil, List.append_assoc, List.cons_append,
    List.nil_append] using whole

theorem putField_spells {object field value : Element} (ho : object.Printable)
    (hf : field.Printable) (hv : value.Printable) :
    SpellsApart (Instruction.putField object field value).text
      (Instruction.putField object field value).tokens := by
  have both : ∀ e ∈ [field, value], e.Printable :=
    List.forall_mem_cons.2 ⟨hf, List.forall_mem_singleton.2 hv⟩
  have parts := commaList_spells (Element.text_spells ho) both
  have opened : Spells "putfield(" [.name "putfield", .mark .lparen] :=
    (opened_spells (w := "putfield") rfl).congr rfl
  have closing := closedDot_spells.then (spells_word (w := "V") rfl)
  have same : ")." ++ "V" = ").V" := rfl
  rw [same] at closing
  have whole := (opened.then parts).append_apart closing rfl rfl
  simpa only [Instruction.text, Instruction.tokens, followingTokens, List.flatMap_cons,
    List.flatMap_nil, List.map_cons, List.map_nil, List.append_assoc, List.cons_append,
    List.nil_append] using whole

theorem worded_spells {w : String} (hw : isWord w.toList = true) : Spells (w ++ " ") [.name w] :=
  (spells_word hw).append spells_blank rfl rfl

theorem goto_spells {label : String} (h : isWord label.toList = true) :
    SpellsApart ("goto " ++ label) [.name "goto", .name label] := by
  have opened : Spells "goto " [.name "goto"] := (worded_spells (w := "goto") rfl).congr rfl
  exact opened.then (spells_word h)

theorem right_spells {i : Instruction} (h : i.PrintableRight) : SpellsApart i.text i.tokens := by
  cases i with
  | binary lhs o rhs => exact binary_spells h.1 h.2.1 h.2.2
  | unary o operand => exact unary_spells h.2.1 h.2.2
  | single operand => exact Element.text_spells h
  | call c => exact call_spells h
  | getField object field => exact getField_spells h.1 h.2.1 h.2.2
  | putField object field value => exact putField_spells h.1 h.2.1 h.2.2
  | assign | goto | branch | «return» | returnVoid => exact h.elim

theorem condition_spells {i : Instruction} (h : i.PrintableCondition) :
    SpellsApart i.text i.tokens := by
  cases i with
  | binary lhs o rhs => exact binary_spells h.1 h.2.1 h.2.2
  | unary o operand => exact unary_spells h.2.1 h.2.2
  | single operand => exact Element.text_spells h
  | assign | call | getField | putField | goto | branch | «return» | returnVoid => exact h.elim

theorem assign_spells {dest : Element} {t : ElementType} {rhs : Instruction} (hd : dest.Printable)
    (ht : t.Printable) (hr : rhs.PrintableRight) :
    SpellsApart (Instruction.assign dest t rhs).text (Instruction.assign dest t rhs).tokens := by
  have mark : Spells " :=." [.mark .colonEq, .mark .dot] :=
    ((spells_blank.append spells_colonEq).append spells_dot).congr rfl
  have typed := ((Element.text_spells hd).append mark rfl rfl).then (ElementType.text_spells ht)
  have whole := (typed.append spells_blank rfl rfl).then (right_spells hr)
  simpa only [Instruction.text, Instruction.tokens, List.append_assoc, List.cons_append,
    List.nil_append] using whole

theorem branch_spells {condition : Instruction} {label : String}
    (hc : condition.PrintableCondition) (hl : isWord label.toList = true) :
    SpellsApart (Instruction.branch condition label).text
      (Instruction.branch condition label).tokens := by
  have opened : Spells "if (" [.name "if", .mark .lparen] :=
    ((worded_spells (w := "if") rfl).append spells_lparen).congr rfl
  have closing : Spells ") goto " [.mark .rparen, .name "goto"] :=
    ((spells_rparen.append spells_blank).append (worded_spells (w := "goto") rfl)).congr rfl
  have whole := ((opened.then (condition_spells hc)).append closing rfl rfl).then (spells_word hl)
  simpa only [Instruction.text, Instruction.tokens, List.append_assoc, List.cons_append,
    List.nil_append] using whole

theorem returnDot_spells : Spells "ret." [.name "ret", .mark .dot] :=
  ((spells_word (w := "ret") rfl).append spells_dot rfl rfl).congr rfl

theorem return_spells {t : ElementType} {value : Element} (ht : t.Printable)
    (hv : value.Printable) :
    SpellsApart (Instruction.return t value).text (Instruction.return t value).tokens := by
  have typed := (returnDot_spells.then (ElementType.text_spells ht)).append spells_blank rfl rfl
  have whole := typed.then (Element.text_spells hv)
  simpa only [Instruction.text, Instruction.tokens, List.append_assoc, List.cons_append,
    List.nil_append] using whole

theorem Instruction.text_spells {i : Instruction} (h : i.Printable) :
    SpellsApart i.text i.tokens := by
  cases i with
  | assign dest t rhs => exact assign_spells h.1 h.2.1 h.2.2
  | binary lhs o rhs => exact binary_spells h.2.1 h.2.2.1 h.2.2.2
  | unary o operand => exact unary_spells h.2.1 h.2.2
  | single operand => exact Element.text_spells h.2
  | call c => exact call_spells h
  | getField object field => exact getField_spells h.1 h.2.1 h.2.2
  | putField object field value => exact putField_spells h.1 h.2.1 h.2.2
  | goto label => exact goto_spells h
  | branch condition label => exact branch_spells h.1 h.2
  | «return» t value => exact return_spells h.1 h.2
  | returnVoid =>
      have whole := returnDot_spells.then (spells_word (w := "V") rfl)
      have same : "ret." ++ "V" = "ret.V" := rfl
      rwa [same] at whole

end JavaMinus.Ir
