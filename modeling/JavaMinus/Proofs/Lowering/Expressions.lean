/-
# The lines of expressions

By induction on the expression, in step with `lowerRhs`: its lines are sound assignments and calls,
the right side that is left is of the type `Expr.loweredType`, and the uses are `Expr.uses`.
-/
import JavaMinus.Proofs.Lowering.Emission
import JavaMinus.Proofs.Typing.Arrays

namespace JavaMinus

open Source Character

/-- The names and types of a table can be written. -/
structure SymbolTable.Written (t : SymbolTable) : Prop where
  className : IsName t.className
  fields : ∀ f ∈ t.fields, IsName f.name ∧ f.type.Written
  returns : ∀ m ∈ t.methods, m.returnType.Written
  params : ∀ m ∈ t.methods, ∀ p ∈ m.params, IsName p.name ∧ p.type.Written
  locals : ∀ m ∈ t.methods, ∀ l ∈ m.locals, l.type.Written

namespace SymbolTable

variable {t : SymbolTable} (ht : t.Written)

include ht

theorem written_of_lookupIn {signature : Signature} (hs : signature ∈ t.methods) {name : String}
    {found : Lookup} (h : lookupIn signature name = some found) : found.symbol.type.Written := by
  unfold lookupIn at h
  split at h
  · rename_i s hl
    cases h
    exact ht.locals signature hs s (List.mem_of_find?_eq_some hl)
  · obtain ⟨⟨i, s⟩, hi, rfl⟩ := Option.map_eq_some_iff.1 h
    obtain ⟨⟨s', i'⟩, hf, hs'⟩ := Option.map_eq_some_iff.1 hi
    cases hs'
    have mem := List.mem_of_find?_eq_some hf
    exact (ht.params signature hs s (List.fst_mem_of_mem_zipIdx mem)).2

theorem written_of_lookup {method name : String} {found : Lookup}
    (h : t.lookup method name = some found) : found.symbol.type.Written := by
  unfold lookup at h
  rcases Option.or_eq_some_iff.1 h with h | ⟨-, h⟩
  · obtain ⟨signature, hs, h⟩ := Option.bind_eq_some_iff.1 h
    exact written_of_lookupIn ht (List.mem_of_find?_eq_some hs) h
  · obtain ⟨s, hs, rfl⟩ := Option.map_eq_some_iff.1 h
    exact (ht.fields s (List.mem_of_find?_eq_some hs)).2

end SymbolTable

namespace Lowering

variable {table : SymbolTable} {method : String} {s : Scope} {wanted : Bool} {us : List Ir.Use}

/-! ## Right sides -/

def Rhs.type : Rhs → Ty
  | .value v => v.type
  | .operation _ type => type

def Rhs.Sound : Rhs → Prop
  | .value v => v.Sound
  | .operation i type => i.PrintableRight ∧ i.readBack.FormedRight ∧ type.Written

/-- What an operation uses, as soon as it is placed. -/
def Rhs.owes (wanted : Bool) : Rhs → List Ir.Use
  | .value _ => []
  | .operation i _ => i.readBack.uses wanted

/-- What a value uses wherever it is placed. -/
def Rhs.held : Rhs → List Ir.Use
  | .value v => v.operand.readBack.uses
  | .operation .. => []

def Rhs.isThis : Rhs → Bool
  | .value v => v.operand == thisOperand
  | .operation .. => false

/-- Whether the right side is kept in a variable or an array, or has to be. -/
def Rhs.isStored : Rhs → Bool
  | .value v => Lowering.isStored v.operand
  | .operation .. => true

/-- The right side is what lowering makes of the expression. -/
structure Rhs.Of (s : Scope) (e : Expr) (expected : Option Ty) (rhs : Rhs) : Prop where
  sound : rhs.Sound
  type : rhs.type = e.loweredType s expected
  receiver : rhs.isThis = e.isThis
  stored : e.isStored = true → rhs.isStored = true
  held : rhs.held = e.held
  call : isCall e = true → ∃ c t, rhs = .operation (.call c) t

/-- The value is what lowering makes of the expression. -/
structure Value.Of (s : Scope) (e : Expr) (expected : Option Ty) (v : Value) : Prop where
  sound : v.Sound
  type : v.type = e.loweredType s expected
  receiver : (v.operand == thisOperand) = e.isThis
  stored : e.isStored = true → Lowering.isStored v.operand = true
  held : v.operand.readBack.uses = e.held

theorem Value.Of.rhs {e : Expr} {expected : Option Ty} {v : Value} (h : Value.Of s e expected v)
    (hc : isCall e = false) : Rhs.Of s e expected (.value v) :=
  ⟨h.sound, h.type, h.receiver, h.stored, h.held, fun h' => absurd h' (Bool.eq_false_iff.1 hc)⟩

/-- The operand is read back with the type that the source shows. -/
theorem Value.Of.operandType {e : Expr} {expected : Option Ty} {v : Value}
    (h : Value.Of s e expected v) : v.operand.readBack.type = e.operandType s expected := by
  unfold Expr.operandType
  rw [← h.receiver, ← h.type]
  by_cases hthis : v.operand = thisOperand
  · rw [hthis]
    rfl
  · rw [if_neg (fun same => hthis (eq_of_beq same)), Ir.Element.type_readBack,
      h.sound.typed.resolve_left hthis]
    rfl

theorem held_of_not_isThis {e : Expr} (h : e.isThis = false) : e.held = [] := by
  rw [Expr.held, h]
  rfl

theorem temp_of {e : Expr} {expected : Option Ty} {type : Ty} {n : Nat} (ht : type.Written)
    (h : type = e.loweredType s expected) (hr : e.isThis = false) :
    Value.Of s e expected (.var (tempName n) type) := by
  have other := tempName_ne_this n
  refine ⟨Value.sound_var (tempName_isWord n) other ht, h, ?_, fun _ => bne_iff_ne.2 other, ?_⟩
  · rw [hr, beq_eq_false_iff_ne]
    intro same
    exact other (Ir.Element.var.inj same).1
  · rw [held_of_not_isThis hr]
    exact uses_var other ht.lowered

theorem asValue_emits {e : Expr} {expected : Option Ty} {rhs : Rhs}
    (h : Rhs.Of s e expected rhs) :
    Emits method Line.Plain (asValue table rhs) settled (rhs.owes true) (Value.Of s e expected) := by
  cases rhs with
  | value v => exact .pure ⟨h.sound, h.type, h.receiver, h.stored, h.held⟩
  | operation i type =>
      obtain ⟨printable, formed, written⟩ := h.sound
      refine (bind_emits printable formed written).mono fun v hv => ?_
      obtain ⟨n, rfl⟩ := hv
      exact temp_of written h.type h.receiver.symm

/-- An array element is copied to a variable of the same type. -/
theorem asOperand_emits {e : Expr} {expected : Option Ty} {rhs : Rhs}
    (h : Rhs.Of s e expected rhs) :
    Emits method Line.Plain (asOperand table rhs) settled (rhs.owes true)
      (Value.Of s e expected) := by
  refine (asValue_emits h).done fun v hv => ?_
  split
  · rename_i hi
    have receiver : e.isThis = false := by
      rw [← hv.receiver, beq_eq_false_iff_ne]
      intro same
      rw [Value.isIndexed, same] at hi
      cases hi
    have copied := @bind_emits method table (.single v.operand) v.type
      hv.sound.operand.printable hv.sound.operand.loads hv.sound.type
    refine (copied.of_eq (hv.held.trans (held_of_not_isThis receiver))).mono fun v' hv' => ?_
    obtain ⟨n, rfl⟩ := hv'
    exact temp_of hv.sound.type hv.type receiver
  · exact .pure hv

/-- A value that is no receiver and cannot be indexed. -/
theorem constant_of {e : Expr} {expected : Option Ty} {n : Int32} {type : Ty}
    (ht : type = .int ∨ type = .boolean) (h : type = e.loweredType s expected)
    (hr : e.isThis = false) (hs : e.isStored = false) (hc : isCall e = false) :
    Rhs.Of s e expected (.value (.constant n type)) := by
  have unstored : ∀ v : Value, e.isStored = true → Lowering.isStored v.operand = true := by
    rw [hs]
    exact fun _ => Bool.noConfusion
  have unheld : [] = e.held := (held_of_not_isThis hr).symm
  rcases ht with rfl | rfl
  · exact Value.Of.rhs ⟨Value.sound_int n, h, hr.symm, unstored _, unheld⟩ hc
  · exact Value.Of.rhs ⟨Value.sound_bool _, h, hr.symm, unstored _, unheld⟩ hc

theorem operation_of {e : Expr} {expected : Option Ty} {i : Ir.Instruction} {type : Ty}
    (hi : i.PrintableRight) (hf : i.readBack.FormedRight) (ht : type.Written)
    (h : type = e.loweredType s expected) (hr : e.isThis = false) (hc : isCall e = false) :
    Rhs.Of s e expected (.operation i type) :=
  ⟨⟨hi, hf, ht⟩, h, hr.symm, fun _ => rfl, (held_of_not_isThis hr).symm,
    fun h' => absurd h' (Bool.eq_false_iff.1 hc)⟩

theorem resultType_written (op : BinaryOp) : op.resultType.Written := by
  rcases op.resultType_cases with h | h
  · exact h ▸ Ty.written_int
  · exact h ▸ Ty.written_boolean

theorem lowerBinary_of {tag : Tag} {op : BinaryOp} {lhs rhs : Expr} {expected : Option Ty}
    {left right : Value} (hl : left.Sound) (hr : right.Sound) :
    Rhs.Of s (.binary tag op lhs rhs) expected (lowerBinary op left right) := by
  simp only [lowerBinary]
  split
  · exact constant_of op.resultType_cases rfl rfl rfl rfl
  · have written := resultType_written op
    refine operation_of ?_ ?_ written rfl rfl rfl
    · exact ⟨hl.operand.printable, written.lowered, hr.operand.printable⟩
    · refine ⟨?_, hl.operand.loads, hr.operand.loads⟩
      cases op <;> exact Ir.Operator.noConfusion

/-- An operator that is computed has numbers for operands, which use nothing. -/
theorem lowerBinary_owes {op : BinaryOp} {left right : Value} (hl : left.Sound)
    (hr : right.Sound) : (lowerBinary op left right).owes wanted =
      left.operand.readBack.uses ++ right.operand.readBack.uses := by
  simp only [lowerBinary]
  split
  · rename_i n h
    obtain ⟨a, ha, h⟩ := Option.bind_eq_some_iff.1 h
    obtain ⟨b, hb, -⟩ := Option.bind_eq_some_iff.1 h
    rw [hl.known (Option.isSome_of_eq_some ha), hr.known (Option.isSome_of_eq_some hb)]
    rfl
  · rfl

theorem lowerNot_of {tag : Tag} {operand : Expr} {expected : Option Ty} {v : Value}
    (hv : v.Sound) : Rhs.Of s (.not tag operand) expected (lowerNot v) := by
  unfold lowerNot
  split
  · exact Value.Of.rhs ⟨Value.sound_bool _, rfl, rfl, fun h => (nomatch h), rfl⟩ rfl
  · refine operation_of ?_ ?_ Ty.written_boolean rfl rfl rfl
    · exact ⟨rfl, trivial, hv.operand.printable⟩
    · exact ⟨rfl, hv.operand.loads⟩

theorem lowerNot_owes {v : Value} (hv : v.Sound) :
    (lowerNot v).owes wanted = v.operand.readBack.uses := by
  unfold lowerNot
  split
  · rename_i n h
    exact (hv.known (Option.isSome_of_eq_some h)).symm
  · rfl

theorem lowerName_emits {tag : Tag} {name : String} {expected : Option Ty}
    (ht : s.table.Written) (hn : IsName name) :
    Emits s.method Line.Plain (lowerName s.table name) (Rhs.owes wanted)
      (Ir.receiverUse (s.isField name)) fun rhs =>
      Rhs.Of s (.name tag name) expected rhs ∧ s.variableType? name = some rhs.type := by
  have word := hn.1
  have other := hn.ne_this
  refine (lookup_emits name).first fun found hfound => ?_
  refine need_emits.first fun x hx => ?_
  have there : s.table.lookup s.method name = some x := by rw [← hfound, hx]
  have written := SymbolTable.written_of_lookup ht there
  have found' := Scope.variableType_of_lookup there
  have typed : x.symbol.type = (Expr.name tag name).loweredType s expected := by
    rw [Expr.loweredType, found']
    rfl
  have field := Scope.isField_of_lookup there
  show Emits s.method _ (if x.origin = .field then pure (Rhs.operation _ _)
    else pure (Rhs.value _)) _ _ _
  rw [field]
  split
  · rename_i hfield
    rw [decide_eq_true hfield]
    refine .answer ⟨operation_of ?_ ?_ written typed rfl rfl, found'⟩ rfl
    · exact ⟨rfl, printable_var word other written.lowered, written.lowered.suffix⟩
    · exact ⟨trivial, rfl⟩
  · rename_i hfield
    have receiver : ((Value.var name x.symbol.type).operand == thisOperand) = false :=
      beq_eq_false_iff_ne.2 fun same => other (Ir.Element.var.inj same).1
    have stored := Value.sound_var word other written
    rw [decide_eq_false hfield]
    refine .answer ⟨Value.Of.rhs ⟨stored, typed, receiver, fun _ => ?_, ?_⟩ rfl, found'⟩ rfl
    · exact bne_iff_ne.2 other
    · exact uses_var other written.lowered

/-! ## Creations and calls -/

/-- A call that can be written, and has a known form once it is read back. -/
structure CallSound (c : Ir.Call) : Prop where
  printable : c.Printable
  formed : c.readBack.Formed

theorem printable_class {name : String} (hn : IsName name) :
    (Ir.Element.var name (.classRef name)).Printable :=
  ⟨rfl, hn.1, hn.ne_this⟩

theorem newObject_sound {className : String} (hn : IsName className) :
    CallSound ⟨.new, some (.var className (.classRef className)), none, [],
      (Ty.ofClass className).lowered⟩ where
  printable :=
    { target := by
        intro e he
        cases he
        exact printable_class hn
      array := fun h => nomatch h
      notArray := fun _ _ => rfl
      method := rfl
      quoted := fun _ h => nomatch h
      args := List.forall_mem_nil _
      returnType := (Ty.written_ofClass hn).lowered }
  formed :=
    { kind := Ir.CallKind.noConfusion
      args := List.forall_mem_nil _
      loaded := fun _ _ h => absurd rfl h
      target := fun h => absurd rfl h
      method := fun h => nomatch h
      size := by
        intro _ h
        exact absurd h (Ty.readBack_ne_array (t := .ofClass className) rfl)
      length := fun h => nomatch h
      named := fun h => nomatch h }

theorem arrayOf_sound {size : Ir.Element} (hs : size.Sound) :
    CallSound ⟨.new, none, none, [size], .array .int32⟩ where
  printable :=
    { target := fun _ h => nomatch h
      array := fun _ => ⟨rfl, List.cons_ne_nil _ _⟩
      notArray := fun _ h => nomatch h
      method := rfl
      quoted := fun _ h => nomatch h
      args := List.forall_mem_singleton.2 hs.printable
      returnType := trivial }
  formed :=
    { kind := Ir.CallKind.noConfusion
      args := List.forall_mem_singleton.2 hs.loads
      loaded := fun _ _ h => absurd rfl h
      target := fun h => absurd rfl h
      method := fun h => nomatch h
      size := fun _ _ => ⟨_, rfl⟩
      length := fun h => nomatch h
      named := fun h => nomatch h }

theorem lengthOf_sound {array : Ir.Element} (ha : array.Sound) :
    CallSound ⟨.arrayLength, some array, none, [], .int32⟩ where
  printable :=
    { target := by
        intro e he
        cases he
        exact ha.printable
      array := fun h => nomatch h
      notArray := fun h => nomatch h
      method := rfl
      quoted := fun _ h => nomatch h
      args := List.forall_mem_nil _
      returnType := trivial }
  formed :=
    { kind := Ir.CallKind.noConfusion
      args := List.forall_mem_nil _
      loaded := by
        intro e he _ _
        cases he
        exact ha.loads
      target := fun _ => rfl
      method := fun h => nomatch h
      size := fun h => nomatch h
      length := fun _ => Ir.ElementType.noConfusion
      named := fun h => nomatch h }

/-- The call of a method, on a loaded receiver or on a class. -/
theorem invocation_sound {kind : Ir.CallKind} {target : Ir.Element} {name : String}
    {args : List Ir.Element} {t : Ir.ElementType} (hk : kind.isInvocation = true)
    (ht : target.Printable) (hl : kind ≠ .invokeStatic → target.readBack.Loads)
    (hc : kind = .invokeStatic → ∃ name, name ≠ "this" ∧ target = .var name (.classRef name))
    (hn : name.toList.all Ir.staysInQuotes = true) (ha : ∀ e ∈ args, e.Sound) (hr : t.Printable) :
    CallSound ⟨kind, some target, some name, args, t⟩ where
  printable :=
    { target := by
        intro e he
        cases he
        exact ht
      array := fun h => nomatch h
      notArray := by
        rintro rfl
        cases hk
      method := hk.symm
      quoted := by
        intro m hm
        cases hm
        exact hn
      args := fun e he => (ha e he).printable
      returnType := hr }
  formed :=
    { kind := by
        rintro rfl
        cases hk
      args := by
        intro e he
        obtain ⟨e', he', rfl⟩ := List.mem_map.1 he
        exact (ha e' he').loads
      loaded := by
        intro e he _ hs
        cases he
        exact hl hs
      target := fun _ => rfl
      method := fun _ => rfl
      size := by
        rintro rfl
        cases hk
      length := by
        rintro rfl
        cases hk
      named := by
        intro hs e he
        cases he
        obtain ⟨className, other, rfl⟩ := hc hs
        exact ⟨className, other, rfl⟩ }

theorem call_emits {c : Ir.Call} (h : CallSound c) :
    Emits method Line.Plain (emit (.call c)) settled (c.readBack.uses false) fun _ => True :=
  emit_emits fun _ => ⟨⟨h.printable, h.formed⟩, rfl⟩

theorem bindCall_emits {c : Ir.Call} {type : Ty} (h : CallSound c) (ht : type.Written) :
    Emits method Line.Plain (Lowering.bind table (.call c) type) settled (c.readBack.uses true)
      fun v => ∃ n, v = .var (tempName n) type :=
  bind_emits h.printable h.formed ht

theorem uses_class {name : String} (hn : IsName name) :
    (Ir.Element.var name (.classRef name)).uses = [] := by
  rw [Ir.Element.uses, beq_eq_false_iff_ne.2 hn.ne_this]
  rfl

theorem lowerNewObject_emits {tag : Tag} {className : String} {expected : Option Ty}
    (hn : IsName className) :
    Emits s.method Line.Plain (lowerNewObject s.table className) (Rhs.owes wanted)
      ([Expr.created className] ++ [Expr.constructed className])
      (Rhs.Of s (.newObject tag className) expected) := by
  have written := Ty.written_ofClass hn
  have created : Emits s.method Line.Plain (Lowering.bind s.table _ _) settled
      [Expr.created className] _ :=
    (bindCall_emits (newObject_sound hn) written).of_eq (congrArg (· ++ [_]) (uses_class hn))
  refine created.andThen fun v hv => ?_
  obtain ⟨n, rfl⟩ := hv
  have other := tempName_ne_this n
  have operand := (Value.sound_var (tempName_isWord n) other written).operand
  have constructor : CallSound ⟨.invokeSpecial, some (Value.var (tempName n) _).operand,
      some "<init>", [], .void⟩ :=
    invocation_sound (rfl : Ir.CallKind.invokeSpecial.isInvocation = true) operand.printable
      (fun _ => operand.loads) (fun h => nomatch h)
      (rfl : "<init>".toList.all Ir.staysInQuotes = true)
      (List.forall_mem_nil _) (trivial : Ir.ElementType.void.Printable)
  have constructed : Emits s.method Line.Plain (emit _) settled [Expr.constructed className] _ :=
    (call_emits constructor).of_eq (congrArg (· ++ [_]) (uses_var other written.lowered))
  exact constructed.done fun _ _ => .answer ((temp_of written rfl rfl).rhs rfl) rfl

theorem arrayLength_emits {tag : Tag} {array : Expr} {expected : Option Ty} {a : Value}
    (ha : Value.Of s array (some .intArray) a) :
    Emits s.method Line.Plain
      (Lowering.bind s.table (lengthOf a) .int >>= fun v => pure (Rhs.value v)) (Rhs.owes wanted)
      (array.held ++ [.call ⟨.arrayLength, some (array.operandType s (some .intArray)), none, [],
        .int32, true⟩]) (Rhs.Of s (.length tag array) expected) := by
  have measured := @bindCall_emits s.table s.method _ _ (lengthOf_sound ha.sound.operand)
    Ty.written_int
  refine (measured.of_eq ?_).done fun v hv => ?_
  · rw [← ha.held, ← ha.operandType]
    rfl
  · obtain ⟨n, rfl⟩ := hv
    exact .answer ((temp_of Ty.written_int rfl rfl).rhs rfl) rfl

theorem newArray_emits {tag : Tag} {size : Expr} {expected : Option Ty} {n : Value}
    (hn : Value.Of s size (some .int) n) :
    Emits s.method Line.Plain
      (Lowering.bind s.table (arrayOf n) .intArray >>= fun v => pure (Rhs.value v))
      (Rhs.owes wanted)
      (size.held ++ [.call ⟨.new, none, none, [size.operandType s (some .int)], .array .int32,
        true⟩]) (Rhs.Of s (.newArray tag size) expected) := by
  have created := @bindCall_emits s.table s.method _ _ (arrayOf_sound hn.sound.operand)
    Ty.written_intArray
  refine (created.of_eq ?_).done fun v hv => ?_
  · rw [← hn.held, ← hn.operandType, ← List.flatMap_singleton Ir.Element.uses]
    rfl
  · obtain ⟨k, rfl⟩ := hv
    exact .answer ((temp_of Ty.written_intArray rfl rfl).rhs rfl) rfl

/-- The receiver is what a call with the target is made on. -/
structure Receiver.Of (s : Scope) (target : Expr) (r : Receiver) : Prop where
  kind : r.kind = if target.namesClass s then .invokeStatic else .invokeVirtual
  printable : r.operand.Printable
  loads : r.kind ≠ .invokeStatic → r.operand.readBack.Loads
  type : r.type = if target.namesClass s then none else some (target.loweredType s none)
  operandType : r.operand.readBack.type =
    if target.namesClass s then .classRef (target.asName?.getD "") else target.operandType s none
  held : r.operand.readBack.uses = target.held
  named : r.kind = .invokeStatic → ∃ name, name ≠ "this" ∧ r.operand = .var name (.classRef name)

theorem not_isThis_of_asName {e : Expr} {name : String} (h : e.asName? = some name) :
    e.isThis = false := by
  unfold Expr.asName? at h
  unfold Expr.isThis
  split at h
  · rename_i hu
    rw [hu]
  · cases h

theorem Receiver.of_class {target : Expr} {name : String} (hn : IsName name)
    (ht : target.asName? = some name) (h : target.namesClass s = true) :
    Receiver.Of s target (.ofClass name) where
  kind := by rw [if_pos h]; rfl
  printable := printable_class hn
  loads := fun h => absurd rfl h
  type := by rw [if_pos h]; rfl
  operandType := by rw [if_pos h, ht]; rfl
  held := by
    rw [held_of_not_isThis (not_isThis_of_asName ht)]
    exact uses_class hn
  named := fun _ => ⟨name, hn.ne_this, rfl⟩

theorem Receiver.of_value {target : Expr} {v : Value} (hv : Value.Of s target none v)
    (h : target.namesClass s = false) : Receiver.Of s target (.ofValue v) := by
  have value : ¬ target.namesClass s = true := Bool.eq_false_iff.1 h
  exact
    { kind := by rw [if_neg value]; rfl
      printable := hv.sound.operand.printable
      loads := fun _ => hv.sound.operand.loads
      type := by rw [if_neg value, ← hv.type]; rfl
      operandType := by rw [if_neg value]; exact hv.operandType
      held := hv.held
      named := fun h => nomatch h }

theorem Receiver.Of.signature {target : Expr} {r : Receiver} {method : String}
    (h : Receiver.Of s target r) : r.signature? s.table method = target.called? s method := by
  rw [Receiver.signature?, h.type]
  rfl

theorem Receiver.Of.invokes {target : Expr} {r : Receiver} (h : Receiver.Of s target r) :
    r.kind.isInvocation = true := by
  rw [h.kind]
  split <;> rfl

theorem targetClass_emits {target : Expr} (hn : target.Named) :
    Emits s.method Line.Plain (targetClass? s.table target) settled [] fun named =>
      named = none ∧ target.namesClass s = false ∨
        ∃ name, named = some name ∧ target.asName? = some name ∧ IsName name ∧
          target.namesClass s = true := by
  unfold targetClass? Expr.namesClass
  cases hname : target.asName? with
  | none => exact .answer (.inl ⟨rfl, rfl⟩) rfl
  | some name =>
      refine (lookup_emits name).first fun found hfound => ?_
      have same : s.lookup name = found := hfound.symm
      show Emits s.method _ _ _ _ fun named => named = none ∧ (s.lookup name).isNone = false ∨
        ∃ name', named = some name' ∧ some name = some name' ∧ IsName name' ∧
          (s.lookup name).isNone = true
      rw [same]
      cases found with
      | none => exact .answer (.inr ⟨name, rfl, rfl, asName_named hn hname, rfl⟩) rfl
      | some found => exact .answer (.inl ⟨rfl, rfl⟩) rfl

/-- A call that takes its types from a method takes them from the first one of that name. -/
theorem method_of_called {target : Expr} {method : String} {signature : Signature}
    (h : target.called? s method = some signature) : s.table.method? method = some signature := by
  unfold Expr.called? at h
  generalize (if target.namesClass s then none else some (target.loweredType s none)) = r at h
  unfold Expr.signature? at h
  split at h
  · exact h
  · cases h

theorem mem_of_called {target : Expr} {method : String} {signature : Signature}
    (h : target.called? s method = some signature) : signature ∈ s.table.methods :=
  List.mem_of_find?_eq_some (method_of_called h)

theorem written_of_params (ht : s.table.Written) (target : Expr) (method : String) :
    ∀ p ∈ ((target.called? s method).map (·.params)).getD [], p.type.Written := by
  intro p hp
  cases hc : target.called? s method with
  | none =>
      rw [hc] at hp
      cases hp
  | some signature =>
      rw [hc] at hp
      exact (ht.params signature (mem_of_called hc) p hp).2

theorem written_of_callType (ht : s.table.Written) (target : Expr) (method : String)
    {expected : Option Ty} (he : ∀ t, expected = some t → t.Written) :
    (callType (target.called? s method) expected).Written := by
  cases hc : target.called? s method with
  | some signature => exact ht.returns signature (mem_of_called hc)
  | none =>
      cases expected with
      | none => exact Ty.written_void
      | some t => exact he t rfl

/-- The operands that arguments leave. -/
structure Passed (s : Scope) (args : List Expr) (params : List Symbol) (es : List Ir.Element) :
    Prop where
  sound : ∀ e ∈ es, e.Sound
  types : (es.map Ir.Element.readBack).map Ir.Element.type = Expr.operandTypes s args params
  held : (es.map Ir.Element.readBack).flatMap Ir.Element.uses = args.flatMap Expr.held

theorem Passed.nil (params : List Symbol) : Passed s [] params [] :=
  ⟨List.forall_mem_nil _, rfl, rfl⟩

theorem Passed.cons {arg : Expr} {args : List Expr} {params : List Symbol} {v : Value}
    {es : List Ir.Element} (hv : Value.Of s arg (params.head?.map (·.type)) v)
    (h : Passed s args params.tail es) : Passed s (arg :: args) params (v.operand :: es) where
  sound := List.forall_mem_cons.2 ⟨hv.sound.operand, h.sound⟩
  types := by
    rw [List.map_cons, List.map_cons, h.types, hv.operandType]
    rfl
  held := by
    rw [List.map_cons, List.flatMap_cons, h.held, hv.held]
    rfl

theorem invoked_emits (tag : Tag) {target : Expr} {name : String} {args : List Expr}
    {expected : Option Ty} {r : Receiver} (hr : Receiver.Of s target r) (hn : IsName name)
    (hargs : Emits s.method Line.Plain
      (lowerArguments s.table args (Expr.expectedParams s target name)) settled us
      (Passed s args (Expr.expectedParams s target name)))
    (ht : (callType (target.called? s name) expected).Written) :
    Emits s.method Line.Plain (do
      let declared := r.signature? s.table name
      let operands ← lowerArguments s.table args ((declared.map (·.params)).getD [])
      let type := callType declared expected
      pure (.operation (.call ⟨r.kind, some r.operand, some name, operands, type.lowered⟩) type))
      (Rhs.owes wanted)
      (us ++ (target.held ++ (args.flatMap Expr.held ++
        [.call (Expr.outline s target name args expected wanted)])))
      (Rhs.Of s (.call tag target name args) expected) := by
  simp only [hr.signature]
  refine hargs.andThen fun es hes => ?_
  have sound := invocation_sound hr.invokes hr.printable hr.loads hr.named (quoted_of_isWord hn.1)
    hes.sound ht.lowered
  have placed : Rhs.Of s (.call tag target name args) expected (.operation (.call _) _) :=
    ⟨⟨sound.printable, sound.formed, ht⟩, rfl, rfl, fun _ => rfl, rfl, fun _ => ⟨_, _, rfl⟩⟩
  have outline : Expr.outline s target name args expected wanted = ⟨r.kind,
      some r.operand.readBack.type, some name, (es.map Ir.Element.readBack).map Ir.Element.type,
      (callType (target.called? s name) expected).lowered.readBack, wanted⟩ := by
    rw [hr.kind, hr.operandType, hes.types]
    rfl
  refine .answer placed ?_
  rw [outline, ← hr.held, ← hes.held]
  rfl

/-! ## Expressions -/

theorem written_operandType (op : BinaryOp) : op.operandType.Written := by
  cases op with
  | and => exact Ty.written_boolean
  | add | sub | mul | div | lt => exact Ty.written_int

theorem written_expected {type : Ty} (h : type.Written) : ∀ t, some type = some t → t.Written := by
  rintro t ⟨⟩
  exact h

/-- An element of an array uses what its index uses. -/
theorem uses_item {a i : Value} {us : List Ir.Use} (ha : a.Sound)
    (hs : Lowering.isStored a.operand = true) (hi : i.operand.readBack.uses = us) :
    (Value.item a i).operand.readBack.uses = us := by
  have other := (arrayName_word ha.operand.printable hs).2
  show Ir.receiverUse (a.arrayName == "this") ++ i.operand.readBack.uses = us
  rw [beq_eq_false_iff_ne.2 other, hi]
  rfl

mutual

theorem lowerRhs_emits (ht : s.table.Written) : ∀ (e : Expr) {expected : Option Ty}
    (wanted : Bool), e.Named → e.Indexable → (∀ t, expected = some t → t.Written) →
    Emits s.method Line.Plain (lowerRhs s.table e expected) (Rhs.owes wanted)
      (e.uses s wanted expected) (Rhs.Of s e expected)
  | .int tag n, expected, wanted, _, _, _ => by
      rw [lowerRhs, Expr.uses]
      exact .answer (Value.Of.rhs ⟨Value.sound_int n, rfl, rfl, fun h => (nomatch h), rfl⟩ rfl) rfl
  | .bool tag b, expected, wanted, _, _, _ => by
      rw [lowerRhs, Expr.uses]
      exact .answer (Value.Of.rhs ⟨Value.sound_bool b, rfl, rfl, fun h => (nomatch h), rfl⟩ rfl) rfl
  | .this tag, expected, wanted, _, _, _ => by
      rw [lowerRhs, Expr.uses]
      have sound := Value.sound_this ht.className
      exact .answer (Value.Of.rhs ⟨sound, rfl, rfl, fun h => (nomatch h), rfl⟩ rfl) rfl
  | .name tag name, expected, wanted, hn, _, _ => by
      rw [lowerRhs, Expr.uses]
      exact (lowerName_emits ht hn).mono fun _ h => h.1
  | .paren tag inner, expected, wanted, hn, hi, he => by
      rw [lowerRhs, Expr.uses]
      refine (lowerRhs_emits ht inner wanted hn hi he).mono fun rhs h => ?_
      exact ⟨h.sound, h.type, h.receiver, h.stored, h.held, h.call⟩
  | .binary tag op lhs rhs, expected, wanted, hn, hi, _ => by
      rw [lowerRhs, Expr.uses]
      have typed := written_expected (written_operandType op)
      refine (lowerRhs_emits ht lhs true hn.1 hi.1 typed).bind fun l hl => ?_
      refine (asValue_emits hl).andThen fun left hleft => ?_
      refine (lowerRhs_emits ht rhs true hn.2 hi.2 typed).bind fun r hr => ?_
      refine (asValue_emits hr).andThen fun right hright => ?_
      refine .answer (lowerBinary_of hleft.sound hright.sound) ?_
      rw [lowerBinary_owes hleft.sound hright.sound, hleft.held, hright.held]
  | .not tag operand, expected, wanted, hn, hi, _ => by
      rw [lowerRhs, Expr.uses]
      have typed := written_expected Ty.written_boolean
      refine (lowerRhs_emits ht operand true hn hi typed).bind fun r hr => ?_
      refine (asValue_emits hr).andThen fun v hv => ?_
      exact .answer (lowerNot_of hv.sound) ((lowerNot_owes hv.sound).trans hv.held)
  | .index tag array i, expected, wanted, hn, hi, _ => by
      rw [lowerRhs, Expr.uses]
      have arrayTyped := written_expected Ty.written_intArray
      have indexTyped := written_expected Ty.written_int
      refine (lowerRhs_emits ht array true hn.1 hi.2.1 arrayTyped).bind fun l hl => ?_
      refine (asOperand_emits hl).andThen fun a ha => ?_
      refine (lowerRhs_emits ht i true hn.2 hi.2.2.2 indexTyped).pay fun r hr => ?_
      refine (asOperand_emits hr).done fun i' hi' => ?_
      have sound := Value.sound_item ha.sound (ha.stored hi.1) hi'.sound
      have typed := congrArg Ty.element ha.type
      have held := uses_item ha.sound (ha.stored hi.1) (hi'.held.trans (held_of_not_isThis hi.2.2.1))
      exact .answer (Value.Of.rhs ⟨sound, typed, rfl, fun _ => rfl, held⟩ rfl) rfl
  | .length tag array, expected, wanted, hn, hi, _ => by
      rw [lowerRhs, Expr.uses]
      have typed := written_expected Ty.written_intArray
      refine (lowerRhs_emits ht array true hn hi typed).bind fun r hr => ?_
      exact (asOperand_emits hr).andThen fun a ha => arrayLength_emits ha
  | .newArray tag size, expected, wanted, hn, hi, _ => by
      rw [lowerRhs, Expr.uses]
      have typed := written_expected Ty.written_int
      refine (lowerRhs_emits ht size true hn hi typed).bind fun r hr => ?_
      exact (asOperand_emits hr).andThen fun n hn => newArray_emits hn
  | .newObject tag className, expected, wanted, hn, _, _ => by
      rw [lowerRhs, Expr.uses]
      exact lowerNewObject_emits hn
  | .call tag target name args, expected, wanted, hn, hi, he => by
      rw [lowerRhs, Expr.uses]
      have typed := written_of_callType ht target name he
      have passed := lowerArguments_emits ht args _ hn.2.2 hi.2 (written_of_params ht target name)
      have called : ∀ r, Receiver.Of s target r → Emits s.method _ _ (Rhs.owes wanted) _ _ :=
        fun r hr => invoked_emits tag hr hn.2.1 passed typed
      refine (targetClass_emits hn.1).first fun named hnamed => ?_
      rcases hnamed with ⟨rfl, hvalue⟩ | ⟨className, rfl, hname, hclass, hnames⟩
      · rw [hvalue, if_neg Bool.false_ne_true]
        have untyped : ∀ t, (none : Option Ty) = some t → t.Written := by
          rintro t ⟨⟩
        refine (lowerRhs_emits ht target true hn.1 hi.1 untyped).bind fun r hr => ?_
        refine (asOperand_emits hr).andThen fun v hv => ?_
        exact Emits.first (.answer (Receiver.of_value hv hvalue) rfl) called
      · rw [if_pos hnames, List.nil_append]
        exact Emits.first (.answer (Receiver.of_class hclass hname hnames) rfl) called

theorem lowerArguments_emits (ht : s.table.Written) : ∀ (args : List Expr) (params : List Symbol),
    Expr.NamedAll args → Expr.IndexableAll args → (∀ p ∈ params, p.type.Written) →
    Emits s.method Line.Plain (lowerArguments s.table args params) settled
      (Expr.usesIn s args params) (Passed s args params)
  | [], params, _, _, _ => .pure (.nil params)
  | arg :: args, params, hn, hi, hp => by
      rw [lowerArguments, Expr.usesIn]
      have typed : ∀ t, params.head?.map (·.type) = some t → t.Written := by
        intro t h
        obtain ⟨p, hhead, rfl⟩ := Option.map_eq_some_iff.1 h
        exact hp p (List.mem_of_head? hhead)
      have others : ∀ p ∈ params.tail, p.type.Written := fun p h => hp p (List.mem_of_mem_tail h)
      refine (lowerRhs_emits ht arg true hn.1 hi.1 typed).bind fun r hr => ?_
      refine (asOperand_emits hr).andThen fun v hv => ?_
      refine (lowerArguments_emits ht args params.tail hn.2 hi.2 others).done fun es hes => ?_
      exact .answer (.cons hv hes) rfl

end

theorem lowerValue_emits (ht : s.table.Written) {e : Expr} {expected : Option Ty} (hn : e.Named)
    (hi : e.Indexable) (he : ∀ t, expected = some t → t.Written) :
    Emits s.method Line.Plain (lowerValue s.table e expected) settled (e.uses s true expected)
      (Value.Of s e expected) :=
  (lowerRhs_emits ht e true hn hi he).pay fun _ h => asValue_emits h

theorem lowerOperand_emits (ht : s.table.Written) {e : Expr} {expected : Option Ty} (hn : e.Named)
    (hi : e.Indexable) (he : ∀ t, expected = some t → t.Written) :
    Emits s.method Line.Plain (lowerOperand s.table e expected) settled (e.uses s true expected)
      (Value.Of s e expected) :=
  (lowerRhs_emits ht e true hn hi he).pay fun _ h => asOperand_emits h

end Lowering

end JavaMinus
