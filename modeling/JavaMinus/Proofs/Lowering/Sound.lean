/-
# The operands that lowering makes

The operands of lines can be written and read back, and loaded once they are read
(`Element.Sound`), and a value is such an operand with a type that can be written (`Value.Sound`).

Names are words, and an array that is indexed is a variable: a number, an operator or the receiver
is refused as an array by the checks.
-/
import JavaMinus.Proofs.Ir.Numeral
import JavaMinus.Proofs.Lowering.Uses

namespace JavaMinus

open Source Character

/-! ## Words -/

theorem Source.IsName.ne_this {name : String} (h : IsName name) : name ≠ "this" := by
  rintro rfl
  exact h.free .kThis rfl

theorem continuesName_of_isDigit {c : Char} (h : c.isDigit = true) : continuesName c = true := by
  rw [continuesName, h, Bool.or_true]

theorem isWord_numbered {family : String} (hf : isWord family.toList = true) (n : Nat) :
    isWord (family ++ toString n).toList = true := by
  have digits := Ir.toDigits_all_isDigit n
  rw [String.toList_append, Nat.toString_eq_repr, Nat.toList_repr]
  cases hcs : family.toList with
  | nil =>
      rw [hcs] at hf
      cases hf
  | cons c cs =>
      rw [hcs, isWord_cons, Bool.and_eq_true] at hf
      rw [List.cons_append, isWord_cons, List.all_append, hf.1, hf.2, Bool.true_and, Bool.true_and]
      exact List.all_eq_true.2 fun d hd =>
        continuesName_of_isDigit (List.all_eq_true.1 digits d hd)

theorem quoted_of_isWord {name : String} (h : isWord name.toList = true) :
    name.toList.all Ir.staysInQuotes = true := by
  have stays : ∀ c, continuesName c = true → Ir.staysInQuotes c = true := by
    intro c hc
    rw [Ir.staysInQuotes, Bool.and_eq_true, bne_iff_ne, bne_iff_ne]
    constructor
    · rintro rfl
      cases hc
    · rintro rfl
      cases hc
  cases hcs : name.toList with
  | nil => rfl
  | cons c cs =>
      rw [hcs, isWord_cons, Bool.and_eq_true] at h
      rw [List.all_cons, Bool.and_eq_true]
      refine ⟨stays c ?_, List.all_eq_true.2 fun d hd => stays d (List.all_eq_true.1 h.2 d hd)⟩
      rw [continuesName, h.1, Bool.true_or]

theorem tempName_isWord (n : Nat) : isWord (Lowering.tempName n).toList = true :=
  isWord_numbered rfl n

theorem tempName_ne_this (n : Nat) : Lowering.tempName n ≠ "this" := by
  intro h
  have letters := congrArg String.toList h
  rw [Lowering.tempName, String.toList_append] at letters
  exact absurd (List.cons.inj (List.cons.inj letters).2).1 (by decide)

/-- A word is written as a number. -/
theorem isInteger_toString (n : Int32) : Ir.isInteger (toString n.toInt).toList = true := by
  have all := Ir.toDigits_all_isDigit
  have digits : ∀ m : Nat, ∃ c cs, Nat.toDigits 10 m = c :: cs ∧ c.isDigit = true ∧
      cs.all Char.isDigit = true := by
    intro m
    obtain ⟨c, cs, hcs⟩ := List.exists_cons_of_ne_nil (Nat.toDigits_ne_nil (n := m) (b := 10))
    have each := all m
    rw [hcs, List.all_cons, Bool.and_eq_true] at each
    exact ⟨c, cs, hcs, each⟩
  rw [Int.toString_eq_repr, Int.repr_eq_if]
  split
  · obtain ⟨c, cs, hcs, hc, hds⟩ := digits n.toInt.toNat
    rw [Nat.toList_repr, hcs, Ir.isInteger, hc, hds]
    rfl
  · obtain ⟨c, cs, hcs, hc, hds⟩ := digits (-n.toInt).toNat
    have text : ("-" ++ (-n.toInt).toNat.repr).toList = '-' :: c :: cs := by
      rw [String.toList_append, Nat.toList_repr, hcs]
      rfl
    rw [text, Ir.isInteger, List.all_cons, hc, hds]
    rfl

/-! ## Types -/

/-- The type can be written: its name is a name or the word of a type that is not a class. -/
def Ty.Written (t : Ty) : Prop := t.name = "static void" ∨ t.Named

namespace Ty

theorem Named.written {t : Ty} (h : t.Named) : t.Written := .inr h

theorem Written.element {t : Ty} (h : t.Written) : t.element.Written := h

theorem base_printable {t : Ty} (h : t.Written) : (lowered.base t.name).Printable := by
  rcases h with h | h | h | h | h
  · rw [h]; trivial
  · rw [h]; trivial
  · rw [h]; trivial
  · rw [h]; trivial
  · by_cases hb : t.name ∈ ["int", "boolean", "void", "static void", "String"]
    · simp only [List.mem_cons, List.not_mem_nil, or_false] at hb
      rcases hb with hb | hb | hb | hb | hb <;> rw [hb] <;> trivial
    · rw [base_other hb]
      exact h.1

theorem Written.lowered {t : Ty} (h : t.Written) : t.lowered.Printable := by
  unfold Ty.lowered
  split
  · exact base_printable h
  · exact base_printable h

theorem written_ofClass {name : String} (h : IsName name) : (ofClass name).Written :=
  .inr (.inr (.inr (.inr h)))

theorem written_int : int.Written := .inr (.inl rfl)

theorem written_intArray : intArray.Written := .inr (.inl rfl)

theorem written_boolean : boolean.Written := .inr (.inr (.inl rfl))

theorem written_void : void.Written := .inr (.inr (.inr (.inl rfl)))

end Ty

/-! ## Operands -/

namespace Ir

/-- An operand that can be written, and loaded once it is read back. -/
structure Element.Sound (e : Element) : Prop where
  printable : e.Printable
  loads : e.readBack.Loads

theorem Element.type_readBack (e : Element) : e.readBack.type = e.type.readBack := by
  cases e <;> rfl

/-- No type that is read is that of the receiver or a bare class. -/
theorem assignable_readBack {name : String} {t : ElementType} (hn : name ≠ "this")
    (ht : t.Printable) : (Element.var name t.readBack).Assignable := by
  cases t with
  | object className =>
      show (Element.var name (.ofWord className)).Assignable
      by_cases h : className ∈ ["i32", "bool", "V", "String"]
      · simp only [List.mem_cons, List.not_mem_nil, or_false] at h
        rcases h with rfl | rfl | rfl | rfl <;> exact hn
      · rw [ElementType.ofWord_other h]
        exact hn
  | int32 | boolean | string | void | array => exact hn
  | classRef | this => exact ht.elim

theorem Element.Assignable.loads {e : Element} (h : e.Assignable) : e.Loads := by
  cases e with
  | literal => exact h.elim
  | item => exact h
  | var name t =>
      cases t with
      | this | classRef => exact h.elim
      | int32 | boolean | string | void | array | object => exact h

end Ir

theorem printable_var {name : String} {t : Ir.ElementType} (hw : isWord name.toList = true)
    (hn : name ≠ "this") (ht : t.Printable) : (Ir.Element.var name t).Printable := by
  cases t with
  | classRef | this => exact ht.elim
  | int32 | boolean | string | void | array | object => exact ⟨hw, hn, ht⟩

theorem sound_var {name : String} {t : Ty} (hw : isWord name.toList = true) (hn : name ≠ "this")
    (ht : t.Written) : (Ir.Element.var name t.lowered).Sound :=
  ⟨printable_var hw hn ht.lowered, (Ir.assignable_readBack hn ht.lowered).loads⟩

theorem sound_literal {n : Int32} {t : Ir.ElementType} (ht : t = .int32 ∨ t = .boolean) :
    (Ir.Element.literal (toString n.toInt) t).Sound := by
  have read : (Ir.numeral? (toString n.toInt)).isSome := by
    rw [Ir.numeral?_toString]
    rfl
  rcases ht with rfl | rfl
  · exact ⟨.inl ⟨isInteger_toString n, trivial⟩, rfl, read⟩
  · exact ⟨.inl ⟨isInteger_toString n, trivial⟩, rfl, read⟩

theorem sound_this : Lowering.thisOperand.Sound := ⟨rfl, trivial⟩

theorem sound_item {array : String} {index : Ir.Element} {t : Ty}
    (hw : isWord array.toList = true) (hn : array ≠ "this") (hi : index.Sound) (ht : t.Written) :
    (Ir.Element.item array index t.lowered).Sound :=
  ⟨⟨hw, hn, hi.printable, ht.lowered⟩, hn, hi.loads⟩

namespace Lowering

/-- The operand is a variable or an element of an array. -/
def isStored : Ir.Element → Bool
  | .literal .. => false
  | .var name _ => name != "this"
  | .item .. => true

/-- A value as lowering leaves it. -/
structure Value.Sound (v : Value) : Prop where
  operand : v.operand.Sound
  type : v.type.Written
  /-- Only the receiver has another operand type than that of its own type. -/
  typed : v.operand = thisOperand ∨ v.operand.type = v.type.lowered
  /-- A constant is a number. -/
  known : v.literal.isSome → v.operand.readBack.uses = []

theorem Value.sound_int (n : Int32) : (Value.int n).Sound :=
  ⟨sound_literal (.inl rfl), Ty.written_int, .inr rfl, fun _ => rfl⟩

theorem Value.sound_bool (b : Bool) : (Value.bool b).Sound :=
  ⟨sound_literal (.inr rfl), Ty.written_boolean, .inr rfl, fun _ => rfl⟩

theorem Value.sound_var {name : String} {t : Ty} (hw : isWord name.toList = true)
    (hn : name ≠ "this") (ht : t.Written) : (Value.var name t).Sound :=
  ⟨JavaMinus.sound_var hw hn ht, ht, .inr rfl, fun h => nomatch h⟩

theorem Value.sound_this {className : String} (h : IsName className) :
    (Value.this className).Sound :=
  ⟨JavaMinus.sound_this, Ty.written_ofClass h, .inl rfl, fun h => nomatch h⟩

theorem arrayName_word {v : Value} (hv : v.operand.Printable) (hs : isStored v.operand = true) :
    isWord v.arrayName.toList = true ∧ v.arrayName ≠ "this" := by
  obtain ⟨operand, type, literal⟩ := v
  cases operand with
  | literal value t => cases hs
  | item array index t => exact ⟨hv.1, hv.2.1⟩
  | var name t =>
      have hn : name ≠ "this" := bne_iff_ne.1 hs
      cases t with
      | this => exact absurd hv hn
      | classRef className => exact ⟨hv.2.1, hn⟩
      | int32 | boolean | string | void | array | object => exact ⟨hv.1, hn⟩

theorem Value.sound_item {a i : Value} (ha : a.Sound) (hs : isStored a.operand = true)
    (hi : i.Sound) : (Value.item a i).Sound := by
  obtain ⟨hw, hn⟩ := arrayName_word ha.operand.printable hs
  exact ⟨JavaMinus.sound_item hw hn hi.operand ha.type.element, ha.type.element, .inr rfl,
    fun h => nomatch h⟩

end Lowering

end JavaMinus
