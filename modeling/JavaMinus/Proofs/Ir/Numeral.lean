/-
# Numbers as they are written

A word that is written is read back as the same word, and no two numbers are written alike.  So names
that are made of a family and a number are different if the numbers are, whichever family they are of
(`Numbered`).
-/
import JavaMinus.Ir.Unit

namespace JavaMinus.Ir

theorem decimal_toDigits (n : Nat) : Character.decimal (Nat.toDigits 10 n) = n :=
  Nat.ofDigitChars_ten_toDigits

theorem toDigits_all_isDigit (n : Nat) : (Nat.toDigits 10 n).all Char.isDigit := by
  rw [List.all_eq_true]
  exact fun c hc => Nat.isDigit_of_mem_toDigits (by decide) (by decide) hc

theorem ranged_toDigits {n : Nat} {sign : Int} (h : -2147483648 ≤ sign * n)
    (h' : sign * n ≤ 2147483647) :
    numeral?.ranged (Nat.toDigits 10 n) sign = some (Int32.ofInt (sign * n)) := by
  have some := Nat.toDigits_ne_nil (n := n) (b := 10)
  rw [numeral?.ranged, if_neg (by simp [toDigits_all_isDigit, some])]
  simp only [decimal_toDigits, if_pos (And.intro h h')]

theorem numeral?_of_digits {text : String} {n : Nat} (h : text.toList = Nat.toDigits 10 n) :
    numeral? text = numeral?.ranged (Nat.toDigits 10 n) 1 := by
  have digits := toDigits_all_isDigit n
  rw [List.all_eq_true] at digits
  unfold numeral?
  rw [h]
  split
  · rename_i ds heq
    exact absurd (digits '-' (by simp [heq])) (by decide)
  · rename_i ds heq
    exact absurd (digits '+' (by simp [heq])) (by decide)
  · rfl

/-- Reading what is written for a word gives the word. -/
theorem numeral?_toString (n : Int32) : numeral? (toString n.toInt) = some n := by
  have low := n.le_toInt
  have high := n.toInt_lt
  rw [Int.toString_eq_repr, Int.repr_eq_if]
  split
  · rename_i hpos
    have same : (1 : Int) * n.toInt.toNat = n.toInt := by omega
    rw [numeral?_of_digits Nat.toList_repr, ranged_toDigits (by omega) (by omega), same,
      Int32.ofInt_toInt]
  · rename_i hneg
    have same : (-1 : Int) * (-n.toInt).toNat = n.toInt := by omega
    have digits : ("-" ++ (-n.toInt).toNat.repr).toList =
        '-' :: Nat.toDigits 10 (-n.toInt).toNat := by
      rw [String.toList_append, Nat.toList_repr]
      rfl
    rw [numeral?, digits]
    show numeral?.ranged (Nat.toDigits 10 (-n.toInt).toNat) (-1) = some n
    rw [ranged_toDigits (by omega) (by omega), same, Int32.ofInt_toInt]

/-- Numbers that are written alike are the same. -/
theorem toString_injective {m n : Nat} (h : toString m = toString n) : m = n := by
  have digits := congrArg String.toList h
  rw [Nat.toString_eq_repr, Nat.toString_eq_repr, Nat.toList_repr, Nat.toList_repr] at digits
  calc
    m = Character.decimal (Nat.toDigits 10 m) := (decimal_toDigits m).symm
    _ = Character.decimal (Nat.toDigits 10 n) := by rw [digits]
    _ = n := decimal_toDigits n

/-- The text does not end in a digit: a number after it can be told from it. -/
def endsPlain (text : List Char) : Bool := text.getLast?.all fun c => !c.isDigit

theorem no_digits_between {cs ds : List Char} {as : List Char} (h : endsPlain (as ++ cs) = true)
    (hd : (cs ++ ds).all Char.isDigit = true) : cs = [] := by
  cases hl : cs.getLast? with
  | none => exact List.getLast?_eq_none_iff.1 hl
  | some c =>
      rw [List.all_append, Bool.and_eq_true, List.all_eq_true] at hd
      have digit := hd.1 c (List.mem_of_getLast? hl)
      rw [endsPlain, List.getLast?_append, hl, Option.some_or, Option.all_some, digit] at h
      cases h

theorem digits_after_injective {as bs ds es : List Char} (ha : endsPlain as = true)
    (hb : endsPlain bs = true) (hd : ds.all Char.isDigit = true) (he : es.all Char.isDigit = true)
    (h : as ++ ds = bs ++ es) : as = bs ∧ ds = es := by
  rcases List.append_eq_append_iff.1 h with ⟨cs, rfl, rfl⟩ | ⟨cs, rfl, rfl⟩
  · obtain rfl := no_digits_between hb hd
    exact ⟨(List.append_nil as).symm, rfl⟩
  · obtain rfl := no_digits_between ha he
    exact ⟨List.append_nil bs, rfl⟩

/-- A numbered word tells the word and the number. -/
theorem numbered_injective {a b : String} {m n : Nat} (ha : endsPlain a.toList = true)
    (hb : endsPlain b.toList = true) (h : a ++ toString m = b ++ toString n) : a = b ∧ m = n := by
  have lists := congrArg String.toList h
  rw [String.toList_append, String.toList_append] at lists
  have digits : ∀ k : Nat, (toString k).toList.all Char.isDigit = true := by
    intro k
    rw [Nat.toString_eq_repr, Nat.toList_repr]
    exact toDigits_all_isDigit k
  obtain ⟨words, numbers⟩ := digits_after_injective ha hb (digits m) (digits n) lists
  exact ⟨String.toList_inj.1 words, toString_injective (String.toList_inj.1 numbers)⟩

/-- The names are all different, and each is that of a family with a number from `low` on and below
`high`. -/
structure Numbered (families : List String) (low high : Nat) (names : List String) : Prop where
  distinct : names.Nodup
  ranged : ∀ name ∈ names, ∃ family ∈ families, endsPlain family.toList = true ∧
    ∃ n, low ≤ n ∧ n < high ∧ name = family ++ toString n

namespace Numbered

variable {families names names' : List String} {low mid high n : Nat} {family family' : String}

theorem nil : Numbered families low high [] := ⟨List.nodup_nil, List.forall_mem_nil _⟩

theorem perm (h : Numbered families low high names) (same : names'.Perm names) :
    Numbered families low high names' where
  distinct := same.nodup_iff.2 h.distinct
  ranged name hn := h.ranged name (same.mem_iff.1 hn)

theorem append (h : Numbered families low mid names) (h' : Numbered families mid high names')
    (hl : low ≤ mid) (hh : mid ≤ high) : Numbered families low high (names ++ names') where
  distinct := by
    refine List.nodup_append.2 ⟨h.distinct, h'.distinct, ?_⟩
    rintro name hn other ho rfl
    obtain ⟨family, -, plain, m, -, below, rfl⟩ := h.ranged _ hn
    obtain ⟨family', -, plain', n, above, -, same⟩ := h'.ranged _ ho
    have equal : m = n := (numbered_injective plain plain' same).2
    omega
  ranged := by
    refine List.forall_mem_append.2 ⟨fun name hn => ?_, fun name hn => ?_⟩
    · obtain ⟨family, hf, plain, n, above, below, rfl⟩ := h.ranged name hn
      exact ⟨family, hf, plain, n, above, Nat.lt_of_lt_of_le below hh, rfl⟩
    · obtain ⟨family, hf, plain, n, above, below, rfl⟩ := h'.ranged name hn
      exact ⟨family, hf, plain, n, Nat.le_trans hl above, below, rfl⟩

theorem singleton (hf : family ∈ families) (plain : endsPlain family.toList = true) :
    Numbered families n (n + 1) [family ++ toString n] where
  distinct := List.nodup_cons.2 ⟨List.not_mem_nil, List.nodup_nil⟩
  ranged := List.forall_mem_singleton.2
    ⟨family, hf, plain, n, Nat.le_refl n, Nat.lt_succ_self n, rfl⟩

theorem pair (hf : family ∈ families) (plain : endsPlain family.toList = true)
    (hf' : family' ∈ families) (plain' : endsPlain family'.toList = true) (other : family ≠ family') :
    Numbered families n (n + 1) [family ++ toString n, family' ++ toString n] where
  distinct := by
    refine List.nodup_cons.2 ⟨fun hm => ?_, List.nodup_cons.2 ⟨List.not_mem_nil, List.nodup_nil⟩⟩
    exact other (numbered_injective plain plain' (List.mem_singleton.1 hm)).1
  ranged := List.forall_mem_cons.2
    ⟨⟨family, hf, plain, n, Nat.le_refl n, Nat.lt_succ_self n, rfl⟩, (singleton hf' plain').ranged⟩

theorem apart {families' : List String} {low' high' : Nat}
    (h : Numbered families low high names) (h' : Numbered families' low' high' names')
    (disjoint : ∀ family ∈ families, family ∉ families') : ∀ name ∈ names, name ∉ names' := by
  intro name hn hn'
  obtain ⟨family, hf, plain, m, -, -, rfl⟩ := h.ranged name hn
  obtain ⟨family', hf', plain', n, -, -, same⟩ := h'.ranged _ hn'
  obtain ⟨rfl, -⟩ := numbered_injective plain plain' same
  exact disjoint family hf hf'

end Numbered

end JavaMinus.Ir
