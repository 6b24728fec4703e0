/-
# What parentheses do to a type

Where the checks of an expression have passed, parentheses can only change its type if it is an
operator with two operands, and then only between `int` and `boolean`
(`typeOf?_alike`, `typeOf?_of_operator`).  No rule that asks for a type holds of both, so of two
trees that are alike and are told different types at least one breaks a rule.
-/
import JavaMinus.Proofs.Parentheses.Checks

namespace JavaMinus

open Source

namespace Scope

variable {s : Scope}

/-! ## Types of operands -/

/-- Unless it is a bare operator, what an expression shows by itself is its type. -/
theorem ownType?_of_not_binary {e : Expr} (h : e.isBinary = false) :
    e.ownType? = none ∨ e.ownType? = s.typeOf? e := by
  cases e with
  | binary => exact nomatch h
  | paren tag inner =>
      simp only [Expr.ownType?, typeOf?]
      cases inner.ownType? with
      | none => exact Or.inl rfl
      | some type => exact Or.inr rfl
  | index tag array i =>
      rw [typeOf?]
      cases (Expr.index tag array i).ownType? with
      | none => exact Or.inl rfl
      | some type => exact Or.inr rfl
  | int | bool | not | length | newArray | newObject => exact Or.inr rfl
  | name | this | call => exact Or.inl rfl

theorem typeOf?_paren {e : Expr} (h : e.isBinary = false) (tag : Tag) :
    s.typeOf? (.paren tag e) = s.typeOf? e := by
  rw [typeOf?]
  rcases ownType?_of_not_binary (s := s) h with hown | hown
  · rw [hown, Option.none_or]
  · rw [hown, Option.or_self]

theorem typeOf?_index {array : Expr} (h : array.isBinary = false) (tag : Tag) (i : Expr) :
    s.typeOf? (.index tag array i) = (s.typeOf? array).map (·.element) := by
  rw [typeOf?, Expr.ownType?]
  rcases ownType?_of_not_binary (s := s) h with hown | hown
  · rw [hown, Option.map_none, Option.none_or]
  · rw [hown, Option.or_self]

/-- The operands of an operator that has passed have the type it asks for, if they have one. -/
theorem operandType?_of_passes {tag : Tag} {op : BinaryOp} {lhs rhs : Expr} {pos : Position}
    (h : (s.checkExpr (.binary tag op lhs rhs) pos).Passes) :
    (∀ t, s.operandType? lhs = some t → t = op.operandType) ∧
      ∀ t, s.operandType? rhs = some t → t = op.operandType := by
  rw [checkExpr_binary, Checked.passes_seq_iff, Checked.passes_seq_iff, Checked.passes_seq_iff,
    Checked.passes_bind_iff] at h
  obtain ⟨-, -, -, type, hop, -⟩ := h
  simp only [checkOperator] at hop
  split at hop
  · cases hop
  · rename_i hne
    rw [not_or, not_not, not_not] at hne
    refine ⟨fun t ht => ?_, fun t ht => ?_⟩
    · rw [← hne.1, ht, Option.getD_some]
    · rw [← hne.2, ht, Option.getD_some]

/-- The type of a chain is `int`, `boolean` or what the right operand shows. -/
theorem chainType?_cases {lhs : Expr} {left right : Option Ty} {t : Ty}
    (h : Expr.chainType? lhs left right = some t) : t = .int ∨ t = .boolean ∨ right = some t := by
  unfold Expr.chainType? at h
  split at h
  · split at h
    · exact Or.inl (Option.some.inj h).symm
    · split at h
      · exact Or.inr (Or.inl (Option.some.inj h).symm)
      · split at h
        · exact Or.inr (Or.inr h)
        · exact nomatch h
  · split at h
    · exact Or.inr (Or.inr h)
    · exact nomatch h

theorem operandType?_operator : ∀ e : Expr, e.unparen.isBinary →
    s.operandType? e = some .int ∨ s.operandType? e = some .boolean
  | .paren _ inner, h => (operandType?_operator inner h :)
  | .binary _ op _ _, _ => op.resultType_cases.imp (congrArg some) (congrArg some)
  | .int .., h | .bool .., h | .name .., h | .this _, h | .not .., h | .index .., h | .length .., h
  | .call .., h | .newArray .., h | .newObject .., h => nomatch h

theorem unparen_isBinary {e : Expr} (h : e.isBinary) : e.unparen.isBinary := by
  cases e <;> first | exact h | exact nomatch h

theorem isArray_of_checkArray {array : Expr} {loc : Location} {t : Ty}
    (h : (s.checkArray array loc).Passes) (ht : s.typeOf? array = some t) : t.isArray := by
  rw [checkArray, ht] at h
  simpa using Checked.passes_failIf_iff.1 h

/-- What an expression shows by itself, if its checks have passed: a number, a truth value, or the
type that an operator takes it to have. -/
theorem ownType?_of_passes : ∀ (e : Expr) (pos : Position), (s.checkExpr e pos).Passes →
    ∀ t, e.ownType? = some t →
      t = .int ∨ t = .boolean ∨ (s.operandType? e = some t ∧ (t.isArray → t = .intArray))
  | .int .., _, _, _, ht => Or.inl (Option.some.inj ht).symm
  | .bool .., _, _, _, ht => Or.inr (Or.inl (Option.some.inj ht).symm)
  | .name .., _, _, _, ht | .this _, _, _, _, ht | .call .., _, _, _, ht => nomatch ht
  | .not .., _, _, _, ht => Or.inr (Or.inl (Option.some.inj ht).symm)
  | .length .., _, _, _, ht => Or.inl (Option.some.inj ht).symm
  | .newArray .., _, _, _, ht => Or.inr (Or.inr ⟨ht, fun _ => (Option.some.inj ht).symm⟩)
  | .newObject .., _, _, _, ht => by
      obtain rfl := Option.some.inj ht
      exact Or.inr (Or.inr ⟨rfl, fun h => nomatch h⟩)
  | .paren _ inner, pos, h, t, ht => by
      rw [checkExpr_paren] at h
      exact ownType?_of_passes inner pos h t ht
  | .binary tag op lhs rhs, pos, h, t, ht => by
      have operands := operandType?_of_passes h
      rw [checkExpr_binary] at h
      simp only [Checked.passes_seq_iff] at h
      rcases chainType?_cases ht with rfl | rfl | hright
      · exact Or.inl rfl
      · exact Or.inr (Or.inl rfl)
      · rcases ownType?_of_passes rhs _ h.2.1 t hright with rfl | rfl | ⟨hrhs, -⟩
        · exact Or.inl rfl
        · exact Or.inr (Or.inl rfl)
        · obtain rfl := operands.2 t hrhs
          rcases op.operandType_cases with hop | hop
          · exact Or.inl hop
          · exact Or.inr (Or.inl hop)
  | .index tag array i, pos, h, t, ht => by
      rw [checkExpr] at h
      simp only [Checked.passes_seq_iff] at h
      obtain ⟨u, hu, rfl⟩ := Option.map_eq_some_iff.1 ht
      rcases ownType?_of_passes array _ h.1 u hu with rfl | rfl | ⟨hu', hint⟩
      · exact Or.inl rfl
      · exact Or.inr (Or.inl rfl)
      · cases hbinary : array.isBinary with
        | true =>
            rcases operandType?_operator (s := s) array (unparen_isBinary hbinary) with hop | hop
            · obtain rfl := Option.some.inj (hu'.symm.trans hop)
              exact Or.inl rfl
            · obtain rfl := Option.some.inj (hu'.symm.trans hop)
              exact Or.inr (Or.inl rfl)
        | false =>
            rcases ownType?_of_not_binary (s := s) hbinary with hown | hown
            · exact nomatch hown.symm.trans hu
            · have harray := isArray_of_checkArray h.2.1 (hown.symm.trans hu)
              exact Or.inl (congrArg Ty.element (hint harray))

/-- An operator that has passed is a number or a truth value, in parentheses or not. -/
theorem typeOf?_of_operator : ∀ (e : Expr) (pos : Position), (s.checkExpr e pos).Passes →
    e.unparen.isBinary → s.typeOf? e = some .int ∨ s.typeOf? e = some .boolean
  | .paren _ inner, pos, h, hbinary => by
      rw [checkExpr_paren] at h
      have operand := operandType?_operator (s := s) inner hbinary
      rw [typeOf?]
      cases hown : inner.ownType? with
      | none =>
          rw [Option.none_or]
          exact typeOf?_of_operator inner pos h hbinary
      | some t =>
          rw [Option.some_or, Option.some_inj, Option.some_inj]
          rcases ownType?_of_passes inner pos h t hown with ht | ht | ⟨ht, -⟩
          · exact Or.inl ht
          · exact Or.inr ht
          · rwa [ht, Option.some_inj, Option.some_inj] at operand
  | .binary _ op _ _, _, _, _ => op.resultType_cases.imp (congrArg some) (congrArg some)
  | .int .., _, _, h | .bool .., _, _, h | .name .., _, _, h | .this _, _, _, h | .not .., _, _, h
  | .index .., _, _, h | .length .., _, _, h | .call .., _, _, h | .newArray .., _, _, h
  | .newObject .., _, _, h => nomatch h

theorem array_not_operator {array : Expr} {loc : Location} {pos : Position}
    (h : (s.checkExpr array pos).Passes) (h' : (s.checkArray array loc).Passes) :
    array.unparen.isBinary = false := by
  rw [Bool.eq_false_iff]
  intro hbinary
  rcases typeOf?_of_operator array pos h hbinary with ht | ht
  · exact nomatch isArray_of_checkArray h' ht
  · exact nomatch isArray_of_checkArray h' ht

theorem isBinary_of_unparen {e : Expr} (h : e.unparen.isBinary = false) : e.isBinary = false := by
  rw [Bool.eq_false_iff] at h ⊢
  exact fun hbinary => h (unparen_isBinary hbinary)

theorem isOperator_alike {e e' : Expr} (h : e.Alike e') :
    e.unparen.isBinary = e'.unparen.isBinary := by
  refine h.eq_of_form (f := fun e => e.unparen.isBinary) ?_ ?_ ?_ ?_ ?_ ?_ ?_ ?_ ?_ ?_ ?_ ?_ <;>
    intros <;> rfl

/-- Parentheses do not change the type of anything but an operator. -/
theorem typeOf?_alike : ∀ {e e' : Expr}, e.Alike e' → ∀ {pos pos' : Position},
    (s.checkExpr e pos).Passes → (s.checkExpr e' pos').Passes → e.unparen.isBinary = false →
    s.typeOf? e = s.typeOf? e'
  | _, _, .parenLeft (e := e) h, _, _, hp, hp', hb => by
      have hb : e.unparen.isBinary = false := hb
      rw [checkExpr_paren] at hp
      rw [typeOf?_paren (isBinary_of_unparen hb)]
      exact typeOf?_alike h hp hp' hb
  | _, _, .parenRight h, _, _, hp, hp', hb => by
      rw [checkExpr_paren] at hp'
      rw [typeOf?_paren (isBinary_of_unparen (isOperator_alike h ▸ hb))]
      exact typeOf?_alike h hp hp' hb
  | _, _, .index h _, _, _, hp, hp', _ => by
      rw [checkExpr] at hp hp'
      simp only [Checked.passes_seq_iff] at hp hp'
      have hb := array_not_operator hp.1 hp.2.1
      have hb' := array_not_operator hp'.1 hp'.2.1
      rw [typeOf?_index (isBinary_of_unparen hb), typeOf?_index (isBinary_of_unparen hb'),
        typeOf?_alike h hp.1 hp'.1 hb]
  | _, _, .binary .., _, _, _, _, hb => nomatch hb
  | _, _, .int, _, _, _, _, _ | _, _, .bool, _, _, _, _, _ | _, _, .name, _, _, _, _, _
  | _, _, .this, _, _, _, _, _ | _, _, .not _, _, _, _, _, _ | _, _, .length _, _, _, _, _, _
  | _, _, .call .., _, _, _, _, _ | _, _, .newArray _, _, _, _, _, _
  | _, _, .newObject, _, _, _, _, _ => rfl

/-! ## Rules that ask -/

/-- A rule that holds of the types of both expressions, and not of both `int` and `boolean`, has
been told the same. -/
theorem told_eq_of_rule {e e' : Expr} (h : e.Alike e') {pos pos' : Position}
    (hp : (s.checkExpr e pos).Passes) (hp' : (s.checkExpr e' pos').Passes) {rule : Ty → Prop}
    (hr : ∀ t, s.typeOf? e = some t → rule t) (hr' : ∀ t, s.typeOf? e' = some t → rule t)
    (hrule : ¬ (rule .int ∧ rule .boolean)) : s.typeOf? e = s.typeOf? e' := by
  cases hb : e.unparen.isBinary with
  | false => exact typeOf?_alike h hp hp' hb
  | true =>
      rcases typeOf?_of_operator e pos hp hb with ht | ht <;>
        rcases typeOf?_of_operator e' pos' hp' (isOperator_alike h ▸ hb) with ht' | ht'
      · rw [ht, ht']
      · exact absurd ⟨hr _ ht, hr' _ ht'⟩ hrule
      · exact absurd ⟨hr' _ ht', hr _ ht⟩ hrule
      · rw [ht, ht']

theorem rule_of_checkType {e : Expr} {rule : Ty → Bool} {loc : Location} {finding : Ty → Finding}
    (h : (s.checkType e rule loc finding).Passes) : ∀ t, s.typeOf? e = some t → rule t := by
  intro t ht
  rw [checkType, ht] at h
  simpa using Checked.passes_failIf_iff.1 h

theorem told_eq_of_checkType {e e' : Expr} (h : e.Alike e') {pos pos' : Position}
    (hp : (s.checkExpr e pos).Passes) (hp' : (s.checkExpr e' pos').Passes) {rule : Ty → Bool}
    {loc loc' : Location} {finding : Ty → Finding}
    (hr : (s.checkType e rule loc finding).Passes) (hr' : (s.checkType e' rule loc' finding).Passes)
    (hrule : ¬ (rule .int ∧ rule .boolean)) : s.typeOf? e = s.typeOf? e' :=
  told_eq_of_rule h hp hp' (rule_of_checkType hr) (rule_of_checkType hr') hrule

theorem toldIndex_eq {i i' : Expr} (h : i.Alike i') {pos pos' : Position}
    (hp : (s.checkExpr i pos).Passes) (hp' : (s.checkExpr i' pos').Passes) {loc loc' : Location}
    (hr : (s.checkIndexType i loc).Passes) (hr' : (s.checkIndexType i' loc').Passes) :
    s.toldIndex i = s.toldIndex i' := by
  rw [checkIndexType] at hr hr'
  rw [toldIndex, toldIndex, ← isElement_alike h]
  rw [← isElement_alike h] at hr'
  split
  · rfl
  · rename_i hno
    rw [if_neg hno] at hr hr'
    rw [told_eq_of_checkType h hp hp' hr hr' (by decide)]

/-- The rule of an argument: if it is not the receiver, its known type is that of the parameter. -/
theorem argument_of_mismatches {method : String} {n : Nat} {e : Expr} {es : List Expr}
    {param : Symbol} {params : List Symbol}
    (h : s.argumentMismatches method n (e :: es) (param :: params) = []) :
    (e.isThis ∨ ∀ t, s.typeOf? e = some t → t = param.type) ∧
      s.argumentMismatches method (n + 1) es params = [] := by
  simp only [argumentMismatches] at h
  split at h
  · rename_i hthis
    exact ⟨Or.inl hthis, h⟩
  · split at h
    · rename_i hnone
      refine ⟨Or.inr fun t ht => ?_, h⟩
      cases hnone.symm.trans ht
    · rename_i t ht
      split at h
      · rename_i heq
        exact ⟨Or.inr fun u hu => (Option.some.inj (hu.symm.trans ht)).trans heq, h⟩
      · cases h

theorem isThis_not_operator : ∀ e : Expr, e.isThis → e.unparen.isBinary = false
  | .paren _ inner, h => (isThis_not_operator inner h :)
  | .this _, _ => rfl
  | .int .., h | .bool .., h | .name .., h | .binary .., h | .not .., h | .index .., h
  | .length .., h | .call .., h | .newArray .., h | .newObject .., h => nomatch h

theorem told_arguments_eq {method : String} : ∀ {es es' : List Expr} (n : Nat)
    (params : List Symbol), Expr.AlikeAll es es' → es.length = params.length →
    (s.checkArguments es).Passes → (s.checkArguments es').Passes →
    s.argumentMismatches method n es params = [] → s.argumentMismatches method n es' params = [] →
    es.map s.typeOf? = es'.map s.typeOf?
  | _, _, _, _, .nil, _, _, _, _, _ => rfl
  | _, _, n, param :: params, .cons h h', hlen, hp, hp', hr, hr' => by
      rw [checkArguments, Checked.passes_both_iff] at hp hp'
      obtain ⟨hfirst, hrest⟩ := argument_of_mismatches hr
      obtain ⟨hfirst', hrest'⟩ := argument_of_mismatches hr'
      rw [List.map_cons, List.map_cons,
        told_arguments_eq (n + 1) params h' (Nat.succ.inj hlen) hp.2 hp'.2 hrest hrest']
      congr 1
      rcases hfirst with hthis | hrule
      · exact typeOf?_alike h hp.1 hp'.1 (isThis_not_operator _ hthis)
      · rcases hfirst' with hthis | hrule'
        · exact typeOf?_alike h hp.1 hp'.1
            (isOperator_alike h ▸ isThis_not_operator _ hthis)
        · refine told_eq_of_rule h hp.1 hp'.1 hrule hrule' fun both => ?_
          exact absurd (both.1.trans both.2.symm) (by decide)

theorem toldSignature_eq {e e' : Expr} {m : String} {es es' : List Expr} (h : e.Alike e')
    (h' : Expr.AlikeAll es es') (hp : (s.checkArguments es).Passes)
    (hp' : (s.checkArguments es').Passes) {loc loc' : Location}
    (hr : (s.checkSignature loc e m es).Passes) (hr' : (s.checkSignature loc' e' m es').Passes) :
    s.toldSignature e m es = s.toldSignature e' m es' := by
  rw [toldSignature, toldSignature, ← h.isThis_eq, ← isDeclaredTarget_alike h]
  rw [checkSignature] at hr hr'
  rw [← h.isThis_eq, ← h.asName?_eq, ← isDeclaredTarget_alike h, ← isImportedTarget_alike h,
    ← h'.length_eq] at hr'
  cases hm : s.table.method? m with
  | none => rfl
  | some signature =>
      rw [Option.isSome_some, Bool.true_and]
      split
      · rename_i hown
        simp only [hm, if_pos hown] at hr hr'
        split at hr
        · exact absurd hr (Checked.not_passes_fail _ _)
        · rename_i hlen
          rw [if_neg hlen] at hr'
          exact told_arguments_eq 0 signature.params h' (not_not.1 hlen) hp hp'
            (Checked.passes_haltOn_iff.1 hr) (Checked.passes_haltOn_iff.1 hr')
      · rfl

/-! ## Expressions and statements that pass -/

theorem told_of_isThis : ∀ e : Expr, e.isThis → s.told e = []
  | .paren _ inner, h => (told_of_isThis inner h :)
  | .this _, _ => rfl
  | .int .., h | .bool .., h | .name .., h | .binary .., h | .not .., h | .index .., h
  | .length .., h | .call .., h | .newArray .., h | .newObject .., h => nomatch h

mutual

theorem told_eq : ∀ {e e' : Expr}, e.Alike e' → ∀ {pos pos' : Position},
    (s.checkExpr e pos).Passes → (s.checkExpr e' pos').Passes → s.told e = s.told e'
  | _, _, .parenLeft h, _, _, hp, hp' => by
      rw [checkExpr_paren] at hp
      exact (told_eq h hp hp' :)
  | _, _, .parenRight h, _, _, hp, hp' => by
      rw [checkExpr_paren] at hp'
      exact (told_eq h hp hp' :)
  | _, _, .int, _, _, _, _ | _, _, .bool, _, _, _, _ | _, _, .name, _, _, _, _
  | _, _, .this, _, _, _, _ | _, _, .newObject, _, _, _, _ => rfl
  | _, _, .binary h h', _, _, hp, hp' => by
      rw [checkExpr_binary, Checked.passes_seq_iff, Checked.passes_seq_iff] at hp hp'
      rw [told, told, told_eq h hp.1 hp'.1, told_eq h' hp.2.1 hp'.2.1]
  | _, _, .not h, _, _, hp, hp' | _, _, .length h, _, _, hp, hp'
  | _, _, .newArray h, _, _, hp, hp' => by
      rw [checkExpr, Checked.passes_seq_iff] at hp hp'
      rw [told, told, told_eq h hp.1 hp'.1,
        told_eq_of_checkType h hp.1 hp'.1 hp.2 hp'.2 (by decide)]
  | _, _, .index h h', _, _, hp, hp' => by
      rw [checkExpr, Checked.passes_seq_iff, Checked.passes_seq_iff, Checked.passes_seq_iff]
        at hp hp'
      rw [told, told, told_eq h hp.1 hp'.1, told_eq h' hp.2.2.1 hp'.2.2.1,
        toldIndex_eq h' hp.2.2.1 hp'.2.2.1 hp.2.2.2 hp'.2.2.2,
        typeOf?_alike h hp.1 hp'.1 (array_not_operator hp.1 hp.2.1)]
  | _, _, @Expr.Alike.call _ _ e e' _ _ _ h h', _, _, hp, hp' => by
      rw [checkExpr_call, checkCallee, Checked.passes_seq_iff, Checked.passes_seq_iff] at hp hp'
      rw [told, told, toldIn_eq h' hp.2.1 hp'.2.1,
        toldSignature_eq h h' hp.2.1 hp'.2.1 hp.2.2 hp'.2.2]
      have hthis' := h.isThis_eq
      congr 1
      cases hthis : e.isThis with
      | true => rw [told_of_isThis e hthis, told_of_isThis e' (hthis' ▸ hthis)]
      | false =>
          rw [hthis] at hthis'
          rw [hthis] at hp
          rw [← hthis'] at hp'
          exact told_eq h hp.1 hp'.1

theorem toldIn_eq : ∀ {es es' : List Expr}, Expr.AlikeAll es es' →
    (s.checkArguments es).Passes → (s.checkArguments es').Passes → s.toldIn es = s.toldIn es'
  | _, _, .nil, _, _ => rfl
  | _, _, .cons h h', hp, hp' => by
      rw [checkArguments, Checked.passes_both_iff] at hp hp'
      rw [toldIn, toldIn, told_eq h hp.1 hp'.1, toldIn_eq h' hp.2 hp'.2]

end

/-! A value that is stored is no number and truth value at once. -/

theorem compatible_not_both (table : SymbolTable) (type : Ty) :
    ¬ (table.compatible type .int ∧ table.compatible type .boolean) := by
  rintro ⟨hint, hboolean⟩
  have hname : ¬ (type.isArray ≠ Ty.boolean.isArray ∧ type.name = "int" ∧
      Ty.boolean.name = "int") := fun h => absurd h.2.2 (by decide)
  rw [SymbolTable.compatible, if_neg hname] at hboolean
  split at hboolean
  · subst type
    exact absurd hint (by simp [SymbolTable.compatible, Ty.isPrimitive, Ty.boolean, Ty.int])
  · simp [Ty.isPrimitive, Ty.boolean] at hboolean

theorem checkAssign_told_eq {e e' : Expr} (h : e.Alike e') {target : String}
    {loc loc' : Location} (hp : (s.checkAssign loc target e).Passes)
    (hp' : (s.checkAssign loc' target e').Passes) :
    s.told e ++ [s.typeOf? e] = s.told e' ++ [s.typeOf? e'] := by
  unfold checkAssign at hp hp'
  cases hl : s.lookup target with
  | none =>
      rw [hl] at hp
      exact absurd hp (Checked.not_passes_fail _ _)
  | some found =>
      simp only [hl, Checked.passes_seq_iff] at hp hp'
      rw [told_eq h hp.2.1 hp'.2.1, told_eq_of_checkType h hp.2.1 hp'.2.1 hp.2.2 hp'.2.2
        (compatible_not_both _ _)]

theorem checkAssignElement_told_eq {i i' e e' : Expr} (h : i.Alike i') (h' : e.Alike e')
    {target : String} {loc loc' : Location} (hp : (s.checkAssignElement loc target i e).Passes)
    (hp' : (s.checkAssignElement loc' target i' e').Passes) :
    s.told i ++ (s.toldIndex i ++ (s.told e ++ [s.typeOf? e])) =
      s.told i' ++ (s.toldIndex i' ++ (s.told e' ++ [s.typeOf? e'])) := by
  unfold checkAssignElement at hp hp'
  cases hl : s.lookup target with
  | none =>
      rw [hl] at hp
      exact absurd hp (Checked.not_passes_fail _ _)
  | some found =>
      simp only [hl, Checked.passes_seq_iff] at hp hp'
      obtain ⟨-, -, hi, hti, he, hte⟩ := hp
      obtain ⟨-, -, hi', hti', he', hte'⟩ := hp'
      rw [told_eq h hi hi', toldIndex_eq h hi hi' hti hti', told_eq h' he he',
        told_eq_of_checkType h' he he' hte hte' (compatible_not_both _ _)]

theorem isExternalCall_of_operator : ∀ e : Expr, e.unparen.isBinary → s.isExternalCall e = false
  | .paren _ inner, h => (isExternalCall_of_operator inner h :)
  | .binary .., _ => rfl
  | .int .., h | .bool .., h | .name .., h | .this _, h | .not .., h | .index .., h | .length .., h
  | .call .., h | .newArray .., h | .newObject .., h => nomatch h

theorem checkReturn_told_eq {e e' : Expr} (h : e.Alike e') {loc loc' : Location}
    (hp : (s.checkReturn loc (some e)).Passes) (hp' : (s.checkReturn loc' (some e')).Passes) :
    s.told e ++ [s.typeOf? e] = s.told e' ++ [s.typeOf? e'] := by
  unfold checkReturn at hp hp'
  split at hp
  · exact absurd hp (Checked.not_passes_fail _ _)
  · rename_i hmain
    rw [if_neg hmain] at hp'
    simp only [Checked.passes_seq_iff] at hp hp'
    rw [told_eq h hp.1 hp'.1]
    congr 2
    cases hb : e.unparen.isBinary with
    | false => exact typeOf?_alike h hp.1 hp'.1 hb
    | true =>
        have hb' : e'.unparen.isBinary := isOperator_alike h ▸ hb
        simp only [isExternalCall_of_operator e hb, isExternalCall_of_operator e' hb',
          Bool.or_false] at hp hp'
        refine told_eq_of_checkType h hp.1 hp'.1 hp.2 hp'.2 fun both => ?_
        exact absurd ((eq_of_beq both.1).trans (eq_of_beq both.2).symm) (by decide)

theorem condition_told_eq {c c' : Expr} (h : c.Alike c') {statement statement' : Conditional}
    (hp : (s.checkCondition c statement).Passes) (hp' : (s.checkCondition c' statement').Passes) :
    s.told c = s.told c' := by
  obtain ⟨pos, passes⟩ := s.passes_of_checkCondition hp
  obtain ⟨pos', passes'⟩ := s.passes_of_checkCondition hp'
  exact told_eq h passes passes'

mutual

theorem toldBy_eq : ∀ {stmt stmt' : Stmt}, stmt.Alike stmt' → s.Accepts stmt → s.Accepts stmt' →
    s.toldBy stmt = s.toldBy stmt'
  | _, _, .block h, ha, ha' => toldByAll_eq h ha ha'
  | _, _, .ifThen h h', ha, ha' | _, _, .while h h', ha, ha' => by
      rw [toldBy, toldBy, condition_told_eq h ha.1 ha'.1, toldBy_eq h' ha.2 ha'.2]
  | _, _, .ifElse h h' h'', ha, ha' => by
      rw [toldBy, toldBy, condition_told_eq h ha.1 ha'.1, toldBy_eq h' ha.2.1 ha'.2.1,
        toldBy_eq h'' ha.2.2 ha'.2.2]
  | _, _, .expr h, ha, ha' => told_eq h ha ha'
  | _, _, .assign h, ha, ha' => checkAssign_told_eq h ha ha'
  | _, _, .assignElement h h', ha, ha' => checkAssignElement_told_eq h h' ha ha'
  | _, _, .returnNothing, _, _ => rfl
  | _, _, .returnValue h, ha, ha' => checkReturn_told_eq h ha ha'

theorem toldByAll_eq : ∀ {stmts stmts' : List Stmt}, Stmt.AlikeAll stmts stmts' →
    s.AcceptsAll stmts → s.AcceptsAll stmts' → s.toldByAll stmts = s.toldByAll stmts'
  | _, _, .nil, _, _ => rfl
  | _, _, .cons h h', ha, ha' => by
      rw [toldByAll, toldByAll, toldBy_eq h ha.1 ha'.1, toldByAll_eq h' ha.2 ha'.2]

end

end Scope

end JavaMinus
