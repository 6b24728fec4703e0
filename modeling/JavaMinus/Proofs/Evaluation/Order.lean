/-
# The order in which lowered expressions read

A lowered expression runs as `evalLate` says (`lowerValue_run`).  That is the evaluation from left to
right as long as no operator has an element of an array on its left and a call on its right: without
a call the heap only grows (`grows_of_no_calls`), so an element that is read late has not changed.
With a call it may have, and then the lowered expression reads the new element.
-/
import Mathlib
import JavaMinus.Proofs.Evaluation.Simulation
import JavaMinus.Typing.Expression

namespace JavaMinus

open Source

mutual

/-- Whether evaluating the expression calls a method or a constructor. -/
def Source.Expr.makesCalls : Expr → Bool
  | .int .. | .bool .. | .name .. | .this _ => false
  | .binary _ _ lhs rhs => lhs.makesCalls || rhs.makesCalls
  | .not _ operand => operand.makesCalls
  | .index _ array i => array.makesCalls || i.makesCalls
  | .length _ array => array.makesCalls
  | .call .. | .newObject .. => true
  | .newArray _ size => size.makesCalls
  | .paren _ inner => inner.makesCalls

/-- Whether no operator in the expression has an element of an array on its left, parentheses aside,
and a call on its right. -/
def Source.Expr.readsInOrder : Expr → Bool
  | .int .. | .bool .. | .name .. | .this _ | .newObject .. => true
  | .binary _ _ lhs rhs =>
      lhs.readsInOrder && rhs.readsInOrder && !(Scope.isElement lhs && rhs.makesCalls)
  | .not _ operand => operand.readsInOrder
  | .index _ array i => array.readsInOrder && i.readsInOrder
  | .length _ array => array.readsInOrder
  | .call _ target _ args => target.readsInOrder && Expr.readInOrder args
  | .newArray _ size => size.readsInOrder
  | .paren _ inner => inner.readsInOrder

/-- Whether that holds of all expressions in a row. -/
def Source.Expr.readInOrder : List Expr → Bool
  | [] => true
  | e :: es => e.readsInOrder && Expr.readInOrder es

end

namespace Evaluation

open Lowering

variable {w : World} {table : SymbolTable} {method : String} {env : Env} {α β : Type}

/-- The lines of an expression, and then its operand, do what late evaluation does. -/
theorem lowerValue_run {e : Expr} {expected : Option Ty} {c c' : Cursor} {v : Value}
    {lines : List Line} (h : (lowerValue table e expected).run c = ⟨.ok v, c', lines⟩)
    (w : World) (env : Env) :
    (exec w lines env >>= fun env' => read env' v.operand) =
      evalLate w table c.method env e >>= Reading.force := by
  have implements : Implements w table env c (lowerValue table e expected) Sound
      (fun v env => lift (locate env v.operand)) fun _ => evalLate w table c.method env e :=
    value_implements (lowerRhs_implements e expected rfl)
  obtain ⟨-, sound, -, run⟩ := implements v c' lines h
  have same := run env (.refl _ env)
  simp only at same
  simp only [read_eq_force sound]
  rw [← same, bind_assoc]

/-! ## Runs that do not trap -/

theorem bind_eq_some_iff {m : Run α} {f : α → Run β} {s s'' : Store} {b : β} :
    (m >>= f) s = some (b, s'') ↔ ∃ a s', m s = some (a, s') ∧ f a s' = some (b, s'') := by
  show (m s).bind (fun p => f p.1 p.2) = some (b, s'') ↔ _
  rw [Option.bind_eq_some_iff, Prod.exists]

theorem pure_eq_some_iff {a b : α} {s s' : Store} :
    (pure a : Run α) s = some (b, s') ↔ a = b ∧ s = s' := by
  show some (a, s) = some (b, s') ↔ _
  rw [Option.some.injEq, Prod.mk.injEq]

theorem lift_eq_some_iff {o : Option α} {a : α} {s s' : Store} :
    lift o s = some (a, s') ↔ o = some a ∧ s = s' := by
  cases o with
  | none => exact ⟨fun h => (nomatch h), fun h => (nomatch h.1)⟩
  | some b =>
      show some (b, s) = some (a, s') ↔ _
      rw [Option.some.injEq, Option.some.injEq, Prod.mk.injEq]

theorem map_eq_some_iff {m : Run α} {f : α → β} {s s' : Store} {b : β} :
    (f <$> m) s = some (b, s') ↔ ∃ a, m s = some (a, s') ∧ f a = b := by
  rw [map_eq_pure_bind, bind_eq_some_iff]
  constructor
  · rintro ⟨a, s₁, ha, h⟩
    obtain ⟨rfl, rfl⟩ := pure_eq_some_iff.1 h
    exact ⟨a, ha, rfl⟩
  · rintro ⟨a, ha, rfl⟩
    exact ⟨a, s', ha, pure_eq_some_iff.2 ⟨rfl, rfl⟩⟩

/-! What only looks at the store leaves it as it is. -/

theorem store_of_readElement {a i d : Datum} {s s' : Store} (h : readElement a i s = some (d, s')) :
    s' = s := by
  obtain ⟨_, -, heq⟩ := Option.map_eq_some_iff.1 h
  exact (Prod.mk.inj heq).2.symm

theorem store_of_readLength {a d : Datum} {s s' : Store} (h : readLength a s = some (d, s')) :
    s' = s := by
  obtain ⟨_, -, heq⟩ := Option.map_eq_some_iff.1 h
  exact (Prod.mk.inj heq).2.symm

theorem store_of_operate {compute? : Int → Int → Option Int} {a b d : Datum} {s s' : Store}
    (h : operate compute? a b s = some (d, s')) : s' = s := by
  unfold operate at h
  split at h
  · exact (lift_eq_some_iff.1 h).2.symm
  · exact nomatch h

theorem store_of_negate {a d : Datum} {s s' : Store} (h : negate a s = some (d, s')) : s' = s := by
  unfold negate at h
  split at h
  · exact (pure_eq_some_iff.1 h).2.symm
  · exact nomatch h

theorem store_of_readField {name : String} {o d : Datum} {s s' : Store}
    (h : readField name o s = some (d, s')) : s' = s := by
  cases o with
  | reference a =>
      simp only [readField] at h
      split at h
      · exact (Prod.mk.inj (Option.some.inj h)).2.symm
      · exact nomatch h
  | word | null => exact nomatch h

theorem store_of_readName {name : String} {d : Datum} {s s' : Store}
    (h : readName table method env name s = some (d, s')) : s' = s := by
  rw [readName] at h
  cases hl : table.lookup method name with
  | none =>
      rw [hl] at h
      exact nomatch h
  | some found =>
      rw [hl] at h
      by_cases hfield : found.origin = .field
      · simp only [if_pos hfield] at h
        obtain ⟨o, s₁, ho, h⟩ := bind_eq_some_iff.1 h
        obtain ⟨-, rfl⟩ := lift_eq_some_iff.1 ho
        exact store_of_readField h
      · simp only [if_neg hfield] at h
        exact (lift_eq_some_iff.1 h).2.symm

/-! ## Without calls the heap only grows -/

theorem grows_of_newArray {n d : Datum} {s s' : Store} (h : newArray n s = some (d, s')) :
    s.heap <+: s'.heap := by
  unfold newArray at h
  split at h
  · split at h
    · obtain ⟨-, rfl⟩ := Prod.mk.inj (Option.some.inj h)
      exact List.prefix_append _ _
    · exact nomatch h
  · exact nomatch h

theorem grows_of_no_calls : ∀ (e : Expr), e.makesCalls = false → ∀ {d : Datum} {s s' : Store},
    eval w table method env e s = some (d, s') → s.heap <+: s'.heap
  | .int .., _, _, _, _, h | .bool .., _, _, _, _, h => by
      rw [eval] at h
      exact (pure_eq_some_iff.1 h).2 ▸ List.prefix_refl _
  | .this _, _, _, _, _, h => by
      rw [eval] at h
      exact (lift_eq_some_iff.1 h).2 ▸ List.prefix_refl _
  | .name .., _, _, _, _, h => by
      rw [eval] at h
      exact store_of_readName h ▸ List.prefix_refl _
  | .paren _ inner, hno, _, _, _, h => by
      rw [eval] at h
      exact grows_of_no_calls inner hno h
  | .binary _ _ lhs rhs, hno, _, _, _, h => by
      simp only [eval, bind_eq_some_iff] at h
      obtain ⟨l, s₁, hl, r, s₂, hr, ho⟩ := h
      obtain ⟨hnl, hnr⟩ := Bool.or_eq_false_iff.1 hno
      rw [store_of_operate ho]
      exact (grows_of_no_calls lhs hnl hl).trans (grows_of_no_calls rhs hnr hr)
  | .not _ operand, hno, _, _, _, h => by
      simp only [eval, bind_eq_some_iff] at h
      obtain ⟨d, s₁, hd, hn⟩ := h
      rw [store_of_negate hn]
      exact grows_of_no_calls operand hno hd
  | .index _ array i, hno, _, _, _, h => by
      simp only [eval, bind_eq_some_iff] at h
      obtain ⟨a, s₁, ha, j, s₂, hj, hr⟩ := h
      obtain ⟨hna, hni⟩ := Bool.or_eq_false_iff.1 hno
      rw [store_of_readElement hr]
      exact (grows_of_no_calls array hna ha).trans (grows_of_no_calls i hni hj)
  | .length _ array, hno, _, _, _, h => by
      simp only [eval, bind_eq_some_iff] at h
      obtain ⟨a, s₁, ha, hr⟩ := h
      rw [store_of_readLength hr]
      exact grows_of_no_calls array hno ha
  | .newArray _ size, hno, _, _, _, h => by
      simp only [eval, bind_eq_some_iff] at h
      obtain ⟨n, s₁, hn, hr⟩ := h
      exact (grows_of_no_calls size hno hn).trans (grows_of_newArray hr)
  | .call .., hno, _, _, _, _ | .newObject .., hno, _, _, _, _ => nomatch hno

theorem elements?_of_grows {heap heap' : Heap} (h : heap <+: heap') {a : Datum} {ds : List Datum}
    (hds : elements? heap a = some ds) : elements? heap' a = some ds := by
  obtain ⟨more, rfl⟩ := h
  cases a with
  | reference address =>
      simp only [elements?] at hds ⊢
      cases hcell : heap[address]? with
      | none =>
          rw [hcell] at hds
          exact nomatch hds
      | some cell =>
          have bound := (List.getElem?_eq_some_iff.1 hcell).1
          rw [List.getElem?_append_left bound]
          exact hds
  | word | null => exact nomatch hds

theorem readElement_of_grows {a i d : Datum} {s s' : Store} (h : s.heap <+: s'.heap)
    (hd : readElement a i s = some (d, s)) : readElement a i s' = some (d, s') := by
  obtain ⟨d', he, heq⟩ := Option.map_eq_some_iff.1 hd
  obtain rfl := (Prod.mk.inj heq).1
  cases i with
  | word n =>
      obtain ⟨ds, hds, hn⟩ := Option.bind_eq_some_iff.1 he
      refine Option.map_eq_some_iff.2 ⟨d', ?_, rfl⟩
      exact Option.bind_eq_some_iff.2 ⟨ds, elements?_of_grows h hds, hn⟩
  | reference | null => exact nomatch he

/-! ## Late reading where no call comes between -/

/-- A reading that turns out to be a datum, whatever is forced. -/
theorem force_of_grows {r : Reading} {d : Datum} {s s' : Store} (h : s.heap <+: s'.heap)
    (hd : r.force s = some (d, s)) : r.force s' = some (d, s') := by
  cases r with
  | datum d' =>
      obtain ⟨rfl, -⟩ := pure_eq_some_iff.1 hd
      rfl
  | element a i => exact readElement_of_grows h hd

/-- Only an element of an array is left to be read. -/
theorem reading_of_not_element : ∀ (e : Expr), Scope.isElement e = false → ∀ {r : Reading}
    {s s' : Store}, evalLate w table method env e s = some (r, s') → ∃ d, r = .datum d
  | .int .., _, _, _, _, h | .bool .., _, _, _, _, h => by
      rw [evalLate] at h
      exact ⟨_, (pure_eq_some_iff.1 h).1.symm⟩
  | .this _, _, _, _, _, h | .name .., _, _, _, _, h => by
      rw [evalLate] at h
      obtain ⟨d, -, rfl⟩ := map_eq_some_iff.1 h
      exact ⟨d, rfl⟩
  | .paren _ inner, hno, _, _, _, h => by
      rw [evalLate] at h
      exact reading_of_not_element inner hno h
  | .binary .., _, _, _, _, h => by
      simp only [evalLate, bind_eq_some_iff, map_eq_some_iff] at h
      obtain ⟨-, -, -, -, -, -, -, -, -, -, -, -, d, -, rfl⟩ := h
      exact ⟨d, rfl⟩
  | .not .., _, _, _, _, h => by
      simp only [evalLate, bind_eq_some_iff, map_eq_some_iff] at h
      obtain ⟨-, -, -, -, -, -, d, -, rfl⟩ := h
      exact ⟨d, rfl⟩
  | .length .., _, _, _, _, h | .newArray .., _, _, _, _, h => by
      simp only [evalLate, bind_eq_some_iff, map_eq_some_iff] at h
      obtain ⟨-, -, -, d, -, rfl⟩ := h
      exact ⟨d, rfl⟩
  | .newObject .., _, _, _, _, h => by
      simp only [evalLate, bind_eq_some_iff, pure_eq_some_iff] at h
      obtain ⟨d, -, -, -, -, -, rfl, -⟩ := h
      exact ⟨d, rfl⟩
  | .call _ target name args, _, _, _, _, h => by
      rw [evalLate] at h
      cases hclass : targetClass? table method target with
      | some className =>
          simp only [hclass, bind_eq_some_iff, map_eq_some_iff] at h
          obtain ⟨-, -, -, d, -, rfl⟩ := h
          exact ⟨d, rfl⟩
      | none =>
          simp only [hclass, bind_eq_some_iff, map_eq_some_iff] at h
          obtain ⟨-, -, -, -, -, -, d, -, rfl⟩ := h
          exact ⟨d, rfl⟩
  | .index .., hno, _, _, _, _ => nomatch hno

theorem pending?_of_readElement {a i d : Datum} {s s' : Store}
    (h : readElement a i s = some (d, s')) : Reading.pending? a i = some (.element a i) := by
  cases a with
  | reference | null => rfl
  | word n =>
      obtain ⟨_, he, -⟩ := Option.map_eq_some_iff.1 h
      cases i with
      | word m => exact nomatch he
      | reference | null => exact nomatch he

/-- An operand that is read at once. -/
theorem forced_of_reading {m : Run Reading} {d : Datum} {s s' : Store}
    (h : ∃ r, m s = some (r, s') ∧ r.force s' = some (d, s')) :
    (m >>= Reading.force) s = some (d, s') := by
  obtain ⟨r, hr, hd⟩ := h
  exact bind_eq_some_iff.2 ⟨r, s', hr, hd⟩

/-- What is answered as a datum is read already. -/
theorem reading_of_map {m : Run Datum} {d : Datum} {s s' : Store} (h : m s = some (d, s')) :
    ∃ r, (Reading.datum <$> m) s = some (r, s') ∧ r.force s' = some (d, s') :=
  ⟨.datum d, map_eq_some_iff.2 ⟨d, h, rfl⟩, rfl⟩

mutual

/-- Where the order does not matter, late evaluation does what evaluation does. -/
theorem evalLate_of_eval : ∀ (e : Expr), e.readsInOrder → ∀ {d : Datum} {s s' : Store},
    eval w table method env e s = some (d, s') →
    ∃ r, evalLate w table method env e s = some (r, s') ∧ r.force s' = some (d, s')
  | .int .., _, _, _, _, h | .bool .., _, _, _, _, h => by
      rw [eval] at h
      rw [evalLate]
      obtain ⟨rfl, rfl⟩ := pure_eq_some_iff.1 h
      exact ⟨_, rfl, rfl⟩
  | .this _, _, _, _, _, h | .name .., _, _, _, _, h => by
      rw [eval] at h
      rw [evalLate]
      exact reading_of_map h
  | .paren _ inner, ho, _, _, _, h => by
      rw [eval] at h
      rw [evalLate]
      exact evalLate_of_eval inner ho h
  | .binary _ op lhs rhs, ho, _, _, _, h => by
      simp only [Expr.readsInOrder, Bool.and_eq_true, Bool.not_eq_true'] at ho
      obtain ⟨⟨hol, hor⟩, hno⟩ := ho
      simp only [eval, bind_eq_some_iff] at h
      obtain ⟨l, s₁, hl, r, s₂, hr, h⟩ := h
      obtain ⟨l', hl', hforce⟩ := evalLate_of_eval lhs hol hl
      obtain ⟨r', hr', hforce'⟩ := evalLate_of_eval rhs hor hr
      -- the left operand is a datum, or the right one has not changed what it is read from
      have late : l'.force s₂ = some (l, s₂) := by
        cases he : Scope.isElement lhs with
        | false =>
            obtain ⟨d, rfl⟩ := reading_of_not_element lhs he hl'
            obtain ⟨rfl, -⟩ := pure_eq_some_iff.1 hforce
            rfl
        | true =>
            rw [he, Bool.true_and] at hno
            exact force_of_grows (grows_of_no_calls rhs hno hr) hforce
      have value : (do
          let a ← l'.force
          let b ← r'.force
          operate op.compute? a b) s₂ = some (_, _) :=
        bind_eq_some_iff.2 ⟨l, s₂, late, bind_eq_some_iff.2 ⟨r, s₂, hforce', h⟩⟩
      obtain ⟨reading, hreading, hd⟩ := reading_of_map value
      simp only [map_bind] at hreading
      rw [evalLate]
      exact ⟨reading, bind_eq_some_iff.2 ⟨l', s₁, hl', bind_eq_some_iff.2 ⟨r', s₂, hr', hreading⟩⟩,
        hd⟩
  | .not _ operand, ho, _, _, _, h => by
      simp only [eval, bind_eq_some_iff] at h
      obtain ⟨d, s₁, hd, h⟩ := h
      obtain ⟨r, hr, hforce⟩ := evalLate_of_eval operand ho hd
      obtain ⟨reading, hreading, hd'⟩ := reading_of_map h
      rw [evalLate]
      exact ⟨reading, bind_eq_some_iff.2 ⟨r, s₁, hr, bind_eq_some_iff.2 ⟨d, s₁, hforce, hreading⟩⟩,
        hd'⟩
  | .index _ array i, ho, d, _, s', h => by
      simp only [Expr.readsInOrder, Bool.and_eq_true] at ho
      simp only [eval, bind_eq_some_iff] at h
      obtain ⟨a, s₁, ha, j, s₂, hj, h⟩ := h
      have ha' := forced_of_reading (evalLate_of_eval array ho.1 ha)
      have hj' := forced_of_reading (evalLate_of_eval i ho.2 hj)
      obtain rfl := store_of_readElement h
      rw [evalLate]
      refine ⟨.element a j, bind_eq_some_iff.2 ⟨a, s₁, ha', bind_eq_some_iff.2 ⟨j, s', hj', ?_⟩⟩, h⟩
      exact lift_eq_some_iff.2 ⟨pending?_of_readElement h, rfl⟩
  | .length _ array, ho, _, _, _, h => by
      simp only [eval, bind_eq_some_iff] at h
      obtain ⟨a, s₁, ha, h⟩ := h
      obtain ⟨reading, hreading, hd⟩ := reading_of_map h
      rw [evalLate]
      exact ⟨reading, bind_eq_some_iff.2
        ⟨a, s₁, forced_of_reading (evalLate_of_eval array ho ha), hreading⟩, hd⟩
  | .newArray _ size, ho, _, _, _, h => by
      simp only [eval, bind_eq_some_iff] at h
      obtain ⟨n, s₁, hn, h⟩ := h
      obtain ⟨reading, hreading, hd⟩ := reading_of_map h
      rw [evalLate]
      exact ⟨reading, bind_eq_some_iff.2
        ⟨n, s₁, forced_of_reading (evalLate_of_eval size ho hn), hreading⟩, hd⟩
  | .newObject .., _, _, _, _, h => by
      simp only [eval, bind_eq_some_iff, pure_eq_some_iff] at h
      obtain ⟨o, s₁, ho, x, s₂, hx, rfl, rfl⟩ := h
      rw [evalLate]
      exact ⟨.datum o, bind_eq_some_iff.2 ⟨o, s₁, ho, bind_eq_some_iff.2 ⟨x, s₂, hx, rfl⟩⟩, rfl⟩
  | .call _ target name args, ho, _, _, _, h => by
      simp only [Expr.readsInOrder, Bool.and_eq_true] at ho
      rw [eval] at h
      rw [evalLate]
      cases hclass : targetClass? table method target with
      | some className =>
          simp only [hclass, bind_eq_some_iff] at h ⊢
          obtain ⟨ds, s₁, hds, h⟩ := h
          obtain ⟨reading, hreading, hd⟩ := reading_of_map h
          exact ⟨reading, ⟨ds, s₁, evalLateAll_of_evalAll args ho.2 hds, hreading⟩, hd⟩
      | none =>
          simp only [hclass] at h ⊢
          obtain ⟨o, s₁, ho', h⟩ := bind_eq_some_iff.1 h
          obtain ⟨ds, s₂, hds, h⟩ := bind_eq_some_iff.1 h
          obtain ⟨reading, hreading, hd⟩ := reading_of_map h
          exact ⟨reading, bind_eq_some_iff.2
            ⟨o, s₁, forced_of_reading (evalLate_of_eval target ho.1 ho'), bind_eq_some_iff.2
              ⟨ds, s₂, evalLateAll_of_evalAll args ho.2 hds, hreading⟩⟩, hd⟩

theorem evalLateAll_of_evalAll : ∀ (es : List Expr), Expr.readInOrder es → ∀ {ds : List Datum}
    {s s' : Store}, evalAll w table method env es s = some (ds, s') →
    evalLateAll w table method env es s = some (ds, s')
  | [], _, _, _, _, h => by
      rw [evalAll] at h
      rw [evalLateAll]
      exact h
  | e :: es, ho, _, _, _, h => by
      simp only [Expr.readInOrder, Bool.and_eq_true] at ho
      simp only [evalAll, bind_eq_some_iff] at h
      obtain ⟨d, s₁, hd, ds, s₂, hds, h⟩ := h
      rw [evalLateAll]
      exact bind_eq_some_iff.2 ⟨d, s₁, forced_of_reading (evalLate_of_eval e ho.1 hd),
        bind_eq_some_iff.2 ⟨ds, s₂, evalLateAll_of_evalAll es ho.2 hds, h⟩⟩

end

/-- On a run of an expression that does not trap, its lines and then its operand give the same
datum, the same calls and the same heap exactly if late evaluation does; and they do if no operator
has an element of an array on its left and a call on its right. -/
theorem lowerValue_preserves {e : Expr} {expected : Option Ty} {c c' : Cursor} {v : Value}
    {lines : List Line} (h : (lowerValue table e expected).run c = ⟨.ok v, c', lines⟩)
    (w : World) (env : Env) {s s' : Store} {d : Datum}
    (hd : eval w table c.method env e s = some (d, s')) :
    ((exec w lines env >>= fun env' => read env' v.operand) s = some (d, s') ↔
      (evalLate w table c.method env e >>= Reading.force) s = some (d, s')) ∧
    (e.readsInOrder →
      (exec w lines env >>= fun env' => read env' v.operand) s = some (d, s')) := by
  rw [lowerValue_run h w env]
  exact ⟨Iff.rfl, fun ho => forced_of_reading (evalLate_of_eval e ho hd)⟩

/-! A call that writes an element. -/

/-- A class with a method `g` that is given an array. -/
def summing : SymbolTable :=
  ⟨[], "A", none, [],
    [⟨"f", .int, [⟨"a", .intArray⟩], [], false⟩, ⟨"g", .int, [⟨"a", .intArray⟩], [], false⟩]⟩

/-- The expression `this.g(a) + a[0]`. -/
def callPlusElement : Expr :=
  .binary ⟨6, ⟨1, 1⟩⟩ .add (.call ⟨2, ⟨1, 5⟩⟩ (.this ⟨0, ⟨1, 1⟩⟩) "g" [.name ⟨1, ⟨1, 8⟩⟩ "a"])
    (.index ⟨5, ⟨1, 14⟩⟩ (.name ⟨3, ⟨1, 13⟩⟩ "a") (.int ⟨4, ⟨1, 15⟩⟩ 0))

/-- The expression `a[0] + this.g(a)`. -/
def elementPlusCall : Expr :=
  .binary ⟨6, ⟨1, 1⟩⟩ .add (.index ⟨2, ⟨1, 2⟩⟩ (.name ⟨0, ⟨1, 1⟩⟩ "a") (.int ⟨1, ⟨1, 3⟩⟩ 0))
    (.call ⟨5, ⟨1, 12⟩⟩ (.this ⟨3, ⟨1, 8⟩⟩) "g" [.name ⟨4, ⟨1, 15⟩⟩ "a"])

/-- The line of the call, which comes first in both. -/
def callLine : Line :=
  .code 2 (.assign (.var "tmp0" .int32) .int32
    (.call ⟨.invokeVirtual, some thisOperand, some "g", [.var "a" (.array .int32)], .int32⟩))

def sumLine (lhs rhs : Ir.Element) : Line :=
  .code 2 (.assign (.var "tmp1" .int32) .int32 (.binary lhs ⟨.add, .int32⟩ rhs))

def elementOperand : Ir.Element := .item "a" (.literal "0" .int32) .int32

/-- Calls answer one, and leave five in the array. -/
def writing : World where
  invoke _ heap := some (.word 1, heap.set 1 (.array [.word 5]))
  initial _ _ := .null

def receiverAndArray : Env
  | "this" => some (.reference 0)
  | "a" => some (.reference 1)
  | _ => none

/-- A heap with an object and an array. -/
def heapWith (n : Int32) : Heap := [.object fun _ => .null, .array [.word n]]

def callMade : Event := ⟨.object (.reference 0), "g", [.reference 1]⟩

/-- With the call on the left, the element is to be read after it. -/
theorem callPlusElement_preserved :
    (lowerValue summing callPlusElement none).run ⟨2, "f", 0, 0⟩ =
      ⟨.ok (.var "tmp1" .int), ⟨2, "f", 2, 0⟩,
        [callLine, sumLine (.var "tmp0" .int32) elementOperand]⟩ ∧
    eval writing summing "f" receiverAndArray callPlusElement ⟨heapWith 0, []⟩ =
      some (.word 6, ⟨heapWith 5, [callMade]⟩) ∧
    (exec writing [callLine, sumLine (.var "tmp0" .int32) elementOperand] receiverAndArray >>=
      fun env' => read env' (.var "tmp1" .int32)) ⟨heapWith 0, []⟩ =
        some (.word 6, ⟨heapWith 5, [callMade]⟩) := by
  have run : (lowerValue summing callPlusElement none).run ⟨2, "f", 0, 0⟩ =
      ⟨.ok (.var "tmp1" .int), ⟨2, "f", 2, 0⟩,
        [callLine, sumLine (.var "tmp0" .int32) elementOperand]⟩ := by cbv
  have value : eval writing summing "f" receiverAndArray callPlusElement ⟨heapWith 0, []⟩ =
      some (.word 6, ⟨heapWith 5, [callMade]⟩) := rfl
  exact ⟨run, value, (lowerValue_preserves run writing receiverAndArray value).2 (by decide)⟩

/-- With the call on the right, the element stands before it and is read after it all the same. -/
theorem elementPlusCall_not_preserved :
    (lowerValue summing elementPlusCall none).run ⟨2, "f", 0, 0⟩ =
      ⟨.ok (.var "tmp1" .int), ⟨2, "f", 2, 0⟩,
        [callLine, sumLine elementOperand (.var "tmp0" .int32)]⟩ ∧
    eval writing summing "f" receiverAndArray elementPlusCall ⟨heapWith 0, []⟩ =
      some (.word 1, ⟨heapWith 5, [callMade]⟩) ∧
    (exec writing [callLine, sumLine elementOperand (.var "tmp0" .int32)] receiverAndArray >>=
      fun env' => read env' (.var "tmp1" .int32)) ⟨heapWith 0, []⟩ =
        some (.word 6, ⟨heapWith 5, [callMade]⟩) :=
  ⟨by cbv, rfl, by cbv⟩

end Evaluation

end JavaMinus
