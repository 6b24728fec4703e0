/-
# Temporaries

A new temporary is the first one from the counter on whose name means nothing in the method
(`newTemp_ends`); as only finitely many names mean something, the search for it ends.  So the
temporaries that a method draws are all different, and none is a name of the program (`Drawn`).

`Draws` says what a successful step does with them: its lines assign to the temporaries that it has
drawn, each once and in order, and they read no temporary but those that are known before or have
been assigned to by then.  What a step answers is read later, so its temporaries have to be known
after it; an expression goes straight on and forgets nothing, while statements neither need nor leave
any.
-/
import JavaMinus.Proofs.Evaluation.Simulation
import JavaMinus.Proofs.Lowering.Names
import JavaMinus.Proofs.Lowering.Reads

namespace JavaMinus

open Ir Source

/-! ## The search for a new temporary -/

namespace SymbolTable

theorem lookupIn_eq_none_iff {m : Signature} {name : String} :
    lookupIn m name = none ↔ name ∉ m.locals.map (·.name) ++ m.params.map (·.name) := by
  have position : indexed? m.params name = none ↔ name ∉ m.params.map (·.name) := by
    rw [indexed?, Option.map_eq_none_iff, List.find?_eq_none, List.mem_map]
    constructor
    · rintro missing ⟨s, hs, rfl⟩
      obtain ⟨i, hi⟩ := List.getElem?_of_mem hs
      exact missing (s, i) (List.mem_zipIdx_iff_getElem?.2 hi) (beq_self_eq_true _)
    · intro missing x hx same
      exact missing ⟨x.1, List.fst_mem_of_mem_zipIdx hx, eq_of_beq same⟩
  rw [lookupIn, List.mem_append, not_or]
  cases hl : m.locals.find? (·.name == name) with
  | some s =>
      have there := List.mem_map_of_mem (f := Symbol.name) (List.mem_of_find?_eq_some hl)
      have same : s.name = name := by simpa using List.find?_some hl
      rw [same] at there
      exact iff_of_false (Option.some_ne_none _) fun h => h.1 there
  | none =>
      rw [List.find?_eq_none] at hl
      have missing : name ∉ m.locals.map (·.name) := by
        simpa using hl
      rw [Option.map_eq_none_iff, position]
      exact (and_iff_right missing).symm

/-- Exactly the visible names mean something. -/
theorem lookup_eq_none_iff (t : SymbolTable) {method name : String} :
    t.lookup method name = none ↔ name ∉ t.visibleNames method := by
  rw [lookup, visibleNames, List.mem_append, not_or, Option.or_eq_none_iff]
  refine and_congr ?_ ?_
  · cases t.method? method with
    | none => exact iff_of_true rfl List.not_mem_nil
    | some m => exact lookupIn_eq_none_iff
  · rw [Option.map_eq_none_iff, field?, List.find?_eq_none]
    simp

end SymbolTable

theorem Source.Program.Named.lookup_this {p : Program} (hp : p.Named) (method : String) :
    (SymbolTable.ofProgram p).lookup method "this" = none := by
  have others : ∀ ds : List Declaration, (∀ d ∈ ds, d.Named) →
      "this" ∉ (ds.map (·.symbol)).map (·.name) := by
    intro ds named there
    obtain ⟨_, declared, same⟩ := List.mem_map.1 there
    obtain ⟨d, hd, rfl⟩ := List.mem_map.1 declared
    exact (named d hd).1.ne_this same
  rw [SymbolTable.lookup_eq_none_iff, SymbolTable.visibleNames, List.mem_append, not_or]
  refine ⟨?_, others p.fields hp.fields⟩
  cases found : (SymbolTable.ofProgram p).method? method with
  | none => exact List.not_mem_nil
  | some signature =>
      obtain ⟨m, hm, rfl⟩ := List.mem_map.1 (List.mem_of_find?_eq_some found)
      have named := hp.methods m hm
      exact fun there => (List.mem_append.1 there).elim (others m.locals named.locals)
        (others m.params named.params)

namespace Lowering

open Evaluation

variable {table : SymbolTable} {method : String}

/-- What lies before the first free number is taken. -/
theorem firstFree_least (n : Nat) (taken : List String) :
    ∀ k, n ≤ k → k < firstFree n taken → tempName k ∈ taken := by
  fun_induction firstFree n taken with
  | case1 n taken hmem ih =>
      intro k above below
      rcases Nat.eq_or_lt_of_le above with rfl | above
      · exact hmem
      · exact List.mem_of_mem_erase (ih k above below)
  | case2 n taken hfree =>
      intro k above below
      exact absurd above (Nat.not_le.2 below)

/-- The search tries at most one number more than there are names that are taken. -/
theorem firstFree_le (n : Nat) (taken : List String) : firstFree n taken ≤ n + taken.length := by
  fun_induction firstFree n taken with
  | case1 n taken hmem ih =>
      rw [List.length_erase_of_mem hmem] at ih
      have := List.length_pos_of_mem hmem
      omega
  | case2 n taken hfree => exact Nat.le_add_right _ _

/-- The search for a new temporary ends: it goes up from the counter over names that mean something,
no more than there are of them, to one that means nothing, and `newTemp` answers that one. -/
def SearchEnds (table : SymbolTable) (c : Cursor) : Prop :=
  ∃ n, c.temps ≤ n ∧ n ≤ c.temps + (table.visibleNames c.method).length ∧
    table.lookup c.method (tempName n) = none ∧
    (∀ k, c.temps ≤ k → k < n → (table.lookup c.method (tempName k)).isSome = true) ∧
    (newTemp table).run c = ⟨.ok (tempName n), { c with temps := n + 1 }, []⟩

theorem newTemp_ends (table : SymbolTable) (c : Cursor) : SearchEnds table c := by
  obtain ⟨above, free⟩ := firstFree_spec c.temps (table.visibleNames c.method)
  refine ⟨_, above, firstFree_le _ _, (table.lookup_eq_none_iff).2 free, ?_, rfl⟩
  intro k low high
  have taken := firstFree_least _ _ k low high
  rw [Option.isSome_iff_ne_none, Ne, table.lookup_eq_none_iff, not_not]
  exact taken

/-! ## Temporaries that are drawn -/

/-- The temporaries that `newTemp` answers, one after the other, from a counter up to another. -/
inductive Drawn (table : SymbolTable) (method : String) : Nat → List String → Nat → Prop
  | done {n : Nat} : Drawn table method n [] n
  | more {c c' : Cursor} {t : String} {ts : List String} {n : Nat} : c.method = method →
      (newTemp table).run c = ⟨.ok t, c', []⟩ → Drawn table method c'.temps ts n →
      Drawn table method c.temps (t :: ts) n

/-- The name of a temporary that means nothing in the method. -/
def IsTemp (table : SymbolTable) (method t : String) : Prop :=
  (∃ n, t = tempName n) ∧ table.lookup method t = none

namespace Drawn

theorem append {n n' n'' : Nat} {ts ts' : List String} (h : Drawn table method n ts n')
    (h' : Drawn table method n' ts' n'') : Drawn table method n (ts ++ ts') n'' := by
  induction h with
  | done => exact h'
  | more same run _ ih => exact .more same run (ih h')

theorem numbered {n n' : Nat} {ts : List String} (h : Drawn table method n ts n') :
    ∀ t ∈ ts, ∃ k, n ≤ k ∧ t = tempName k ∧ table.lookup method t = none := by
  induction h with
  | done => exact List.forall_mem_nil _
  | @more c c' t ts n same run _ ih =>
      obtain ⟨k, above, -, free, -, answer⟩ := newTemp_ends table c
      obtain ⟨ht, rfl, -⟩ := Emitted.mk.inj (run.symm.trans answer)
      cases ht
      refine List.forall_mem_cons.2 ⟨⟨k, above, rfl, same ▸ free⟩, fun t ht => ?_⟩
      obtain ⟨j, higher, name, free⟩ := ih t ht
      exact ⟨j, Nat.le_trans above (Nat.le_of_succ_le higher), name, free⟩

theorem nodup {n n' : Nat} {ts : List String} (h : Drawn table method n ts n') : ts.Nodup := by
  induction h with
  | done => exact List.nodup_nil
  | @more c c' t ts n same run later ih =>
      obtain ⟨k, above, -, free, -, answer⟩ := newTemp_ends table c
      obtain ⟨ht, rfl, -⟩ := Emitted.mk.inj (run.symm.trans answer)
      cases ht
      refine List.nodup_cons.2 ⟨fun again => ?_, ih⟩
      obtain ⟨j, higher, name, -⟩ := later.numbered _ again
      have := tempName_injective name
      have : k + 1 ≤ j := higher
      omega

end Drawn

/-! ## Steps that draw temporaries -/

/-- The new names that lines assign to, in order. -/
def drawnIn (table : SymbolTable) (method : String) (w : List Line) : List String :=
  (assignedIn w).filter fun t => (table.lookup method t).isNone

/-- The temporaries among what is mentioned are known. -/
def Ready (table : SymbolTable) (method : String) (known : List String)
    (mentioned : List (String × ElementType)) : Prop :=
  ∀ x ∈ mentioned, IsTemp table method x.1 → x.1 ∈ known

/-- If the step succeeds, the new names that its lines assign to are the temporaries that it draws, in
order; the lines read temporaries only that are known where they stand; and its answer satisfies `Q`
with what is known after them. -/
def Draws (table : SymbolTable) (method : String) {α : Type} (m : Lowering α) (known : List String)
    (Q : α → List String → Prop) : Prop :=
  ∀ (c : Cursor) (a : α) (c' : Cursor) (w : List Line), c.method = method →
    m.run c = ⟨.ok a, c', w⟩ →
      c'.method = method ∧ Drawn table method c.temps (drawnIn table method w) c'.temps ∧
        Supplied (IsTemp table method) known w ∧ Q a (knownAfter known w)

variable {α β : Type} {m : Lowering α} {f : α → Lowering β} {known : List String}
  {Q : α → List String → Prop} {Q' : β → List String → Prop}

namespace Draws

theorem pure {a : α} (h : Q a known) : Draws table method (Pure.pure a) known Q := by
  intro c a' c' w same run
  obtain ⟨rfl, rfl, rfl⟩ := Emission.run_pure_ok_iff.1 run
  exact ⟨same, .done, trivial, h⟩

theorem bind (hm : Draws table method m known Q)
    (hf : ∀ a known', Q a known' → Draws table method (f a) known' Q') :
    Draws table method (m >>= f) known Q' := by
  intro c b c' w same run
  obtain ⟨a, c₁, w₁, w₂, run₁, run₂, rfl⟩ := Emission.run_bind_ok_iff.1 run
  obtain ⟨same₁, drawn₁, supplied₁, ha⟩ := hm c a c₁ w₁ same run₁
  obtain ⟨same₂, drawn₂, supplied₂, hb⟩ := hf a _ ha c₁ b c' w₂ same₁ run₂
  refine ⟨same₂, ?_, supplied_append.2 ⟨supplied₁, supplied₂⟩, ?_⟩
  · rw [drawnIn, assignedIn, List.filterMap_append, List.filter_append]
    exact drawn₁.append drawn₂
  · rw [knownAfter_append]
    exact hb

theorem mono {Q₂ : α → List String → Prop} (h : Draws table method m known Q)
    (imp : ∀ a known', Q a known' → Q₂ a known') : Draws table method m known Q₂ := by
  intro c a c' w same run
  obtain ⟨same', drawn, supplied, ha⟩ := h c a c' w same run
  exact ⟨same', drawn, supplied, imp a _ ha⟩

end Draws

theorem lookup_draws (name : String) : Draws table method (lookup table name) known
    fun found known' => found = table.lookup method name ∧ known' = known := by
  intro c a c' w same run
  cases run
  exact ⟨same, .done, trivial, same ▸ rfl, rfl⟩

theorem state_draws : Draws table method (Emission.state : Lowering Cursor) known
    fun _ known' => known' = known := by
  intro c a c' w same run
  cases run
  exact ⟨same, .done, trivial, rfl⟩

theorem need_draws (e : Error) (o : Option α) :
    Draws table method (Emission.need e o : Lowering α) known
      fun a known' => o = some a ∧ known' = known := by
  cases o with
  | none =>
      intro c a c' w same run
      cases run
  | some x => exact .pure ⟨rfl, rfl⟩

theorem newLabel_draws : Draws table method newLabel known fun _ known' => known' = known := by
  intro c a c' w same run
  cases run
  exact ⟨same, .done, trivial, rfl⟩

theorem emitLabel_draws (name : String) :
    Draws table method (emitLabel name) known fun _ _ => True := by
  intro c a c' w same run
  cases run
  exact ⟨same, .done, ⟨List.forall_mem_nil _, trivial⟩, trivial⟩

theorem emit_draws {i : Instruction} (ready : Ready table method known i.mentions)
    (declared : ∀ n, ∀ t ∈ assigned? (.code n i), table.lookup method t ≠ none) :
    Draws table method (emit i) known fun _ known' => i.isStraight = true → known ⊆ known' := by
  intro c a c' w same run
  have answer : (emit i).run c = ⟨.ok (), c, [.code c.indent i]⟩ := rfl
  obtain ⟨-, rfl, rfl⟩ := Emitted.mk.inj (answer.symm.trans run)
  refine ⟨same, ?_, ⟨fun t ht temp => ?_, trivial⟩, fun straight => subset_passes straight⟩
  · have none : drawnIn table method [.code c.indent i] = [] := by
      rw [drawnIn, List.filter_eq_nil_iff]
      intro t ht missing
      obtain ⟨l, hl, assigned⟩ := List.mem_filterMap.1 ht
      obtain rfl := List.mem_singleton.1 hl
      exact declared _ t assigned (Option.isNone_iff_eq_none.1 missing)
    rw [none]
    exact .done
  · obtain ⟨x, hx, rfl⟩ := List.mem_map.1 (i.reads_subset ht)
    exact ready x hx temp

/-! ## Values -/

theorem Ready.mono {known' : List String} {mentioned : List (String × ElementType)}
    (h : Ready table method known mentioned) (sub : known ⊆ known') :
    Ready table method known' mentioned :=
  fun x hx temp => sub (h x hx temp)

/-- The temporaries that the value mentions are known, and so is the word that stands for it before a
bracket, if that is one. -/
structure Value.Ready (table : SymbolTable) (method : String) (known : List String) (v : Value) :
    Prop where
  operand : Lowering.Ready table method known v.operand.mentions
  array : IsTemp table method v.arrayName → v.arrayName ∈ known

theorem Value.Ready.mono {known' : List String} {v : Value} (h : v.Ready table method known)
    (sub : known ⊆ known') : v.Ready table method known' :=
  ⟨h.operand.mono sub, fun temp => sub (h.array temp)⟩

/-- An operation that mentions known temporaries only, goes straight on and assigns to nothing. -/
structure RightReady (table : SymbolTable) (method : String) (known : List String)
    (i : Instruction) : Prop where
  straight : i.isStraight = true
  unassigned : ∀ n, assigned? (.code n i) = none
  mentions : Lowering.Ready table method known i.mentions

/-- A right side that is ready, as a value or as an operation. -/
def Rhs.Ready (table : SymbolTable) (method : String) (known : List String) : Rhs → Prop
  | .value v => v.Ready table method known
  | .operation i _ => RightReady table method known i

theorem Rhs.Ready.instruction {rhs : Rhs} (h : rhs.Ready table method known) :
    RightReady table method known rhs.instruction := by
  cases rhs with
  | value v => exact ⟨rfl, fun _ => rfl, h.operand⟩
  | operation i type => exact h

theorem not_isTemp_of_numeral {value : String} {n : Int32} (h : numeral? value = some n) :
    ¬ IsTemp table method value := by
  rintro ⟨⟨k, rfl⟩, -⟩
  rw [numeral?_tempName] at h
  cases h

theorem ready_int (n : Int32) : (Value.int n).Ready table method known where
  operand := List.forall_mem_nil _
  array temp := absurd temp (not_isTemp_of_numeral (numeral?_toString n))

theorem ready_bool (b : Bool) : (Value.bool b).Ready table method known where
  operand := List.forall_mem_nil _
  array temp := absurd temp (not_isTemp_of_numeral (numeral?_toString (Value.ofBool b)))

theorem ready_this (className : String) : (Value.this className).Ready table method known where
  operand := List.forall_mem_nil _
  array temp := by
    obtain ⟨⟨k, same⟩, -⟩ := temp
    exact absurd same.symm (tempName_ne_this k)

theorem eq_of_mem_mentions_var {name : String} {t : ElementType} {x : String × ElementType}
    (h : x ∈ (Element.var name t).mentions) : x = (name, t) := by
  unfold Element.mentions at h
  split at h <;> simp_all

theorem ready_var {name : String} {type : Ty} (h : IsTemp table method name → name ∈ known) :
    (Value.var name type).Ready table method known where
  operand x hx temp := by
    obtain rfl := eq_of_mem_mentions_var hx
    exact h temp
  array := h

/-- An element of an array mentions the word for the array, and what its index mentions. -/
theorem ready_item {a i : Value} (ha : a.Ready table method known) (hi : i.Ready table method known) :
    (Value.item a i).Ready table method known where
  operand := List.forall_mem_cons.2 ⟨ha.array, hi.operand⟩
  array := ha.array

/-- A new temporary is known after the line that assigns to it. -/
theorem bind_draws {i : Instruction} (straight : i.isStraight = true)
    (ready : Ready table method known i.mentions) (type : Ty) :
    Draws table method (bind table i type) known
      fun v known' => known ⊆ known' ∧ v.Ready table method known' := by
  intro c a c' w same run
  obtain ⟨n, -, -, free, -, drawn⟩ := newTemp_ends table c
  have answer : (bind table i type).run c = ⟨.ok (.var (tempName n) type),
      { c with temps := n + 1 },
      [.code c.indent (.assign (.var (tempName n) type.lowered) type.lowered i)]⟩ :=
    Emission.run_bind_ok drawn
  obtain ⟨hv, rfl, rfl⟩ := Emitted.mk.inj (answer.symm.trans run)
  cases hv
  subst same
  have after : knownAfter known
      [.code c.indent (.assign (.var (tempName n) type.lowered) type.lowered i)] =
        tempName n :: known := if_pos (isStraight_assign straight)
  have new : drawnIn table c.method
      [.code c.indent (.assign (.var (tempName n) type.lowered) type.lowered i)] =
        [tempName n] := List.filter_cons_of_pos (Option.isNone_iff_eq_none.2 free)
  rw [after, new]
  refine ⟨rfl, .more rfl drawn .done, ⟨fun t ht temp => ?_, trivial⟩, List.subset_cons_self _ _, ?_⟩
  · obtain ⟨x, hx, rfl⟩ := List.mem_map.1 ht
    exact ready x hx temp
  · exact ready_var fun _ => List.mem_cons_self

theorem asValue_draws {rhs : Rhs} (h : rhs.Ready table method known) :
    Draws table method (asValue table rhs) known
      fun v known' => known ⊆ known' ∧ v.Ready table method known' := by
  cases rhs with
  | value v => exact .pure ⟨List.Subset.refl _, h⟩
  | operation i type => exact bind_draws h.straight h.mentions type

theorem asOperand_draws {rhs : Rhs} (h : rhs.Ready table method known) :
    Draws table method (asOperand table rhs) known
      fun v known' => known ⊆ known' ∧ v.Ready table method known' := by
  refine (asValue_draws h).bind fun v known₁ hv => ?_
  split
  · refine (bind_draws (i := .single v.operand) rfl hv.2.operand v.type).mono ?_
    exact fun v' known₂ hv' => ⟨List.Subset.trans hv.1 hv'.1, hv'.2⟩
  · exact .pure hv

/-! ## Expressions -/

theorem lowerName_draws (name : String) :
    Draws table method (lowerName table name) known
      fun rhs known' => known ⊆ known' ∧ rhs.Ready table method known' := by
  refine (lookup_draws name).bind fun found _ h => ?_
  obtain ⟨rfl, rfl⟩ := h
  refine (need_draws _ _).bind fun x _ h => ?_
  obtain ⟨found, rfl⟩ := h
  show Draws table method (if x.origin = .field then Pure.pure (Rhs.operation _ _)
    else Pure.pure (Rhs.value _)) _ _
  split
  · exact .pure ⟨List.Subset.refl _, rfl, fun _ => rfl, List.forall_mem_nil _⟩
  · refine .pure ⟨List.Subset.refl _, ready_var fun temp => ?_⟩
    rw [temp.2] at found
    cases found

theorem lowerBinary_ready (op : BinaryOp) {left right : Value} (hl : left.Ready table method known)
    (hr : right.Ready table method known) : (lowerBinary op left right).Ready table method known := by
  simp only [lowerBinary]
  split
  · rename_i n _
    unfold Value.constant
    split
    · exact ready_bool _
    · exact ready_int n
  · exact ⟨rfl, fun _ => rfl, List.forall_mem_append.2 ⟨hl.operand, hr.operand⟩⟩

theorem lowerNot_ready {v : Value} (h : v.Ready table method known) :
    (lowerNot v).Ready table method known := by
  unfold lowerNot
  split
  · exact ready_bool _
  · exact ⟨rfl, fun _ => rfl, h.operand⟩

theorem targetClass_draws (target : Expr) :
    Draws table method (targetClass? table target) known fun _ known' => known' = known := by
  unfold targetClass?
  split
  · refine (lookup_draws _).bind fun _ _ h => ?_
    exact .pure h.2
  · exact .pure rfl

theorem ready_call {kind : CallKind} {receiver : Element} {method' : Option String}
    {args : List Element} {type : ElementType} (hr : Ready table method known receiver.mentions)
    (ha : ∀ arg ∈ args, Ready table method known arg.mentions) :
    Ready table method known (Instruction.call ⟨kind, some receiver, method', args, type⟩).mentions :=
  List.forall_mem_append.2 ⟨hr, List.forall_mem_flatMap.2 ha⟩

/-- A step whose right side is used as a value, and what is done with that. -/
theorem Draws.valued {m : Lowering Rhs} {f : Value → Lowering β}
    (hm : Draws table method m known fun rhs known' => known ⊆ known' ∧ rhs.Ready table method known')
    (hf : ∀ v known', known ⊆ known' → v.Ready table method known' →
      Draws table method (f v) known' Q') :
    Draws table method (m >>= fun rhs => asValue table rhs >>= f) known Q' := by
  refine hm.bind fun rhs known₁ hr => (asValue_draws hr.2).bind fun v known₂ hv => ?_
  exact hf v known₂ (List.Subset.trans hr.1 hv.1) hv.2

/-- A step whose right side is used as an operand, and what is done with that. -/
theorem Draws.operand {m : Lowering Rhs} {f : Value → Lowering β}
    (hm : Draws table method m known fun rhs known' => known ⊆ known' ∧ rhs.Ready table method known')
    (hf : ∀ v known', known ⊆ known' → v.Ready table method known' →
      Draws table method (f v) known' Q') :
    Draws table method (m >>= fun rhs => asOperand table rhs >>= f) known Q' := by
  refine hm.bind fun rhs known₁ hr => (asOperand_draws hr.2).bind fun v known₂ hv => ?_
  exact hf v known₂ (List.Subset.trans hr.1 hv.1) hv.2

/-- The new temporary for an instruction, as the right side of an expression. -/
theorem bound_draws {i : Instruction} {known' : List String} (sub : known' ⊆ known)
    (straight : i.isStraight = true) (ready : Ready table method known i.mentions) (type : Ty) :
    Draws table method (bind table i type >>= fun v => Pure.pure (Rhs.value v)) known
      fun rhs known'' => known' ⊆ known'' ∧ rhs.Ready table method known'' := by
  refine (bind_draws straight ready type).bind fun v known₂ hv => ?_
  exact .pure ⟨List.Subset.trans sub hv.1, hv.2⟩

mutual

theorem lowerRhs_draws : ∀ (e : Expr) (expected : Option Ty) (known : List String),
    Draws table method (lowerRhs table e expected) known
      fun rhs known' => known ⊆ known' ∧ rhs.Ready table method known'
  | .int _ n, _, _ => .pure ⟨List.Subset.refl _, ready_int n⟩
  | .bool _ b, _, _ => .pure ⟨List.Subset.refl _, ready_bool b⟩
  | .this _, _, _ => .pure ⟨List.Subset.refl _, ready_this _⟩
  | .name _ name, _, _ => lowerName_draws name
  | .paren _ inner, expected, known => lowerRhs_draws inner expected known
  | .binary _ op lhs rhs, _, known => by
      rw [lowerRhs]
      refine (lowerRhs_draws lhs _ known).valued fun left known₁ sub₁ hl => ?_
      refine (lowerRhs_draws rhs _ known₁).valued fun right known₂ sub₂ hr => ?_
      exact .pure ⟨List.Subset.trans sub₁ sub₂, lowerBinary_ready op (hl.mono sub₂) hr⟩
  | .not _ operand, _, known => by
      rw [lowerRhs]
      refine (lowerRhs_draws operand _ known).valued fun v known₁ sub hv => ?_
      exact .pure ⟨sub, lowerNot_ready hv⟩
  | .index _ array index, _, known => by
      rw [lowerRhs]
      refine (lowerRhs_draws array _ known).operand fun a known₁ sub₁ ha => ?_
      refine (lowerRhs_draws index _ known₁).operand fun i known₂ sub₂ hi => ?_
      exact .pure ⟨List.Subset.trans sub₁ sub₂, ready_item (ha.mono sub₂) hi⟩
  | .length _ array, _, known => by
      rw [lowerRhs]
      refine (lowerRhs_draws array _ known).operand fun a known₁ sub ha => ?_
      exact bound_draws sub rfl (ready_call ha.operand (List.forall_mem_nil _)) _
  | .newArray _ size, _, known => by
      rw [lowerRhs]
      refine (lowerRhs_draws size _ known).operand fun n known₁ sub hn => ?_
      refine bound_draws sub rfl ?_ _
      exact List.forall_mem_flatMap.2 (List.forall_mem_singleton.2 hn.operand)
  | .newObject _ className, _, known => by
      rw [lowerRhs, lowerNewObject]
      have class_ready : Ready table method known (Instruction.call ⟨.new,
          some (.var className (.classRef className)), none, [],
          (Ty.ofClass className).lowered⟩).mentions := List.forall_mem_nil _
      refine (bind_draws rfl class_ready _).bind fun v known₁ hv => ?_
      refine (emit_draws (ready_call hv.2.operand (List.forall_mem_nil _)) ?_).bind
        fun _ known₂ sub => ?_
      · rintro n t ⟨⟩
      · exact .pure ⟨List.Subset.trans hv.1 (sub rfl), hv.2.mono (sub rfl)⟩
  | .call _ target method' args, expected, known => by
      rw [lowerRhs]
      refine (targetClass_draws target).bind fun named _ same => ?_
      subst same
      cases named with
      | some name =>
          refine (lowerArguments_draws args _ _).bind fun operands known₁ ho => ?_
          exact .pure ⟨ho.1, rfl, fun _ => rfl, ready_call (List.forall_mem_nil _) ho.2⟩
      | none =>
          refine (lowerRhs_draws target none _).operand fun v known₁ sub₁ hv => ?_
          refine (lowerArguments_draws args _ known₁).bind fun operands known₂ ho => ?_
          exact .pure ⟨List.Subset.trans sub₁ ho.1, rfl, fun _ => rfl,
            ready_call (hv.operand.mono ho.1) ho.2⟩

theorem lowerArguments_draws : ∀ (args : List Expr) (params : List Symbol) (known : List String),
    Draws table method (lowerArguments table args params) known
      fun operands known' => known ⊆ known' ∧
        ∀ arg ∈ operands, Ready table method known' arg.mentions
  | [], _, _ => .pure ⟨List.Subset.refl _, List.forall_mem_nil _⟩
  | arg :: args, params, known => by
      rw [lowerArguments]
      refine (lowerRhs_draws arg _ known).operand fun v known₁ sub₁ hv => ?_
      refine (lowerArguments_draws args _ known₁).bind fun operands known₂ ho => ?_
      exact .pure ⟨List.Subset.trans sub₁ ho.1,
        List.forall_mem_cons.2 ⟨hv.operand.mono ho.1, ho.2⟩⟩

end

theorem lowerValue_draws (e : Expr) (expected : Option Ty) (known : List String) :
    Draws table method (lowerValue table e expected) known
      fun v known' => known ⊆ known' ∧ v.Ready table method known' := by
  refine (lowerRhs_draws e expected known).bind fun rhs known₁ hr => ?_
  exact (asValue_draws hr.2).mono fun v known₂ hv => ⟨List.Subset.trans hr.1 hv.1, hv.2⟩

theorem lowerOperand_draws (e : Expr) (expected : Option Ty) (known : List String) :
    Draws table method (lowerOperand table e expected) known
      fun v known' => known ⊆ known' ∧ v.Ready table method known' := by
  refine (lowerRhs_draws e expected known).bind fun rhs known₁ hr => ?_
  exact (asOperand_draws hr.2).mono fun v known₂ hv => ⟨List.Subset.trans hr.1 hv.1, hv.2⟩

/-! ## Statements -/

/-- The last line of a statement: nothing is asked of what comes after it. -/
theorem emit_last {i : Instruction} (ready : Ready table method known i.mentions)
    (declared : ∀ n, ∀ t ∈ assigned? (.code n i), table.lookup method t ≠ none) :
    Draws table method (emit i) known fun _ _ => True :=
  (emit_draws ready declared).mono fun _ _ _ => trivial

theorem lowerExprStmt_draws (e : Expr) (known : List String) :
    Draws table method (lowerExprStmt table e) known fun _ _ => True := by
  unfold lowerExprStmt
  split
  · refine (lowerRhs_draws e none known).bind fun rhs known₁ hr => ?_
    have ready := hr.2.instruction
    refine emit_last ready.mentions fun n t assigned => ?_
    rw [ready.unassigned] at assigned
    cases assigned
  · exact (lowerValue_draws e none known).bind fun _ _ _ => .pure trivial

theorem lowerAssign_draws (target : String) (value : Expr) (known : List String) :
    Draws table method (lowerAssign table target value) known fun _ _ => True := by
  refine (lookup_draws target).bind fun found _ h => ?_
  obtain ⟨rfl, rfl⟩ := h
  refine (need_draws _ _).bind fun x _ h => ?_
  obtain ⟨found, rfl⟩ := h
  show Draws table method (if x.origin = .field then _ else _) _ _
  split
  · refine (lowerOperand_draws value _ _).bind fun v known₁ hv => ?_
    refine emit_last (List.forall_mem_append.2 ⟨List.forall_mem_nil _, hv.2.operand⟩) ?_
    rintro n t ⟨⟩
  · refine (lowerRhs_draws value _ _).bind fun rhs known₁ hr => ?_
    have declared : table.lookup method target ≠ none := found ▸ Option.some_ne_none x
    have dest : (Value.var target x.symbol.type).Ready table method known₁ :=
      ready_var fun temp => absurd temp.2 declared
    refine emit_last (List.forall_mem_append.2 ⟨dest.operand, hr.2.instruction.mentions⟩) ?_
    rintro n t ⟨⟩
    exact declared

theorem lowerAssignElement_draws (target : String) (index value : Expr) (known : List String) :
    Draws table method (lowerAssignElement table target index value) known fun _ _ => True := by
  refine (lowerName_draws target).valued fun array known₁ sub₁ ha => ?_
  refine (lowerOperand_draws index _ known₁).bind fun i known₂ hi => ?_
  refine (lowerRhs_draws value _ known₂).bind fun rhs known₃ hr => ?_
  refine emit_last (List.forall_mem_append.2 ⟨?_, hr.2.instruction.mentions⟩) ?_
  · exact (ready_item ((ha.mono hi.1).mono hr.1) (hi.2.mono hr.1)).operand
  · rintro n t ⟨⟩

theorem lowerReturn_draws (value : Option Expr) (known : List String) :
    Draws table method (lowerReturn table value) known fun _ _ => True := by
  refine state_draws.bind fun cursor _ same => ?_
  subst same
  cases value with
  | none =>
      refine emit_last (List.forall_mem_nil _) ?_
      rintro n t ⟨⟩
  | some e =>
      refine (lowerValue_draws e _ _).bind fun v known₁ hv => emit_last hv.2.operand ?_
      rintro n t ⟨⟩

theorem emitUnless_draws {v : Value} (h : v.Ready table method known) (label : String) :
    Draws table method (emitUnless v label) known fun _ _ => True := by
  refine emit_last h.operand ?_
  rintro n t ⟨⟩

theorem goto_draws (label : String) :
    Draws table method (emit (.goto label)) known fun _ _ => True := by
  refine emit_last (List.forall_mem_nil _) ?_
  rintro n t ⟨⟩

mutual

/-- A statement needs no temporary of the lines before it. -/
theorem lowerStmt_draws : ∀ (stmt : Stmt) (known : List String),
    Draws table method (lowerStmt table stmt) known fun _ _ => True
  | .block _ body, known => lowerStmts_draws body known
  | .ifThen _ condition thenBranch, known => by
      rw [lowerStmt]
      refine newLabel_draws.bind fun n known₁ same => ?_
      refine (lowerValue_draws condition _ known₁).bind fun c known₂ hc => ?_
      refine (emitUnless_draws hc.2 _).bind fun _ known₃ _ => ?_
      refine (lowerStmt_draws thenBranch known₃).bind fun _ _ _ => ?_
      refine (goto_draws _).bind fun _ _ _ => (emitLabel_draws _).bind fun _ _ _ => ?_
      exact emitLabel_draws _
  | .ifElse _ condition thenBranch elseBranch, known => by
      rw [lowerStmt]
      refine newLabel_draws.bind fun n known₁ same => ?_
      refine (lowerValue_draws condition _ known₁).bind fun c known₂ hc => ?_
      refine (emitUnless_draws hc.2 _).bind fun _ known₃ _ => ?_
      refine (lowerStmt_draws thenBranch known₃).bind fun _ _ _ => ?_
      refine (goto_draws _).bind fun _ _ _ => (emitLabel_draws _).bind fun _ known₄ _ => ?_
      refine (lowerStmt_draws elseBranch known₄).bind fun _ _ _ => ?_
      exact emitLabel_draws _
  | .while _ condition body, known => by
      rw [lowerStmt]
      refine newLabel_draws.bind fun n _ _ => (emitLabel_draws _).bind fun _ known₁ _ => ?_
      refine (lowerValue_draws condition _ known₁).bind fun c known₂ hc => ?_
      refine (emitUnless_draws hc.2 _).bind fun _ known₃ _ => ?_
      refine (lowerStmt_draws body known₃).bind fun _ _ _ => ?_
      refine (goto_draws _).bind fun _ _ _ => ?_
      exact emitLabel_draws _
  | .expr e, known => lowerExprStmt_draws e known
  | .assign _ target value, known => lowerAssign_draws target value known
  | .assignElement _ target index value, known => lowerAssignElement_draws target index value known
  | .return _ value, known => lowerReturn_draws value known

theorem lowerStmts_draws : ∀ (stmts : List Stmt) (known : List String),
    Draws table method (lowerStmts table stmts) known fun _ _ => True
  | [], _ => .pure trivial
  | stmt :: stmts, known => by
      rw [lowerStmts]
      exact (lowerStmt_draws stmt known).bind fun _ known₁ _ => lowerStmts_draws stmts known₁

end

/-! ## Methods -/

/-- The temporaries of a method.  The search for one always ends; those that lowering the body draws
are all different and mean nothing else in the method; one line assigns to each, and every line that
reads it stands after that one, with no label, jump or return between them. -/
theorem temporaries_of_lowered {stmts : List Stmt} {c c' : Cursor} {w : List Line}
    (run : (do beginMethod method; lowerStmts table stmts : Lowering Unit).run c =
      ⟨.ok (), c', w⟩) :
    (∀ d : Cursor, SearchEnds table d) ∧
      ∃ temps, Drawn table method 0 temps c'.temps ∧ temps.Nodup ∧
        ∀ t ∈ temps, table.lookup method t = none ∧ AssignedOnce t w := by
  obtain ⟨_, c₁, w₁, w₂, begun, run₂, rfl⟩ := Emission.run_bind_ok_iff.1 run
  cases begun
  obtain ⟨-, drawn, supplied, -⟩ := lowerStmts_draws stmts [] _ _ _ _ rfl run₂
  refine ⟨newTemp_ends table, _, drawn, drawn.nodup, fun t ht => ?_⟩
  obtain ⟨k, -, name, free⟩ := drawn.numbered t ht
  refine ⟨free, assignedOnce_of_supplied supplied ⟨⟨k, name⟩, free⟩ ?_⟩
  rw [← List.count_filter (p := fun t => (table.lookup method t).isNone)
    (Option.isNone_iff_eq_none.2 free)]
  exact List.count_eq_one_of_mem drawn.nodup ht

/-- A field and a parameter that are called like temporaries, and a condition that needs some. -/
theorem temporaries_of_taken_names :
    ∃ p m c' w, Program.ofText
        "class A { int tmp1; int f(int tmp0) { while (tmp0 + tmp1 < 9) tmp0 = this.f(3); return 1; } }" =
          .ok p ∧ m ∈ p.methods ∧
      (do beginMethod m.name; lowerStmts (.ofProgram p) m.body : Lowering Unit).run .start =
        ⟨.ok (), c', w⟩ ∧ c'.temps = 5 ∧
      (∀ d : Cursor, SearchEnds (.ofProgram p) d) ∧
        ∃ temps, Drawn (.ofProgram p) m.name 0 temps c'.temps ∧ temps.Nodup ∧
          ∀ t ∈ temps, (SymbolTable.ofProgram p).lookup m.name t = none ∧ AssignedOnce t w := by
  obtain ⟨p, hp, ht⟩ := Compiler.exists_of_any
    (Program.ofText
      "class A { int tmp1; int f(int tmp0) { while (tmp0 + tmp1 < 9) tmp0 = this.f(3); return 1; } }")
    (fun p => p.methods.any fun m =>
      let r := (do beginMethod m.name; lowerStmts (.ofProgram p) m.body : Lowering Unit).run .start
      r.outcome.toOption.isSome && r.state.temps == 5) (by decide +kernel)
  obtain ⟨m, hm, ends⟩ := List.any_eq_true.1 ht
  rw [Bool.and_eq_true, beq_iff_eq] at ends
  rcases run : (do beginMethod m.name; lowerStmts (.ofProgram p) m.body : Lowering Unit).run
    .start with ⟨outcome, c', w⟩
  rw [run] at ends
  cases outcome with
  | error e => cases ends.1
  | ok _ => exact ⟨p, m, c', w, hp, hm, run, ends.2, temporaries_of_lowered run⟩

end Lowering

end JavaMinus
