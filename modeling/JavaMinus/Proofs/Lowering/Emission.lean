/-
# Steps that emit sound lines

`Emits` says what a step of the generator does if it succeeds: it stays in its method, its answer is
as expected, its lines satisfy a condition, and what they use is known.  An answer may owe a part of
the uses, since an operation is no line before its right side is placed.
-/
import JavaMinus.Proofs.Lowering.Sound

namespace JavaMinus.Lowering

open Source Character

/-- A line that can be written, and whose instruction has a known form once it is read back. -/
def Line.Sound : Line → Prop
  | .code _ i => i.Printable ∧ i.readBack.Formed
  | .label name => isWord name.toList = true
  | .text .. => False

/-- An instruction that goes on at the next line in any case. -/
def Line.isPlain : Line → Bool
  | .code _ (.assign ..) | .code _ (.call _) => true
  | _ => false

/-- A sound line of an expression. -/
def Line.Plain (l : Line) : Prop := l.Sound ∧ l.isPlain = true

/-- The uses of the instruction of the line, once it is read back. -/
def Line.uses : Line → List Ir.Use
  | .code _ i => i.readBack.uses false
  | .label _ | .text .. => []

variable {α β : Type} {method : String} {P : Line → Prop} {m : Lowering α} {f : α → Lowering β}
  {a : α} {owes : α → List Ir.Use} {owes' : β → List Ir.Use} {us us' : List Ir.Use} {Q : α → Prop}
  {Q' : β → Prop} {table : SymbolTable}

/-- If the step succeeds in a method, it stays there, its answer satisfies `Q`, its lines satisfy
`P`, and `us` are the uses of its lines and after them those that the answer owes. -/
def Emits (method : String) (P : Line → Prop) (m : Lowering α) (owes : α → List Ir.Use)
    (us : List Ir.Use) (Q : α → Prop) : Prop :=
  ∀ c : Cursor, c.method = method → ∀ a c' w, m.run c = ⟨.ok a, c', w⟩ →
    c'.method = method ∧ Q a ∧ (∀ l ∈ w, P l) ∧ w.flatMap Line.uses ++ owes a = us

/-- The answer owes nothing. -/
def settled : α → List Ir.Use := fun _ => []

namespace Emits

theorem pure (h : Q a) : Emits method P (pure a) owes (owes a) Q := by
  intro c hc a' c' w hr
  obtain ⟨rfl, rfl, rfl⟩ := Emission.run_pure_ok_iff.1 hr
  exact ⟨hc, h, List.forall_mem_nil _, rfl⟩

theorem answer (h : Q a) (ho : owes a = us) : Emits method P (Pure.pure a) owes us Q :=
  ho ▸ pure h

theorem fail (e : Error) : Emits method P (Emission.fail e : Lowering α) owes us Q := by
  intro c _ a c' w hr
  cases hr

theorem bind (hm : Emits method P m owes us Q)
    (hf : ∀ a, Q a → Emits method P (f a) owes' (owes a ++ us') Q') :
    Emits method P (m >>= f) owes' (us ++ us') Q' := by
  intro c hc b c' w hr
  obtain ⟨a, c₁, w₁, w₂, hr₁, hr₂, rfl⟩ := Emission.run_bind_ok_iff.1 hr
  obtain ⟨hc₁, ha, hw₁, first⟩ := hm c hc a c₁ w₁ hr₁
  obtain ⟨hc₂, hb, hw₂, second⟩ := hf a ha c₁ hc₁ b c' w₂ hr₂
  refine ⟨hc₂, hb, List.forall_mem_append.2 ⟨hw₁, hw₂⟩, ?_⟩
  calc
    (w₁ ++ w₂).flatMap Line.uses ++ owes' b = w₁.flatMap Line.uses ++ (owes a ++ us') := by
      rw [List.flatMap_append, List.append_assoc, second]
    _ = us ++ us' := by rw [← List.append_assoc, first]

theorem andThen (hm : Emits method P m settled us Q)
    (hf : ∀ a, Q a → Emits method P (f a) owes' us' Q') :
    Emits method P (m >>= f) owes' (us ++ us') Q' :=
  hm.bind hf

theorem first (hm : Emits method P m settled [] Q)
    (hf : ∀ a, Q a → Emits method P (f a) owes' us Q') :
    Emits method P (m >>= f) owes' us Q' :=
  hm.andThen hf

/-- A last step that uses nothing more than what is owed. -/
theorem pay (hm : Emits method P m owes us Q)
    (hf : ∀ a, Q a → Emits method P (f a) owes' (owes a) Q') :
    Emits method P (m >>= f) owes' us Q' := by
  have paid : ∀ a, Q a → Emits method P (f a) owes' (owes a ++ []) Q' :=
    fun a ha => (List.append_nil (owes a)).symm ▸ hf a ha
  have whole := hm.bind paid
  rwa [List.append_nil] at whole

/-- A last step that uses nothing. -/
theorem done (hm : Emits method P m settled us Q)
    (hf : ∀ a, Q a → Emits method P (f a) owes' [] Q') : Emits method P (m >>= f) owes' us Q' :=
  hm.pay hf

theorem of_eq (hm : Emits method P m owes us Q) (h : us = us') : Emits method P m owes us' Q :=
  h ▸ hm

theorem mono {Q' : α → Prop} (hm : Emits method P m owes us Q) (h : ∀ a, Q a → Q' a) :
    Emits method P m owes us Q' := by
  intro c hc a c' w hr
  obtain ⟨hc', ha, rest⟩ := hm c hc a c' w hr
  exact ⟨hc', h a ha, rest⟩

theorem weaken {P' : Line → Prop} (hm : Emits method P m owes us Q) (h : ∀ l, P l → P' l) :
    Emits method P' m owes us Q := by
  intro c hc a c' w hr
  obtain ⟨hc', ha, lines, rest⟩ := hm c hc a c' w hr
  exact ⟨hc', ha, fun l hl => h l (lines l hl), rest⟩

end Emits

/-! ## The steps of the generator -/

theorem emit_run (i : Ir.Instruction) (c : Cursor) :
    (emit i).run c = ⟨.ok (), c, [.code c.indent i]⟩ :=
  rfl

theorem emit_emits {i : Ir.Instruction} (h : ∀ n, P (.code n i)) :
    Emits method P (emit i) settled (i.readBack.uses false) fun _ => True := by
  intro c hc a c' w hr
  rw [emit_run] at hr
  cases hr
  refine ⟨hc, trivial, List.forall_mem_singleton.2 (h c.indent), ?_⟩
  rw [settled, List.append_nil, List.flatMap_singleton]
  rfl

theorem emitLabel_emits {name : String} (h : isWord name.toList = true) :
    Emits method Line.Sound (emitLabel name) settled [] fun _ => True := by
  intro c hc a c' w hr
  cases hr
  exact ⟨hc, trivial, List.forall_mem_singleton.2 h, rfl⟩

theorem newLabel_emits : Emits method P newLabel settled [] fun _ => True := by
  intro c hc a c' w hr
  cases hr
  exact ⟨hc, trivial, List.forall_mem_nil _, rfl⟩

theorem newTemp_emits :
    Emits method P (newTemp table) settled [] fun name => ∃ n, name = tempName n := by
  intro c hc a c' w hr
  cases hr
  exact ⟨hc, ⟨_, rfl⟩, List.forall_mem_nil _, rfl⟩

theorem lookup_emits (name : String) :
    Emits method P (lookup table name) settled [] fun found =>
      found = table.lookup method name := by
  intro c hc a c' w hr
  cases hr
  exact ⟨hc, by rw [hc], List.forall_mem_nil _, rfl⟩

theorem state_emits :
    Emits method P (Emission.state : Lowering Cursor) settled [] fun c => c.method = method := by
  intro c hc a c' w hr
  cases hr
  exact ⟨hc, hc, List.forall_mem_nil _, rfl⟩

/-- A value that is needed is there if the step succeeds. -/
theorem need_emits {γ : Type} {e : Error} {o : Option γ} :
    Emits method P (Emission.need e o : Lowering γ) settled [] fun x => o = some x := by
  cases o with
  | none => exact .fail e
  | some x => exact .pure rfl

theorem uses_var {name : String} {t : Ir.ElementType} (hn : name ≠ "this") (ht : t.Printable) :
    (Ir.Element.var name t.readBack).uses = [] := by
  have other : t.readBack ≠ .this := by
    intro h
    have assignable := Ir.assignable_readBack hn ht
    rw [h] at assignable
    exact assignable
  rw [Ir.Element.uses, beq_eq_false_iff_ne.2 hn, beq_eq_false_iff_ne.2 other]
  rfl

/-- The result of a right side in a new temporary. -/
theorem bind_emits {rhs : Ir.Instruction} {type : Ty} (h : rhs.PrintableRight)
    (h' : rhs.readBack.FormedRight) (ht : type.Written) :
    Emits method Line.Plain (bind table rhs type) settled (rhs.readBack.uses true) fun v =>
      ∃ n, v = .var (tempName n) type := by
  refine newTemp_emits.first fun name hn => ?_
  obtain ⟨n, rfl⟩ := hn
  have word := tempName_isWord n
  have other := tempName_ne_this n
  have sound : ∀ k,
      Line.Plain (.code k (.assign (.var (tempName n) type.lowered) type.lowered rhs)) :=
    fun _ => ⟨⟨⟨printable_var word other ht.lowered, ht.lowered, h⟩,
      Ir.assignable_readBack other ht.lowered, h'⟩, rfl⟩
  refine ((emit_emits sound).of_eq ?_).done fun _ _ => .pure ⟨n, rfl⟩
  show (Ir.Element.var (tempName n) type.lowered.readBack).uses ++ _ = _
  rw [uses_var other ht.lowered, List.nil_append]

end JavaMinus.Lowering
