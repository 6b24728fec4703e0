/-
# The count of the generator

The generator counts the depth of the stack along the text of a method, and the machine does not
follow the text: it jumps, and of the two constants of a comparison it pushes one.  Of a successful
run three things are kept:

    leads        each line finds what it pops, and falls through to a line of the depth it leaves
    deepest      the greatest depth so far is that before an opcode, or the present one
    marked       a label that a line names or is has one depth

The third is the reason that jumps agree.  A label of the method is only met at a depth that is
allowed.  A label of the generator's own carries a number that no other piece of the method has, and
the piece that has it fixes its depth.

An operand that is used where nothing leaves a value stops the generator, so an instruction on the
right of an assignment leaves one.  `lower_le` is what excludes the others: without a value left, the
store finds too little.
-/
import JavaMinus.Proofs.Assembly.Flow
import JavaMinus.Proofs.Assembly.Success
import JavaMinus.Proofs.Ir.Numeral
import JavaMinus.Proofs.Lowering.Runs

namespace JavaMinus

namespace Ir

/-- The number of values that a call leaves before one that is not wanted is dropped. -/
def Call.made (c : Call) : Nat :=
  match c.kind with
  | .loadConstant | .arrayLength => 1
  | _ => c.results

/-- The number of values that a call leaves. -/
def Call.leaves (c : Call) (wanted : Bool) : Nat :=
  if wanted || c.returnType = .void then c.made else c.made - 1

def Instruction.leaves (wanted : Bool) : Instruction → Nat
  | .single _ | .binary .. | .unary .. | .getField .. => 1
  | .call c => c.leaves wanted
  | _ => 0

theorem Call.made_le_one (c : Call) : c.made ≤ 1 := by
  have results : c.results ≤ 1 := by
    unfold Call.results
    split <;> omega
  unfold Call.made
  split
  · exact Nat.le_refl 1
  · exact Nat.le_refl 1
  · exact results

theorem Instruction.leaves_le_one (i : Instruction) (wanted : Bool) : i.leaves wanted ≤ 1 := by
  cases i with
  | single | binary | unary | getField => exact Nat.le_refl 1
  | assign | putField | goto | branch | «return» | returnVoid => exact Nat.zero_le 1
  | call c =>
      have made := c.made_le_one
      show c.leaves wanted ≤ 1
      unfold Call.leaves
      split <;> omega

/-- What leaves a value is no assignment and no jump. -/
theorem Instruction.plain_of_leaves {i : Instruction} {wanted : Bool} (h : i.leaves wanted ≠ 0) :
    (∀ dest type rhs, i ≠ .assign dest type rhs) ∧ i.targets = [] := by
  cases i with
  | single | binary | unary | getField | call => exact ⟨fun _ _ _ => Instruction.noConfusion, rfl⟩
  | assign | putField | goto | branch | «return» | returnVoid => exact absurd rfl h

end Ir

namespace Assembly

open Ir Assembling

/-! ## The generator's own labels -/

/-- The families of labels that the generator makes itself. -/
def labelFamilies : List String :=
  ["ComparisonThen", "ComparisonEndIf", "NotThen", "NotEndIf", "FalseAND"]

def HasNumber (label : String) (n : Nat) : Prop := ∃ family ∈ labelFamilies, label = family ++ toString n

/-- The label is of one of the families. -/
def IsOwn (label : String) : Prop := ∃ n, HasNumber label n

/-- A label that begins like none of them is not of a family. -/
theorem not_isOwn {label : String}
    (h : labelFamilies.all fun family => !family.toList.isPrefixOf label.toList) :
    ¬ IsOwn label := by
  rintro ⟨n, family, hf, rfl⟩
  have apart := List.all_eq_true.1 h family hf
  rw [String.toList_append, Bool.not_eq_true', ← Bool.not_eq_true, List.isPrefixOf_iff_prefix] at apart
  exact apart (List.prefix_append _ _)

theorem family_unique {family family' : String} {m n : Nat} (hf : family ∈ labelFamilies)
    (hf' : family' ∈ labelFamilies) (h : family ++ toString m = family' ++ toString n) :
    family = family' := by
  have plain : ∀ family ∈ labelFamilies, endsPlain family.toList = true := by decide
  exact (numbered_injective (plain family hf) (plain family' hf') h).1

theorem HasNumber.unique {label : String} {m n : Nat} (hm : HasNumber label m)
    (hn : HasNumber label n) : m = n := by
  obtain ⟨family, hf, rfl⟩ := hm
  obtain ⟨family', hf', same⟩ := hn
  have plain : ∀ family ∈ labelFamilies, endsPlain family.toList = true := by decide
  exact (numbered_injective (plain family hf) (plain family' hf') same).2

/-! ## Counted lines -/

/-- The measured lines lead from one state of the count to another, and their marks are as `R` says
of a label and a depth. -/
structure Counted (R : String → Nat → Prop) (s : StackDepth) (ws : List (Nat × CodeLine))
    (s' : StackDepth) : Prop where
  leads : Leads s.depth ws s'.depth
  deepest : s'.max = max s.max (max (peak ws) s'.depth)
  marked : ∀ mark ∈ marks ws, R mark.1 mark.2

namespace Counted

variable {R R' : String → Nat → Prop} {s s' s'' : StackDepth} {ws ws' : List (Nat × CodeLine)}

theorem done (h : s.depth ≤ s.max) : Counted R s [] s :=
  ⟨.done _, by simp only [peak]; omega, List.forall_mem_nil _⟩

theorem append (h : Counted R s ws s') (h' : Counted R s' ws' s'') :
    Counted R s (ws ++ ws') s'' where
  leads := h.leads.append h'.leads
  deepest := by
    have between := h'.leads.le_peak
    rw [h'.deepest, h.deepest, peak_append]
    omega
  marked := by
    rw [marks_append]
    exact List.forall_mem_append.2 ⟨h.marked, h'.marked⟩

theorem mono (h : Counted R s ws s') (hR : ∀ name d, R name d → R' name d) : Counted R' s ws s' :=
  ⟨h.leads, h.deepest, fun mark hm => hR _ _ (h.marked mark hm)⟩

theorem proper (h : Counted R s ws s') : s'.depth ≤ s'.max := by
  rw [h.deepest]
  omega

end Counted

/-! ## Steps that make no numbers -/

/-- A successful run from depth `a` is counted, its marks being as `R` says, and makes no number;
`Q` holds of the answer and the depth at the end. -/
def Counts {α : Type} (R : String → Nat → Prop) (m : Assembling α) (a : Nat)
    (Q : α → Nat → Prop) : Prop :=
  ∀ (t : Tracker) (x : α) (t' : Tracker) (w : List CodeLine), t.stack.depth = a →
    t.stack.depth ≤ t.stack.max → m.run t = ⟨.ok x, t', w⟩ →
    t'.labels = t.labels ∧ ∃ ws, w = ws.map Prod.snd ∧ Counted R t.stack ws t'.stack ∧
      Q x t'.stack.depth

variable {α β : Type} {R : String → Nat → Prop} {m : Assembling α} {k : α → Assembling β}
  {a b : Nat} {Q : α → Nat → Prop} {Q' : β → Nat → Prop} {f : Frame}

namespace Counts

theorem bind (hm : Counts R m a Q) (hk : ∀ x b, Q x b → Counts R (k x) b Q') :
    Counts R (m >>= k) a Q' := by
  intro t y t₂ w ht proper run
  obtain ⟨x, t₁, w₁, w₂, run₁, run₂, rfl⟩ := Emission.run_bind_ok_iff.1 run
  obtain ⟨labels, ws, rfl, counted, hx⟩ := hm t x t₁ w₁ ht proper run₁
  obtain ⟨labels', ws', rfl, counted', hy⟩ := hk x _ hx t₁ y t₂ w₂ rfl counted.proper run₂
  exact ⟨labels'.trans labels, ws ++ ws', (List.map_append).symm, counted.append counted', hy⟩

theorem pure (x : α) (a : Nat) : Counts R (pure x) a fun y b => y = x ∧ b = a := by
  intro t y t' w ht proper run
  obtain ⟨rfl, rfl, rfl⟩ := Emission.run_pure_ok_iff.1 run
  exact ⟨rfl, [], rfl, .done proper, rfl, ht⟩

theorem fail (e : Error) : Counts R (Emission.fail e) a Q :=
  fun _ _ _ _ _ _ run => nomatch run

theorem mono {Q' : α → Nat → Prop} (hm : Counts R m a Q) (h : ∀ x b, Q x b → Q' x b) :
    Counts R m a Q' := by
  intro t x t' w ht proper run
  obtain ⟨labels, ws, lines, counted, hx⟩ := hm t x t' w ht proper run
  exact ⟨labels, ws, lines, counted, h x _ hx⟩

/-- A step that leaves the depth, before another. -/
theorem first (hm : Counts R m a fun _ b => b = a) (hk : ∀ x, Counts R (k x) a Q') :
    Counts R (m >>= k) a Q' :=
  hm.bind fun x _ h => h ▸ hk x

end Counts

theorem need_counts {e : Error} {o : Option α} : Counts R (Emission.need e o) a fun _ b => b = a := by
  cases o with
  | none => exact .fail e
  | some x => exact (Counts.pure x a).mono fun _ _ h => h.2

theorem emit_counts {op : Opcode}
    (h : ∀ name, op.target? = some name → R name (a - op.pops + op.pushes)) :
    Counts R (emit op) a fun _ b => op.pops ≤ a ∧ b = a - op.pops + op.pushes := by
  rintro t x t' w rfl proper run
  obtain ⟨pops, labels, rfl, stack⟩ := emit_ok run
  rw [stack]
  refine ⟨labels, [(t.stack.depth, .op op)], rfl, ⟨?_, ?_, ?_⟩, pops, rfl⟩
  · exact .line pops (fun _ => rfl) (.done _)
  · simp only [peak]
    omega
  · intro mark hm
    cases ht : op.target? with
    | none => simp [marks, mark?, ht] at hm
    | some name =>
        simp only [marks, mark?, ht, Option.map_some, List.filterMap_cons, List.filterMap_nil,
          List.mem_singleton] at hm
        exact hm ▸ h name ht

theorem emit_plain {op : Opcode} (h : op.target? = none) :
    Counts R (emit op) a fun _ b => op.pops ≤ a ∧ b = a - op.pops + op.pushes :=
  emit_counts fun _ hn => nomatch h.symm.trans hn

theorem emitLabel_counts {name : String} (h : R name a) :
    Counts R (emitLabel name) a fun _ b => b = a := by
  rintro t x t' w rfl proper run
  cases run
  refine ⟨rfl, [(t.stack.depth, .label name)], rfl, ⟨?_, ?_, ?_⟩, rfl⟩
  · exact .line (Nat.zero_le _) (fun _ => rfl) (.done _)
  · simp only [peak]
    omega
  · intro mark hm
    obtain rfl := List.mem_singleton.1 hm
    exact h

/-! ## Operands -/

theorem loadVar_counts {name : String} {t : ElementType} :
    Counts R (loadVar f name t) a fun _ b => b = a + 1 := by
  unfold loadVar
  split
  · exact (emit_plain rfl).mono fun _ _ h => h.2
  · exact need_counts.first fun s => (emit_plain rfl).mono fun _ _ h => h.2

theorem load_counts (e : Element) : ∀ {a : Nat}, Counts R (load f e) a fun _ b => b = a + 1 := by
  induction e with
  | literal value t =>
      intro a
      unfold load loadLiteral
      split
      · exact need_counts.first fun n => (emit_plain rfl).mono fun _ _ h => h.2
      · exact (emit_plain rfl).mono fun _ _ h => h.2
  | var name t => exact loadVar_counts
  | item array index t ih =>
      intro a
      refine need_counts.first fun s => ?_
      refine (emit_plain rfl).bind fun _ _ h => ?_
      obtain rfl := h.2
      refine ih.bind fun _ _ h => ?_
      subst h
      exact (emit_plain rfl).mono fun _ _ h => h.2

theorem loadAll_counts (es : List Element) :
    ∀ {a : Nat}, Counts R (loadAll f es) a fun _ b => b = a + es.length := by
  induction es with
  | nil => exact (Counts.pure () _).mono fun _ _ h => h.2
  | cons e es ih =>
      intro a
      refine (load_counts e).bind fun _ _ h => ?_
      subst h
      refine ih.mono fun _ _ h => ?_
      rw [h, List.length_cons]
      omega

theorem store_counts {name : String} :
    Counts R (store f name) a fun _ b => 1 ≤ a ∧ b = a - 1 :=
  need_counts.first fun _ => emit_plain rfl

/-! ## Choices -/

/-- Of the two constants one is pushed, whichever way the machine comes to the end label. -/
theorem choose_counts {comparison : Comparison} {thenLabel endLabel : String} {taken other : Int32}
    (hthen : R thenLabel (a - 1)) (hend : R endLabel a) :
    Counts R (choose comparison thenLabel endLabel taken other) a fun _ b => 1 ≤ a ∧ b = a := by
  rintro t x t' w rfl proper run
  obtain ⟨_, t₁, _, _, branched, run₁, rfl⟩ := Emission.run_bind_ok_iff.1 run
  obtain ⟨_, t₂, _, _, pushed, run₂, rfl⟩ := Emission.run_bind_ok_iff.1 run₁
  obtain ⟨_, t₃, _, _, jumped, run₃, rfl⟩ := Emission.run_bind_ok_iff.1 run₂
  have written : _ = (⟨.ok (), t₃, [.label thenLabel, .op (.constant taken), .label endLabel]⟩ :
      Emitted Error Tracker CodeLine Unit) := run₃.symm
  obtain ⟨-, rfl, rfl⟩ := Emitted.mk.inj written
  obtain ⟨pops, labels₁, rfl, stack₁⟩ := emit_ok branched
  obtain ⟨-, labels₂, rfl, stack₂⟩ := emit_ok pushed
  obtain ⟨-, labels₃, rfl, stack₃⟩ := emit_ok jumped
  have one : 1 ≤ t.stack.depth := pops
  simp only [Opcode.pops, Opcode.pushes] at stack₁ stack₂ stack₃
  rw [stack₂, stack₁] at stack₃
  have final : t'.stack = ⟨t.stack.depth, t.stack.max⟩ := by
    rw [stack₃]
    simp only [StackDepth.mk.injEq]
    omega
  rw [final]
  refine ⟨labels₃.trans (labels₂.trans labels₁),
    [(t.stack.depth, .op (.branch comparison thenLabel)),
      (t.stack.depth - 1, .op (.constant other)), (t.stack.depth, .op (.goto endLabel)),
      (t.stack.depth - 1, .label thenLabel), (t.stack.depth - 1, .op (.constant taken)),
      (t.stack.depth, .label endLabel)], rfl, ⟨?_, ?_, ?_⟩, one, rfl⟩
  · have back : t.stack.depth = t.stack.depth - 1 - 0 + 1 := by omega
    refine .line one (fun _ => rfl) (.line (Nat.zero_le _) (fun _ => back) ?_)
    refine .line (Nat.zero_le _) Bool.noConfusion (.line (Nat.zero_le _) (fun _ => rfl) ?_)
    exact .line (Nat.zero_le _) (fun _ => back) (.line (Nat.zero_le _) (fun _ => rfl) (.done _))
  · simp only [peak]
    omega
  · intro mark hm
    simp only [marks, mark?, Opcode.target?, CodeLine.depthAfter, Opcode.pops, Opcode.pushes,
      List.filterMap_cons, List.filterMap_nil, Option.map_some, Option.map_none, Nat.add_zero,
      Nat.sub_zero, List.mem_cons, List.not_mem_nil, or_false] at hm
    rcases hm with rfl | rfl | rfl | rfl
    · exact hthen
    · exact hend
    · exact hthen
    · exact hend

/-! ## Steps that make numbers -/

/-- The labels of the method, at depths that are allowed. -/
def Outside (allowed : Nat → Prop) (name : String) (d : Nat) : Prop := ¬ IsOwn name ∧ allowed d

/-- The relation fixes the depth of labels with a number from `low` on and below `high`; it holds of
labels of the method only at depths that are allowed. -/
structure Ranged (allowed : Nat → Prop) (low high : Nat) (R : String → Nat → Prop) : Prop where
  placed : ∀ name d, R name d →
    (∃ n, low ≤ n ∧ n < high ∧ HasNumber name n) ∨ Outside allowed name d
  unique : ∀ name d d', R name d → R name d' → IsOwn name → d = d'

theorem Ranged.append {allowed : Nat → Prop} {low mid high : Nat} {R R' : String → Nat → Prop}
    (h : Ranged allowed low mid R) (h' : Ranged allowed mid high R') (hl : low ≤ mid)
    (hh : mid ≤ high) : Ranged allowed low high fun name d => R name d ∨ R' name d where
  placed := by
    rintro name d (hr | hr)
    · exact (h.placed name d hr).imp_left fun ⟨n, ln, nm, hn⟩ => ⟨n, ln, Nat.lt_of_lt_of_le nm hh, hn⟩
    · exact (h'.placed name d hr).imp_left fun ⟨n, mn, nh, hn⟩ => ⟨n, Nat.le_trans hl mn, nh, hn⟩
  unique := by
    -- The numbers of the two relations are apart.
    have apart : ∀ name d d', R name d → R' name d' → ¬ IsOwn name := by
      intro name d d' hr hr' own
      rcases h.placed name d hr with ⟨n, -, below, hn⟩ | ⟨other, -⟩
      · rcases h'.placed name d' hr' with ⟨n', above, -, hn'⟩ | ⟨other, -⟩
        · have same := hn.unique hn'
          omega
        · exact other own
      · exact other own
    rintro name d d' (hr | hr) (hr' | hr') own
    · exact h.unique name d d' hr hr' own
    · exact absurd own (apart name d d' hr hr')
    · exact absurd own (apart name d' d hr' hr)
    · exact h'.unique name d d' hr hr' own

/-- The labels of the method may be added. -/
theorem Ranged.outside {allowed : Nat → Prop} {low high : Nat} {R : String → Nat → Prop}
    (h : Ranged allowed low high R) :
    Ranged allowed low high fun name d => R name d ∨ Outside allowed name d where
  placed := by
    rintro name d (hr | hr)
    · exact h.placed name d hr
    · exact .inr hr
  unique := by
    rintro name d d' (hr | hr) (hr' | hr') own
    · exact h.unique name d d' hr hr' own
    · exact absurd own hr'.1
    · exact absurd own hr.1
    · exact absurd own hr.1

/-- A successful run from depth `a` is counted, its marks being in the range of the numbers that it
makes; `Q` holds of the answer and the depth at the end. -/
def Steps {α : Type} (allowed : Nat → Prop) (m : Assembling α) (a : Nat)
    (Q : α → Nat → Prop) : Prop :=
  ∀ (t : Tracker) (x : α) (t' : Tracker) (w : List CodeLine), t.stack.depth = a →
    t.stack.depth ≤ t.stack.max → m.run t = ⟨.ok x, t', w⟩ →
    t.labels ≤ t'.labels ∧ ∃ R ws, Ranged allowed t.labels t'.labels R ∧ w = ws.map Prod.snd ∧
      Counted R t.stack ws t'.stack ∧ Q x t'.stack.depth

namespace Steps

variable {allowed : Nat → Prop}

theorem bind (hm : Steps allowed m a Q) (hk : ∀ x b, Q x b → Steps allowed (k x) b Q') :
    Steps allowed (m >>= k) a Q' := by
  intro t y t₂ w ht proper run
  obtain ⟨x, t₁, w₁, w₂, run₁, run₂, rfl⟩ := Emission.run_bind_ok_iff.1 run
  obtain ⟨labels, R, ws, ranged, rfl, counted, hx⟩ := hm t x t₁ w₁ ht proper run₁
  obtain ⟨labels', R', ws', ranged', rfl, counted', hy⟩ :=
    hk x _ hx t₁ y t₂ w₂ rfl counted.proper run₂
  have first := counted.mono fun name d hr => (Or.inl hr : R name d ∨ R' name d)
  have second := counted'.mono fun name d hr => (Or.inr hr : R name d ∨ R' name d)
  exact ⟨Nat.le_trans labels labels', _, ws ++ ws', ranged.append ranged' labels labels',
    (List.map_append).symm, first.append second, hy⟩

theorem mono {Q' : α → Nat → Prop} (hm : Steps allowed m a Q) (h : ∀ x b, Q x b → Q' x b) :
    Steps allowed m a Q' := by
  intro t x t' w ht proper run
  obtain ⟨labels, R, ws, ranged, lines, counted, hx⟩ := hm t x t' w ht proper run
  exact ⟨labels, R, ws, ranged, lines, counted, h x _ hx⟩

theorem fail (e : Error) : Steps allowed (Emission.fail e : Assembling α) a Q :=
  fun _ _ _ _ _ _ run => nomatch run

theorem absurd {allowed' : Nat → Prop} (hm : Steps allowed m a fun _ _ => False) :
    Steps allowed' m a Q := by
  intro t x t' w ht proper run
  obtain ⟨-, _, _, -, -, -, impossible⟩ := hm t x t' w ht proper run
  exact impossible.elim

end Steps

section

variable {allowed : Nat → Prop}

theorem Counts.outside (h : Counts (Outside allowed) m a Q) : Steps allowed m a Q := by
  intro t x t' w ht proper run
  obtain ⟨labels, ws, lines, counted, hx⟩ := h t x t' w ht proper run
  exact ⟨Nat.le_of_eq labels.symm, Outside allowed, ws, ⟨fun _ _ hr => .inr hr,
    fun _ _ _ hr _ own => absurd own hr.1⟩, lines, counted, hx⟩

theorem newLabel_steps {k : Nat → Assembling β} {R : Nat → String → Nat → Prop}
    (hk : ∀ n, Counts (R n) (k n) a Q')
    (hR : ∀ n name d, R n name d → HasNumber name n ∨ Outside allowed name d)
    (unique : ∀ n name d d', R n name d → R n name d' → HasNumber name n → d = d') :
    Steps allowed (newLabel >>= k) a Q' := by
  intro t y t' w ht proper run
  obtain ⟨n, t₁, w₁, w₂, made, run₂, rfl⟩ := Emission.run_bind_ok_iff.1 run
  have answer : _ = (⟨.ok t.labels, { t with labels := t.labels + 1 }, []⟩ :
      Emitted Error Tracker CodeLine Nat) := made.symm
  obtain ⟨number, rfl, rfl⟩ := Emitted.mk.inj answer
  obtain rfl := Except.ok.inj number
  obtain ⟨labels, ws, rfl, counted, hy⟩ := hk t.labels
    { t with labels := t.labels + 1 } y t' w₂ ht proper run₂
  have next : t'.labels = t.labels + 1 := labels
  have own : ∀ name d, R t.labels name d → IsOwn name → HasNumber name t.labels :=
    fun name d hr own => (hR _ name d hr).resolve_right fun other => other.1 own
  refine ⟨by omega, R t.labels, ws, ⟨fun name d hr => ?_, fun name d d' hr hr' h => ?_⟩, rfl,
    counted, hy⟩
  · exact (hR _ name d hr).imp_left fun hn => ⟨t.labels, Nat.le_refl _, by omega, hn⟩
  · exact unique _ name d d' hr hr' (own name d hr h)

/-! ## Instructions -/

theorem choice_steps {comparison : Comparison} {thenFamily endFamily : String}
    {taken other : Int32} (hthen : thenFamily ∈ labelFamilies) (hend : endFamily ∈ labelFamilies)
    (apart : thenFamily ≠ endFamily) :
    Steps allowed (newLabel >>= fun n =>
      choose comparison (thenFamily ++ toString n) (endFamily ++ toString n) taken other) a
      fun _ b => 1 ≤ a ∧ b = a := by
  refine newLabel_steps (R := fun n name d => (name = thenFamily ++ toString n ∧ d = a - 1) ∨
    (name = endFamily ++ toString n ∧ d = a)) (fun n => ?_) ?_ ?_
  · exact choose_counts (.inl ⟨rfl, rfl⟩) (.inr ⟨rfl, rfl⟩)
  · rintro n name d (⟨rfl, -⟩ | ⟨rfl, -⟩)
    · exact .inl ⟨thenFamily, hthen, rfl⟩
    · exact .inl ⟨endFamily, hend, rfl⟩
  · have different : ∀ n : Nat, thenFamily ++ toString n ≠ endFamily ++ toString n :=
      fun n same => apart (family_unique hthen hend same)
    rintro n name d d' (⟨rfl, rfl⟩ | ⟨rfl, rfl⟩) (⟨same, rfl⟩ | ⟨same, rfl⟩) -
    · rfl
    · exact absurd same (different n)
    · exact absurd same.symm (different n)
    · rfl

theorem chooseCompared_steps {comparison : Comparison} {taken other : Int32} :
    Steps allowed (chooseCompared comparison taken other) a fun _ b => 1 ≤ a ∧ b = a :=
  choice_steps (by decide) (by decide) (by decide)

theorem subtract_steps : Steps allowed (emit (.arithmetic .subtract)) a
    fun _ b => 2 ≤ a ∧ b = a - 2 + 1 :=
  (emit_plain rfl).outside

theorem applyOperator_steps (op : Operator) :
    Steps allowed (applyOperator op) a fun _ b => 2 ≤ a ∧ b = a - 1 := by
  unfold applyOperator
  split
  · refine (emit_plain rfl).outside.mono fun _ _ h => ⟨h.1, ?_⟩
    have two : 2 ≤ a := h.1
    have left : _ = a - 2 + 1 := h.2
    omega
  · refine subtract_steps.bind fun _ b h => chooseCompared_steps.mono fun _ _ h' => ?_
    omega
  · split
    · refine Steps.bind (emit_plain rfl).outside fun _ b₁ h₁ => ?_
      refine Steps.bind (emit_plain rfl).outside fun _ b₂ h₂ => ?_
      refine subtract_steps.bind fun _ b₃ h₃ => chooseCompared_steps.mono fun _ _ h₄ => ?_
      have two : 2 ≤ a := h₁.1
      have added : b₁ = a - 2 + 1 := h₁.2
      have pushed : b₂ = b₁ - 0 + 1 := h₂.2
      omega
    · exact .fail _

theorem binary_steps {lhs rhs : Element} {op : Operator} :
    Steps allowed (binary f lhs op rhs) a fun _ b => b = a + 1 := by
  refine (load_counts lhs).outside.bind fun _ _ h => ?_
  refine (load_counts rhs).outside.bind fun _ _ h' => ?_
  refine (applyOperator_steps op).mono fun _ _ h'' => ?_
  omega

theorem unary_steps {op : Operator} {operand : Element} :
    Steps allowed (unary f op operand) a fun _ b => b = a + 1 := by
  unfold unary
  split
  · refine (load_counts operand).outside.bind fun _ _ h => ?_
    refine (choice_steps (by decide) (by decide) (by decide)).mono fun _ _ h' => ?_
    omega
  · exact .fail _

theorem getField_counts {object field : Element} :
    Counts R (getField f object field) a fun _ b => b = a + 1 := by
  refine (load_counts object).bind fun _ _ h => ?_
  refine need_counts.first fun className => (emit_plain rfl).mono fun _ _ h' => ?_
  have one : _ = _ - 1 + 1 := h'.2
  omega

theorem putField_counts {object field value : Element} :
    Counts R (putField f object field value) a fun _ b => b = a := by
  refine (load_counts object).bind fun _ _ h => ?_
  refine (load_counts value).bind fun _ _ h' => ?_
  refine need_counts.first fun className => (emit_plain rfl).mono fun _ _ h'' => ?_
  have two : _ = _ - 2 + 0 := h''.2
  omega

theorem create_counts {c : Call} :
    Counts R (create f c) a fun _ b => c.returnType ≠ .void ∧ b = a + 1 := by
  unfold create
  split
  · rename_i h
    exact (emit_plain rfl).mono fun _ _ h' => ⟨by rw [h]; exact ElementType.noConfusion, h'.2⟩
  · rename_i h
    split
    · refine (load_counts _).bind fun _ _ h' => (emit_plain rfl).mono fun _ _ h'' => ?_
      have one : _ = _ - 1 + 1 := h''.2
      refine ⟨by rw [h]; exact ElementType.noConfusion, by omega⟩
    · exact .fail _
  · exact .fail _

theorem calledClass_counts {how : Invocation} {target : Element} :
    Counts R (calledClass f how target) a fun _ b => b = a := by
  have owned : Counts R (owner f target) a fun _ b => b = a := need_counts
  have known : ∀ name, Counts R (Pure.pure name : Assembling String) a fun _ b => b = a :=
    fun name => (Counts.pure name a).mono fun _ _ h => h.2
  cases how with
  | special =>
      show Counts R (if target.type = .this then Pure.pure f.names.super else owner f target) a _
      split
      · exact known _
      · exact owned
  | virtual => exact owned
  | static => exact known _

theorem invoke_counts {how : Invocation} {c : Call} :
    Counts R (invoke f how c) a fun _ b => b = a + c.results := by
  refine need_counts.first fun target => need_counts.first fun method => ?_
  refine calledClass_counts.first fun className => ?_
  have passed : Counts R (do
      loadAll f c.args
      emit (.invoke how className method (c.args.map fun e => f.names.descriptor e.type)
        (f.names.descriptor c.returnType))) (a + how.receivers) fun _ b => b = a + c.results := by
    refine (loadAll_counts c.args).bind fun _ _ h => (emit_plain rfl).mono fun _ _ h' => ?_
    rw [h'.2, h, pushes_invoke, Call.results]
    simp only [Opcode.pops, List.length_map]
    omega
  cases how with
  | static => exact passed
  | special | virtual =>
      refine (load_counts target).bind fun _ _ h => ?_
      rw [h]
      exact passed

theorem callBody_counts {c : Call} :
    Counts R (callBody f c) a fun _ b => b = a + c.made := by
  unfold callBody Call.made
  cases c.kind with
  | new =>
      refine create_counts.mono fun _ _ h => ?_
      rw [h.2]
      exact congrArg (a + ·) (if_neg h.1).symm
  | invokeSpecial | invokeVirtual | invokeStatic => exact invoke_counts
  | loadConstant => exact need_counts.first fun operand => load_counts operand
  | arrayLength =>
      refine need_counts.first fun array => (load_counts array).bind fun _ _ h => ?_
      refine (emit_plain rfl).mono fun _ _ h' => ?_
      have one : _ = _ - 1 + 1 := h'.2
      show _ = a + 1
      omega

theorem call_counts {c : Call} {wanted : Bool} :
    Counts R (call f c wanted) a fun _ b => b ≤ a + c.leaves wanted := by
  refine callBody_counts.bind fun _ _ h => ?_
  unfold Call.leaves
  split
  · exact (Counts.pure () _).mono fun _ _ h' => Nat.le_of_eq (h'.2.trans h)
  · refine (emit_plain rfl).mono fun _ _ h' => ?_
    have dropped : _ = _ - 1 + 0 := h'.2
    omega

theorem jump_counts {comparison : Comparison} {name : String} (h : R name a) :
    Counts R (emit (.branch comparison name)) (a + 1) fun _ b => b = a := by
  refine (emit_counts fun other ho => ?_).mono fun _ _ h => h.2
  cases ho
  exact h

theorem test_counts {e : Element} {comparison : Comparison} {name : String} (h : R name a)
    {k : Assembling β} (hk : Counts R k a Q') :
    Counts R (do load f e; emit (.branch comparison name); k) a Q' := by
  refine (load_counts e).bind fun _ _ h' => ?_
  subst h'
  exact (jump_counts h).bind fun _ _ h'' => h'' ▸ hk

theorem lastTest_counts {e : Element} {comparison : Comparison} {name : String} (h : R name a) :
    Counts R (do load f e; emit (.branch comparison name)) a fun _ b => b = a := by
  refine (load_counts e).bind fun _ _ h' => ?_
  subst h'
  exact jump_counts h

/-- A conjunction jumps over its own label, which has a number. -/
theorem conjunction_steps {lhs rhs : Element} {label : String} (hl : Outside allowed label a) :
    Steps allowed (do
      let n ← newLabel
      load f lhs
      emit (.branch .eq ("FalseAND" ++ toString n))
      load f rhs
      emit (.branch .eq ("FalseAND" ++ toString n))
      emit (.goto label)
      emitLabel ("FalseAND" ++ toString n)) a fun _ b => b = a := by
  refine newLabel_steps (R := fun n name d => (name = "FalseAND" ++ toString n ∧ d = a) ∨
    Outside allowed name d) (fun n => ?_) ?_ ?_
  · refine test_counts (.inl ⟨rfl, rfl⟩) (test_counts (.inl ⟨rfl, rfl⟩) ?_)
    have left : Counts (fun name d => (name = "FalseAND" ++ toString n ∧ d = a) ∨
        Outside allowed name d) (emit (.goto label)) a fun _ b => b = a := by
      refine (emit_counts fun other ho => ?_).mono fun _ _ h => h.2
      cases ho
      exact .inr hl
    exact left.first fun _ => emitLabel_counts (.inl ⟨rfl, rfl⟩)
  · rintro n name d (⟨rfl, -⟩ | outside)
    · exact .inl ⟨"FalseAND", by decide, rfl⟩
    · exact .inr outside
  · rintro n name d d' (⟨rfl, rfl⟩ | other) (⟨-, rfl⟩ | other') numbered
    · rfl
    · exact absurd ⟨n, numbered⟩ other'.1
    · exact absurd ⟨n, numbered⟩ other.1
    · exact absurd ⟨n, numbered⟩ other.1

/-- A conditional jump, at a depth that the label is allowed at. -/
theorem branch_steps {condition : Instruction} {label : String} (hl : Outside allowed label a) :
    Steps allowed (branch f condition label) a fun _ b => b = a := by
  unfold branch
  split
  · rename_i lhs op _ rhs
    split
    · refine ((load_counts lhs).bind fun _ _ h => (load_counts rhs).bind fun _ _ h' => ?_).outside
      refine (emit_plain rfl).bind fun _ _ h'' => ?_
      obtain rfl : _ = a + 1 := h''.2.trans (by rw [h', h]; rfl)
      exact jump_counts hl
    · exact conjunction_steps hl
    · exact (test_counts hl (lastTest_counts hl)).outside
    · exact .fail _
  · exact (lastTest_counts hl).outside
  · exact (lastTest_counts hl).outside
  · exact .fail _

theorem plain_steps {i : Instruction} {wanted : Bool} (hi : ∀ dest type rhs, i ≠ .assign dest type rhs)
    (hl : ∀ label ∈ i.targets, Outside allowed label a) :
    Steps allowed (lower f wanted i) a fun _ b => b ≤ a + i.leaves wanted := by
  cases i with
  | assign dest type rhs => exact absurd rfl (hi dest type rhs)
  | binary lhs operation rhs => exact binary_steps.mono fun _ _ h => Nat.le_of_eq h
  | unary operation operand => exact unary_steps.mono fun _ _ h => Nat.le_of_eq h
  | single operand => exact ((load_counts operand).mono fun _ _ h => Nat.le_of_eq h).outside
  | call c => exact call_counts.outside
  | getField object field => exact (getField_counts.mono fun _ _ h => Nat.le_of_eq h).outside
  | putField object field value => exact (putField_counts.mono fun _ _ h => Nat.le_of_eq h).outside
  | goto label =>
      refine ((emit_counts fun other ho => ?_).mono fun _ _ h => Nat.le_of_eq h.2).outside
      cases ho
      exact hl label List.mem_cons_self
  | branch condition label =>
      exact (branch_steps (hl label List.mem_cons_self)).mono fun _ _ h => Nat.le_of_eq h
  | «return» type value =>
      refine ((load_counts value).bind fun _ _ h => (emit_plain rfl).mono fun _ _ h' => ?_).outside
      have dropped : _ = _ - 1 + 0 := h'.2
      show _ ≤ a + 0
      omega
  | returnVoid => exact ((emit_plain rfl).mono fun _ _ h => Nat.le_of_eq h.2).outside

theorem leaves_of_increment {name : String} {rhs : Instruction} {r : Nat × Int32}
    (h : increment? f name rhs = some r) : rhs.leaves true = 1 := by
  cases rhs with
  | binary => rfl
  | call | assign | unary | single | getField | putField | goto | branch | «return» | returnVoid =>
      cases h

theorem assign_steps {dest : Element} {type : ElementType} {rhs : Instruction} {wanted : Bool}
    (hr : ∀ a, Steps allowed (lower f true rhs) a fun _ b => b ≤ a + rhs.leaves true) :
    Steps allowed (lower f wanted (.assign dest type rhs)) a
      fun _ b => b ≤ a ∧ 1 ≤ a + rhs.leaves true := by
  have one := rhs.leaves_le_one true
  cases dest with
  | literal => exact .fail _
  | var name t =>
      unfold lower
      split
      · rename_i incremented
        refine ((emit_plain rfl).mono fun _ _ h => ⟨Nat.le_of_eq h.2, ?_⟩).outside
        rw [leaves_of_increment incremented]
        omega
      · refine (hr a).bind fun _ _ h => store_counts.outside.mono fun _ _ h' => ?_
        omega
  | item array index t =>
      refine loadVar_counts.outside.bind fun _ _ h₁ => ?_
      refine (load_counts index).outside.bind fun _ _ h₂ => ?_
      refine (hr _).bind fun _ _ h₃ => ?_
      refine (emit_plain rfl).outside.mono fun _ _ h₄ => ?_
      have three : 3 ≤ _ := h₄.1
      have stored : _ = _ - 3 + 0 := h₄.2
      exact ⟨by omega, by omega⟩

theorem lower_le {i : Instruction} (hl : ∀ label ∈ i.targets, ¬ IsOwn label) :
    ∀ (wanted : Bool) (a : Nat), Steps (fun _ => True) (lower f wanted i) a
      fun _ b => b ≤ a + i.leaves wanted := by
  have plain : ∀ i : Instruction, (∀ label ∈ i.targets, ¬ IsOwn label) →
      (∀ dest type rhs, i ≠ .assign dest type rhs) → ∀ (wanted : Bool) (a : Nat),
      Steps (fun _ => True) (lower f wanted i) a fun _ b => b ≤ a + i.leaves wanted :=
    fun i hl hi wanted a => plain_steps hi fun label h => ⟨hl label h, trivial⟩
  induction i with
  | assign dest type rhs ih =>
      exact fun wanted a => (assign_steps (ih hl true)).mono fun _ _ h => h.1
  | branch condition label => exact plain _ hl fun _ _ _ => Instruction.noConfusion
  | binary | unary | single | call | getField | putField | goto | «return» | returnVoid =>
      exact plain _ hl fun _ _ _ => Instruction.noConfusion

/-- An instruction of the body, which starts at depth zero. -/
theorem lower_steps {i : Instruction} (hl : ∀ label ∈ i.targets, ¬ IsOwn label) {wanted : Bool} :
    Steps (· = 0) (lower f wanted i) 0 fun _ b => b ≤ i.leaves wanted := by
  by_cases assigns : ∃ dest type rhs, i = .assign dest type rhs
  · obtain ⟨dest, type, rhs, rfl⟩ := assigns
    by_cases leaves : rhs.leaves true = 0
    · -- Nothing is left to store.
      have right : ∀ a, Steps (fun _ => True) (lower f true rhs) a fun _ b =>
        b ≤ a + rhs.leaves true := lower_le (i := rhs) hl true
      exact ((assign_steps right).mono fun _ _ h => by omega).absurd
    · obtain ⟨hr, none⟩ := Instruction.plain_of_leaves leaves
      have right : ∀ a, Steps (· = 0) (lower f true rhs) a fun _ b => b ≤ a + rhs.leaves true :=
        fun a => plain_steps hr fun label h => by rw [none] at h; cases h
      exact (assign_steps right).mono fun _ _ h => h.1
  · have plain : Steps (· = 0) (lower f wanted i) 0 fun _ b => b ≤ 0 + i.leaves wanted :=
      plain_steps (fun dest type rhs h => assigns ⟨dest, type, rhs, h⟩)
        fun label h => ⟨hl label h, rfl⟩
    exact plain.mono fun _ _ h => by omega

end

/-! ## Something is written -/

/-- A successful run writes a line. -/
def Writes {α : Type} (m : Assembling α) : Prop :=
  ∀ (t : Tracker) (x : α) (t' : Tracker) (w : List CodeLine), m.run t = ⟨.ok x, t', w⟩ → w ≠ []

theorem Writes.before (hm : Writes m) : Writes (m >>= k) := by
  intro t y t' w run
  obtain ⟨x, t₁, w₁, w₂, run₁, -, rfl⟩ := Emission.run_bind_ok_iff.1 run
  exact List.append_ne_nil_of_left_ne_nil (hm t x t₁ w₁ run₁) w₂

theorem Writes.after (hk : ∀ x, Writes (k x)) : Writes (m >>= k) := by
  intro t y t' w run
  obtain ⟨x, t₁, w₁, w₂, -, run₂, rfl⟩ := Emission.run_bind_ok_iff.1 run
  exact List.append_ne_nil_of_right_ne_nil w₁ (hk x t₁ y t' w₂ run₂)

theorem Writes.fail (e : Error) : Writes (Emission.fail e : Assembling α) :=
  fun _ _ _ _ run => nomatch run

theorem emit_writes (op : Opcode) : Writes (emit op) := by
  intro t x t' w run
  obtain ⟨-, -, rfl, -⟩ := emit_ok run
  exact List.cons_ne_nil _ _

theorem loadVar_writes (name : String) (t : ElementType) : Writes (loadVar f name t) := by
  unfold loadVar
  split
  · exact emit_writes _
  · exact .after fun _ => emit_writes _

theorem load_writes (e : Element) : Writes (load f e) := by
  cases e with
  | literal value t =>
      unfold load loadLiteral
      split
      · exact .after fun _ => emit_writes _
      · exact emit_writes _
  | var name t => exact loadVar_writes name t
  | item array index t => exact .after fun _ => .before (emit_writes _)

theorem callBody_writes (c : Call) : Writes (callBody f c) := by
  have invoked : ∀ how, Writes (invoke f how c) := by
    intro how
    refine .after fun target => .after fun method => .after fun className => ?_
    cases how with
    | static => exact .after fun _ => emit_writes _
    | special | virtual => exact .before (load_writes target)
  unfold callBody
  split
  · unfold create
    split
    · exact emit_writes _
    · split
      · exact .before (load_writes _)
      · exact .fail _
    · exact .fail _
  · exact invoked _
  · exact invoked _
  · exact invoked _
  · exact .after fun _ => load_writes _
  · exact .after fun _ => .before (load_writes _)

theorem branch_writes (condition : Instruction) (label : String) :
    Writes (branch f condition label) := by
  unfold branch
  split
  · split
    · exact .before (load_writes _)
    · exact .after fun _ => .before (load_writes _)
    · exact .before (load_writes _)
    · exact .fail _
  · exact .before (load_writes _)
  · exact .before (load_writes _)
  · exact .fail _

theorem lower_writes (i : Instruction) (wanted : Bool) : Writes (lower f wanted i) := by
  cases i with
  | assign dest type rhs =>
      cases dest with
      | literal => exact .fail _
      | var name t =>
          unfold lower
          split
          · exact emit_writes _
          · exact .after fun _ => .after fun _ => emit_writes _
      | item array index t => exact .before (loadVar_writes array _)
  | binary lhs operation rhs => exact .before (load_writes lhs)
  | unary operation operand =>
      unfold lower unary
      split
      · exact .before (load_writes operand)
      · exact .fail _
  | single operand => exact load_writes operand
  | call c => exact .before (callBody_writes c)
  | getField object field => exact .before (load_writes object)
  | putField object field value => exact .before (load_writes object)
  | goto label => exact emit_writes _
  | branch condition label => exact branch_writes condition label
  | «return» type value => exact .before (load_writes value)
  | returnVoid => exact emit_writes _

end Assembly

end JavaMinus
