/-
# Labels in the assembly

The labels of a method's code come from two counters: those of its statements are kept from the
intermediate form, and the assembler makes its own for comparisons, negations and conjunctions.  Each
stage numbers its own without a gap, so no two of them are the same (`Numbered`), and the families of the
one are none of the other.  So every label of the code stands there once, and it has every label that is
jumped to (`Compiler.labels_resolved`).
-/
import JavaMinus.Proofs.Assembly.Endings
import JavaMinus.Proofs.Lowering.Labels

namespace JavaMinus

namespace Assembly

open Ir Assembling

def CodeLine.label? : CodeLine → Option String
  | .label name => some name
  | .op _ => none

def labelsOf (w : List CodeLine) : List String := w.filterMap CodeLine.label?

theorem mem_labelsOf {w : List CodeLine} {name : String} : name ∈ labelsOf w ↔ .label name ∈ w := by
  refine List.mem_filterMap.trans ⟨?_, fun h => ⟨_, h, rfl⟩⟩
  rintro ⟨line, hl, same⟩
  cases line with
  | label => cases same; exact hl
  | op => cases same

theorem labelsOf_append (w w' : List CodeLine) : labelsOf (w ++ w') = labelsOf w ++ labelsOf w' :=
  List.filterMap_append

theorem labelsOf_labels (names : List String) : labelsOf (names.map .label) = names := by
  rw [labelsOf, List.filterMap_map]
  exact List.filterMap_some

/-! ## Steps that make no number -/

/-- If the step succeeds, it makes no number, and its lines have these labels. -/
def Marks {α : Type} (m : Assembling α) (names : List String) : Prop :=
  ∀ t x t' w, m.run t = ⟨.ok x, t', w⟩ → t'.labels = t.labels ∧ labelsOf w = names

variable {α β : Type} {m : Assembling α} {k : α → Assembling β} {names names' : List String}
  {f : Frame}

namespace Marks

theorem pure (x : α) : Marks (pure x) [] := by
  intro t y t' w run
  obtain ⟨-, rfl, rfl⟩ := Emission.run_pure_ok_iff.1 run
  exact ⟨rfl, rfl⟩

theorem fail (e : Error) : Marks (Emission.fail e : Assembling α) names :=
  fun _ _ _ _ run => nomatch run

theorem bind (hm : Marks m names) (hk : ∀ x, Marks (k x) names') :
    Marks (m >>= k) (names ++ names') := by
  intro t y t₂ w run
  obtain ⟨x, t₁, w₁, w₂, run₁, run₂, rfl⟩ := Emission.run_bind_ok_iff.1 run
  obtain ⟨labels₁, first⟩ := hm t x t₁ w₁ run₁
  obtain ⟨labels₂, second⟩ := hk x t₁ y t₂ w₂ run₂
  exact ⟨labels₂.trans labels₁, by rw [labelsOf_append, first, second]⟩

theorem first (hm : Marks m []) (hk : ∀ x, Marks (k x) names) : Marks (m >>= k) names :=
  hm.bind hk

end Marks

theorem emit_marks (op : Opcode) : Marks (emit op) [] := by
  intro t x t' w run
  obtain ⟨-, labels, rfl, -⟩ := emit_ok run
  exact ⟨labels, rfl⟩

theorem emitLabel_marks (name : String) : Marks (emitLabel name) [name] := by
  intro t x t' w run
  cases run
  exact ⟨rfl, rfl⟩

theorem need_marks (e : Error) (o : Option α) : Marks (Emission.need e o : Assembling α) [] := by
  cases o with
  | none => exact .fail e
  | some x => exact .pure x

theorem loadVar_marks (name : String) (t : ElementType) : Marks (loadVar f name t) [] := by
  unfold loadVar
  split
  · exact emit_marks _
  · exact (need_marks _ _).first fun _ => emit_marks _

theorem load_marks (e : Element) : Marks (load f e) [] := by
  induction e with
  | literal value t =>
      unfold load loadLiteral
      split
      · exact (need_marks _ _).first fun _ => emit_marks _
      · exact emit_marks _
  | var name t => exact loadVar_marks name t
  | item array index t ih =>
      exact (need_marks _ _).first fun _ => (emit_marks _).first fun _ => ih.first fun _ =>
        emit_marks _

theorem loadAll_marks (es : List Element) : Marks (loadAll f es) [] := by
  induction es with
  | nil => exact .pure ()
  | cons e es ih => exact (load_marks e).first fun _ => ih

theorem store_marks (name : String) : Marks (store f name) [] :=
  (need_marks _ _).first fun _ => emit_marks _

theorem choose_marks (comparison : Comparison) (thenLabel endLabel : String) (taken other : Int32) :
    Marks (choose comparison thenLabel endLabel taken other) [thenLabel, endLabel] := by
  have uncounted : Marks (emitUncounted (.constant taken)) [] := by
    intro t x t' w run
    cases run
    exact ⟨rfl, rfl⟩
  refine (emit_marks _).first fun _ => (emit_marks _).first fun _ => (emit_marks _).first fun _ => ?_
  exact (emitLabel_marks thenLabel).bind fun _ => uncounted.first fun _ => emitLabel_marks endLabel

theorem owner_marks (e : Element) : Marks (owner f e) [] := need_marks _ _

theorem invoke_marks (how : Invocation) (c : Call) : Marks (invoke f how c) [] := by
  refine (need_marks _ _).first fun target => (need_marks _ _).first fun method => ?_
  have passed : ∀ className, Marks (do
      loadAll f c.args
      emit (.invoke how className method (c.args.map fun e => f.names.descriptor e.type)
        (f.names.descriptor c.returnType))) [] :=
    fun className => (loadAll_marks c.args).first fun _ => emit_marks _
  cases how with
  | static => exact (Marks.pure _).first passed
  | virtual => exact (owner_marks target).first fun className =>
      (load_marks target).first fun _ => passed className
  | special =>
      refine Marks.first ?_ fun className => (load_marks target).first fun _ => passed className
      show Marks (if target.type = .this then _ else owner f target) []
      split
      · exact .pure _
      · exact owner_marks target

theorem create_marks (c : Call) : Marks (create f c) [] := by
  unfold create
  split
  · exact emit_marks _
  · split
    · exact (load_marks _).first fun _ => emit_marks _
    · exact .fail _
  · exact .fail _

theorem call_marks (c : Call) (wanted : Bool) : Marks (call f c wanted) [] := by
  refine Marks.first ?_ fun _ => ?_
  · unfold callBody
    split
    · exact create_marks c
    · exact invoke_marks .special c
    · exact invoke_marks .virtual c
    · exact invoke_marks .static c
    · exact (need_marks _ _).first fun operand => load_marks operand
    · exact (need_marks _ _).first fun array => (load_marks array).first fun _ => emit_marks _
  · split
    · exact .pure ()
    · exact emit_marks _

/-! ## Steps that make numbers -/

/-- If the step succeeds, its lines have labels with the numbers that it makes. -/
def Numbers {α : Type} (m : Assembling α) : Prop :=
  ∀ t x t' w, m.run t = ⟨.ok x, t', w⟩ →
    t.labels ≤ t'.labels ∧ Numbered labelFamilies t.labels t'.labels (labelsOf w)

theorem Marks.numbers (hm : Marks m []) : Numbers m := by
  intro t x t' w run
  obtain ⟨labels, none⟩ := hm t x t' w run
  rw [labels, none]
  exact ⟨Nat.le_refl _, .nil⟩

namespace Numbers

theorem fail (e : Error) : Numbers (Emission.fail e : Assembling α) :=
  fun _ _ _ _ run => nomatch run

theorem bind (hm : Numbers m) (hk : ∀ x, Numbers (k x)) : Numbers (m >>= k) := by
  intro t y t₂ w run
  obtain ⟨x, t₁, w₁, w₂, run₁, run₂, rfl⟩ := Emission.run_bind_ok_iff.1 run
  obtain ⟨up₁, first⟩ := hm t x t₁ w₁ run₁
  obtain ⟨up₂, second⟩ := hk x t₁ y t₂ w₂ run₂
  rw [labelsOf_append]
  exact ⟨Nat.le_trans up₁ up₂, first.append second up₁ up₂⟩

theorem after (hm : Marks m []) (hk : ∀ x, Numbers (k x)) : Numbers (m >>= k) :=
  hm.numbers.bind hk

theorem newLabel {k : Nat → Assembling β} (names : Nat → List String)
    (hk : ∀ n, Marks (k n) (names n))
    (numbered : ∀ n, Numbered labelFamilies n (n + 1) (names n)) : Numbers (newLabel >>= k) := by
  intro t y t₂ w run
  obtain ⟨n, t₁, w₁, w₂, first, rest, rfl⟩ := Emission.run_bind_ok_iff.1 run
  cases first
  obtain ⟨labels, marks⟩ := hk _ _ y t₂ w₂ rest
  have up : t₂.labels = t.labels + 1 := labels
  rw [up]
  refine ⟨Nat.le_succ _, ?_⟩
  show Numbered labelFamilies t.labels (t.labels + 1) (labelsOf w₂)
  rw [marks]
  exact numbered _

end Numbers

theorem choose_numbers {family family' : String} (hf : family ∈ labelFamilies)
    (plain : endsPlain family.toList = true) (hf' : family' ∈ labelFamilies)
    (plain' : endsPlain family'.toList = true) (other : family ≠ family') (comparison : Comparison)
    (taken otherwise : Int32) :
    Numbers (do
      let n ← newLabel
      choose comparison (family ++ toString n) (family' ++ toString n) taken otherwise) :=
  .newLabel _ (fun _ => choose_marks _ _ _ _ _) fun _ => .pair hf plain hf' plain' other

theorem chooseCompared_numbers (comparison : Comparison) (taken other : Int32) :
    Numbers (chooseCompared comparison taken other) :=
  choose_numbers (by decide) (by decide) (by decide) (by decide) (by decide) _ _ _

theorem applyOperator_numbers (op : Operator) : Numbers (applyOperator op) := by
  unfold applyOperator
  split
  · exact (emit_marks _).numbers
  · exact .after (emit_marks _) fun _ => chooseCompared_numbers _ _ _
  · split
    · exact .after (emit_marks _) fun _ => .after (emit_marks _) fun _ =>
        .after (emit_marks _) fun _ => chooseCompared_numbers _ _ _
    · exact .fail _

theorem unary_numbers (op : Operator) (operand : Element) : Numbers (unary f op operand) := by
  unfold unary
  split
  · exact .after (load_marks operand) fun _ =>
      choose_numbers (by decide) (by decide) (by decide) (by decide) (by decide) _ _ _
  · exact .fail _

theorem branch_numbers (condition : Instruction) (label : String) :
    Numbers (branch f condition label) := by
  unfold branch
  split
  · split
    · exact .after (load_marks _) fun _ => .after (load_marks _) fun _ =>
        .after (emit_marks _) fun _ => (emit_marks _).numbers
    · refine .newLabel (fun n => ["FalseAND" ++ toString n]) (fun n => ?_) fun n => ?_
      · exact (load_marks _).first fun _ => (emit_marks _).first fun _ => (load_marks _).first fun _ =>
          (emit_marks _).first fun _ => (emit_marks _).first fun _ => emitLabel_marks _
      · exact .singleton (by decide) (by decide)
    · exact .after (load_marks _) fun _ => .after (emit_marks _) fun _ =>
        .after (load_marks _) fun _ => (emit_marks _).numbers
    · exact .fail _
  · exact .after (load_marks _) fun _ => (emit_marks _).numbers
  · exact .after (load_marks _) fun _ => (emit_marks _).numbers
  · exact .fail _

/-- The labels of an instruction's lines have the numbers that it makes. -/
theorem lower_numbers (i : Instruction) : ∀ wanted : Bool, Numbers (lower f wanted i) := by
  induction i with
  | assign dest type rhs ih =>
      intro wanted
      cases dest with
      | literal => exact .fail _
      | var name t =>
          unfold lower
          split
          · exact (emit_marks _).numbers
          · exact (ih true).bind fun _ => (store_marks name).numbers
      | item array index t =>
          exact .after (loadVar_marks array _) fun _ => .after (load_marks index) fun _ =>
            (ih true).bind fun _ => (emit_marks _).numbers
  | binary lhs operation rhs =>
      exact fun _ => .after (load_marks lhs) fun _ => .after (load_marks rhs) fun _ =>
        applyOperator_numbers operation.op
  | unary operation operand => exact fun _ => unary_numbers operation.op operand
  | single operand => exact fun _ => (load_marks operand).numbers
  | call c => exact fun wanted => (call_marks c wanted).numbers
  | getField object field =>
      exact fun _ => .after (load_marks object) fun _ => .after (owner_marks object) fun _ =>
        (emit_marks _).numbers
  | putField object field value =>
      exact fun _ => .after (load_marks object) fun _ => .after (load_marks value) fun _ =>
        .after (owner_marks object) fun _ => (emit_marks _).numbers
  | goto label => exact fun _ => (emit_marks _).numbers
  | branch condition label => exact fun _ => branch_numbers condition label
  | «return» type value =>
      exact fun _ => .after (load_marks value) fun _ => (emit_marks _).numbers
  | returnVoid => exact fun _ => (emit_marks _).numbers

/-! ## Methods -/

theorem lowerBody_labels {body : List Labeled} : ∀ t x t' w, (lowerBody f body).run t = ⟨.ok x, t', w⟩ →
    t.labels ≤ t'.labels ∧ ∃ made, Numbered labelFamilies t.labels t'.labels made ∧
      (labelsOf w).Perm (body.flatMap (·.labels) ++ made) := by
  induction body with
  | nil =>
      intro t x t' w run
      cases run
      exact ⟨Nat.le_refl _, [], .nil, .nil⟩
  | cons l body ih =>
      intro t x t' w run
      obtain ⟨_, t₁, w₁, _, labeled, rest, rfl⟩ := Emission.run_bind_ok_iff.1 run
      obtain ⟨-, rfl, rfl⟩ := Emitted.mk.inj ((emitLabels_run l.labels t).symm.trans labeled)
      obtain ⟨_, t₂, w₂, w₃, lowered, others, rfl⟩ := Emission.run_bind_ok_iff.1 rest
      obtain ⟨up, own⟩ := lower_numbers l.instruction false _ _ _ _ lowered
      obtain ⟨up', made, numbered, same⟩ := ih _ _ _ _ others
      refine ⟨Nat.le_trans up up', labelsOf w₂ ++ made, own.append numbered up up', ?_⟩
      rw [labelsOf_append, labelsOf_append, labelsOf_labels, List.flatMap_cons, List.append_assoc]
      exact .append_left _ ((same.append_left _).trans (List.perm_append_comm_assoc ..))

/-- The code of a method has each label once, and the label of each of its jumps. -/
structure MethodListing.Resolved (listing : MethodListing) : Prop where
  unique : (labelsOf listing.code).Nodup
  defined : ∀ line ∈ listing.code, ∀ name, line.target? = some name →
    name ∈ labelsOf listing.code

/-- If the labels of a method are numbered as those of statements, the ones that the assembler makes are
others. -/
theorem labelsOf_nodup {names : ClassNames} {m : Method} {listing : MethodListing} {high : Nat}
    (hn : Numbered Lowering.statementFamilies 0 high (m.body.flatMap (·.labels) ++ m.trailing))
    (h : MethodListing.ofMethod names m = .ok listing) : (labelsOf listing.code).Nodup := by
  obtain ⟨t, w, run, code⟩ := code_of_ofMethod h
  obtain ⟨_, t₁, w₁, w₂, lowered, labeled, rfl⟩ := Emission.run_bind_ok_iff.1 run
  obtain ⟨-, rfl, rfl⟩ := Emitted.mk.inj ((emitLabels_run m.trailing t₁).symm.trans labeled)
  obtain ⟨-, made, numbered, same⟩ := lowerBody_labels _ _ _ _ lowered
  have ending : ∀ due : Bool, labelsOf (if due then [.op .returnVoid] else []) = [] := by decide
  rw [code, labelsOf_append, labelsOf_append, labelsOf_labels, ending, List.append_nil]
  have all : (labelsOf w₁ ++ m.trailing).Perm ((m.body.flatMap (·.labels) ++ m.trailing) ++ made) := by
    refine (same.append_right _).trans ?_
    rw [List.append_assoc, List.append_assoc]
    exact .append_left _ List.perm_append_comm
  refine all.nodup_iff.2 (List.nodup_append.2 ⟨hn.distinct, numbered.distinct, ?_⟩)
  rintro name first _ second rfl
  exact hn.apart numbered (by decide) name first second

theorem resolved_of_shape {names : ClassNames} {m : Method} {listing : MethodListing} {high : Nat}
    {ending : Option Ending} {returns : Bool} (hi : ∀ l ∈ m.body, l.instruction.Formed)
    (hm : Lowering.MethodShape m ending returns)
    (hn : Numbered Lowering.statementFamilies 0 high (m.body.flatMap (·.labels) ++ m.trailing))
    (h : MethodListing.ofMethod names m = .ok listing) : listing.Resolved := by
  refine ⟨labelsOf_nodup hn h, fun line hl name target => mem_labelsOf.2 ?_⟩
  obtain ⟨t, w, run, code⟩ := code_of_ofMethod h
  obtain ⟨shape, named⟩ := lowerMethod_shape hi (fun name => hm.targets name) _ _ _ _ run
  rw [code] at hl ⊢
  refine List.mem_append_left _ ?_
  rcases List.mem_append.1 hl with hl | hl
  · exact ((shape.close named).targets line hl name target).resolve_left List.not_mem_nil
  · split at hl
    · obtain rfl := List.mem_singleton.1 hl
      cases target
    · cases hl

end Assembly

namespace Compiler

open Source Assembly

/-- Of a source that compiles, every method of the assembly has each label once, and the label of each
of its jumps. -/
theorem labels_resolved {source : String} {c : Compilation} (h : compile source = .ok c) :
    ∃ l constructor methods, listing source = .ok l ∧ c.assembly = l.text ∧
      l.methods = constructor :: methods ∧ l.added = none ∧
      ∀ method ∈ l.methods, method.Resolved := by
  obtain ⟨p, hp, -⟩ := ok_of_bind h
  obtain ⟨l, constructor, methods, hl, text, listed⟩ := exists_listed hp h
  refine ⟨l, constructor, methods, hl, text, listed.members, listed.added, ?_⟩
  have written := Lowering.written_ofProgram listed.named
  rw [listed.members]
  refine List.forall_mem_cons.2 ⟨?_, fun method member => ?_⟩
  · have formed : ∀ l ∈ (Lowering.constructorOf (.ofProgram p)).readBack.body,
        l.instruction.Formed := List.forall_mem_map.2 (Lowering.constructorOf_sound written).formed
    have none : Ir.Numbered Lowering.statementFamilies 0 0
        ((Lowering.constructorOf (.ofProgram p)).readBack.body.flatMap (·.labels) ++
          (Lowering.constructorOf (.ofProgram p)).readBack.trailing) := .nil
    exact resolved_of_shape formed (constructor_shape _) none listed.first
  · have each := (List.forall₂_and_left _ _).2 ⟨fun m (hm : m ∈ p.methods) => hm, listed.others⟩
    obtain ⟨m, -, hm, u, lowered, listedAs⟩ := exists_of_forall₂ each method member
    have named := listed.named.methods m hm
    have indexable := p.indexable_of_no_errors listed.named listed.accepted m hm
    obtain ⟨high, numbered⟩ := lowered.numbered
    have formed : ∀ l ∈ u.readBack.body, l.instruction.Formed :=
      List.forall_mem_map.2 (lowered.sound written named indexable).formed
    exact resolved_of_shape formed (lowered.shape written named indexable) numbered listedAs

/-- A loop, two comparisons and a negation. -/
theorem labels_resolved_of_loop :
    ∃ (c : Compilation) (l : ClassListing),
      compile "class A { public boolean f(int n) { while (0 < n) n = n - 1; return !(n < 0); } }" =
        .ok c ∧
      c.assembly = l.text ∧ ∀ method ∈ l.methods, method.Resolved := by
  obtain ⟨c, hc, -⟩ := exists_of_any
    (compile "class A { public boolean f(int n) { while (0 < n) n = n - 1; return !(n < 0); } }")
    (fun _ => true) (by decide +kernel)
  obtain ⟨l, constructor, methods, -, text, -, -, resolved⟩ := labels_resolved hc
  exact ⟨c, l, hc, text, resolved⟩

end Compiler

end JavaMinus
