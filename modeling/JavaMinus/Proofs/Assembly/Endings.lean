/-
# Where the code of a method ends

The code of a method is closed if the machine cannot run off its end: the last line is a return or a
jump that is always taken, and every label that is jumped to stands before an instruction.  Two stages
decide this, and neither knows all of it: the generator of the intermediate form adds a return where
nothing is returned, and the assembler adds one where no line is a return, or where nothing is returned
and labels come last.  A method that returns a value, has a return, and ends with a conditional
statement or a loop gets none (`Compiler.closed_iff`).
-/
import JavaMinus.Proofs.Assembly.Compiled
import JavaMinus.Proofs.Assembly.Depths
import JavaMinus.Proofs.Lowering.Endings

namespace JavaMinus

namespace Assembly

open Ir Assembling

/-! ## Shapes of code -/

/-- Whether the machine goes on after the last line, whether there is a return, and the labels outside
of the lines that they jump to, if any. -/
structure CodeShape (outside : List String) (w : List CodeLine) (falls : Option Bool)
    (returns : Bool) : Prop where
  last : w.getLast?.map CodeLine.fallsThrough = falls
  returns : w.any CodeLine.isReturn = returns
  targets : ∀ line ∈ w, ∀ name, line.target? = some name → name ∈ outside ∨ .label name ∈ w

namespace CodeShape

variable {outside : List String} {w w' : List CodeLine} {falls falls' : Option Bool}
  {returns returns' : Bool}

theorem nil : CodeShape outside [] none false := ⟨rfl, rfl, List.forall_mem_nil _⟩

theorem line (l : CodeLine) (h : ∀ name, l.target? = some name → name ∈ outside) :
    CodeShape outside [l] (some l.fallsThrough) l.isReturn where
  last := rfl
  returns := Bool.or_false _
  targets := List.forall_mem_singleton.2 fun name hn => .inl (h name hn)

theorem append (h : CodeShape outside w falls returns) (h' : CodeShape outside w' falls' returns') :
    CodeShape outside (w ++ w') (falls'.or falls) (returns || returns') where
  last := by
    rw [List.getLast?_append, ← h.last, ← h'.last]
    cases w'.getLast? <;> rfl
  returns := by rw [List.any_append, h.returns, h'.returns]
  targets := List.forall_mem_append.2
    ⟨fun l hl name hn => (h.targets l hl name hn).imp_right (List.mem_append_left _),
      fun l hl name hn => (h'.targets l hl name hn).imp_right (List.mem_append_right _)⟩

theorem of_eq (h : CodeShape outside w falls returns) (hf : falls = falls')
    (hr : returns = returns') : CodeShape outside w falls' returns' :=
  hf ▸ hr ▸ h

theorem labels (names : List String) : CodeShape outside (names.map .label)
    (if names = [] then none else some true) false := by
  induction names with
  | nil => exact nil
  | cons name names ih =>
      have whole := (line (.label name) fun _ h => nomatch h).append ih
      refine whole.of_eq ?_ rfl
      by_cases h : names = []
      · rw [if_pos h]
        rfl
      · rw [if_neg h]
        rfl

end CodeShape

/-- The machine goes on after the lines, or there are none: a part of an instruction that goes on. -/
def GoesOn (outside : List String) (w : List CodeLine) : Prop :=
  CodeShape outside w (if w = [] then none else some true) false

section Instructions

variable {f : Frame} {outside : List String}

theorem goesOn_append {w w' : List CodeLine} (h : GoesOn outside w) (h' : GoesOn outside w') :
    GoesOn outside (w ++ w') := by
  refine (CodeShape.append h h').of_eq ?_ rfl
  cases w' with
  | nil => rw [List.append_nil]; rfl
  | cons line w' => rw [if_neg (List.append_ne_nil_of_right_ne_nil _ (List.cons_ne_nil _ _))]; rfl

theorem goesOn_op {op : Opcode} (hf : (CodeLine.op op).fallsThrough = true)
    (hr : op.isReturn = false) (ht : ∀ name, op.target? = some name → name ∈ outside) :
    GoesOn outside [.op op] :=
  (CodeShape.line (.op op) ht).of_eq (congrArg some hf) hr

theorem permits_goesOn : Permits f (GoesOn outside) where
  nil := .nil
  append _ _ := goesOn_append
  label name := CodeShape.line (.label name) fun _ h => nomatch h
  neutral op h := by
    obtain ⟨falls, stays, jumps⟩ := Opcode.quiet_of_isNeutral h
    exact goesOn_op falls stays (by rw [jumps]; exact fun _ h => nomatch h)
  load _ _ _ := goesOn_op rfl rfl fun _ h => nomatch h
  store _ _ _ := goesOn_op rfl rfl fun _ h => nomatch h
  increment _ _ _ _ := goesOn_op rfl rfl fun _ h => nomatch h
  choice comparison thenLabel endLabel taken other := by
    refine ⟨rfl, rfl, ?_⟩
    simp [CodeLine.target?, Opcode.target?]

theorem allows_goesOn {i : Instruction} (h : i.ending ≠ .leave) (ho : i.targets ⊆ outside) :
    Allows f (GoesOn outside) i where
  receiver _ := goesOn_op rfl rfl fun _ h => nomatch h
  call c op _ called := by
    simp only [invocation?, Option.bind_eq_bind, Option.bind_eq_some_iff] at called
    obtain ⟨_, -, _, -, _, -, _, -, ⟨⟩⟩ := called
    refine goesOn_op rfl rfl ?_
    rintro _ ⟨⟩
  jump label same := absurd (by rw [same]; rfl) h
  branch label hl := goesOn_op rfl rfl fun name hn => by cases hn; exact ho hl
  leave op left := by
    cases i with
    | «return» | returnVoid => exact absurd rfl h
    | assign | binary | unary | single | call | getField | putField | goto | branch => cases left

theorem instruction_shape {i : Instruction} (hi : i.Formed) (ho : i.targets ⊆ outside) :
    Lines (fun w => CodeShape outside w (some (i.ending != .leave)) i.isReturn) (lower f false i) := by
  intro t x t' w run
  by_cases h : i.ending = .leave
  · cases i with
    | goto label =>
        obtain ⟨-, -, rfl, -⟩ := emit_ok run
        exact .line _ fun name hn => by cases hn; exact ho List.mem_cons_self
    | returnVoid =>
        obtain ⟨-, -, rfl, -⟩ := emit_ok run
        exact .line (.op .returnVoid) fun _ h => nomatch h
    | «return» type value =>
        obtain ⟨_, t₁, w₁, w₂, loaded, left, rfl⟩ := Emission.run_bind_ok_iff.1 run
        obtain ⟨-, -, rfl, -⟩ := emit_ok left
        have first : GoesOn outside w₁ :=
          load_lines permits_goesOn (fun _ => goesOn_op rfl rfl fun _ h => nomatch h) _ _ _ _ loaded
        exact first.append (.line (.op (.returnValue _)) fun _ h => nomatch h)
    | assign | binary | unary | single | call | getField | putField | branch => cases h
  · have goes : GoesOn outside w :=
      instruction_lines permits_goesOn hi (allows_goesOn h ho) _ _ _ _ run
    refine CodeShape.of_eq goes ?_ ?_
    · rw [if_neg (lower_writes i false t x t' w run), bne_iff_ne.2 h]
    · cases i with
      | «return» | returnVoid => exact absurd rfl h
      | assign | binary | unary | single | call | getField | putField | goto | branch => rfl

end Instructions

/-! ## Methods -/

section Methods

variable {f : Frame} {outside : List String}

theorem lowerBody_shape {body : List Labeled} (hi : ∀ l ∈ body, l.instruction.Formed)
    (ho : body.flatMap (fun l => l.instruction.targets) ⊆ outside) :
    Lines (fun w => CodeShape outside w (body.getLast?.map fun l => l.instruction.ending != .leave)
      (body.any fun l => l.instruction.isReturn) ∧
        ∀ name ∈ body.flatMap (·.labels), .label name ∈ w) (lowerBody f body) := by
  induction body with
  | nil =>
      intro t x t' w run
      cases run
      exact ⟨.nil, List.forall_mem_nil _⟩
  | cons l body ih =>
      intro t x t' w run
      obtain ⟨formed, more⟩ := List.forall_mem_cons.1 hi
      rw [List.flatMap_cons, List.append_subset] at ho
      obtain ⟨_, t₁, w₁, _, labeled, rest, rfl⟩ := Emission.run_bind_ok_iff.1 run
      obtain ⟨-, rfl, rfl⟩ := Emitted.mk.inj ((emitLabels_run l.labels t).symm.trans labeled)
      obtain ⟨_, t₂, w₂, w₃, lowered, others, rfl⟩ := Emission.run_bind_ok_iff.1 rest
      obtain ⟨shape, named⟩ := ih more ho.2 _ _ _ _ others
      have own := instruction_shape formed ho.1 _ _ _ _ lowered
      refine ⟨((CodeShape.labels l.labels).append (own.append shape)).of_eq ?_ ?_, ?_⟩
      · rw [List.getLast?_cons]
        cases body.getLast? <;> rfl
      · rfl
      · rw [List.flatMap_cons]
        refine List.forall_mem_append.2 ⟨fun name hn => ?_, fun name hn => ?_⟩
        · exact List.mem_append_left _ (List.mem_map_of_mem hn)
        · exact List.mem_append_right _ (List.mem_append_right _ (named name hn))

theorem lowerMethod_shape {m : Method} (hi : ∀ l ∈ m.body, l.instruction.Formed)
    (ho : m.body.flatMap (fun l => l.instruction.targets) ⊆ outside) :
    Lines (fun w => CodeShape outside w
      ((Lowering.endingOf m.body m.trailing).map (· != .leave))
      (m.body.any fun l => l.instruction.isReturn) ∧
        ∀ name ∈ m.body.flatMap (·.labels) ++ m.trailing, .label name ∈ w) (lowerMethod f m) := by
  intro t x t' w run
  obtain ⟨_, t₁, w₁, w₂, lowered, labeled, rfl⟩ := Emission.run_bind_ok_iff.1 run
  obtain ⟨-, rfl, rfl⟩ := Emitted.mk.inj ((emitLabels_run m.trailing t₁).symm.trans labeled)
  obtain ⟨shape, named⟩ := lowerBody_shape hi ho _ _ _ _ lowered
  refine ⟨(shape.append (.labels m.trailing)).of_eq ?_ (Bool.or_false _), ?_⟩
  · unfold Lowering.endingOf
    split
    · rw [Option.map_map]
      rfl
    · rfl
  · exact List.forall_mem_append.2 ⟨fun name hn => List.mem_append_left _ (named name hn),
      fun name hn => List.mem_append_right _ (List.mem_map_of_mem hn)⟩

end Methods

/-! ## Closed code -/

/-- The machine cannot run off the end of the method. -/
structure MethodListing.Closed (listing : MethodListing) : Prop where
  /-- The last line is a return, or a jump that is always taken. -/
  last : ∃ line, listing.code.getLast? = some line ∧ line.fallsThrough = false
  /-- A label that is jumped to stands in the method, and an instruction after it. -/
  targets : ∀ line ∈ listing.code, ∀ name, line.target? = some name → ∃ (i j : Nat) (op : Opcode),
    listing.code[i]? = some (.label name) ∧ i < j ∧ listing.code[j]? = some (.op op)
  /-- Wherever the machine goes on, a line stands. -/
  inside : ∀ i j, Follows listing.code i j → j < listing.code.length

/-- If the jumps of a method stay in it, only its last line is left to look at. -/
theorem closed_iff_last {listing : MethodListing} {falls : Option Bool} {returns : Bool}
    (h : CodeShape [] listing.code falls returns) : listing.Closed ↔ falls = some false := by
  rw [← h.last]
  constructor
  · intro closed
    obtain ⟨line, last, ends⟩ := closed.last
    rw [last, Option.map_some, ends]
  · intro ends
    obtain ⟨line, last, ends⟩ := Option.map_eq_some_iff.1 ends
    have final : listing.code[listing.code.length - 1]? = some line := by
      rw [← List.getLast?_eq_getElem?, last]
    refine ⟨⟨line, last, ends⟩, fun l hl name hn => ?_, fun i j follows => ?_⟩
    · have there := (h.targets l hl name hn).resolve_left List.not_mem_nil
      obtain ⟨i, hi⟩ := List.mem_iff_getElem?.1 there
      cases line with
      | label => cases ends
      | op op =>
          refine ⟨i, listing.code.length - 1, op, hi, ?_, final⟩
          have bound := (List.getElem?_eq_some_iff.1 hi).1
          have other : i ≠ listing.code.length - 1 := by
            rintro rfl
            cases hi.symm.trans final
          omega
    · cases follows with
      | jump _ _ place => exact (List.getElem?_eq_some_iff.1 place).1
      | next there through =>
          have bound := (List.getElem?_eq_some_iff.1 there).1
          have other : i ≠ listing.code.length - 1 := by
            rintro rfl
            cases there.symm.trans final
            rw [ends] at through
            cases through
          omega

theorem CodeShape.close {outside : List String} {w : List CodeLine} {falls : Option Bool}
    {returns : Bool} (h : CodeShape outside w falls returns)
    (hw : ∀ name ∈ outside, .label name ∈ w) : CodeShape [] w falls returns where
  last := h.last
  returns := h.returns
  targets l hl name hn := .inr ((h.targets l hl name hn).elim (hw name) id)

theorem endingOf_eq_label_iff {body : List Labeled} {trailing : List String} :
    Lowering.endingOf body trailing = some .label ↔ trailing ≠ [] := by
  unfold Lowering.endingOf
  split
  · rename_i none
    refine ⟨fun h => ?_, fun h => absurd none h⟩
    obtain ⟨l, -, label⟩ := Option.map_eq_some_iff.1 h
    cases hl : l.instruction <;> rw [hl] at label <;> cases label
  · rename_i some_
    exact ⟨fun _ => some_, fun _ => rfl⟩

/-- The condition for a method's code to be closed, by the ending of its body, whether it has a
return, and whether it returns nothing. -/
def isClosed (ending : Option Ending) (returns isVoid : Bool) : Bool :=
  !returns || ending == some .leave || ending == some .label && isVoid

/-- Whether a `return` is added, by the shape of the body: if there is none, or if labels come last and
nothing is returned. -/
theorem needsReturn_of_shape {f : Frame} {m : Method} {ending : Option Ending} {returns : Bool}
    {t : Tracker} {w : List CodeLine} (hi : ∀ l ∈ m.body, l.instruction.Formed)
    (hm : Lowering.MethodShape m ending returns)
    (run : (lowerMethod f m).run .start = ⟨.ok (), t, w⟩) :
    needsReturn m w = (!returns || ending == some .label && m.returnType == .void) := by
  obtain ⟨shape, -⟩ := lowerMethod_shape hi (fun name => hm.targets name) _ _ _ _ run
  rw [needsReturn, shape.returns, hm.returns, ← hm.ending]
  congr 2
  rw [Bool.eq_iff_iff, beq_iff_eq, endingOf_eq_label_iff, Bool.not_eq_true', List.isEmpty_eq_false_iff]

theorem closed_iff_of_shape {names : ClassNames} {m : Method} {listing : MethodListing}
    {ending : Option Ending} {returns : Bool} (hi : ∀ l ∈ m.body, l.instruction.Formed)
    (hm : Lowering.MethodShape m ending returns) (h : MethodListing.ofMethod names m = .ok listing) :
    listing.Closed ↔ isClosed ending returns (m.returnType == .void) = true := by
  obtain ⟨t, w, run, code⟩ := code_of_ofMethod h
  obtain ⟨shape, named⟩ := lowerMethod_shape hi (fun name => hm.targets name) _ _ _ _ run
  have own := shape.close named
  rw [hm.ending, hm.returns] at own
  have needs := needsReturn_of_shape hi hm run
  rw [isClosed, Bool.or_right_comm, ← needs]
  cases hn : needsReturn m w with
  | true =>
      have last : CodeShape [] [.op .returnVoid] (some false) true := by
        refine .line (.op .returnVoid) ?_
        rintro _ ⟨⟩
      have whole := own.append last
      rw [hn, if_pos rfl] at code
      rw [← code] at whole
      rw [closed_iff_last whole]
      exact ⟨fun _ => rfl, fun _ => rfl⟩
  | false =>
      rw [hn, if_neg Bool.false_ne_true, List.append_nil] at code
      rw [← code] at own
      rw [closed_iff_last own, Bool.false_or, beq_iff_eq, Option.map_eq_some_iff]
      constructor
      · rintro ⟨e, he, leaves⟩
        rw [he, (bne_eq_false_iff_eq.1 leaves)]
      · intro he
        exact ⟨.leave, he, rfl⟩

theorem constructor_shape (table : SymbolTable) :
    Lowering.MethodShape (Lowering.constructorOf table).readBack (some .other) false :=
  ⟨rfl, rfl, List.forall_mem_nil _⟩

end Assembly

namespace Source

/-- Whether the code of a method is closed: it returns nothing, it has no return, or its last line is a
return.  Code that ends with a label is closed also if the method returns something that is no value in
the assembly. -/
def Method.isClosed (s : Scope) (m : Method) : Bool :=
  Assembly.isClosed (m.ending? s) m.returns (!m.returnType.isValue)

end Source

namespace Assembly

open Source Lowering

/-- The code of what a method is lowered to is closed if the method is. -/
theorem closed_iff_of_listed {p : Program} (hn : p.Named)
    (h : (Analysis.ofProgram p).hasErrors = false) {m : Source.Method} (hm : m ∈ p.methods)
    {listing : MethodListing} (hl : ListedAs p m listing) :
    listing.Closed ↔ m.isClosed (.ofMethod (.ofProgram p) m) = true := by
  obtain ⟨u, lowered, listed⟩ := hl
  have written := written_ofProgram hn
  have named := hn.methods m hm
  have indexable := p.indexable_of_no_errors hn h m hm
  have formed : ∀ l ∈ u.readBack.body, l.instruction.Formed :=
    List.forall_mem_map.2 (lowered.sound written named indexable).formed
  rw [closed_iff_of_shape formed (lowered.shape written named indexable) listed]
  obtain ⟨lines, -, rfl⟩ := lowered
  rw [Source.Method.isClosed]
  cases hv : m.isMain with
  | true =>
      have ending : m.ending? (.ofMethod (.ofProgram p) m) = some .leave := by
        rw [Source.Method.ending?, hv]
        rfl
      rw [ending]
      simp [isClosed]
  | false =>
      have returnType : (methodOf (headOf (.ofProgram p) m) lines).readBack.returnType =
          m.returnType.lowered.readBack := by
        show (if m.isMain then _ else m.returnType.lowered).readBack = _
        rw [hv]
        rfl
      have value := (Ty.readBack_lowered m.returnType).2.1
      rw [returnType, ← value]
      simp [isClosed]

end Assembly

namespace Compiler

open Source Assembly

/-- The assembly of a program that compiles is that of a constructor whose code is closed, and of its
methods; the code of a method is closed exactly if it returns nothing, has no return, or ends with
one. -/
theorem closed_iff {source : String} {p : Program} {c : Compilation}
    (hp : Program.ofText source = .ok p) (h : compile source = .ok c) :
    ∃ l constructor methods, listing source = .ok l ∧ c.assembly = l.text ∧
      l.methods = constructor :: methods ∧ l.added = none ∧ constructor.Closed ∧
      List.Forall₂ (fun m method => method.Closed ↔
        m.isClosed (.ofMethod (.ofProgram p) m) = true) p.methods methods := by
  obtain ⟨l, constructor, methods, hl, text, listed⟩ := exists_listed hp h
  refine ⟨l, constructor, methods, hl, text, listed.members, listed.added, ?_, ?_⟩
  · have sound := (Lowering.constructorOf_sound (Lowering.written_ofProgram listed.named)).formed
    have formed : ∀ l ∈ (Lowering.constructorOf (.ofProgram p)).readBack.body,
        l.instruction.Formed := List.forall_mem_map.2 sound
    exact (closed_iff_of_shape formed (constructor_shape _) listed.first).2 rfl
  · have each := (List.forall₂_and_left _ _).2 ⟨fun m (hm : m ∈ p.methods) => hm, listed.others⟩
    exact each.imp fun m method ⟨hm, hl⟩ =>
      closed_iff_of_listed listed.named listed.accepted hm hl

/-- A method that returns after a loop. -/
theorem closed_of_return_last :
    ∃ (p : Program) (c : Compilation) (l : ClassListing) (constructor : MethodListing)
      (methods : List MethodListing),
      Program.ofText
        "class A { public int f(int n) { while (0 < n) n = n - 1; return n; } }" = .ok p ∧
      compile "class A { public int f(int n) { while (0 < n) n = n - 1; return n; } }" = .ok c ∧
      c.assembly = l.text ∧ l.methods = constructor :: methods ∧ constructor.Closed ∧
      List.Forall₂ (fun (_ : Method) (method : MethodListing) => method.Closed)
        p.methods methods := by
  obtain ⟨p, hp, ht⟩ := exists_of_any
    (Program.ofText "class A { public int f(int n) { while (0 < n) n = n - 1; return n; } }")
    (fun p => p.methods.all fun m => m.isClosed (.ofMethod (.ofProgram p) m)) (by decide +kernel)
  obtain ⟨c, hc, -⟩ := exists_of_any
    (compile "class A { public int f(int n) { while (0 < n) n = n - 1; return n; } }")
    (fun _ => true) (by decide +kernel)
  obtain ⟨l, constructor, methods, -, text, members, -, first, others⟩ := closed_iff hp hc
  refine ⟨p, c, l, constructor, methods, hp, hc, text, members, first, ?_⟩
  exact ((List.forall₂_and_left _ _).2 ⟨List.all_eq_true.1 ht, others⟩).imp
    fun _ _ ⟨hm, closed⟩ => closed.2 hm

/-- If both branches of a last conditional statement return, nothing stands after the label where
they meet, and the code is not closed. -/
theorem label_ends_of_both_branches_return :
    ∃ (c : Compilation) (l : ClassListing) (method : MethodListing),
      compile "class A { public int f(boolean b) { if (b) return 1; else return 2; } }" = .ok c ∧
      listing "class A { public int f(boolean b) { if (b) return 1; else return 2; } }" = .ok l ∧
      method ∈ l.methods ∧ method.code.getLast? = some (.label "EndIf0") ∧ ¬ method.Closed := by
  obtain ⟨c, hc, -⟩ := exists_of_any
    (compile "class A { public int f(boolean b) { if (b) return 1; else return 2; } }")
    (fun _ => true) (by decide +kernel)
  obtain ⟨l, hl, ht⟩ := exists_of_any
    (listing "class A { public int f(boolean b) { if (b) return 1; else return 2; } }")
    (fun l => l.methods.any fun method => method.code.getLast? == some (.label "EndIf0"))
    (by decide +kernel)
  obtain ⟨method, member, last⟩ := List.any_eq_true.1 ht
  have last := eq_of_beq last
  refine ⟨c, l, method, hc, hl, member, last, fun closed => ?_⟩
  obtain ⟨line, ends, leaves⟩ := closed.last
  rw [last, Option.some.injEq] at ends
  subst ends
  cases leaves

end Compiler

end JavaMinus
