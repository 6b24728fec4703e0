/-
# Methods are listed apart

The generator carries registers, the depth of the stack, labels, a flag and lines from one method to
the next, and a listing is made of one method alone.  From whatever the generator is left with, both
give the same text (`Generating.method_text`): a method sets everything anew, and the flag is set
just where a line is a return (`lower_returns`).
-/
import JavaMinus.Assembly.Generator
import JavaMinus.Proofs.Assembly.Depths
import JavaMinus.Proofs.Assembly.Lines
import JavaMinus.Proofs.Lowering.Apart

namespace JavaMinus

namespace Assembly

open Ir Assembling

/-! ## Returns in lines -/

def Returns (b : Bool) (w : List CodeLine) : Prop := w.any (·.isReturn) = b

variable {f : Frame} {α β : Type} {m : Assembling α} {k : α → Assembling β} {a b : Bool}

theorem Returns.append {w w' : List CodeLine} (h : Returns a w) (h' : Returns b w') :
    Returns (a || b) (w ++ w') := by
  rw [Returns, List.any_append, h, h']

theorem permits_returns : Permits f (Returns false) where
  nil := rfl
  append _ _ h h' := h.append h'
  label _ := rfl
  neutral op h := by
    rw [Returns, List.any_cons, CodeLine.isReturn, (Opcode.quiet_of_isNeutral h).2.1]
    rfl
  load _ _ _ := rfl
  store _ _ _ := rfl
  increment _ _ _ _ := rfl
  choice _ _ _ _ _ := rfl

/-- Lines of two steps, the first of which writes no return. -/
theorem Lines.then (hm : Lines (Returns false) m) (hk : ∀ x, Lines (Returns b) (k x)) :
    Lines (Returns b) (m >>= k) := by
  intro t y t' w run
  obtain ⟨x, t₁, w₁, w₂, first, rest, rfl⟩ := Emission.run_bind_ok_iff.1 run
  exact (hm t x t₁ w₁ first).append (hk x t₁ y t' w₂ rest)

/-- Lines of two steps, the second of which writes no return. -/
theorem Lines.and (hm : Lines (Returns b) m) (hk : ∀ x, Lines (Returns false) (k x)) :
    Lines (Returns b) (m >>= k) := by
  intro t y t' w run
  obtain ⟨x, t₁, w₁, w₂, first, rest, rfl⟩ := Emission.run_bind_ok_iff.1 run
  exact Bool.or_false b ▸ (hm t x t₁ w₁ first).append (hk x t₁ y t' w₂ rest)

theorem load_returns (e : Element) : Lines (Returns false) (load f e) :=
  load_lines permits_returns fun _ => rfl

theorem branch_returns (condition : Instruction) (label : String) :
    Lines (Returns false) (branch f condition label) := by
  have emitted {op : Opcode} (h : op.isReturn = false) : Lines (Returns false) (emit op) :=
    emit_lines (by rw [Returns, List.any_cons, CodeLine.isReturn, h]; rfl)
  unfold branch
  split
  · split
    · exact (load_returns _).then fun _ => (load_returns _).then fun _ => (emitted rfl).then fun _ =>
        emitted rfl
    · refine newLabel_lines fun n => (load_returns _).then fun _ => (emitted rfl).then fun _ => ?_
      refine (load_returns _).then fun _ => (emitted rfl).then fun _ => (emitted rfl).then fun _ => ?_
      rintro _ _ _ _ ⟨⟩
      rfl
    · exact (load_returns _).then fun _ => (emitted rfl).then fun _ => (load_returns _).then fun _ =>
        emitted rfl
    · exact fail_lines _
  · exact (load_returns _).then fun _ => emitted rfl
  · exact (load_returns _).then fun _ => emitted rfl
  · exact fail_lines _

/-- An increment is no return. -/
theorem returns_of_increment? {name : String} {rhs : Instruction} {x : Nat × Int32}
    (h : increment? f name rhs = some x) : rhs.returns = false := by
  cases rhs with
  | binary | unary | single | call | getField | putField | goto | branch => rfl
  | assign | «return» | returnVoid => cases h

theorem lower_returns (i : Instruction) : ∀ wanted, Lines (Returns i.returns) (lower f wanted i) := by
  have quiet := permits_returns (f := f)
  induction i with
  | assign dest t rhs ih =>
      intro wanted
      cases dest with
      | literal value => exact fail_lines _
      | var name t' =>
          rw [lower]
          split
          · rename_i amount short
            refine emit_lines ?_
            rw [Instruction.returns, returns_of_increment? short]
            rfl
          · exact (ih true).and fun _ => store_lines quiet name
      | item array index t' =>
          refine (loadVar_lines quiet fun _ => rfl).then fun _ => ?_
          refine (load_returns index).then fun _ => ?_
          exact (ih true).and fun _ => emit_lines rfl
  | binary lhs operation rhs =>
      exact fun _ => (load_returns lhs).then fun _ => (load_returns rhs).then fun _ =>
        applyOperator_lines quiet operation.op
  | unary operation operand =>
      intro wanted
      rw [lower, unary]
      split
      · exact (load_returns operand).then fun _ => newLabel_lines fun _ =>
          choose_lines quiet _ _ _ _ _
      · exact fail_lines _
  | single operand => exact fun _ => load_returns operand
  | call c =>
      intro wanted
      rw [lower]
      refine call_lines quiet (fun _ => rfl) fun op called => ?_
      simp only [invocation?, Option.bind_eq_bind, Option.bind_eq_some_iff] at called
      obtain ⟨_, -, _, -, _, -, _, -, ⟨⟩⟩ := called
      rfl
  | getField object field =>
      exact fun _ => (load_returns object).then fun _ => need_lines fun _ _ => emit_lines rfl
  | putField object field value =>
      exact fun _ => (load_returns object).then fun _ => (load_returns value).then fun _ =>
        need_lines fun _ _ => emit_lines rfl
  | goto label => exact fun _ => emit_lines rfl
  | branch condition label => exact fun _ => branch_returns condition label
  | «return» t value => exact fun _ => (load_returns value).then fun _ => emit_lines rfl
  | returnVoid => exact fun _ => emit_lines rfl

/-! ## The generator within a method -/

/-- The generator after a step of a method, with the flag read off the lines. -/
def Generator.after (names : ClassNames) (m : Frame → Assembling Unit) (g : Generator) :
    Except Error (Unit × Generator) :=
  let r := (m ⟨names, g.registers⟩).run g.tracker
  r.outcome.map fun () => ((), ⟨g.registers, r.state, g.returned || r.written.any (·.isReturn),
    g.code ++ r.written⟩)

namespace Generating

variable {names : ClassNames} {s s' : Generating Unit} {n n' : Frame → Assembling Unit}

/-- The flag tells of the returns in the lines. -/
def Flags (names : ClassNames) (s : Generating Unit) (n : Frame → Assembling Unit) : Prop :=
  ∀ g, s.run g = g.after names n

theorem Flags.bind (h : Flags names s n) (h' : Flags names s' n') :
    Flags names (s >>= fun _ => s') fun f => n f >>= fun _ => n' f := by
  intro g
  rw [StateT.run_bind, h g, Generator.after, Generator.after, Emission.run_bind]
  rcases (n ⟨names, g.registers⟩).run g.tracker with ⟨outcome, t, w⟩
  cases outcome with
  | error e => rfl
  | ok a =>
      refine (h' _).trans ?_
      rw [Generator.after]
      cases ((n' ⟨names, g.registers⟩).run t).outcome with
      | error e => rfl
      | ok b =>
          refine congrArg (fun g => Except.ok ((), g)) ?_
          simp only [List.any_append, Bool.or_assoc, List.append_assoc]

theorem labels_flags (labels : List String) :
    Flags names (step names fun _ => emitLabels labels) fun _ => emitLabels labels := by
  intro g
  have quiet : (labels.map CodeLine.label).any (·.isReturn) = false :=
    emitLabels_lines (permits_returns (f := ⟨names, g.registers⟩)) labels _ _ _ _
      (emitLabels_run labels g.tracker)
  show Except.map _ _ = _
  rw [Generator.after, emitLabels_run, quiet, Bool.or_false]

theorem instruction_flags (i : Instruction) :
    Flags names (instruction names i) fun f => lower f false i := by
  intro g
  rw [instruction, StateT.run_bind, Generator.after]
  show (Except.map _ _ >>= _) = _
  rcases run : (lower ⟨names, g.registers⟩ false i).run g.tracker with ⟨outcome, t, w⟩
  cases outcome with
  | error e => rfl
  | ok a =>
      have flagged : w.any (·.isReturn) = i.returns := lower_returns i false g.tracker a t w run
      show StateT.run (if i.returns then _ else _) _ =
        Except.ok ((), Generator.mk g.registers t (g.returned || w.any _) (g.code ++ w))
      rw [flagged]
      cases i.returns with
      | false =>
          rw [Bool.or_false]
          rfl
      | true =>
          rw [Bool.or_true]
          rfl

theorem body_flags : ∀ ls : List Labeled, Flags names (body names ls) fun f => lowerBody f ls
  | [] => by
      intro g
      show _ = Except.ok ((), Generator.mk g.registers g.tracker (g.returned || false) (g.code ++ []))
      rw [Bool.or_false, List.append_nil]
      rfl
  | l :: ls => (labels_flags l.labels).bind ((instruction_flags l.instruction).bind (body_flags ls))

theorem method_text (names : ClassNames) (m : Method) (g : Generator) :
    ((method names m).run g).map Prod.fst = (MethodListing.ofMethod names m).map (·.text) := by
  have lines : Flags names (body names m.body >>= fun _ => step names fun _ => emitLabels m.trailing)
      fun f => lowerMethod f m := (body_flags m.body).bind (labels_flags m.trailing)
  have split : method names m = beginMethod m >>= fun _ => ((body names m.body >>= fun _ =>
      step names fun _ => emitLabels m.trailing) >>= fun _ => endMethod names m) := by
    rw [bind_assoc]
    rfl
  have begins : (beginMethod m).run g = pure ((), Generator.mk (.ofMethod m) .start false []) := rfl
  have lowered := lines ⟨.ofMethod m, .start, false, []⟩
  rw [Generator.after] at lowered
  rw [split, StateT.run_bind, begins, pure_bind, StateT.run_bind, lowered, MethodListing.ofMethod]
  show Except.map _ (Except.map _ ((lowerMethod ⟨names, .ofMethod m⟩ m).run .start).outcome >>= _) = _
  rcases (lowerMethod ⟨names, .ofMethod m⟩ m).run .start with ⟨outcome, t, w⟩
  cases outcome with
  | error e => rfl
  | ok a => rfl

theorem method_alone (names : ClassNames) (m : Method) (g : Generator) :
    ((method names m).run g).map Prod.fst = alone names m :=
  (method_text names m g).trans (method_text names m .fresh).symm

/-- From any state the texts of methods are those that they have alone. -/
theorem methods_texts (names : ClassNames) (ms : List Method) : ∀ g,
    ((methods names ms).run g).map Prod.fst = ms.mapM (alone names) := by
  induction ms with
  | nil => exact fun _ => rfl
  | cons m ms ih =>
      intro g
      rw [methods, StateT.run_bind, List.mapM_cons, ← method_alone names m g]
      cases (method names m).run g with
      | error e => rfl
      | ok first =>
          show Except.map _ ((methods names ms >>= fun texts => pure (first.1 :: texts)).run first.2) =
            ms.mapM (alone names) >>= fun texts => pure (first.1 :: texts)
          rw [StateT.run_bind, ← ih first.2]
          cases (methods names ms).run first.2 with
          | error e => rfl
          | ok rest => rfl

theorem ofUnit_text (u : ClassUnit) (g : Generator) :
    ((ofUnit u).run g).map Prod.fst = (u.methods.mapM (alone (.ofUnit u))).map u.classText := by
  rw [ofUnit, StateT.run_bind, ← methods_texts _ _ g]
  cases (methods (.ofUnit u) u.methods).run g with
  | error e => rfl
  | ok texts => rfl

theorem listings_texts (names : ClassNames) (ms : List Method) :
    (MethodListing.ofMethods names ms).map (·.map (·.text)) = ms.mapM (alone names) := by
  induction ms with
  | nil => rfl
  | cons m ms ih =>
      rw [List.mapM_cons, ← ih, ← method_alone names m .fresh, method_text, MethodListing.ofMethods]
      cases MethodListing.ofMethod names m with
      | error e => rfl
      | ok first => cases MethodListing.ofMethods names ms <;> rfl

end Generating

open Generating

theorem assembly_eq (u : ClassUnit) :
    u.assembly = (u.methods.mapM (alone (.ofUnit u))).map u.classText := by
  rw [← listings_texts, ClassUnit.assembly, ClassListing.ofUnit]
  cases MethodListing.ofMethods (.ofUnit u) u.methods with
  | error e => rfl
  | ok listings =>
      refine congrArg Except.ok ?_
      show _ ++ _ ++ _ = _ ++ _ ++ _
      refine congrArg₂ (· ++ ·) (congrArg₂ (· ++ ·) rfl ?_) ?_
      · rw [List.map_map]
        rfl
      · show ((if u.methods.any (·.isConstructor) then none else some _).map _).getD "" = _
        split <;> rfl

/-- Neither generator lets anything through from one method to the next.  The first one gives a
method the text that a fresh generator gives it at the indentation of a member; the second one gives
it, whatever it is left with before, the text that it has in any class of the same name with the
same imports and the same superclass. -/
theorem methods_apart :
    (∀ table p, Lowering.irText table p =
      (p.methods.mapM (Lowering.methodText table)).map (Lowering.unitText table)) ∧
    ∀ u : ClassUnit,
      (∀ g, ((ofUnit u).run g).map Prod.fst = u.assembly) ∧
      u.assembly = (u.methods.mapM (alone (.ofUnit u))).map u.classText ∧
      ∀ v : ClassUnit, v.imports = u.imports → v.name = u.name → v.superClass = u.superClass →
        ∀ m, v.methods = [m] →
          v.assembly = (alone (.ofUnit u) m).map fun text => v.classText [text] := by
  refine ⟨Lowering.irText_eq, fun u => ⟨fun g => ?_, assembly_eq u, ?_⟩⟩
  · rw [ofUnit_text, assembly_eq]
  · intro v imports name super m methods
    have names : ClassNames.ofUnit v = .ofUnit u := by
      rw [ClassNames.ofUnit, ClassNames.ofUnit, imports, name, super]
    rw [assembly_eq, methods, names, List.mapM_cons]
    cases alone (.ofUnit u) m <;> rfl

end Assembly

end JavaMinus
