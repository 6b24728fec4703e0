/-
# The lines of calls

`Makes` reads code as calls in a row.  A call is made from an empty stack, but for an array and an
index where its result is stored in an element: the receiver is loaded, unless the call is static,
then the arguments, each of them as one value, and the method is called with what is then on the
stack.  Between the calls no method is called, and the stack is empty again after what is done
there.  A receiver that is a variable is loaded from the register of the variable.

The code of a method makes the calls of methods in its instructions, in their order
(`makes_of_ofMethod`).
-/
import JavaMinus.Proofs.Assembly.Invocations
import JavaMinus.Proofs.Assembly.Labels
import JavaMinus.Proofs.Assembly.Receivers
import JavaMinus.Proofs.Lowering.CallTargets

namespace JavaMinus

namespace Ir

/-- An instruction of one of the forms that lowering makes leaves no value where nothing takes it.
-/
theorem Instruction.Formed.isBare {i : Instruction} (h : i.Formed) : i.isBare = false := by
  cases i with
  | binary | unary | single | getField => exact h.elim
  | assign | putField | goto | branch | «return» | returnVoid => rfl
  | call c =>
      show ((c.kind == .loadConstant || c.kind == .arrayLength) && c.returnType == .void) = false
      cases hk : c.kind with
      | loadConstant => exact absurd hk h.kind
      | arrayLength => exact beq_eq_false_iff_ne.2 (h.length hk)
      | new | invokeSpecial | invokeVirtual | invokeStatic => rfl

theorem invokedIn_eq_nil {us : List Use} (h : ∀ o, .call o ∉ us) : invokedIn us = [] := by
  refine List.filterMap_eq_nil_iff.2 fun u hu => ?_
  cases u with
  | receiver => rfl
  | call o => exact absurd hu (h o)

theorem Element.invokedIn_uses (e : Element) : invokedIn e.uses = [] :=
  invokedIn_eq_nil e.call_not_mem_uses

theorem Call.invokedIn_uses (c : Call) (wanted : Bool) :
    invokedIn (c.uses wanted) = if c.kind.how?.isSome then [c.outline wanted] else [] := by
  have target : invokedIn ((c.target.map Element.uses).getD []) = [] := by
    cases c.target with
    | none => rfl
    | some e => exact e.invokedIn_uses
  have args : invokedIn (c.args.flatMap Element.uses) = [] := by
    refine invokedIn_eq_nil fun o ho => ?_
    obtain ⟨e, -, he⟩ := List.mem_flatMap.1 ho
    exact e.call_not_mem_uses o he
  rw [uses, invokedIn_append, invokedIn_append, target, args, List.nil_append, List.nil_append,
    invokedIn, List.filterMap_cons, Use.invoked?]
  have kind : (c.outline wanted).kind = c.kind := rfl
  rw [kind]
  cases c.kind.how?.isSome <;> rfl

theorem Instruction.methodCalls_of_call {i : Instruction} {c : Call} (hc : i.call? = some c) :
    i.methodCalls = if c.kind.how?.isSome then [c] else [] := by
  rcases call_cases hc with rfl | ⟨dest, t, rfl⟩ <;> rfl

theorem Instruction.invokedIn_uses {i : Instruction} {c : Call} (hc : i.call? = some c) :
    invokedIn (i.uses false) = if c.kind.how?.isSome then [c.outline i.wantsResult] else [] := by
  rcases call_cases hc with rfl | ⟨dest, t, rfl⟩
  · exact c.invokedIn_uses false
  · rw [uses, invokedIn_append, Element.invokedIn_uses]
    exact c.invokedIn_uses true

theorem Instruction.methodCalls_of_none {i : Instruction} (hi : i.Formed) (hc : i.call? = none) :
    i.methodCalls = [] := by
  cases i with
  | call => cases hc
  | assign dest t rhs =>
      cases rhs with
      | call => cases hc
      | assign => exact hi.2.elim
      | binary | unary | single | getField | putField | goto | branch | «return» | returnVoid => rfl
  | binary | unary | single | getField | putField | goto | branch | «return» | returnVoid => rfl

theorem Instruction.invokedIn_uses_of_none {i : Instruction} (hi : i.Formed)
    (hc : i.call? = none) : invokedIn (i.uses false) = [] := by
  refine invokedIn_eq_nil fun o ho => ?_
  obtain ⟨c, called, -⟩ := (call_mem_uses_iff hi).1 ho
  cases hc.symm.trans called

/-- The use is the call by its types. -/
def Outlines (c : Call) (o : Outline) : Prop := ∃ wanted, o = c.outline wanted

theorem Instruction.methodCalls_invoked {i : Instruction} (hi : i.Formed) :
    List.Forall₂ Outlines i.methodCalls (invokedIn (i.uses false)) := by
  cases hc : i.call? with
  | none =>
      rw [methodCalls_of_none hi hc, invokedIn_uses_of_none hi hc]
      exact .nil
  | some c =>
      rw [methodCalls_of_call hc, invokedIn_uses hc]
      split
      · exact .cons ⟨_, rfl⟩ .nil
      · exact .nil

/-- The calls of methods among the uses of a method are those that it makes. -/
theorem Method.methodCalls_invoked {m : Method} (hm : ∀ l ∈ m.body, l.instruction.Formed) :
    List.Forall₂ Outlines m.methodCalls (invokedIn m.uses) := by
  unfold methodCalls uses
  generalize m.body = ls at hm
  induction ls with
  | nil => exact .nil
  | cons l ls ih =>
      obtain ⟨first, others⟩ := List.forall_mem_cons.1 hm
      rw [List.flatMap_cons, List.flatMap_cons, invokedIn_append]
      exact List.rel_append (Instruction.methodCalls_invoked first) (ih others)

end Ir

namespace Assembly

open Ir Assembling

def CodeLine.isInvocation : CodeLine → Bool
  | .op opcode => opcode.isInvocation
  | .label _ => false

/-- Lines that leave one value on the stack, as those of an operand do. -/
inductive LoadsValue : List CodeLine → Prop where
  | constant (n : Int32) : LoadsValue [.op (.constant n)]
  | text (value : String) : LoadsValue [.op (.constantText value)]
  | variable (kind : Kind) (register : Nat) : LoadsValue [.op (.load kind register)]
  | item {index : List CodeLine} (kind item : Kind) (register : Nat) : LoadsValue index →
      LoadsValue (.op (.load kind register) :: (index ++ [.op (.loadItem item)]))

/-- The load of the receiver. -/
def receiverLine : CodeLine := .op (.load .reference 0)

/-- The lines load a variable from its register, and the receiver from the first. -/
def LoadsVariable (r : Registers) (name : String) (t : ElementType) (w : List CodeLine) : Prop :=
  if t = .this ∨ name = "this" then w = [receiverLine]
  else ∃ slot, r.find? name = some slot ∧ w = [.op (.load (.ofType slot.type) slot.register)]

/-- The lines of a call: the receiver unless it is static, the arguments, and the opcode, which the
types of the call tell. -/
inductive CallLines (f : Frame) (c : Call) : List CodeLine → Prop where
  | static {passed : List (List CodeLine)} {op : Opcode} : c.kind = .invokeStatic →
      passed.length = c.args.length → (∀ w ∈ passed, LoadsValue w) →
      (∀ wanted, (c.outline wanted).invocation? f.names = some op) →
      CallLines f c (passed.flatten ++ [.op op])
  | value {receiver : List CodeLine} {passed : List (List CodeLine)} {op : Opcode} :
      c.kind ≠ .invokeStatic → LoadsValue receiver →
      (∀ name t, c.target = some (.var name t) → LoadsVariable f.registers name t receiver) →
      passed.length = c.args.length → (∀ w ∈ passed, LoadsValue w) →
      (∀ wanted, (c.outline wanted).invocation? f.names = some op) →
      CallLines f c (receiver ++ (passed.flatten ++ [.op op]))

/-- What stands before and after a call for its result: it is dropped, there is none, or it is
stored in a variable or in an element of an array, which is loaded before with the index. -/
inductive Placed : List CodeLine → List CodeLine → Prop where
  | none : Placed [] []
  | dropped : Placed [] [.op .pop]
  | stored (kind : Kind) (register : Nat) : Placed [] [.op (.store kind register)]
  | storedItem {array index : List CodeLine} (item : Kind) : LoadsValue array → LoadsValue index →
      Placed (array ++ index) [.op (.storeItem item)]

/-- The code makes the calls, in this order and no others.  What is done between them starts and
ends with an empty stack. -/
inductive Makes {α : Type} (R : α → List CodeLine → Prop) : List α → List CodeLine → Prop where
  | done : Makes R [] []
  | between {xs : List α} {code : List CodeLine} (ws : List (Nat × CodeLine)) :
      (∀ l ∈ ws.map Prod.snd, l.isInvocation = false) → Leads 0 ws 0 → Makes R xs code →
      Makes R xs (ws.map Prod.snd ++ code)
  | call {x : α} {xs : List α} {before lines after code : List CodeLine} : Placed before after →
      R x lines → Makes R xs code → Makes R (x :: xs) (before ++ (lines ++ (after ++ code)))

theorem Makes.append {α : Type} {R : α → List CodeLine → Prop} {xs ys : List α}
    {code code' : List CodeLine} (h : Makes R xs code) (h' : Makes R ys code') :
    Makes R (xs ++ ys) (code ++ code') := by
  induction h with
  | done => exact h'
  | between ws quiet leads _ ih =>
      rw [List.append_assoc]
      exact .between ws quiet leads ih
  | call placed made _ ih =>
      simp only [List.append_assoc]
      exact .call placed made ih

theorem Makes.imp {α β : Type} {R : α → List CodeLine → Prop} {S : β → List CodeLine → Prop}
    {xs : List α} {ys : List β} {code : List CodeLine} (h : Makes R xs code)
    (same : List.Forall₂ (fun y x => ∀ w, R x w → S y w) ys xs) : Makes S ys code := by
  induction h generalizing ys with
  | done =>
      cases same
      exact .done
  | between ws quiet leads _ ih => exact .between ws quiet leads (ih same)
  | call placed made _ ih =>
      cases same with
      | cons first others => exact .call placed (first _ made) (ih others)

theorem Makes.exists_lines {α : Type} {R : α → List CodeLine → Prop} {xs : List α}
    {code : List CodeLine} (h : Makes R xs code) : ∀ x ∈ xs, ∃ w, R x w ∧ w ⊆ code := by
  induction h with
  | done => exact List.forall_mem_nil _
  | between _ _ _ _ ih =>
      intro x hx
      obtain ⟨w, made, inside⟩ := ih x hx
      exact ⟨w, made, List.subset_append_of_subset_right _ inside⟩
  | call _ made _ ih =>
      refine List.forall_mem_cons.2 ⟨⟨_, made, ?_⟩, fun x hx => ?_⟩
      · exact List.subset_append_of_subset_right _ (List.subset_append_left _ _)
      · obtain ⟨w, made, inside⟩ := ih x hx
        refine ⟨w, made, List.subset_append_of_subset_right _ ?_⟩
        exact List.subset_append_of_subset_right _ (List.subset_append_of_subset_right _ inside)

section Runs

variable {f : Frame}

theorem loadVar_loads (name : String) (t : ElementType) : Lines LoadsValue (loadVar f name t) := by
  unfold loadVar
  split
  · exact emit_lines (.variable _ _)
  · exact need_lines fun s _ => emit_lines (.variable _ _)

theorem load_loads (e : Element) : Lines LoadsValue (load f e) := by
  induction e with
  | literal value t =>
      unfold load loadLiteral
      split
      · exact need_lines fun n _ => emit_lines (.constant n)
      · exact emit_lines (.text value)
  | var name t => exact loadVar_loads name t
  | item array index t ih =>
      refine need_lines fun s _ => ?_
      intro t x t' w run
      obtain ⟨_, t₁, w₁, _, run₁, rest, rfl⟩ := Emission.run_bind_ok_iff.1 run
      obtain ⟨_, t₂, w₂, w₃, run₂, run₃, rfl⟩ := Emission.run_bind_ok_iff.1 rest
      obtain ⟨-, -, rfl, -⟩ := emit_ok run₁
      obtain ⟨-, -, rfl, -⟩ := emit_ok run₃
      exact .item _ _ _ (ih _ _ _ _ run₂)

theorem loadAll_loads (es : List Element) : Lines (fun w => ∃ passed : List (List CodeLine),
    w = passed.flatten ∧ passed.length = es.length ∧ ∀ w ∈ passed, LoadsValue w)
    (loadAll f es) := by
  induction es with
  | nil =>
      intro t x t' w run
      cases run
      exact ⟨[], rfl, rfl, List.forall_mem_nil _⟩
  | cons e es ih =>
      intro t x t' w run
      obtain ⟨_, t₁, w₁, w₂, run₁, run₂, rfl⟩ := Emission.run_bind_ok_iff.1 run
      obtain ⟨passed, rfl, length, loaded⟩ := ih _ _ _ _ run₂
      exact ⟨w₁ :: passed, rfl, congrArg (· + 1) length,
        List.forall_mem_cons.2 ⟨load_loads e _ _ _ _ run₁, loaded⟩⟩

theorem loadVar_variable (name : String) (t : ElementType) :
    Lines (LoadsVariable f.registers name t) (loadVar f name t) := by
  unfold loadVar
  split
  · rename_i receiver
    refine emit_lines ?_
    rw [LoadsVariable, if_pos (by simpa using receiver)]
    rfl
  · rename_i other
    refine need_lines fun s hs => emit_lines ?_
    rw [LoadsVariable, if_neg (by simpa using other)]
    exact ⟨s, hs, rfl⟩

theorem invoke_callLines {how : Invocation} {c : Call} (hc : c.Formed)
    (hh : c.kind.how? = some how) : Lines (CallLines f c) (invoke f how c) := by
  refine need_lines fun target htarget => need_lines fun method hmethod => ?_
  refine calledClass_lines fun className hclass => ?_
  have called : ∀ wanted, (c.outline wanted).invocation? f.names =
      some (.invoke how className method (c.args.map fun e => f.names.descriptor e.type)
        (f.names.descriptor c.returnType)) := by
    intro wanted
    rw [← invocation?_eq hc]
    simp only [invocation?, hh, htarget, hmethod, hclass, Option.bind_eq_bind, Option.bind_some]
  have passed : Lines (fun w => ∃ (passed : List (List CodeLine)) (op : Opcode),
      w = passed.flatten ++ [.op op] ∧ passed.length = c.args.length ∧
      (∀ w ∈ passed, LoadsValue w) ∧ ∀ wanted, (c.outline wanted).invocation? f.names = some op) (do
        loadAll f c.args
        emit (.invoke how className method (c.args.map fun e => f.names.descriptor e.type)
          (f.names.descriptor c.returnType))) := by
    intro t x t' w run
    obtain ⟨_, t₁, w₁, w₂, loads, emits, rfl⟩ := Emission.run_bind_ok_iff.1 run
    obtain ⟨passed, rfl, length, loaded⟩ := loadAll_loads c.args _ _ _ _ loads
    obtain ⟨-, -, rfl, -⟩ := emit_ok emits
    exact ⟨passed, _, rfl, length, loaded, called⟩
  have onValue : c.kind ≠ .invokeStatic → Lines (CallLines f c) (do
        load f target
        loadAll f c.args
        emit (.invoke how className method (c.args.map fun e => f.names.descriptor e.type)
          (f.names.descriptor c.returnType))) := by
    intro kind t x t' w run
    obtain ⟨_, t₁, receiver, _, first, rest, rfl⟩ := Emission.run_bind_ok_iff.1 run
    obtain ⟨passed, op, rfl, length, loaded, made⟩ := passed _ _ _ _ rest
    refine .value kind (load_loads target _ _ _ _ first) (fun name type isVar => ?_) length loaded
      made
    cases htarget.symm.trans isVar
    exact loadVar_variable name type _ _ _ _ first
  cases how with
  | static =>
      have kind : c.kind = .invokeStatic := by
        cases hk : c.kind <;> rw [hk] at hh <;> first | rfl | cases hh
      intro t x t' w run
      obtain ⟨passed, op, rfl, length, loaded, made⟩ := passed _ _ _ _ run
      exact .static kind length loaded made
  | special | virtual =>
      refine onValue fun kind => ?_
      rw [kind] at hh
      cases hh

theorem callBody_callLines {c : Call} (hc : c.Formed) (hh : c.kind.how?.isSome = true) :
    Lines (CallLines f c) (callBody f c) := by
  obtain ⟨how, hh⟩ := Option.isSome_iff_exists.1 hh
  have made : Lines (CallLines f c) (invoke f how c) := invoke_callLines hc hh
  unfold callBody
  cases hk : c.kind with
  | invokeSpecial | invokeVirtual | invokeStatic =>
      rw [hk] at hh
      cases hh
      exact made
  | new | loadConstant | arrayLength =>
      rw [hk] at hh
      cases hh

theorem call_callLines {c : Call} (hc : c.Formed) (hh : c.kind.how?.isSome = true) :
    Lines (CallLines f c) (call f c true) := by
  intro t x t' w run
  obtain ⟨_, t₁, w₁, w₂, run₁, run₂, rfl⟩ := Emission.run_bind_ok_iff.1 run
  cases run₂
  rw [List.append_nil]
  exact callBody_callLines hc hh _ _ _ _ run₁

theorem instruction_callLines {i : Instruction} (hi : i.Formed) {c : Call} (hc : i.call? = some c)
    (hh : c.kind.how?.isSome = true) :
    Lines (fun w => ∃ before lines after, w = before ++ (lines ++ after) ∧ Placed before after ∧
      CallLines f c lines) (lower f false i) := by
  have formed : c.Formed := .of_call? hi hc
  have wanted : Lines (CallLines f c) (call f c true) := call_callLines formed hh
  rcases Instruction.call_cases hc with rfl | ⟨dest, type, rfl⟩
  · intro t x t' w run
    obtain ⟨_, t₁, w₁, w₂, run₁, run₂, rfl⟩ := Emission.run_bind_ok_iff.1 run
    refine ⟨[], w₁, w₂, rfl, ?_, callBody_callLines formed hh _ _ _ _ run₁⟩
    split at run₂
    · cases run₂
      exact .none
    · obtain ⟨-, -, rfl, -⟩ := emit_ok run₂
      exact .dropped
  · cases dest with
    | literal value t => exact hi.1.elim
    | var name t =>
        intro t x t' w run
        obtain ⟨_, t₁, w₁, w₂, run₁, run₂, rfl⟩ := Emission.run_bind_ok_iff.1 run
        refine ⟨[], w₁, w₂, rfl, ?_, wanted _ _ _ _ run₁⟩
        exact need_lines (P := Placed []) (fun s _ => emit_lines (.stored _ _)) _ _ _ _ run₂
    | item array index t =>
        intro t x t' w run
        obtain ⟨_, t₁, w₁, _, run₁, rest, rfl⟩ := Emission.run_bind_ok_iff.1 run
        obtain ⟨_, t₂, w₂, _, run₂, rest', rfl⟩ := Emission.run_bind_ok_iff.1 rest
        obtain ⟨_, t₃, w₃, w₄, run₃, run₄, rfl⟩ := Emission.run_bind_ok_iff.1 rest'
        obtain ⟨-, -, rfl, -⟩ := emit_ok run₄
        refine ⟨w₁ ++ w₂, w₃, _, (List.append_assoc ..).symm,
          .storedItem _ (loadVar_loads _ _ _ _ _ _ run₁) (load_loads _ _ _ _ _ run₂),
          wanted _ _ _ _ run₃⟩

theorem instruction_silent {i : Instruction} (hi : i.Formed)
    (hc : ∀ c, i.call? = some c → c.kind.how?.isSome = false) :
    Lines (fun w => ∀ l ∈ w, l.isInvocation = false) (lower f false i) := by
  intro t x t' w run l hl
  cases l with
  | label name => rfl
  | op op =>
      refine Bool.eq_false_iff.2 fun called => ?_
      obtain ⟨o, used, made⟩ := instruction_lines permits_calledBy hi
        (allows_calledBy hi fun u hu => hu) t x t' w run _ hl op rfl called
      obtain ⟨c, found, rfl⟩ := (Instruction.call_mem_uses_iff hi).1 used
      obtain ⟨how, hh, -⟩ := Option.bind_eq_some_iff.1 made
      have none : c.kind.how?.isSome = false := hc c found
      have some : c.kind.how? = some how := hh
      rw [some] at none
      cases none

/-- What is asked of an instruction for its calls to be told. -/
structure Tells (l : Labeled) : Prop where
  formed : l.instruction.Formed
  settled : Settled l

/-- An instruction makes its call, from an empty stack to an empty stack. -/
theorem instruction_makes {l : Labeled} (hl : Tells l) {t t' : Tracker} {w : List CodeLine}
    (empty : t.stack.depth = 0) (run : (lower f false l.instruction).run t = ⟨.ok (), t', w⟩) :
    t'.stack.depth = 0 ∧ Makes (CallLines f) l.instruction.methodCalls w := by
  obtain ⟨-, _, ws, -, rfl, counted, below⟩ :=
    lower_steps (fun label h => hl.settled.1 label (List.mem_append_right _ h)) t () t' w empty
      (by omega) run
  rw [Instruction.leaves_of_not_bare hl.settled.2] at below
  have leads := counted.leads
  rw [empty, Nat.le_zero.1 below] at leads
  refine ⟨Nat.le_zero.1 below, ?_⟩
  have silent : (∀ c, l.instruction.call? = some c → c.kind.how?.isSome = false) →
      Makes (CallLines f) [] (ws.map Prod.snd) := by
    intro hc
    have quiet := instruction_silent hl.formed hc _ _ _ _ run
    exact List.append_nil (ws.map Prod.snd) ▸ Makes.between ws quiet leads .done
  cases hc : l.instruction.call? with
  | none =>
      rw [Instruction.methodCalls_of_none hl.formed hc]
      exact silent fun c found => nomatch hc.symm.trans found
  | some c =>
      rw [Instruction.methodCalls_of_call hc]
      cases hh : c.kind.how?.isSome with
      | false =>
          refine silent fun c' found => ?_
          cases hc.symm.trans found
          exact hh
      | true =>
          obtain ⟨before, lines, after, split, placed, made⟩ :=
            instruction_callLines hl.formed hc hh _ _ _ _ run
          have whole := Makes.call placed made .done
          rwa [List.append_nil, ← split] at whole

theorem labels_makes (names : List String) :
    Makes (CallLines f) [] (names.map CodeLine.label) := by
  induction names with
  | nil => exact .done
  | cons name names ih =>
      refine Makes.between [(0, .label name)] ?_ ?_ ih
      · exact List.forall_mem_singleton.2 rfl
      · exact .line (Nat.le_refl 0) (fun _ => rfl) (.done 0)

theorem lowerBody_makes {ls : List Labeled} (hl : ∀ l ∈ ls, Tells l) :
    ∀ {t t' : Tracker} {w : List CodeLine}, t.stack.depth = 0 →
      (lowerBody f ls).run t = ⟨.ok (), t', w⟩ → t'.stack.depth = 0 ∧
        Makes (CallLines f) (ls.flatMap fun l => l.instruction.methodCalls) w := by
  induction ls with
  | nil =>
      intro t t' w empty run
      cases run
      exact ⟨empty, .done⟩
  | cons l ls ih =>
      intro t t' w empty run
      obtain ⟨first, others⟩ := List.forall_mem_cons.1 hl
      obtain ⟨_, t₀, w₁, _, labeled, rest, rfl⟩ := Emission.run_bind_ok_iff.1 run
      obtain ⟨-, rfl, rfl⟩ := Emitted.mk.inj ((emitLabels_run l.labels t).symm.trans labeled)
      obtain ⟨_, t₁, w₂, w₃, lowered, after, rfl⟩ := Emission.run_bind_ok_iff.1 rest
      obtain ⟨empty₁, made⟩ := instruction_makes first empty lowered
      obtain ⟨empty₂, more⟩ := ih others empty₁ after
      rw [List.flatMap_cons]
      exact ⟨empty₂, (labels_makes l.labels).append (made.append more)⟩

end Runs

/-- The code of a method makes the calls of methods in its instructions. -/
theorem makes_of_ofMethod {names : ClassNames} {m : Ir.Method} {listing : MethodListing}
    (hl : ∀ l ∈ m.body, Tells l) (h : MethodListing.ofMethod names m = .ok listing) :
    Makes (CallLines ⟨names, .ofMethod m⟩) m.methodCalls listing.code := by
  obtain ⟨t, w, run, code⟩ := code_of_ofMethod h
  obtain ⟨_, t₁, w₁, w₂, lowered, labeled, rfl⟩ := Emission.run_bind_ok_iff.1 run
  obtain ⟨-, rfl, rfl⟩ := Emitted.mk.inj ((emitLabels_run m.trailing t₁).symm.trans labeled)
  obtain ⟨-, made⟩ := lowerBody_makes hl rfl lowered
  have last : ∀ due : Bool,
      Makes (CallLines ⟨names, .ofMethod m⟩) [] (if due then [.op .returnVoid] else []) := by
    intro due
    cases due with
    | false => exact .done
    | true =>
        refine Makes.between [(0, .op .returnVoid)] ?_ ?_ .done
        · exact List.forall_mem_singleton.2 rfl
        · exact .line (Nat.le_refl 0) (fun _ => rfl) (.done 0)
  have named : Makes (CallLines ⟨names, .ofMethod m⟩) [] (m.trailing.map CodeLine.label) :=
    labels_makes m.trailing
  have whole := (made.append named).append (last (needsReturn m (w₁ ++ m.trailing.map .label)))
  rw [List.append_nil, List.append_nil] at whole
  rw [code]
  exact whole

theorem tells_of_lowered {table : SymbolTable} (ht : table.Written) {m : Source.Method}
    (hm : m.Named) (hi : Source.Stmt.IndexableAll m.body) {u : Ir.Method}
    (h : Lowering.LoweredTo table m u) : ∀ l ∈ u.readBack.body, Tells l := by
  have sound := h.sound ht hm hi
  have shape := h.shape ht hm hi
  obtain ⟨high, numbered⟩ := h.numbered
  have free : ∀ name ∈ u.readBack.body.flatMap (·.labels) ++ u.readBack.trailing, ¬ IsOwn name := by
    rintro name member ⟨n, family, hf, rfl⟩
    have apart : ∀ family ∈ labelFamilies,
        Ir.endsPlain family.toList = true ∧ family ∉ Lowering.statementFamilies := by decide
    obtain ⟨family', hf', plain', n', -, -, same⟩ := numbered.ranged _ member
    obtain ⟨rfl, -⟩ := Ir.numbered_injective (apart family hf).1 plain' same
    exact (apart family hf).2 hf'
  have formed : ∀ l ∈ u.readBack.body, l.instruction.Formed := List.forall_mem_map.2 sound.formed
  intro l hl
  refine ⟨formed l hl, fun label hlabel => free label ?_, (formed l hl).isBare⟩
  rcases List.mem_append.1 hlabel with own | target
  · exact List.mem_append_left _ (List.mem_flatMap.2 ⟨l, hl, own⟩)
  · exact shape.targets label (List.mem_flatMap.2 ⟨l, hl, target⟩)

end Assembly

end JavaMinus
