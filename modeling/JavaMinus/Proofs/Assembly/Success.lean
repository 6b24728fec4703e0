/-
# Which instructions have assembly

An instruction starts with nothing on the operand stack and leaves nothing there.  `Ends` follows the
depth of the stack through its opcodes, together with a condition: the step ends at a known depth if
the condition holds, and else it stops with one of three errors (`Error.IsGap`).

For instructions of the forms that lowering makes (`Instruction.Formed`) the condition is
`Instruction.fits`: a call on an object has a class to be made to, only an object or an array of
integers is created, and a call that is assigned returns something.  Variables without a register,
literals that are no numbers and operators without code do not come up.
-/
import JavaMinus.Assembly.Listing
import JavaMinus.Proofs.Lowering.Runs

namespace JavaMinus

/-- A value that a step takes is not on the stack, a method is called on something that has no
class, or something is created that is no object. -/
def Error.IsGap : Error → Prop
  | .internal (.stackUnderflow ..) | .unsupported (.noOwner _) | .unsupported (.allocation _) => True
  | _ => False

namespace Assembly

open Ir Assembling

variable {α β : Type} {m : Assembling α} {f : α → Assembling β} {holds holds' : Bool}
  {a b c : Nat} {x : α} {y : β}

/-- From depth `a` the step answers `x` at depth `b` if the condition holds, and else it stops. -/
def Ends (m : Assembling α) (a : Nat) (holds : Bool) (x : α) (b : Nat) : Prop :=
  ∀ t : Tracker, t.stack.depth = a →
    if holds then (m.run t).outcome = .ok x ∧ (m.run t).state.stack.depth = b
    else ∃ e, (m.run t).outcome = .error e ∧ e.IsGap

namespace Ends

theorem pure (x : α) (a : Nat) : Ends (pure x) a true x a :=
  fun _ h => ⟨rfl, h⟩

theorem fail {e : Error} (h : e.IsGap) (a b : Nat) (x : α) :
    Ends (Emission.fail e : Assembling α) a false x b :=
  fun _ _ => ⟨e, rfl, h⟩

theorem bind (hm : Ends m a holds x b) (hf : Ends (f x) b holds' y c) :
    Ends (m >>= f) a (holds && holds') y c := by
  intro t ht
  have first := hm t ht
  rw [Emission.run_bind]
  cases holds with
  | false =>
      obtain ⟨e, he, gap⟩ := first
      rw [he]
      exact ⟨e, rfl, gap⟩
  | true =>
      obtain ⟨ho, hd⟩ := first
      rw [ho]
      exact hf _ hd

/-- A first step that cannot stop. -/
theorem first (hm : Ends m a true x b) (hf : Ends (f x) b holds y c) :
    Ends (m >>= f) a holds y c := by
  have whole := hm.bind hf
  rwa [Bool.true_and] at whole

/-- A last step that cannot stop. -/
theorem done (hm : Ends m a holds x b) (hf : Ends (f x) b true y c) :
    Ends (m >>= f) a holds y c := by
  have whole := hm.bind hf
  rwa [Bool.and_true] at whole

theorem stop (hm : Ends m a false x b) : Ends (m >>= f) a false y c := by
  intro t ht
  obtain ⟨e, he, gap⟩ := hm t ht
  rw [Emission.run_bind, he]
  exact ⟨e, rfl, gap⟩

end Ends

/-! ## Single steps -/

theorem emitLabel_ends (name : String) : Ends (emitLabel name) a true () a :=
  fun _ h => ⟨rfl, h⟩

theorem emitUncounted_ends (op : Opcode) : Ends (emitUncounted op) a true () a :=
  fun _ h => ⟨rfl, h⟩

theorem emitLabels_ends (names : List String) : Ends (emitLabels names) a true () a := by
  induction names with
  | nil => exact .pure () a
  | cons name names ih => exact (emitLabel_ends name).first ih

theorem emit_run {op : Opcode} {t : Tracker} (h : op.pops ≤ t.stack.depth) :
    (emit op).run t =
      ⟨.ok (), ⟨StackDepth.push ⟨t.stack.depth - op.pops, t.stack.max⟩ op.pushes, t.labels⟩,
        [.op op]⟩ := by
  have popped : t.stack.pop op.pops = .ok ⟨t.stack.depth - op.pops, t.stack.max⟩ := by
    rw [StackDepth.pop, if_pos h]
  simp [emit, Emission.run_bind, Emission.run_write, Emission.run_state, popped, Emission.lift,
    Emission.run_modifyState]

theorem emit_underflow {op : Opcode} {t : Tracker} (h : t.stack.depth < op.pops) :
    (emit op).run t =
      ⟨.error (.internal (.stackUnderflow op.pops t.stack.depth)), t, [.op op]⟩ := by
  have popped : t.stack.pop op.pops =
      .error (.internal (.stackUnderflow op.pops t.stack.depth)) := by
    rw [StackDepth.pop, if_neg (by omega)]
  simp [emit, Emission.run_bind, Emission.run_write, Emission.run_state, popped, Emission.lift,
    Emission.run_fail]

theorem emit_ok {op : Opcode} {t t' : Tracker} {x : Unit} {w : List CodeLine}
    (h : (emit op).run t = ⟨.ok x, t', w⟩) :
    op.pops ≤ t.stack.depth ∧ t'.labels = t.labels ∧ w = [.op op] ∧
      t'.stack = ⟨t.stack.depth - op.pops + op.pushes,
        max t.stack.max (t.stack.depth - op.pops + op.pushes)⟩ := by
  by_cases pops : op.pops ≤ t.stack.depth
  · rw [emit_run pops] at h
    cases h
    exact ⟨pops, rfl, rfl, rfl⟩
  · rw [emit_underflow (Nat.lt_of_not_le pops)] at h
    cases h

/-- Takes what the opcode pops and adds what it pushes. -/
theorem emit_ends {op : Opcode} (h : op.pops ≤ a) (hb : a - op.pops + op.pushes = b) :
    Ends (emit op) a true () b := by
  rintro t rfl
  rw [emit_run h]
  exact ⟨rfl, hb⟩

/-- An opcode that finds too little on the stack stops. -/
theorem emit_stops {op : Opcode} (h : a < op.pops) : Ends (emit op) a false () b := by
  rintro t rfl
  rw [emit_underflow h]
  exact ⟨_, rfl, trivial⟩

theorem newLabel_ends {f : Nat → Assembling β} (hf : ∀ n, Ends (f n) a holds y b) :
    Ends (newLabel >>= f) a holds y b := by
  intro t ht
  have run : newLabel.run t = ⟨.ok t.labels, { t with labels := t.labels + 1 }, []⟩ := rfl
  rw [Emission.run_bind_ok run]
  exact hf t.labels { t with labels := t.labels + 1 } ht

/-! ## Operands -/

/-- Every variable that is mentioned has a register. -/
def Frame.Holds (f : Frame) (mentions : List (String × ElementType)) : Prop :=
  ∀ entry ∈ mentions, (f.registers.find? entry.1).isSome

theorem Frame.Holds.append {f : Frame} {l l' : List (String × ElementType)} :
    f.Holds (l ++ l') ↔ f.Holds l ∧ f.Holds l' :=
  List.forall_mem_append

end Assembly

namespace Ir

/-- An operand that can be loaded: a number, the receiver, or something with a register. -/
def Element.Loads : Element → Prop
  | .literal value t => t.isNumeric = true ∧ (numeral? value).isSome
  | .var _ .this => True
  | .var _ (.classRef _) => False
  | .var name _ => name ≠ "this"
  | .item array index _ => array ≠ "this" ∧ index.Loads

end Ir

namespace Assembly

open Ir Assembling

variable {α β : Type} {holds : Bool} {a b : Nat} {y : β} {f : Frame}

theorem slot_ends {name : String} {k : Slot → Assembling β}
    (h : (f.registers.find? name).isSome) (hk : ∀ s, Ends (k s) a holds y b) :
    Ends (slot f name >>= k) a holds y b := by
  obtain ⟨s, hs⟩ := Option.isSome_iff_exists.1 h
  have found : Ends (slot f name) a true s a := by
    rw [slot, hs]
    exact .pure s a
  exact found.first (hk s)

theorem loadReceiver_ends : Ends loadReceiver a true () (a + 1) :=
  emit_ends (Nat.zero_le _) rfl

theorem loadVar_ends {name : String} {t : ElementType}
    (h : t = .this ∨ name = "this" ∨ (f.registers.find? name).isSome) :
    Ends (loadVar f name t) a true () (a + 1) := by
  unfold loadVar
  split
  · exact loadReceiver_ends
  · rename_i hn
    have named : (f.registers.find? name).isSome := by
      rw [Bool.or_eq_true, decide_eq_true_eq, beq_iff_eq, not_or] at hn
      exact (h.resolve_left hn.1).resolve_left hn.2
    exact slot_ends named fun s => emit_ends (Nat.zero_le _) rfl

theorem load_ends {e : Element} (he : e.Loads) (hf : f.Holds e.mentions) :
    ∀ {a : Nat}, Ends (load f e) a true () (a + 1) := by
  induction e with
  | literal value t =>
      intro a
      obtain ⟨ht, hn⟩ := he
      obtain ⟨n, hn⟩ := Option.isSome_iff_exists.1 hn
      rw [load, loadLiteral, if_pos ht, hn]
      exact (Ends.pure n a).first (emit_ends (Nat.zero_le _) rfl)
  | var name t =>
      intro a
      refine loadVar_ends ?_
      cases t with
      | this => exact .inl rfl
      | classRef className => exact he.elim
      | int32 | boolean | string | void | array | object =>
          exact .inr (.inr (hf _ List.mem_cons_self))
  | item array index t ih =>
      intro a
      refine slot_ends (hf _ List.mem_cons_self) fun s => ?_
      refine Ends.first (emit_ends (b := a + 1) (Nat.zero_le _) rfl) ?_
      refine (ih he.2 fun entry h => hf _ (List.mem_cons_of_mem _ h)).first ?_
      exact emit_ends (Nat.le_add_left 2 a) rfl

theorem loadAll_ends {es : List Element} (hes : ∀ e ∈ es, e.Loads)
    (hf : f.Holds (es.flatMap Element.mentions)) :
    ∀ {a : Nat}, Ends (loadAll f es) a true () (a + es.length) := by
  induction es with
  | nil =>
      intro a
      exact .pure () a
  | cons e es ih =>
      intro a
      rw [List.flatMap_cons, Frame.Holds.append] at hf
      have first := load_ends (hes e List.mem_cons_self) hf.1 (a := a)
      have more := ih (fun e' he => hes e' (List.mem_cons_of_mem e he)) hf.2 (a := a + 1)
      rw [Nat.add_assoc, Nat.add_comm 1] at more
      exact first.first more

theorem store_ends {name : String} (h : (f.registers.find? name).isSome) :
    Ends (store f name) (a + 1) true () a :=
  slot_ends h fun _ => emit_ends (Nat.le_add_left 1 a) rfl

/-! ## Operators -/

theorem choose_ends {comparison : Comparison} {thenLabel endLabel : String} {taken other : Int32} :
    Ends (choose comparison thenLabel endLabel taken other) (a + 1) true () (a + 1) := by
  refine Ends.first (emit_ends (b := a) (Nat.le_add_left 1 a) rfl) ?_
  refine Ends.first (emit_ends (b := a + 1) (Nat.zero_le _) rfl) ?_
  refine Ends.first (emit_ends (b := a + 1) (Nat.zero_le _) rfl) ?_
  refine (emitLabel_ends thenLabel).first ?_
  exact (emitUncounted_ends _).first (emitLabel_ends endLabel)

theorem chooseCompared_ends {comparison : Comparison} {taken other : Int32} :
    Ends (chooseCompared comparison taken other) (a + 1) true () (a + 1) :=
  newLabel_ends fun _ => choose_ends

theorem arithmetic_ends (op : Arithmetic) : Ends (emit (.arithmetic op)) (a + 2) true () (a + 1) :=
  emit_ends (Nat.le_add_left 2 a) rfl

theorem applyOperator_ends {op : Operator} (h : op ≠ .not) :
    Ends (applyOperator op) (a + 2) true () (a + 1) := by
  have compared : ∀ c, Ends (do emit (.arithmetic .subtract); chooseCompared c 1 0) (a + 2) true ()
      (a + 1) :=
    fun c => (arithmetic_ends .subtract).first chooseCompared_ends
  cases op with
  | add | sub | mul | div | or => exact arithmetic_ends _
  | lt | lte | gt | gte | eq | neq => exact compared _
  | and =>
      refine (arithmetic_ends .add).first ?_
      refine Ends.first (emit_ends (b := a + 2) (Nat.zero_le _) rfl) ?_
      exact (arithmetic_ends .subtract).first chooseCompared_ends
  | not => exact absurd rfl h

theorem binary_ends {lhs rhs : Element} {op : Operator} (h : op ≠ .not) (hl : lhs.Loads)
    (hr : rhs.Loads) (hf : f.Holds (lhs.mentions ++ rhs.mentions)) :
    Ends (binary f lhs op rhs) a true () (a + 1) := by
  rw [Frame.Holds.append] at hf
  refine (load_ends hl hf.1).first ?_
  exact (load_ends hr hf.2).first (applyOperator_ends h)

theorem unary_ends {op : Operator} {operand : Element} (h : op = .not) (he : operand.Loads)
    (hf : f.Holds operand.mentions) : Ends (unary f op operand) a true () (a + 1) := by
  rw [unary, if_pos h]
  exact (load_ends he hf).first (newLabel_ends fun _ => choose_ends)

/-! ## Fields and calls -/

theorem owner_ends {e : Element} {k : String → Assembling β}
    (hk : ∀ className, Ends (k className) a holds y b) :
    Ends (owner f e >>= k) a ((f.names.owner? e.type).isSome && holds) y b := by
  have gap : Error.IsGap (.unsupported (.noOwner e.type.text)) := trivial
  unfold owner
  cases f.names.owner? e.type with
  | none => exact (Ends.fail gap a a "").stop
  | some className => exact (Ends.pure className a).first (hk className)

theorem getField_ends {object field : Element} (ho : object.Loads) (ht : object.type = .this)
    (hf : f.Holds object.mentions) : Ends (getField f object field) a true () (a + 1) := by
  have owned := owner_ends (f := f) (e := object) (a := a + 1) (k := fun className =>
    emit (.getField className (fieldName field) (f.names.descriptor field.type)))
    fun _ => emit_ends (b := a + 1) (Nat.le_add_left 1 a) rfl
  rw [ht] at owned
  exact (load_ends ho hf).first owned

theorem putField_ends {object field value : Element} (ho : object.Loads)
    (ht : object.type = .this) (hv : value.Loads)
    (hf : f.Holds (object.mentions ++ value.mentions)) :
    Ends (putField f object field value) a true () a := by
  rw [Frame.Holds.append] at hf
  have owned := owner_ends (f := f) (e := object) (a := a + 2) (k := fun className =>
    emit (.putField className (fieldName field) (f.names.descriptor field.type)))
    fun _ => emit_ends (b := a) (Nat.le_add_left 2 a) rfl
  rw [ht] at owned
  refine (load_ends ho hf.1).first ?_
  exact (load_ends hv hf.2).first owned

end Assembly

namespace Ir

/-- What is created is an object or an array of integers. -/
def ElementType.creates : ElementType → Bool
  | .object _ | .array .int32 => true
  | _ => false

def ElementType.hasMethods : ElementType → Bool
  | .object _ | .classRef _ | .this => true
  | _ => false

/-- A call of one of the forms that lowering makes. -/
structure Call.Formed (c : Call) : Prop where
  kind : c.kind ≠ .loadConstant
  args : ∀ e ∈ c.args, e.Loads
  loaded : ∀ e, c.target = some e → c.kind ≠ .new → c.kind ≠ .invokeStatic → e.Loads
  target : c.kind ≠ .new → c.target.isSome
  method : c.kind.isInvocation = true → c.method.isSome
  size : c.kind = .new → c.returnType = .array .int32 → ∃ e, c.args = [e]
  length : c.kind = .arrayLength → c.returnType ≠ .void
  named : c.kind = .invokeStatic → ∀ e, c.target = some e →
    ∃ name, name ≠ "this" ∧ e = .var name (.classRef name)

/-- The call creates what can be created, or is made on something that has methods. -/
def Call.fits (c : Call) : Bool :=
  match c.kind with
  | .new => c.returnType.creates
  | .invokeSpecial | .invokeVirtual => c.target.all fun e => e.type.hasMethods
  | .invokeStatic | .loadConstant | .arrayLength => true

/-- The number of values that the call leaves. -/
def Call.results (c : Call) : Nat := if c.returnType = .void then 0 else 1

end Ir

namespace Assembly

open Ir Assembling

variable {α β : Type} {holds : Bool} {a b : Nat} {y : β} {f : Frame}

theorem hasMethods_eq (names : ClassNames) (t : ElementType) :
    (names.owner? t).isSome = t.hasMethods := by
  cases t <;> rfl

theorem create_ends {c : Call} (hk : c.kind = .new) (hc : c.Formed) (hf : f.Holds c.mentions) :
    Ends (create f c) a c.returnType.creates () (a + 1) := by
  have gap : Error.IsGap (.unsupported (.allocation c.returnType.text)) := trivial
  unfold create
  cases ht : c.returnType with
  | object className => exact emit_ends (Nat.zero_le _) rfl
  | array element =>
      cases element with
      | int32 =>
          obtain ⟨size, hsize⟩ := hc.size hk ht
          rw [hsize]
          have loads := hc.args size (by rw [hsize]; exact List.mem_cons_self)
          have held := (Frame.Holds.append.1 hf).2
          rw [hsize, List.flatMap_singleton] at held
          exact (load_ends loads held).first (emit_ends (Nat.le_add_left 1 a) rfl)
      | boolean | string | array | object | classRef | this | void =>
          rw [ht] at gap
          exact .fail gap a _ ()
  | int32 | boolean | string | classRef | this | void =>
      rw [ht] at gap
      exact .fail gap a _ ()

/-- The class of a call is known if the call fits. -/
theorem calledClass_ends {how : Invocation} {target : Element} {k : String → Assembling β}
    (hk : ∀ className, Ends (k className) a holds y b) :
    Ends (calledClass f how target >>= k) a
      ((how = .static || target.type.hasMethods) && holds) y b := by
  have owned : Ends (owner f target >>= k) a (target.type.hasMethods && holds) y b := by
    have whole := owner_ends (f := f) (e := target) hk
    rwa [hasMethods_eq] at whole
  cases how with
  | static => exact (Ends.pure _ a).first (hk _)
  | virtual => exact owned
  | special =>
      show Ends ((if target.type = .this then pure f.names.super else owner f target) >>= k) _ _ _ _
      split
      · rename_i ht
        rw [ht]
        exact (Ends.pure _ a).first (hk _)
      · exact owned

theorem need_ends {e : Error} {o : Option α} {x : α} {k : α → Assembling β} (ho : o = some x)
    (hk : Ends (k x) a holds y b) : Ends (Emission.need e o >>= k) a holds y b := by
  rw [ho]
  exact (Ends.pure x a).first hk

theorem pushes_invoke (how : Invocation) (owner method : String) (params : List Descriptor)
    (names : ClassNames) (t : ElementType) :
    (Opcode.invoke how owner method params (names.descriptor t)).pushes =
      if t = .void then 0 else 1 := by
  simp only [Opcode.pushes, ClassNames.descriptor_eq_void_iff]

/-- The call itself, its receiver and its arguments being on the stack. -/
theorem emitInvoke_ends {how : Invocation} {className method : String} {c : Call} :
    Ends (emit (.invoke how className method (c.args.map fun e => f.names.descriptor e.type)
      (f.names.descriptor c.returnType))) (a + how.receivers + c.args.length) true ()
      (a + c.results) := by
  refine emit_ends ?_ ?_
  · simp only [Opcode.pops, List.length_map]
    omega
  · rw [pushes_invoke]
    simp only [Opcode.pops, List.length_map, Call.results]
    omega

theorem invoke_ends {how : Invocation} {c : Call} {target : Element} {method : String}
    (ht : c.target = some target) (hm : c.method = some method) (hl : how ≠ .static → target.Loads)
    (hargs : ∀ e ∈ c.args, e.Loads) (hf : f.Holds c.mentions) :
    Ends (invoke f how c) a (how = .static || target.type.hasMethods) () (a + c.results) := by
  rw [Call.mentions, ht, Frame.Holds.append] at hf
  have called : ∀ className, Ends (do
      if how = .static then pure () else load f target
      loadAll f c.args
      emit (.invoke how className method (c.args.map fun e => f.names.descriptor e.type)
        (f.names.descriptor c.returnType))) a true () (a + c.results) := by
    intro className
    have passed : Ends (do
        loadAll f c.args
        emit (.invoke how className method (c.args.map fun e => f.names.descriptor e.type)
          (f.names.descriptor c.returnType))) (a + how.receivers) true () (a + c.results) :=
      (loadAll_ends hargs hf.2).first emitInvoke_ends
    cases how with
    | static => exact passed
    | special | virtual =>
        exact Ends.first (f := fun _ => _) (load_ends (hl Invocation.noConfusion) hf.1) passed
  have whole := @calledClass_ends _ _ _ _ _ f how target _ called
  rw [Bool.and_true] at whole
  exact need_ends ht (need_ends hm whole)

theorem Ends.depth {m : Assembling α} {x : α} {b' : Nat} (h : Ends m a holds x b)
    (hb : holds = true → b = b') : Ends m a holds x b' := by
  cases holds with
  | false => exact h
  | true => exact hb rfl ▸ h

theorem callBody_ends {c : Call} (hc : c.Formed) (hf : f.Holds c.mentions) :
    Ends (callBody f c) a c.fits () (a + c.results) := by
  have invoked : ∀ how : Invocation, c.kind.isInvocation = true → c.kind ≠ .new →
      (how ≠ .static → c.kind ≠ .invokeStatic) →
      Ends (invoke f how c) a (how = .static || c.target.all fun e => e.type.hasMethods) ()
        (a + c.results) := by
    intro how hk hn hs
    obtain ⟨target, ht⟩ := Option.isSome_iff_exists.1 (hc.target hn)
    obtain ⟨method, hm⟩ := Option.isSome_iff_exists.1 (hc.method hk)
    have whole := @invoke_ends a f how c target method ht hm
      (fun h => hc.loaded target ht hn (hs h)) hc.args hf
    rwa [ht]
  unfold callBody Call.fits
  cases hk : c.kind with
  | new =>
      refine (create_ends hk hc hf).depth fun h => ?_
      rw [Call.results, if_neg]
      rintro hv
      rw [hv] at h
      cases h
  | invokeSpecial =>
      rw [hk] at invoked
      exact invoked .special rfl CallKind.noConfusion fun _ => CallKind.noConfusion
  | invokeVirtual =>
      rw [hk] at invoked
      exact invoked .virtual rfl CallKind.noConfusion fun _ => CallKind.noConfusion
  | invokeStatic =>
      rw [hk] at invoked
      exact invoked .static rfl CallKind.noConfusion fun h => absurd rfl h
  | loadConstant => exact absurd hk hc.kind
  | arrayLength =>
      obtain ⟨target, ht⟩ := Option.isSome_iff_exists.1 (hc.target (by simp [hk]))
      have loads := hc.loaded target ht (by simp [hk]) (by simp [hk])
      rw [Call.mentions, ht, Frame.Holds.append] at hf
      rw [Call.results, if_neg (hc.length hk)]
      refine need_ends ht ((load_ends loads hf.1).first ?_)
      exact emit_ends (Nat.le_add_left 1 a) rfl

theorem call_ends {c : Call} {wanted : Bool} (hc : c.Formed) (hf : f.Holds c.mentions) :
    Ends (call f c wanted) a c.fits () (if wanted then a + c.results else a) := by
  refine (callBody_ends hc hf).done ?_
  cases wanted with
  | true => exact .pure () _
  | false =>
      show Ends (if (false || c.returnType = .void) then pure () else emit .pop) _ true () a
      rw [Bool.false_or]
      split
      · rename_i hv
        rw [Call.results, if_pos (of_decide_eq_true hv)]
        exact .pure () a
      · rename_i hv
        rw [Call.results, if_neg fun h => hv (decide_eq_true h)]
        exact emit_ends (Nat.le_add_left 1 a) rfl

end Assembly

namespace Ir

/-- What lowering puts on the right of an assignment. -/
def Instruction.FormedRight : Instruction → Prop
  | .binary lhs o rhs => o.op ≠ .not ∧ lhs.Loads ∧ rhs.Loads
  | .unary o operand => o.op = .not ∧ operand.Loads
  | .single operand => operand.Loads
  | .call c => c.Formed
  | .getField object _ => object.Loads ∧ object.type = .this
  | _ => False

/-- An operand that something can be assigned to. -/
def Element.Assignable : Element → Prop
  | .literal .. | .var _ .this | .var _ (.classRef _) => False
  | e => e.Loads

/-- An instruction of one of the forms that lowering makes. -/
def Instruction.Formed : Instruction → Prop
  | .assign dest _ rhs => dest.Assignable ∧ rhs.FormedRight
  | .call c => c.Formed
  | .putField object _ value => object.Loads ∧ object.type = .this ∧ value.Loads
  | .goto _ | .returnVoid => True
  | .branch (.unary o operand) _ => o.op = .not ∧ operand.Loads
  | .return _ value => value.Loads
  | _ => False

/-- What is assigned has a value: a call fits and returns something. -/
def Instruction.valued : Instruction → Bool
  | .call c => c.fits && c.returnType != .void
  | _ => true

/-- The call in the instruction fits, and if its result is assigned, there is one. -/
def Instruction.fits : Instruction → Bool
  | .assign _ _ rhs => rhs.valued
  | .call c => c.fits
  | _ => true

end Ir

namespace Assembly

open Ir Assembling

variable {a b : Nat} {f : Frame}

/-- A right side, before a step that takes its value. -/
theorem right_ends {rhs : Instruction} {rest : Assembling Unit} (hrhs : rhs.FormedRight)
    (hf : f.Holds rhs.mentions) (hvalue : Ends rest (a + 1) true () b)
    (hnone : Ends rest a false () b) :
    Ends (lower f true rhs >>= fun _ => rest) a rhs.valued () b := by
  cases rhs with
  | binary lhs o rhs => exact (binary_ends hrhs.1 hrhs.2.1 hrhs.2.2 hf).first hvalue
  | unary o operand => exact (unary_ends hrhs.1 hrhs.2 hf).first hvalue
  | single operand => exact (load_ends hrhs hf).first hvalue
  | getField object field => exact (getField_ends hrhs.1 hrhs.2 hf).first hvalue
  | call c =>
      have called : Ends (lower f true (.call c)) a c.fits () (a + c.results) := call_ends hrhs hf
      by_cases hv : c.returnType = .void
      · rw [Call.results, if_pos hv] at called
        have whole := called.bind (f := fun _ => rest) hnone
        rwa [Instruction.valued, bne_eq_false_iff_eq.2 hv]
      · rw [Call.results, if_neg hv] at called
        have whole := called.bind (f := fun _ => rest) hvalue
        rwa [Instruction.valued, bne_iff_ne.2 hv]
  | assign | putField | goto | branch | «return» | returnVoid => exact hrhs.elim

theorem increment_valued {name : String} {rhs : Instruction} {r : Nat × Int32}
    (h : increment? f name rhs = some r) : rhs.valued = true := by
  cases rhs with
  | call c => cases h
  | assign | binary | unary | single | getField | putField | goto | branch | «return»
  | returnVoid => rfl

theorem assignVar_ends {name : String} {t t' : ElementType} {rhs : Instruction} {wanted : Bool}
    (hname : (f.registers.find? name).isSome) (hrhs : rhs.FormedRight)
    (hf : f.Holds rhs.mentions) :
    Ends (lower f wanted (.assign (.var name t) t' rhs)) 0 rhs.valued () 0 := by
  rw [lower]
  split
  · rename_i register amount hi
    rw [increment_valued hi]
    exact emit_ends (Nat.zero_le _) rfl
  · refine right_ends hrhs hf (store_ends hname) ?_
    exact slot_ends hname fun s => emit_stops Nat.zero_lt_one

theorem assignItem_ends {array : String} {index : Element} {t t' : ElementType}
    {rhs : Instruction} {wanted : Bool} (hindex : index.Loads)
    (hd : f.Holds (Element.item array index t).mentions) (hrhs : rhs.FormedRight)
    (hf : f.Holds rhs.mentions) :
    Ends (lower f wanted (.assign (.item array index t) t' rhs)) 0 rhs.valued () 0 := by
  rw [lower]
  refine (loadVar_ends (.inr (.inr (hd _ List.mem_cons_self)))).first ?_
  refine (load_ends hindex fun entry h => hd _ (List.mem_cons_of_mem _ h)).first ?_
  exact right_ends hrhs hf (emit_ends (Nat.le_refl 3) rfl) (emit_stops (Nat.lt_succ_self 2))

/-- An instruction of a form that lowering makes leaves the stack as it was, if it fits. -/
theorem instruction_ends {i : Instruction} (hi : i.Formed) (hf : f.Holds i.mentions) :
    Ends (lower f false i) 0 i.fits () 0 := by
  cases i with
  | assign dest t rhs =>
      obtain ⟨hdest, hrhs⟩ := hi
      rw [Instruction.mentions, Frame.Holds.append] at hf
      cases dest with
      | literal value t' => exact hdest.elim
      | item array index t' => exact assignItem_ends hdest.2 hf.1 hrhs hf.2
      | var name t' =>
          cases t' with
          | this | classRef => exact hdest.elim
          | int32 | boolean | string | void | array | object =>
              exact assignVar_ends (hf.1 _ List.mem_cons_self) hrhs hf.2
  | call c => exact call_ends hi hf
  | putField object field value => exact putField_ends hi.1 hi.2.1 hi.2.2 hf
  | goto label => exact emit_ends (Nat.zero_le _) rfl
  | returnVoid => exact emit_ends (Nat.zero_le _) rfl
  | «return» t value => exact (load_ends hi hf).first (emit_ends (Nat.le_refl 1) rfl)
  | branch condition label =>
      cases condition with
      | unary o operand =>
          obtain ⟨op, t⟩ := o
          obtain ⟨rfl, loads⟩ := hi
          exact (load_ends loads hf).first (emit_ends (Nat.le_refl 1) rfl)
      | assign | binary | single | call | getField | putField | goto | branch | «return»
      | returnVoid => exact hi.elim
  | binary | unary | single | getField => exact hi.elim

/-! ## Registers -/

theorem findFrom_isSome {name : String} {entries : List (String × ElementType)}
    (h : entries.any (·.1 == name) = true) :
    ∀ n, (Registers.findFrom name n entries).isSome := by
  induction entries with
  | nil => cases h
  | cons entry entries ih =>
      intro n
      rw [Registers.findFrom]
      split
      · rfl
      · rename_i hn
        rw [List.any_cons, Bool.or_eq_true, beq_iff_eq] at h
        exact ih (h.resolve_left hn) (n + 1)

theorem insert_any {r : Registers} {entry : String × ElementType} {name : String}
    (h : r.entries.any (·.1 == name) = true ∨ entry.1 = name) :
    (r.insert entry).entries.any (·.1 == name) = true := by
  unfold Registers.insert
  split
  · rename_i there
    rcases h with h | rfl
    · exact h
    · exact there
  · rw [List.any_append, Bool.or_eq_true, List.any_cons, List.any_nil, Bool.or_false, beq_iff_eq]
    exact h

/-- Every variable of the list has a register, and no variable loses its register. -/
theorem foldl_insert_any {name : String} {mentions : List (String × ElementType)} :
    ∀ {r : Registers}, (r.entries.any (·.1 == name) = true ∨ ∃ entry ∈ mentions, entry.1 = name) →
      (mentions.foldl Registers.insert r).entries.any (·.1 == name) = true := by
  induction mentions with
  | nil =>
      intro r h
      exact h.resolve_right fun ⟨_, he, _⟩ => nomatch he
  | cons entry mentions ih =>
      intro r h
      refine ih ?_
      rcases h with h | ⟨entry', he, hname⟩
      · exact .inl (insert_any (.inl h))
      · rcases List.mem_cons.1 he with rfl | he
        · exact .inl (insert_any (.inr hname))
        · exact .inr ⟨entry', he, hname⟩

theorem frame_holds (names : ClassNames) (m : Method) :
    (Frame.mk names (.ofMethod m)).Holds m.mentions := by
  intro entry he
  exact findFrom_isSome (foldl_insert_any (.inr ⟨entry, he, rfl⟩)) 0

/-! ## Methods and classes -/

theorem lowerBody_ends {body : List Labeled} (hbody : ∀ l ∈ body, l.instruction.Formed)
    (hf : f.Holds (body.flatMap fun l => l.instruction.mentions)) :
    Ends (lowerBody f body) 0 (body.all fun l => l.instruction.fits) () 0 := by
  induction body with
  | nil => exact .pure () 0
  | cons l body ih =>
      rw [List.flatMap_cons, Frame.Holds.append] at hf
      have more := ih (fun l' hl' => hbody l' (List.mem_cons_of_mem l hl')) hf.2
      refine (emitLabels_ends l.labels).first ?_
      exact (instruction_ends (hbody l List.mem_cons_self) hf.1).bind more

theorem lowerMethod_ends {names : ClassNames} {m : Method}
    (hm : ∀ l ∈ m.body, l.instruction.Formed) :
    Ends (lowerMethod ⟨names, .ofMethod m⟩ m) 0 (m.body.all fun l => l.instruction.fits) () 0 := by
  have held := (Frame.Holds.append.1 (frame_holds names m)).2
  exact (lowerBody_ends hm held).done (emitLabels_ends m.trailing)

/-- The result is a value if the condition holds, and else one of the three errors. -/
def Results {α : Type} (r : Except Error α) (holds : Bool) : Prop :=
  if holds then ∃ a, r = .ok a else ∃ e, r = .error e ∧ e.IsGap

theorem Results.map {α β : Type} {r : Except Error α} {holds : Bool} (h : Results r holds)
    (g : α → β) : Results (r.map g) holds := by
  cases holds with
  | true =>
      obtain ⟨x, rfl⟩ := h
      exact ⟨g x, rfl⟩
  | false =>
      obtain ⟨e, rfl, gap⟩ := h
      exact ⟨e, rfl, gap⟩

theorem Results.bind {α β : Type} {r : Except Error α} {g : α → Except Error β}
    {holds holds' : Bool} (h : Results r holds) (hg : ∀ x, Results (g x) holds') :
    Results (r >>= g) (holds && holds') := by
  cases holds with
  | true =>
      obtain ⟨x, rfl⟩ := h
      exact hg x
  | false =>
      obtain ⟨e, rfl, gap⟩ := h
      exact ⟨e, rfl, gap⟩

theorem ofMethod_results {names : ClassNames} {m : Method}
    (hm : ∀ l ∈ m.body, l.instruction.Formed) :
    Results (MethodListing.ofMethod names m) (m.body.all fun l => l.instruction.fits) := by
  have ends := @lowerMethod_ends names m hm .start rfl
  refine Results.map ?_ _
  cases hfits : m.body.all fun l => l.instruction.fits with
  | true =>
      rw [hfits] at ends
      exact ⟨(), ends.1⟩
  | false =>
      rw [hfits] at ends
      exact ends

theorem ofMethods_results {names : ClassNames} {methods : List Method}
    (hms : ∀ m ∈ methods, ∀ l ∈ m.body, l.instruction.Formed) :
    Results (MethodListing.ofMethods names methods)
      (methods.all fun m => m.body.all fun l => l.instruction.fits) := by
  induction methods with
  | nil => exact ⟨[], rfl⟩
  | cons m methods ih =>
      have first := @ofMethod_results names m (hms m List.mem_cons_self)
      have more := ih fun m' hm' => hms m' (List.mem_cons_of_mem m hm')
      exact first.bind fun listing => more.map (listing :: ·)

/-- A unit of instructions that lowering makes has assembly exactly if each of them fits. -/
theorem assembly_results {u : ClassUnit} (hu : ∀ m ∈ u.methods, ∀ l ∈ m.body, l.instruction.Formed) :
    Results u.assembly (u.methods.all fun m => m.body.all fun l => l.instruction.fits) :=
  ((ofMethods_results hu).map _).map _

end Assembly

end JavaMinus
