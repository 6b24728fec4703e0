/-
# The registers of a method

Registers are given out in one walk over a method and asked for in another one, which lowers it.  The
first gives every variable that is mentioned a register of its own (`Registers.find?_lt_size`,
`Registers.existsUnique_of_lt_size`).  The second asks for the registers of variables that it loads
or stores into (`lower_asks`), and all of these are mentioned, with two exceptions: a bare class name
is no variable, and neither is anything of the type of the receiver.  An operand of that type is
loaded without asking, so of the second kind only destinations are left (`Instruction.Unregistered`).

That an instruction asks for a variable is said of its lowering, not of its form: with some registers,
at some depth of the stack, it stops because the variable has none (`Instruction.AsksFor`).
-/
import JavaMinus.Proofs.Assembly.Storage

namespace JavaMinus

open Ir

/-- The variable for which there was no register. -/
def Error.unregistered? : Error → Option String
  | .internal (.noRegister name) => some name
  | _ => none

/-! ## What is loaded and stored -/

namespace Ir

/-- The operands that are loaded with an operand: it and those in its index. -/
def Element.loaded : Element → List Element
  | .item array index t => .item array index t :: index.loaded
  | e => [e]

/-- The operands that a call loads.  A static call does not load its target, which is a class, and a
creation loads the size of an array only. -/
def Call.loaded (c : Call) : List Element :=
  match c.kind with
  | .new =>
      match c.returnType, c.args with
      | .array .int32, [size] => size.loaded
      | _, _ => []
  | .invokeSpecial | .invokeVirtual => (c.target.toList ++ c.args).flatMap Element.loaded
  | .invokeStatic => c.args.flatMap Element.loaded
  | .loadConstant | .arrayLength => c.target.toList.flatMap Element.loaded

/-- The operands that an instruction loads; for an assignment to an element the array is one. -/
def Instruction.loaded : Instruction → List Element
  | .assign (.item array index t) _ rhs => .var array (.array t) :: (index.loaded ++ rhs.loaded)
  | .assign _ _ rhs => rhs.loaded
  | .binary lhs _ rhs => lhs.loaded ++ rhs.loaded
  | .unary _ operand | .single operand => operand.loaded
  | .call c => c.loaded
  | .getField object _ => object.loaded
  | .putField object _ value => object.loaded ++ value.loaded
  | .branch (.binary lhs _ rhs) _ => lhs.loaded ++ rhs.loaded
  | .branch (.unary _ operand) _ | .branch (.single operand) _ => operand.loaded
  | .return _ value => value.loaded
  | .goto _ | .branch .. | .returnVoid => []

def Instruction.stored : Instruction → List Element
  | .assign (.var name t) _ rhs => .var name t :: rhs.stored
  | .assign _ _ rhs => rhs.stored
  | _ => []

/-- The variable whose register is needed to load an operand. -/
def Element.needed? : Element → Option String
  | .literal .. => none
  | .var name t => if t = .this || name == "this" then none else some name
  | .item array _ _ => some array

/-- The name is that of a bare class that the instruction loads or stores into, or of a destination
of the type of the receiver. -/
def Instruction.Unregistered (i : Instruction) (name : String) : Prop :=
  (∃ className, .var name (.classRef className) ∈ i.loaded ++ i.stored) ∨ .var name .this ∈ i.stored

/-- Lowering the instruction can ask for the register of the variable. -/
def Instruction.Wants (i : Instruction) (name : String) : Prop :=
  (∃ x ∈ i.loaded, name ∈ x.needed?) ∨ ∃ t, .var name t ∈ i.stored

theorem Element.mentions_of_loaded {e x : Element} (h : x ∈ e.loaded) :
    x.mentions ⊆ e.mentions := by
  induction e with
  | literal | var =>
      rw [List.mem_singleton.1 h]
      exact List.Subset.refl _
  | item array index t ih =>
      rcases List.mem_cons.1 h with rfl | inside
      · exact List.Subset.refl _
      · exact List.subset_cons_of_subset _ (ih inside)

theorem Element.mentions_of_loadedIn {es : List Element} {x : Element}
    (h : x ∈ es.flatMap Element.loaded) : x.mentions ⊆ es.flatMap Element.mentions := by
  obtain ⟨e, he, inside⟩ := List.mem_flatMap.1 h
  exact fun entry hentry => List.mem_flatMap.2 ⟨e, he, Element.mentions_of_loaded inside hentry⟩

theorem Call.mentions_eq (c : Call) :
    c.mentions = (c.target.toList ++ c.args).flatMap Element.mentions := by
  rw [Call.mentions, List.flatMap_append]
  cases c.target with
  | none => rfl
  | some e => rw [Option.toList, List.flatMap_singleton]; rfl

theorem Call.mentions_of_loaded {c : Call} {x : Element} (h : x ∈ c.loaded) :
    x.mentions ⊆ c.mentions := by
  have whole : x ∈ (c.target.toList ++ c.args).flatMap Element.loaded := by
    rw [List.flatMap_append, List.mem_append]
    unfold Call.loaded at h
    split at h
    · split at h
      · rename_i hargs
        rw [hargs, List.flatMap_singleton]
        exact .inr h
      · cases h
    · exact List.mem_append.1 (List.flatMap_append ▸ h)
    · exact List.mem_append.1 (List.flatMap_append ▸ h)
    · exact .inr h
    · exact .inl h
    · exact .inl h
  exact c.mentions_eq ▸ Element.mentions_of_loadedIn whole

theorem Element.mentions_of_loaded_pair {e e' x : Element} (h : x ∈ e.loaded ++ e'.loaded) :
    x.mentions ⊆ e.mentions ++ e'.mentions :=
  (List.mem_append.1 h).elim
    (fun inside => List.subset_append_of_subset_left _ (Element.mentions_of_loaded inside))
    (fun inside => List.subset_append_of_subset_right _ (Element.mentions_of_loaded inside))

theorem Instruction.mentions_of_loaded {x : Element} : ∀ i : Instruction, x ∈ i.loaded →
    x.mentions ⊆ i.mentions
  | .assign (.item array index t) _ rhs, h => by
      rcases List.mem_cons.1 h with rfl | inside
      · exact List.cons_subset_cons _ (List.nil_subset _)
      rcases List.mem_append.1 inside with inside | inside
      · exact List.subset_append_of_subset_left _
          (List.subset_cons_of_subset _ (Element.mentions_of_loaded inside))
      · exact List.subset_append_of_subset_right _ (rhs.mentions_of_loaded inside)
  | .assign (.var ..) _ rhs, h | .assign (.literal ..) _ rhs, h =>
      List.subset_append_of_subset_right _ (rhs.mentions_of_loaded h)
  | .binary .., h | .putField .., h | .branch (.binary ..) _, h => Element.mentions_of_loaded_pair h
  | .unary .., h | .single _, h | .getField .., h | .return .., h | .branch (.unary ..) _, h
  | .branch (.single _) _, h => Element.mentions_of_loaded h
  | .call _, h => Call.mentions_of_loaded h
  | .goto _, h | .returnVoid, h | .branch (.assign ..) _, h | .branch (.call _) _, h
  | .branch (.getField ..) _, h | .branch (.putField ..) _, h | .branch (.goto _) _, h
  | .branch (.branch ..) _, h | .branch (.return ..) _, h | .branch .returnVoid _, h => nomatch h

theorem Instruction.mentions_of_stored {x : Element} : ∀ i : Instruction, x ∈ i.stored →
    x.mentions ⊆ i.mentions
  | .assign (.var ..) _ rhs, h => by
      rcases List.mem_cons.1 h with rfl | inside
      · exact List.subset_append_left _ _
      · exact List.subset_append_of_subset_right _ (rhs.mentions_of_stored inside)
  | .assign (.item ..) _ rhs, h | .assign (.literal ..) _ rhs, h =>
      List.subset_append_of_subset_right _ (rhs.mentions_of_stored h)
  | .binary .., h | .unary .., h | .single _, h | .call _, h | .getField .., h | .putField .., h
  | .goto _, h | .branch .., h | .return .., h | .returnVoid, h => nomatch h

theorem ElementType.isVariable (t : ElementType) :
    (∃ className, t = .classRef className) ∨ t = .this ∨
      ∀ name, (Element.var name t).mentions = [(name, t)] := by
  cases t with
  | classRef className => exact .inl ⟨className, rfl⟩
  | this => exact .inr (.inl rfl)
  | _ => exact .inr (.inr fun _ => rfl)

theorem Element.needed?_eq_some {x : Element} {name : String} (h : name ∈ x.needed?) :
    (∃ t, x = .var name t ∧ t ≠ .this) ∨ ∃ entry ∈ x.mentions, entry.1 = name := by
  cases x with
  | literal => cases h
  | var other t =>
      rw [Element.needed?] at h
      split at h
      · cases h
      · rename_i other
        cases h
        exact .inl ⟨t, rfl, fun this => other (by rw [this]; rfl)⟩
  | item array index t =>
      cases h
      exact .inr ⟨_, List.mem_cons_self, rfl⟩

/-- What is asked for is mentioned, or it is one of the two exceptions. -/
theorem Instruction.mentioned_of_wants {i : Instruction} {name : String} (h : i.Wants name) :
    (∃ entry ∈ i.mentions, entry.1 = name) ∨ i.Unregistered name := by
  have mentioned {t : ElementType} (hmentions : (Element.var name t).mentions = [(name, t)])
      (sub : (Element.var name t).mentions ⊆ i.mentions) : ∃ entry ∈ i.mentions, entry.1 = name :=
    ⟨(name, t), sub (hmentions ▸ List.mem_cons_self), rfl⟩
  rcases h with ⟨x, hx, needed⟩ | ⟨t, ht⟩
  · rcases Element.needed?_eq_some needed with ⟨t, rfl, other⟩ | ⟨entry, hentry, same⟩
    · rcases t.isVariable with ⟨className, rfl⟩ | rfl | hmentions
      · exact .inr (.inl ⟨className, List.mem_append_left _ hx⟩)
      · exact absurd rfl other
      · exact .inl (mentioned (hmentions name) (i.mentions_of_loaded hx))
    · exact .inl ⟨entry, i.mentions_of_loaded hx hentry, same⟩
  · rcases t.isVariable with ⟨className, rfl⟩ | rfl | hmentions
    · exact .inr (.inl ⟨className, List.mem_append_right _ ht⟩)
    · exact .inr (.inr ht)
    · exact .inl (mentioned (hmentions name) (i.mentions_of_stored ht))

end Ir

namespace Assembly

open Assembling

/-! ## The numbering -/

namespace Registers

theorem find?_isSome_of_mentioned {m : Ir.Method} {entry : String × ElementType}
    (h : entry ∈ m.mentions) : ((ofMethod m).find? entry.1).isSome :=
  findFrom_isSome (foldl_insert_any (.inr ⟨entry, h, rfl⟩)) 0

theorem find?_lt_size {r : Registers} {name : String} {s : Slot} (h : r.find? name = some s) :
    s.register < r.size :=
  (List.getElem?_eq_some_iff.1 (find?_entry h)).1

/-- Every number below the limit is the register of one variable. -/
theorem existsUnique_of_lt_size {r : Registers} (apart : r.Apart) {k : Nat} (h : k < r.size) :
    ∃! name, ∃ s, r.find? name = some s ∧ s.register = k := by
  refine ⟨r.entries[k].1, ⟨⟨k, r.entries[k].2⟩, ?_, rfl⟩, ?_⟩
  · exact find?_of_getElem? apart (List.getElem?_eq_getElem h)
  · rintro name ⟨s, found, rfl⟩
    exact (congrArg Prod.fst (List.getElem?_eq_some_iff.1 (find?_entry found)).2).symm

theorem find?_this {m : Ir.Method} (h : m.isStatic = false) :
    (ofMethod m).find? "this" = some ⟨0, .this⟩ := by
  have split : m.mentions = [("this", .this)] ++ (m.params.flatMap Element.mentions ++
      m.body.flatMap fun l => l.instruction.mentions) := by
    rw [Ir.Method.mentions, h, List.append_assoc]
    rfl
  obtain ⟨others, entries⟩ := prefix_ofMethod split (List.nodup_singleton _)
  refine find?_of_getElem? (apart_ofMethod m) ?_
  rw [← entries]
  rfl

end Registers

/-! ## What lowering asks for -/

variable {α β : Type} {f : Frame} {P : String → Prop} {m : Assembling α} {k : α → Assembling β}

/-- If the step stops because a variable has no register, then `P` holds of the variable, and it has
none. -/
def Asks (f : Frame) (P : String → Prop) (m : Assembling α) : Prop :=
  ∀ t name, (m.run t).outcome = .error (.internal (.noRegister name)) →
    P name ∧ f.registers.find? name = none

namespace Asks

theorem pure (a : α) : Asks f P (pure a) := fun _ _ h => nomatch h

theorem fail {e : Error} (h : e.unregistered? = none) :
    Asks f P (Emission.fail e : Assembling α) := by
  rintro _ _ ⟨⟩
  cases h

theorem refuse (c : Construct) : Asks f P (Assembling.refuse c : Assembling α) :=
  fail rfl

theorem bind (hm : Asks f P m) (hk : ∀ a, Asks f P (k a)) : Asks f P (m >>= k) := by
  intro t name stopped
  rw [Emission.run_bind] at stopped
  cases ho : (m.run t).outcome with
  | error e =>
      rw [ho] at stopped
      cases stopped
      exact hm t name ho
  | ok a =>
      rw [ho] at stopped
      exact hk a _ name stopped

end Asks

/-- To load the operands only registers of variables with the property are needed. -/
def NeedsOnly (P : String → Prop) (es : List Element) : Prop :=
  ∀ x ∈ es, ∀ needed ∈ x.needed?, P needed

namespace NeedsOnly

variable {e : Element} {es es' : List Element}

theorem cons_iff :
    NeedsOnly P (e :: es) ↔ (∀ needed ∈ e.needed?, P needed) ∧ NeedsOnly P es :=
  List.forall_mem_cons

theorem append_iff : NeedsOnly P (es ++ es') ↔ NeedsOnly P es ∧ NeedsOnly P es' :=
  List.forall_mem_append

theorem of_subset (h : NeedsOnly P es) (sub : es' ⊆ es) : NeedsOnly P es' :=
  fun x hx => h x (sub hx)

end NeedsOnly

theorem emit_asks (op : Opcode) : Asks f P (emit op) := by
  intro t name stopped
  by_cases pops : op.pops ≤ t.stack.depth
  · rw [emit_run pops] at stopped
    cases stopped
  · rw [emit_underflow (Nat.lt_of_not_le pops)] at stopped
    cases stopped

theorem newLabel_asks : Asks f P newLabel := fun _ _ h => nomatch h

theorem need_asks {e : Error} (he : e.unregistered? = none) {o : Option α}
    (hk : ∀ a ∈ o, Asks f P (k a)) : Asks f P (Emission.need e o >>= k) := by
  cases o with
  | none =>
      rintro _ _ ⟨⟩
      cases he
  | some a =>
      rw [Emission.need, pure_bind]
      exact hk a rfl

theorem slot_asks {name : String} (h : P name) : Asks f P (slot f name) := by
  intro t other stopped
  unfold slot at stopped
  cases found : f.registers.find? name with
  | none =>
      rw [found] at stopped
      cases stopped
      exact ⟨h, found⟩
  | some s =>
      rw [found] at stopped
      cases stopped

theorem loadVar_asks {name : String} {t : ElementType}
    (h : ∀ needed ∈ (Element.var name t).needed?, P needed) : Asks f P (loadVar f name t) := by
  rw [loadVar]
  split
  · exact emit_asks _
  · rename_i other
    refine (slot_asks (h name ?_)).bind fun s => emit_asks _
    rw [Element.needed?, if_neg other]
    rfl

theorem load_asks (e : Element) (h : NeedsOnly P e.loaded) : Asks f P (load f e) := by
  induction e with
  | literal value t =>
      rw [load, loadLiteral]
      split
      · exact need_asks rfl fun _ _ => emit_asks _
      · exact emit_asks _
  | var name t => exact loadVar_asks (h _ List.mem_cons_self)
  | item array index t ih =>
      refine (slot_asks (h _ List.mem_cons_self array rfl)).bind fun s => ?_
      refine (emit_asks _).bind fun _ => ?_
      exact (ih (NeedsOnly.cons_iff.1 h).2).bind fun _ => emit_asks _

theorem loadAll_asks (es : List Element) (h : NeedsOnly P (es.flatMap Element.loaded)) :
    Asks f P (loadAll f es) := by
  induction es with
  | nil => exact .pure ()
  | cons e es ih =>
      rw [List.flatMap_cons, NeedsOnly.append_iff] at h
      exact (load_asks e h.1).bind fun _ => ih h.2

theorem store_asks {name : String} (h : P name) : Asks f P (store f name) :=
  (slot_asks h).bind fun _ => emit_asks _

theorem choose_asks (comparison : Comparison) (thenLabel endLabel : String)
    (taken other : Int32) : Asks f P (choose comparison thenLabel endLabel taken other) := by
  refine (emit_asks _).bind fun _ => (emit_asks _).bind fun _ => (emit_asks _).bind fun _ => ?_
  exact fun _ _ stopped => nomatch stopped

theorem chooseCompared_asks (comparison : Comparison) (taken other : Int32) :
    Asks f P (chooseCompared comparison taken other) :=
  newLabel_asks.bind fun _ => choose_asks _ _ _ _ _

theorem applyOperator_asks (op : Operator) : Asks f P (applyOperator op) := by
  rw [applyOperator]
  split
  · exact emit_asks _
  · exact (emit_asks _).bind fun _ => chooseCompared_asks _ _ _
  · split
    · refine (emit_asks _).bind fun _ => (emit_asks _).bind fun _ => (emit_asks _).bind fun _ => ?_
      exact chooseCompared_asks _ _ _
    · exact .refuse _

theorem owner_asks (e : Element) : Asks f P (owner f e) := by
  unfold owner
  cases f.names.owner? e.type with
  | none => exact .fail rfl
  | some className => exact .pure className

theorem binary_asks {lhs rhs : Element} (op : Operator)
    (h : NeedsOnly P (lhs.loaded ++ rhs.loaded)) : Asks f P (binary f lhs op rhs) := by
  rw [NeedsOnly.append_iff] at h
  exact (load_asks lhs h.1).bind fun _ => (load_asks rhs h.2).bind fun _ => applyOperator_asks op

theorem unary_asks {operand : Element} (op : Operator) (h : NeedsOnly P operand.loaded) :
    Asks f P (unary f op operand) := by
  rw [unary]
  split
  · exact (load_asks operand h).bind fun _ => newLabel_asks.bind fun _ => choose_asks _ _ _ _ _
  · exact .refuse _

theorem getField_asks {object : Element} (field : Element) (h : NeedsOnly P object.loaded) :
    Asks f P (getField f object field) :=
  (load_asks object h).bind fun _ => (owner_asks object).bind fun _ => emit_asks _

theorem putField_asks {object value : Element} (field : Element)
    (h : NeedsOnly P (object.loaded ++ value.loaded)) :
    Asks f P (putField f object field value) := by
  rw [NeedsOnly.append_iff] at h
  exact (load_asks object h.1).bind fun _ => (load_asks value h.2).bind fun _ =>
    (owner_asks object).bind fun _ => emit_asks _

theorem create_asks {c : Call} (kind : c.kind = .new) (h : NeedsOnly P c.loaded) :
    Asks f P (create f c) := by
  rw [create]
  split
  · exact emit_asks _
  · rename_i array
    split
    · rename_i size single
      have loaded : c.loaded = size.loaded := by simp only [Call.loaded, kind, array, single]
      exact (load_asks size (loaded ▸ h)).bind fun _ => emit_asks _
    · exact .refuse _
  · exact .refuse _

theorem calledClass_asks (how : Invocation) (target : Element) :
    Asks f P (calledClass f how target) := by
  cases how with
  | special =>
      rw [calledClass]
      split
      · exact .pure _
      · exact owner_asks target
  | virtual => exact owner_asks target
  | static => exact .pure _

theorem invoke_asks {c : Call} (how : Invocation)
    (target : how ≠ .static → ∀ e ∈ c.target, NeedsOnly P e.loaded)
    (args : NeedsOnly P (c.args.flatMap Element.loaded)) : Asks f P (invoke f how c) := by
  refine need_asks rfl fun e there => ?_
  refine need_asks rfl fun method _ => ?_
  refine (calledClass_asks how e).bind fun className => ?_
  have rest (op : Opcode) : Asks f P (loadAll f c.args >>= fun _ => emit op) :=
    (loadAll_asks c.args args).bind fun _ => emit_asks op
  split
  · exact rest _
  · rename_i other
    exact (load_asks e (target other e there)).bind fun _ => rest _

theorem callBody_asks {c : Call} (h : NeedsOnly P c.loaded) :
    Asks f P (callBody f c) := by
  have onTarget (h : NeedsOnly P (c.target.toList.flatMap Element.loaded)) :
      ∀ e ∈ c.target, NeedsOnly P e.loaded :=
    fun e there => h.of_subset fun x hx => List.mem_flatMap.2 ⟨e, Option.mem_toList.2 there, hx⟩
  unfold callBody
  unfold Call.loaded at h
  cases kind : c.kind with
  | new => exact create_asks kind (by rw [Call.loaded, kind]; rwa [kind] at h)
  | invokeSpecial | invokeVirtual =>
      rw [kind] at h
      rw [List.flatMap_append, NeedsOnly.append_iff] at h
      exact invoke_asks _ (fun _ => onTarget h.1) h.2
  | invokeStatic =>
      rw [kind] at h
      exact invoke_asks _ (fun other => absurd rfl other) h
  | loadConstant =>
      rw [kind] at h
      exact need_asks rfl fun e there => load_asks e (onTarget h e there)
  | arrayLength =>
      rw [kind] at h
      refine need_asks rfl fun e there => ?_
      exact (load_asks e (onTarget h e there)).bind fun _ => emit_asks _

theorem call_asks {c : Call} (wanted : Bool) (h : NeedsOnly P c.loaded) :
    Asks f P (call f c wanted) := by
  refine (callBody_asks h).bind fun _ => ?_
  split
  · exact .pure ()
  · exact emit_asks _

theorem branch_asks (condition : Instruction) (label : String)
    (h : NeedsOnly P (Instruction.branch condition label).loaded) :
    Asks f P (branch f condition label) := by
  unfold branch
  split
  · rename_i lhs op _ rhs
    rw [Instruction.loaded, NeedsOnly.append_iff] at h
    have left : Asks f P (load f lhs) := load_asks lhs h.1
    have right : Asks f P (load f rhs) := load_asks rhs h.2
    split
    · exact left.bind fun _ => right.bind fun _ => (emit_asks _).bind fun _ => emit_asks _
    · refine newLabel_asks.bind fun n => left.bind fun _ => (emit_asks _).bind fun _ => ?_
      refine right.bind fun _ => (emit_asks _).bind fun _ => (emit_asks _).bind fun _ => ?_
      exact fun _ _ stopped => nomatch stopped
    · exact left.bind fun _ => (emit_asks _).bind fun _ => right.bind fun _ => emit_asks _
    · exact .refuse _
  · exact (load_asks _ h).bind fun _ => emit_asks _
  · exact (load_asks _ h).bind fun _ => emit_asks _
  · exact .refuse _

theorem returnValue_asks {value : Element} (h : NeedsOnly P value.loaded) :
    Asks f P (returnValue f value) :=
  (load_asks value h).bind fun _ => emit_asks _

theorem lower_asks (wanted : Bool) (i : Instruction) (loads : NeedsOnly P i.loaded)
    (stores : ∀ name t, .var name t ∈ i.stored → P name) : Asks f P (lower f wanted i) := by
  induction i generalizing wanted with
  | assign dest t rhs ih =>
      cases dest with
      | literal value => exact .refuse _
      | var name t' =>
          have rest : Asks f P (lower f true rhs) :=
            ih true loads fun other u hu => stores other u (List.mem_cons_of_mem _ hu)
          rw [lower]
          split
          · exact emit_asks _
          · exact rest.bind fun _ => store_asks (stores name t' List.mem_cons_self)
      | item array index t' =>
          rw [Instruction.loaded, NeedsOnly.cons_iff, NeedsOnly.append_iff] at loads
          obtain ⟨ofArray, ofIndex, ofRhs⟩ := loads
          refine (loadVar_asks ofArray).bind fun _ => (load_asks index ofIndex).bind fun _ => ?_
          exact (ih true ofRhs stores).bind fun _ => emit_asks _
  | binary lhs operation rhs => exact binary_asks operation.op loads
  | unary operation operand => exact unary_asks operation.op loads
  | single operand => exact load_asks operand loads
  | call c => exact call_asks wanted loads
  | getField object field => exact getField_asks field loads
  | putField object field value => exact putField_asks field loads
  | goto label => exact emit_asks _
  | branch condition label => exact branch_asks condition label loads
  | «return» t value => exact returnValue_asks loads
  | returnVoid => exact emit_asks _

theorem lower_wants (wanted : Bool) (i : Instruction) : Asks f i.Wants (lower f wanted i) :=
  lower_asks wanted i (fun x hx _ needed => .inl ⟨x, hx, needed⟩) fun _ t ht => .inr ⟨t, ht⟩

theorem emitLabels_asks (names : List String) : Asks f P (emitLabels names) := by
  induction names with
  | nil => exact .pure ()
  | cons name names ih => exact Asks.bind (fun _ _ stopped => nomatch stopped) fun _ => ih

theorem lowerBody_asks {body : List Labeled}
    (h : ∀ l ∈ body, ∀ name, l.instruction.Wants name → P name) : Asks f P (lowerBody f body) := by
  induction body with
  | nil => exact .pure ()
  | cons l body ih =>
      refine (emitLabels_asks l.labels).bind fun _ => Asks.bind ?_ fun _ => ?_
      · exact fun t name stopped =>
          (lower_wants false l.instruction t name stopped).imp_left (h l List.mem_cons_self name)
      · exact ih fun l' hl' => h l' (List.mem_cons_of_mem l hl')

theorem lowerMethod_asks (m : Ir.Method) :
    Asks f (fun name => ∃ l ∈ m.body, l.instruction.Wants name) (lowerMethod f m) :=
  (lowerBody_asks fun l hl _ wants => ⟨l, hl, wants⟩).bind fun _ => emitLabels_asks m.trailing

end Assembly

/-! ## Registers for all that is asked for -/

/-- Lowering the instruction asks for the register of the variable: where the variable has none, it
can stop for that. -/
def Ir.Instruction.AsksFor (i : Instruction) (name : String) : Prop :=
  ∃ f wanted t, ((Assembly.lower f wanted i).run t).outcome = .error (.internal (.noRegister name))

namespace Assembly

theorem error_of_map {ε α β : Type} {x : Except ε α} {f : α → β} {e : ε}
    (h : x.map f = .error e) : x = .error e := by
  cases x with
  | error other => exact congrArg Except.error (Except.error.inj h)
  | ok a => cases h

theorem registered_of_wants {m : Ir.Method} {l : Labeled} (hl : l ∈ m.body) {name : String}
    (h : l.instruction.Wants name) :
    ((Registers.ofMethod m).find? name).isSome ∨ l.instruction.Unregistered name := by
  refine (Instruction.mentioned_of_wants h).imp_left ?_
  rintro ⟨entry, hentry, rfl⟩
  exact Registers.find?_isSome_of_mentioned
    (List.mem_append_right _ (List.mem_flatMap.2 ⟨l, hl, hentry⟩))

/-- The variables of a method are numbered without gaps, from the receiver on if there is one, and
with the names of bare classes and the destinations of the receiver's type left aside they are all
that its instructions ask for. -/
theorem registers_complete (m : Ir.Method) :
    (∀ name s, (Registers.ofMethod m).find? name = some s →
      s.register < (Registers.ofMethod m).size) ∧
    (∀ k < (Registers.ofMethod m).size,
      ∃! name, ∃ s, (Registers.ofMethod m).find? name = some s ∧ s.register = k) ∧
    (m.isStatic = false → (Registers.ofMethod m).find? "this" = some ⟨0, .this⟩) ∧
    (∀ names listing, MethodListing.ofMethod names m = .ok listing →
      listing.localsLimit = (Registers.ofMethod m).size) ∧
    (∀ l ∈ m.body, ∀ name, l.instruction.AsksFor name →
      ((Registers.ofMethod m).find? name).isSome ∨ l.instruction.Unregistered name) ∧
    ∀ names name, MethodListing.ofMethod names m = .error (.internal (.noRegister name)) →
      ∃ l ∈ m.body, l.instruction.Unregistered name := by
  refine ⟨fun _ _ => Registers.find?_lt_size, fun _ => Registers.existsUnique_of_lt_size
    (Registers.apart_ofMethod m), Registers.find?_this, ?_, ?_, ?_⟩
  · intro names listing listed
    obtain ⟨_, _, rfl⟩ := ok_of_map listed
    rfl
  · rintro l hl name ⟨f, wanted, t, stopped⟩
    exact registered_of_wants hl (lower_wants wanted l.instruction t name stopped).1
  · intro names name stopped
    obtain ⟨⟨l, hl, wants⟩, missing⟩ := lowerMethod_asks (f := ⟨names, .ofMethod m⟩) m .start name
      (error_of_map stopped)
    refine ⟨l, hl, (registered_of_wants hl wants).resolve_left fun registered => ?_⟩
    rw [missing] at registered
    cases registered

end Assembly

end JavaMinus
