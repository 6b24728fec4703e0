/-
# The methods that code calls

A call says by its types alone which method it calls (`Outline.invocation?`), since the target of a
static call is a class that has its name.  The code of a method calls what the calls among its uses
call, and nothing else (`invocation_mem_code_iff`).
-/
import JavaMinus.Proofs.Assembly.Compiled

namespace JavaMinus

def Assembly.ClassNames.called? (names : ClassNames) (how : Invocation) (t : Ir.ElementType) :
    Option String :=
  if how = .special ∧ t = .this then some names.super else names.owner? t

namespace Ir

/-- The opcode that calls the method of a call. -/
def Outline.invocation? (names : Assembly.ClassNames) (o : Outline) : Option Assembly.Opcode := do
  let how ← o.kind.how?
  let target ← o.target
  let method ← o.method
  let className ← names.called? how target
  some (.invoke how className method (o.args.map names.descriptor) (names.descriptor o.returnType))

/-! ## Calls among uses -/

theorem Element.call_not_mem_uses (e : Element) (o : Outline) : .call o ∉ e.uses := by
  have receiver : ∀ isReceiver, .call o ∉ receiverUse isReceiver := by
    intro isReceiver
    cases isReceiver <;> simp [receiverUse]
  induction e with
  | literal => exact List.not_mem_nil
  | var name t => exact receiver _
  | item array index t ih =>
      rw [uses, List.mem_append, not_or]
      exact ⟨receiver _, ih⟩

theorem Call.call_mem_uses_iff {c : Call} {wanted : Bool} {o : Outline} :
    .call o ∈ c.uses wanted ↔ o = c.outline wanted := by
  have target : .call o ∉ (c.target.map Element.uses).getD [] := by
    cases c.target with
    | none => exact List.not_mem_nil
    | some e => exact e.call_not_mem_uses o
  have args : .call o ∉ c.args.flatMap Element.uses := by
    rw [List.mem_flatMap]
    rintro ⟨e, -, he⟩
    exact e.call_not_mem_uses o he
  rw [uses, List.mem_append, List.mem_append, or_iff_right target, or_iff_right args,
    List.mem_singleton, Use.call.injEq]

theorem Call.Formed.of_call? {i : Instruction} {c : Call} (hi : i.Formed) (h : i.call? = some c) :
    c.Formed := by
  rcases Instruction.call_cases h with rfl | ⟨dest, t, rfl⟩
  · exact hi
  · exact hi.2

def Instruction.wantsResult : Instruction → Bool
  | .assign .. => true
  | _ => false

theorem Instruction.call_mem_uses_iff {i : Instruction} (hi : i.Formed) {o : Outline} :
    .call o ∈ i.uses false ↔ ∃ c, i.call? = some c ∧ o = c.outline i.wantsResult := by
  have operand := fun e : Element => e.call_not_mem_uses o
  have right : ∀ {rhs : Instruction}, rhs.FormedRight →
      (.call o ∈ rhs.uses true ↔ ∃ c, rhs = .call c ∧ o = c.outline true) := by
    intro rhs hrhs
    cases rhs with
    | binary | unary | single | getField => simp [uses, operand]
    | call c => simp [uses, Call.call_mem_uses_iff]
    | assign | putField | goto | branch | «return» | returnVoid => exact hrhs.elim
  cases i with
  | assign dest t rhs =>
      rw [uses, List.mem_append, or_iff_right (operand dest), right hi.2]
      refine exists_congr fun c => and_congr_left fun _ => ?_
      cases rhs <;> simp [call?]
  | call c => simp [uses, Call.call_mem_uses_iff, call?, wantsResult]
  | branch condition label =>
      cases condition with
      | unary => simp [uses, operand, call?]
      | assign | binary | single | call | getField | putField | goto | branch | «return»
      | returnVoid => exact hi.elim
  | putField | «return» | goto | returnVoid => simp [uses, operand, call?]
  | binary | unary | single | getField => exact hi.elim

end Ir

namespace Assembly

open Ir Assembling

/-- Whether the opcode calls a method. -/
def Opcode.isInvocation : Opcode → Bool
  | .invoke .. => true
  | _ => false

section Invocations

variable {α β : Type} {f : Frame} {l : CodeLine} {m : Assembling α} {k : α → Assembling β}

theorem invocation?_eq {c : Call} (hc : c.Formed) (wanted : Bool) :
    invocation? f c = (c.outline wanted).invocation? f.names := by
  obtain ⟨kind, target, method, args, type⟩ := c
  have owner : ∀ how e, target = some e → kind.how? = some how →
      calledClass? f how e = f.names.called? how e.type := by
    rintro how e rfl hh
    cases kind with
    | invokeSpecial => cases hh; simp [calledClass?, ClassNames.called?]
    | invokeVirtual => cases hh; rfl
    | invokeStatic =>
        cases hh
        obtain ⟨name, other, rfl⟩ := hc.named rfl e rfl
        show some (staticOwner f (.var name _)) = some (f.names.resolve name)
        simp [staticOwner, Element.name?]
    | new | loadConstant | arrayLength => cases hh
  unfold invocation? Outline.invocation?
  simp only [Call.outline, List.map_map, Function.comp_def]
  cases hh : kind.how? with
  | none => rfl
  | some how =>
      cases ht : target with
      | none => rfl
      | some e =>
          simp only [Option.bind_eq_bind, Option.bind_some, Option.map_some, owner how e ht hh]

/-! ## No call is left out -/

theorem Lines.first (hm : Lines (fun w => l ∈ w) m) : Lines (fun w => l ∈ w) (m >>= k) := by
  intro t y t' w run
  obtain ⟨x, t₁, w₁, w₂, run₁, -, rfl⟩ := Emission.run_bind_ok_iff.1 run
  exact List.mem_append_left _ (hm t x t₁ w₁ run₁)

theorem Lines.second (hk : ∀ x, Lines (fun w => l ∈ w) (k x)) :
    Lines (fun w => l ∈ w) (m >>= k) := by
  intro t y t' w run
  obtain ⟨x, t₁, w₁, w₂, -, run₂, rfl⟩ := Emission.run_bind_ok_iff.1 run
  exact List.mem_append_right _ (hk x t₁ y t' w₂ run₂)

variable {c : Call} {op : Opcode} (hop : invocation? f c = some op)

include hop

theorem invoke_calls {how : Invocation} (hh : c.kind.how? = some how) :
    Lines (fun w => .op op ∈ w) (invoke f how c) := by
  refine need_lines fun target ht => need_lines fun method hm => ?_
  refine calledClass_lines fun className hn => ?_
  simp only [invocation?, hh, ht, hm, hn, Option.bind_eq_bind, Option.bind_some,
    Option.some.injEq] at hop
  have passed : Lines (fun w => .op op ∈ w) (do
      loadAll f c.args
      emit (.invoke how className method (c.args.map fun e => f.names.descriptor e.type)
        (f.names.descriptor c.returnType))) :=
    Lines.second fun _ => emit_lines (List.mem_singleton.2 (congrArg _ hop.symm))
  cases how with
  | static => exact passed
  | special | virtual => exact Lines.second fun _ => passed

theorem callBody_calls : Lines (fun w => .op op ∈ w) (callBody f c) := by
  obtain ⟨how, hh, -⟩ := Option.bind_eq_some_iff.1 hop
  unfold callBody
  cases hk : c.kind with
  | invokeSpecial => exact invoke_calls hop (by rw [hk]; rfl)
  | invokeVirtual => exact invoke_calls hop (by rw [hk]; rfl)
  | invokeStatic => exact invoke_calls hop (by rw [hk]; rfl)
  | new | loadConstant | arrayLength =>
      rw [hk] at hh
      cases hh

theorem instruction_calls {i : Instruction} (hc : i.call? = some c) :
    Lines (fun w => .op op ∈ w) (lower f false i) := by
  have called : ∀ wanted, Lines (fun w => .op op ∈ w) (lower f wanted (.call c)) :=
    fun _ => Lines.first (callBody_calls hop)
  rcases Instruction.call_cases hc with rfl | ⟨dest, t, rfl⟩
  · exact called false
  · cases dest with
    | literal value => exact fail_lines _
    | var name => exact Lines.first (called true)
    | item array index t =>
        exact Lines.second fun _ => Lines.second fun _ => Lines.first (called true)

theorem lowerBody_calls {body : List Labeled} {lb : Labeled} (hl : lb ∈ body)
    (hc : lb.instruction.call? = some c) : Lines (fun w => .op op ∈ w) (lowerBody f body) := by
  induction body with
  | nil => cases hl
  | cons first body ih =>
      refine Lines.second fun _ => ?_
      rcases List.mem_cons.1 hl with rfl | hl
      · exact Lines.first (instruction_calls hop hc)
      · exact Lines.second fun _ => ih hl

end Invocations

/-! ## Nothing else is called -/

/-- What the line calls is called by a call among the uses. -/
def CodeLine.CalledBy (names : ClassNames) (uses : List Use) (l : CodeLine) : Prop :=
  ∀ op, l = .op op → op.isInvocation = true → ∃ o, .call o ∈ uses ∧ o.invocation? names = some op

section Lines

variable {f : Frame} {uses : List Use}

theorem calledBy_of_not {names : ClassNames} {op : Opcode} (h : op.isInvocation = false) :
    CodeLine.CalledBy names uses (.op op) := by
  rintro _ ⟨⟩ called
  rw [h] at called
  cases called

theorem calledBy_label {names : ClassNames} (name : String) :
    CodeLine.CalledBy names uses (.label name) :=
  fun _ h => nomatch h

theorem permits_calledBy : Permits f fun w => ∀ l ∈ w, l.CalledBy f.names uses where
  nil := List.forall_mem_nil _
  append _ _ h h' := List.forall_mem_append.2 ⟨h, h'⟩
  label name := List.forall_mem_singleton.2 (calledBy_label name)
  neutral op h := by
    refine List.forall_mem_singleton.2 (calledBy_of_not ?_)
    cases op <;> first | rfl | cases h
  load _ _ _ := List.forall_mem_singleton.2 (calledBy_of_not rfl)
  store _ _ _ := List.forall_mem_singleton.2 (calledBy_of_not rfl)
  increment _ _ _ _ := List.forall_mem_singleton.2 (calledBy_of_not rfl)
  choice _ _ _ _ _ := by
    simp only [List.forall_mem_cons]
    exact ⟨calledBy_of_not rfl, calledBy_of_not rfl, calledBy_of_not rfl, calledBy_label _,
      calledBy_of_not rfl, calledBy_label _, List.forall_mem_nil _⟩

theorem allows_calledBy {i : Instruction} (hi : i.Formed) (hu : ∀ u ∈ i.uses false, u ∈ uses) :
    Allows f (fun w => ∀ l ∈ w, l.CalledBy f.names uses) i where
  receiver _ := List.forall_mem_singleton.2 (calledBy_of_not rfl)
  call c op hc called := by
    refine List.forall_mem_singleton.2 ?_
    rintro _ ⟨⟩ -
    refine ⟨c.outline i.wantsResult, hu _ ?_, ?_⟩
    · exact (Instruction.call_mem_uses_iff hi).2 ⟨c, hc, rfl⟩
    · rw [← invocation?_eq (.of_call? hi hc), called]
  jump _ _ := List.forall_mem_singleton.2 (calledBy_of_not rfl)
  branch _ _ := List.forall_mem_singleton.2 (calledBy_of_not rfl)
  leave op left := by
    refine List.forall_mem_singleton.2 (calledBy_of_not ?_)
    cases i <;> cases left <;> rfl

end Lines

/-- The code of a method calls what the calls among its uses call, and nothing else. -/
theorem invocation_mem_code_iff {names : ClassNames} {m : Method} {listing : MethodListing}
    (hi : ∀ l ∈ m.body, l.instruction.Formed) (h : MethodListing.ofMethod names m = .ok listing)
    {op : Opcode} (ho : op.isInvocation = true) :
    .op op ∈ listing.code ↔ ∃ o, .call o ∈ m.uses ∧ o.invocation? names = some op := by
  obtain ⟨t, w, run, code⟩ := code_of_ofMethod h
  have last : .op op ∉ if needsReturn m w then [CodeLine.op .returnVoid] else [] := by
    split
    · rw [List.mem_singleton]
      rintro ⟨⟩
      cases ho
    · exact List.not_mem_nil
  rw [code, List.mem_append, or_iff_left last]
  constructor
  · intro hop
    have allowed : ∀ l ∈ m.body,
        Allows ⟨names, .ofMethod m⟩ (fun w => ∀ l ∈ w, l.CalledBy names m.uses) l.instruction :=
      fun l hl => allows_calledBy (hi l hl) fun u hu => List.mem_flatMap.2 ⟨l, hl, hu⟩
    exact method_lines permits_calledBy hi allowed _ _ _ _ run _ hop op rfl ho
  · rintro ⟨o, used, called⟩
    obtain ⟨l, hl, used⟩ := List.mem_flatMap.1 used
    obtain ⟨c, hc, rfl⟩ := (Instruction.call_mem_uses_iff (hi l hl)).1 used
    have hop : invocation? ⟨names, .ofMethod m⟩ c = some op := by
      rw [invocation?_eq (.of_call? (hi l hl) hc), called]
    exact Lines.first (lowerBody_calls hop hl hc) _ _ _ _ run

end Assembly

end JavaMinus
