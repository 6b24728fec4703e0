/-
# How calls are made

The code of a method makes the calls of its body, in the order in which they are made
(`Compiler.calls_dispatched`).  The instruction is told by what is written before the method's name:
a call on a name that means a class is `invokestatic` and loads no receiver, and a call on a value
is `invokevirtual` on the value, which is loaded first, from its own register if it is a variable.
How the method is declared is not asked, so a static method of the own class that is called on an
object of it is not called as it is declared.
-/
import JavaMinus.Proofs.Assembly.CallLines
import JavaMinus.Proofs.Assembly.Linking
import JavaMinus.Proofs.Lowering.Temporaries

namespace JavaMinus

/-- A type of the source is read back as that of a value, and not as that of the receiver's word. -/
theorem Ty.read_ne_this (t : Ty) : t.read ≠ .this := by
  have lowered : (t.lowered == .this) = false := by
    unfold Ty.lowered
    split
    · rfl
    · unfold Ty.lowered.base
      split <;> rfl
  intro same
  rw [← t.lowered.readBack_beq_this] at lowered
  exact beq_eq_false_iff_ne.1 lowered same

namespace Assembly

open Source Ir Lowering

/-- The lines of a call of a method with a number of arguments, on a receiver if there is one. -/
def CallsWith (receiver : List CodeLine) (how : Invocation) (className method : String) (n : Nat)
    (w : List CodeLine) : Prop :=
  ∃ (passed : List (List CodeLine)) (params : List Descriptor) (result : Descriptor),
    passed.length = n ∧ params.length = n ∧ (∀ v ∈ passed, LoadsValue v) ∧
      w = receiver ++ (passed.flatten ++ [.op (.invoke how className method params result)])

/-- The lines load the receiver, if that is the target, and the variable from its register, if the
target is the name of one. -/
structure LoadsTarget (s : Scope) (registers : Registers) (target : Expr)
    (receiver : List CodeLine) : Prop where
  value : LoadsValue receiver
  this : target.isThis = true → receiver = [receiverLine]
  stored : ∀ name found, target.asName? = some name → s.lookup name = some found →
    found.origin ≠ .field → ∃ slot, registers.find? name = some slot ∧
      receiver = [.op (.load (.ofType slot.type) slot.register)]

/-- The lines of a call as it is written: what is before the name of the method says how it is made,
and the constructor of an object is called on the object. -/
inductive Dispatched (s : Scope) (f : Frame) : Expr → List CodeLine → Prop where
  | static {tag : Tag} {target : Expr} {method : String} {args : List Expr} {w : List CodeLine} :
      target.namesClass s = true →
      CallsWith [] .static (f.names.resolve (target.asName?.getD "")) method args.length w →
      Dispatched s f (.call tag target method args) w
  | value {tag : Tag} {target : Expr} {method className : String} {args : List Expr}
      {receiver w : List CodeLine} : target.namesClass s = false →
      f.names.owner? (target.operandType s none) = some className →
      LoadsTarget s f.registers target receiver →
      CallsWith receiver .virtual className method args.length w →
      Dispatched s f (.call tag target method args) w
  | creation {tag : Tag} {className owner : String} {receiver w : List CodeLine} :
      f.names.owner? (Ty.ofClass className).read = some owner → LoadsValue receiver →
      CallsWith receiver .special owner "<init>" 0 w →
      Dispatched s f (.newObject tag className) w

/-- The lines call a method as it is declared: without a receiver if it is static, and on a value if
it is not. -/
def CallsAsDeclared (signature : Signature) (n : Nat) (w : List CodeLine) : Prop :=
  if signature.isStatic then ∃ className, CallsWith [] .static className signature.name n w
  else ∃ receiver className, LoadsValue receiver ∧
    CallsWith receiver .virtual className signature.name n w

/-- A call on an object of the own class calls the method as the class declares it. -/
def CallsOwnAsDeclared (s : Scope) (e : Expr) (w : List CodeLine) : Prop :=
  ∀ tag target method args signature, e = .call tag target method args → target.isOwn s = true →
    s.table.method? method = some signature → CallsAsDeclared signature args.length w

/-- Whether a static method is called on an object of the own class. -/
def callsStaticOnOwn (s : Scope) : Expr → Bool
  | .call _ target name _ => target.isOwn s && (s.table.method? name).any (·.isStatic)
  | _ => false

theorem CallsWith.last {receiver : List CodeLine} {how : Invocation} {className method : String}
    {n : Nat} {w : List CodeLine} (h : CallsWith receiver how className method n w) :
    ∃ params result, w.getLast? = some (.op (.invoke how className method params result)) := by
  obtain ⟨passed, params, result, -, -, -, rfl⟩ := h
  refine ⟨params, result, ?_⟩
  rw [← List.append_assoc, List.getLast?_append]
  rfl

variable {s : Scope} {f : Frame}

theorem Dispatched.asDeclared_iff {tag : Tag} {target : Expr} {method : String} {args : List Expr}
    {w : List CodeLine} (h : Dispatched s f (.call tag target method args) w)
    (value : target.namesClass s = false) {signature : Signature}
    (declared : s.table.method? method = some signature) :
    CallsAsDeclared signature args.length w ↔ signature.isStatic = false := by
  have found := List.find?_some declared
  have name : signature.name = method := eq_of_beq found
  unfold CallsAsDeclared
  cases h with
  | static named _ =>
      rw [value] at named
      cases named
  | value _ _ loaded called =>
      cases isStatic : signature.isStatic with
      | false =>
          refine iff_of_true ?_ rfl
          rw [if_neg Bool.false_ne_true, name]
          exact ⟨_, _, loaded.value, called⟩
      | true =>
          refine iff_of_false ?_ Bool.noConfusion
          rw [if_pos rfl]
          rintro ⟨className, other⟩
          obtain ⟨_, _, last⟩ := called.last
          obtain ⟨_, _, last'⟩ := other.last
          cases (Opcode.invoke.inj (CodeLine.op.inj (Option.some.inj (last.symm.trans last')))).1

theorem operandTypes_length (args : List Expr) : ∀ params : List Symbol,
    (Expr.operandTypes s args params).length = args.length := by
  induction args with
  | nil => exact fun _ => rfl
  | cons arg args ih => exact fun params => congrArg (· + 1) (ih params.tail)

theorem loadsTarget_of_onVariable {tag : Tag} {target : Expr} {method : String} {args : List Expr}
    {c : Call} (on : OnVariable s (.call tag target method args) c) (this : s.lookup "this" = none)
    {receiver : List CodeLine} (value : LoadsValue receiver)
    (loads : ∀ name t, c.readBack.target = some (.var name t) →
      LoadsVariable f.registers name t receiver) : LoadsTarget s f.registers target receiver := by
  have loaded : ∀ name t, varOf? s target = some (name, t) →
      LoadsVariable f.registers name t.readBack receiver := fun name t there =>
    loads name t.readBack (congrArg (Option.map Element.readBack) (on _ _ _ _ _ _ rfl there))
  refine ⟨value, fun isThis => ?_, fun name found named known other => ?_⟩
  · have receiver := loaded _ _ (varOf_of_isThis isThis)
    rwa [LoadsVariable, if_pos (.inl rfl)] at receiver
  · have stored := loaded _ _ (varOf_of_lookup named known other)
    rwa [LoadsVariable, if_neg] at stored
    rintro (type | rfl)
    · exact found.symbol.type.read_ne_this type
    · rw [this] at known
      cases known

section Calls

variable {c : Call} {wanted : Bool} {w : List CodeLine}

theorem dispatched_of_call {tag : Tag} {target : Expr} {method : String} {args : List Expr}
    {expected : Option Ty} {wanted' : Bool}
    (outlined : c.readBack.outline wanted = Expr.outline s target method args expected wanted')
    (on : OnVariable s (.call tag target method args) c) (this : s.lookup "this" = none)
    (h : CallLines f c.readBack w) : Dispatched s f (.call tag target method args) w := by
  have length : c.readBack.args.length = args.length := by
    have same := congrArg (fun o : Outline => o.args.length) outlined
    exact (List.length_map ..).symm.trans (same.trans (operandTypes_length args _))
  have params : ((Expr.operandTypes s args (Expr.expectedParams s target method)).map
      f.names.descriptor).length = args.length :=
    (List.length_map ..).trans (operandTypes_length args _)
  have kind : c.readBack.kind = if target.namesClass s then .invokeStatic else .invokeVirtual :=
    congrArg Outline.kind outlined
  cases named : target.namesClass s with
  | true =>
      rw [named, if_pos rfl] at kind
      cases h with
      | value other => exact absurd kind other
      | static _ passed loaded called =>
          have called := called wanted
          rw [outlined, Expr.outline, named] at called
          cases called
          exact .static named ⟨_, _, _, passed.trans length, params, loaded, rfl⟩
  | false =>
      rw [named, if_neg Bool.false_ne_true] at kind
      cases h with
      | static other => cases kind.symm.trans other
      | value _ value loads passed loaded called =>
          have called := called wanted
          rw [outlined, invocation?_outline named] at called
          obtain ⟨className, owner, rfl⟩ := Option.map_eq_some_iff.1 called
          exact .value named owner (loadsTarget_of_onVariable on this value loads)
            ⟨_, _, _, passed.trans length, params, loaded, rfl⟩

theorem dispatched_of_newObject {tag : Tag} {className : String}
    (outlined : Expr.constructed className = .call (c.readBack.outline wanted))
    (h : CallLines f c.readBack w) : Dispatched s f (.newObject tag className) w := by
  generalize ho : c.readBack.outline wanted = o at outlined
  cases outlined
  have length : c.readBack.args.length = 0 :=
    (List.length_map ..).symm.trans (congrArg (fun o : Outline => o.args.length) ho)
  cases h with
  | static other => cases (congrArg Outline.kind ho).symm.trans other
  | value _ value _ passed loaded called =>
      have called := called wanted
      rw [ho] at called
      obtain ⟨owner, found, same⟩ := Option.bind_eq_some_iff.1 called
      cases same
      have found : (if Invocation.special = .special ∧ (Ty.ofClass className).read = .this
        then some f.names.super else f.names.owner? (Ty.ofClass className).read) =
          some owner := found
      rw [if_neg fun both => (Ty.ofClass className).read_ne_this both.2] at found
      exact .creation found value ⟨_, _, _, passed.trans length, rfl, loaded, rfl⟩

/-- What a call is lowered to is written as the call is. -/
theorem dispatched_of_callLines {e : Expr} (invokes : e.Invokes s (c.readBack.outline wanted))
    (on : OnVariable s e c) (this : s.lookup "this" = none) (h : CallLines f c.readBack w) :
    Dispatched s f e w := by
  generalize ho : c.readBack.outline wanted = o at invokes
  cases invokes with
  | call tag target method args expected wanted' => exact dispatched_of_call ho on this h
  | newObject tag className same => exact dispatched_of_newObject (ho ▸ same) h

end Calls

/-- What a method of the program is lowered to makes the calls of its body. -/
theorem makes_of_lowered {table : SymbolTable} (ht : table.Written) {m : Source.Method}
    (hm : m.Named) (hi : Stmt.IndexableAll m.body) (this : table.lookup m.name "this" = none)
    {u : Ir.Method} (lowered : LoweredTo table m u) {names : ClassNames} {listing : MethodListing}
    (listed : MethodListing.ofMethod names u.readBack = .ok listing) :
    Makes (Dispatched (.ofMethod table m) ⟨names, .ofMethod u.readBack⟩) (Stmt.callsIn m.body)
      listing.code := by
  have tells := tells_of_lowered ht hm hi lowered
  have makes := makes_of_ofMethod tells listed
  have invoked := Method.methodCalls_invoked fun l hl => (tells l hl).formed
  rw [lowered.uses ht hm hi] at invoked
  rw [Method.methodCalls_readBack] at makes invoked
  -- The text invokes the outlines of the calls, and those on variables are made on them.
  have outlined := comp_of_forall₂ (Stmt.callsIn_invoked m.body) invoked.flip
  have on := lowered.calls_onVariables
  refine makes.imp (List.forall₂_map_right_iff.2 ?_)
  refine (List.forall₂_map_right_iff.1 outlined).mp ?_ on
  rintro e c ⟨o, -, invokes, wanted, rfl⟩ on w made
  exact dispatched_of_callLines invokes on this made

end Assembly

namespace Compiler

open Source Ir Assembly

/-- Of a source that compiles, the code of every method makes the calls of its body, each once, as
they are written: without a receiver and with `invokestatic` on a name that means a class, and on
the loaded value with `invokevirtual` on anything else, so on every object of the own class; a
variable is loaded from its register.  That is how the method is declared exactly if it is not
static. -/
theorem calls_dispatched {source : String} {p : Program} {c : Compilation}
    (hp : Program.ofText source = .ok p) (h : compile source = .ok c) :
    ∃ unit l constructor methods, ClassUnit.ofText c.ir = .ok unit ∧
      ClassListing.ofUnit unit = .ok l ∧ listing source = .ok l ∧ c.assembly = l.text ∧
      l.methods = constructor :: methods ∧ l.added = none ∧
      List.Forall₂ (fun (m : Source.Method) (method : MethodListing) => ∃ u ∈ unit.methods,
        MethodListing.ofMethod p.classNames u = .ok method ∧
        (Stmt.callsIn m.body).Perm ((Stmt.occurrencesIn m.body).filter Expr.invokes) ∧
        Makes (fun e w => Dispatched (.ofMethod (.ofProgram p) m) ⟨p.classNames, .ofMethod u⟩ e w ∧
          ∀ tag target name args signature, e = .call tag target name args →
            target.namesClass (.ofMethod (.ofProgram p) m) = false →
            (SymbolTable.ofProgram p).method? name = some signature →
            (CallsAsDeclared signature args.length w ↔ signature.isStatic = false))
          (Stmt.callsIn m.body) method.code) p.methods methods := by
  obtain ⟨unit, l, constructor, methods, hu, made, hl, text, listed, each⟩ := exists_unit hp h
  have members := (List.forall₂_and_left _ _).2 ⟨fun _ hm => hm, each⟩
  refine ⟨unit, l, constructor, methods, hu, made, hl, text, listed.members, listed.added,
    members.imp ?_⟩
  rintro m method ⟨hm, u, member, lowered, listedAs⟩
  refine ⟨u.readBack, member, listedAs, Stmt.callsIn_perm m.body, ?_⟩
  have makes := makes_of_lowered (Lowering.written_ofProgram listed.named)
    (listed.named.methods m hm) (p.indexable_of_no_errors listed.named listed.accepted m hm)
    (listed.named.lookup_this m.name) lowered listedAs
  refine makes.imp (List.forall₂_same.2 fun e _ w dispatched => ⟨dispatched, ?_⟩)
  rintro tag target name args signature rfl value declared
  exact dispatched.asDeclared_iff value declared

/-- A call on a name that means a class, with a call on the receiver as its argument. -/
theorem calls_dispatched_of_import :
    ∃ (p : Program) (c : Compilation) (l : ClassListing) (constructor : MethodListing)
      (methods : List MethodListing),
      Program.ofText "import io; class A { int f() { return io.g(this.f()); } }" = .ok p ∧
      compile "import io; class A { int f() { return io.g(this.f()); } }" = .ok c ∧
      c.assembly = l.text ∧ l.methods = constructor :: methods ∧
      p.methods.map (fun m => (Stmt.callsIn m.body).length) = [2] ∧
      List.Forall₂ (fun (m : Source.Method) (method : MethodListing) => ∃ u,
        MethodListing.ofMethod p.classNames u = .ok method ∧
        Makes (Dispatched (.ofMethod (.ofProgram p) m) ⟨p.classNames, .ofMethod u⟩)
          (Stmt.callsIn m.body) method.code) p.methods methods := by
  obtain ⟨p, hp, calls⟩ := exists_of_any
    (Program.ofText "import io; class A { int f() { return io.g(this.f()); } }")
    (fun p => p.methods.map (fun m => (Stmt.callsIn m.body).length) == [2]) (by decide +kernel)
  obtain ⟨c, hc, -⟩ := exists_of_any
    (compile "import io; class A { int f() { return io.g(this.f()); } }")
    (fun _ => true) (by decide +kernel)
  obtain ⟨_, l, constructor, methods, -, -, -, text, members, -, each⟩ := calls_dispatched hp hc
  refine ⟨p, c, l, constructor, methods, hp, hc, text, members, beq_iff_eq.1 calls, ?_⟩
  refine each.imp ?_
  rintro m method ⟨u, -, listed, -, makes⟩
  exact ⟨u, listed, makes.imp (List.forall₂_same.2 fun e _ w made => made.1)⟩

/-- A static method that is called on the receiver is not called as it is declared. -/
theorem static_called_on_receiver :
    ∃ (p : Program) (c : Compilation) (l : ClassListing) (m : Source.Method)
      (method : MethodListing),
      Program.ofText "class A { static int h() { return 1; } int g() { return this.h(); } }" =
        .ok p ∧
      compile "class A { static int h() { return 1; } int g() { return this.h(); } }" = .ok c ∧
      listing "class A { static int h() { return 1; } int g() { return this.h(); } }" = .ok l ∧
      c.assembly = l.text ∧
      m ∈ p.methods ∧ method ∈ l.methods ∧ m.name = "g" ∧ method.name = "g" ∧
      method.code = [receiverLine, .op (.invoke .virtual "A" "h" [] .int), .op (.store .number 1),
        .op (.load .number 1), .op (.returnValue .number)] ∧
      ¬ Makes (CallsOwnAsDeclared (.ofMethod (.ofProgram p) m)) (Stmt.callsIn m.body)
        method.code := by
  obtain ⟨p, hp, hm⟩ := exists_of_any
    (Program.ofText "class A { static int h() { return 1; } int g() { return this.h(); } }")
    (fun p => p.methods.any fun m => m.name == "g" &&
      (Stmt.callsIn m.body).any (callsStaticOnOwn (.ofMethod (.ofProgram p) m))) (by decide +kernel)
  obtain ⟨l, hl, ht⟩ := exists_of_any
    (listing "class A { static int h() { return 1; } int g() { return this.h(); } }")
    (fun l => l.methods.any fun method => method.name == "g" && method.code ==
      [receiverLine, .op (.invoke .virtual "A" "h" [] .int), .op (.store .number 1),
        .op (.load .number 1), .op (.returnValue .number)]) (by decide +kernel)
  obtain ⟨m, member, hm⟩ := List.any_eq_true.1 hm
  obtain ⟨method, listed, ht⟩ := List.any_eq_true.1 ht
  rw [Bool.and_eq_true, beq_iff_eq] at hm ht
  obtain ⟨name, hm⟩ := hm
  obtain ⟨name', code⟩ := ht
  have code := beq_iff_eq.1 code
  obtain ⟨c, hc, text⟩ := exists_compiled hl
  refine ⟨p, c, l, m, method, hp, hc, hl, text, member, listed, name, name', code, fun makes => ?_⟩
  obtain ⟨e, called, he⟩ := List.any_eq_true.1 hm
  cases e with
  | call tag target name args =>
      rw [callsStaticOnOwn, Bool.and_eq_true, Option.any_eq_true] at he
      obtain ⟨own, signature, declared, static⟩ := he
      obtain ⟨w, made, inside⟩ := makes.exists_lines _ called
      have asDeclared := made _ _ _ _ _ rfl own declared
      rw [CallsAsDeclared, if_pos static] at asDeclared
      obtain ⟨className, made⟩ := asDeclared
      obtain ⟨params, result, last⟩ := made.last
      have there := inside (List.mem_of_getLast? last)
      rw [code] at there
      simp [receiverLine] at there
  | int | bool | name | this | binary | not | index | length | newArray | newObject | paren =>
      cases he

end Compiler

end JavaMinus
