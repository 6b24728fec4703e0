/-
# Methods without a receiver

If no operand of a static method is the receiver, its lines keep to the registers of its variables
(`keepsTo_of_ofMethod`).  Of an accepted program, a static method has the receiver for an operand
exactly if the word `this` occurs in its body, other than as a whole statement
(`Compiler.static_uses_receiver_iff`).  The checks refuse the word in the entry method only.
-/
import JavaMinus.Proofs.Assembly.Compiled
import JavaMinus.Proofs.Typing.Statics

namespace JavaMinus

namespace Ir

/-! ## The receiver as it is read back -/

theorem ElementType.ofWord_ne_this (word : String) : ElementType.ofWord word ≠ .this := by
  unfold ElementType.ofWord
  split <;> exact ElementType.noConfusion

theorem ElementType.readBack_beq_this (t : ElementType) : (t.readBack == .this) = (t == .this) := by
  cases t with
  | object className => exact beq_eq_false_iff_ne.2 (ofWord_ne_this className)
  | int32 | boolean | string | void | array | classRef | this => rfl

theorem Element.uses_readBack (e : Element) : e.readBack.uses = e.uses := by
  induction e with
  | literal => rfl
  | var name t => rw [readBack, uses, t.readBack_beq_this, uses]
  | item array index t ih => rw [readBack, uses, ih, uses]

theorem Call.receiver_mem_uses_readBack (c : Call) (wanted : Bool) :
    .receiver ∈ c.readBack.uses wanted ↔ .receiver ∈ c.uses wanted := by
  have target : ((c.target.map Element.readBack).map Element.uses).getD [] =
      (c.target.map Element.uses).getD [] := by
    rw [Option.map_map]
    exact congrArg (fun f => (c.target.map f).getD []) (funext Element.uses_readBack)
  have args : (c.args.map Element.readBack).flatMap Element.uses = c.args.flatMap Element.uses := by
    rw [List.flatMap_map]
    exact congrArg c.args.flatMap (funext Element.uses_readBack)
  simp only [uses, readBack, target, args, List.mem_append, List.mem_singleton, reduceCtorEq]

theorem Instruction.receiver_mem_uses_readBack : ∀ (i : Instruction) (wanted : Bool),
    .receiver ∈ i.readBack.uses wanted ↔ .receiver ∈ i.uses wanted
  | .assign dest _ rhs, _ => by
      simp only [readBack, uses, List.mem_append, dest.uses_readBack,
        receiver_mem_uses_readBack rhs]
  | .branch condition _, _ => receiver_mem_uses_readBack condition true
  | .call c, wanted => c.receiver_mem_uses_readBack wanted
  | .binary .., _ | .unary .., _ | .single _, _ | .getField .., _ | .putField .., _
  | .return .., _ => by
      simp only [readBack, uses, Element.uses_readBack]
  | .goto _, _ | .returnVoid, _ => Iff.rfl

theorem Method.receiver_mem_uses_readBack (m : Method) :
    .receiver ∈ m.readBack.uses ↔ .receiver ∈ m.uses := by
  rw [uses, uses, readBack, List.flatMap_map, List.mem_flatMap, List.mem_flatMap]
  exact exists_congr fun l => and_congr_right fun _ =>
    l.instruction.receiver_mem_uses_readBack false

/-! ## Mentions -/

theorem Element.not_this_of_mentions {e : Element} (h : .receiver ∉ e.uses) :
    ∀ entry ∈ e.mentions, entry.1 ≠ "this" := by
  induction e with
  | literal => exact List.forall_mem_nil _
  | var name t =>
      rw [uses, mem_receiverUse, Bool.or_eq_true, beq_iff_eq, not_or] at h
      cases t with
      | this | classRef => exact List.forall_mem_nil _
      | int32 | boolean | string | void | array | object => exact List.forall_mem_singleton.2 h.1
  | item array index t ih =>
      rw [uses, List.mem_append, not_or, mem_receiverUse, beq_iff_eq] at h
      exact List.forall_mem_cons.2 ⟨h.1, ih h.2⟩

theorem Element.not_this_of_all {es : List Element} (h : .receiver ∉ es.flatMap Element.uses) :
    ∀ entry ∈ es.flatMap Element.mentions, entry.1 ≠ "this" := by
  rw [List.mem_flatMap] at h
  intro entry hm
  obtain ⟨e, he, hm⟩ := List.mem_flatMap.1 hm
  exact e.not_this_of_mentions (fun hu => h ⟨e, he, hu⟩) entry hm

theorem Call.not_this_of_mentions {c : Call} {wanted : Bool} (h : .receiver ∉ c.uses wanted) :
    ∀ entry ∈ c.mentions, entry.1 ≠ "this" := by
  rw [uses, List.mem_append, List.mem_append, not_or, not_or] at h
  refine List.forall_mem_append.2 ⟨?_, Element.not_this_of_all h.2.1⟩
  cases ht : c.target with
  | none => exact List.forall_mem_nil _
  | some e =>
      rw [ht] at h
      exact e.not_this_of_mentions h.1

theorem Instruction.not_this_of_mentions : ∀ {i : Instruction} {wanted : Bool},
    .receiver ∉ i.uses wanted → ∀ entry ∈ i.mentions, entry.1 ≠ "this"
  | .assign .., _, h => by
      rw [uses, List.mem_append, not_or] at h
      exact List.forall_mem_append.2
        ⟨Element.not_this_of_mentions h.1, not_this_of_mentions h.2⟩
  | .binary .., _, h | .putField .., _, h => by
      rw [uses, List.mem_append, not_or] at h
      exact List.forall_mem_append.2
        ⟨Element.not_this_of_mentions h.1, Element.not_this_of_mentions h.2⟩
  | .unary .., _, h | .single _, _, h | .getField .., _, h | .return .., _, h =>
      Element.not_this_of_mentions h
  | .branch condition _, _, h => not_this_of_mentions (i := condition) h
  | .call _, _, h => Call.not_this_of_mentions h
  | .goto _, _, _ | .returnVoid, _, _ => List.forall_mem_nil _

end Ir

namespace Assembly

open Ir

/-! ## Registers -/

/-- The register that an opcode reads or writes. -/
def Opcode.register? : Opcode → Option Nat
  | .load _ register | .store _ register | .increment register _ => some register
  | _ => none

/-- What is true of the variables that registers are made for is true of those that have one. -/
theorem entries_of_foldl_insert {Q : String × ElementType → Prop}
    {mentions : List (String × ElementType)} : ∀ {r : Registers}, (∀ entry ∈ mentions, Q entry) →
      (∀ entry ∈ r.entries, Q entry) → ∀ entry ∈ (mentions.foldl Registers.insert r).entries, Q entry := by
  induction mentions with
  | nil => exact fun _ hr => hr
  | cons entry mentions ih =>
      intro r h hr
      obtain ⟨first, others⟩ := List.forall_mem_cons.1 h
      refine ih others ?_
      unfold Registers.insert
      split
      · exact hr
      · exact List.forall_mem_append.2 ⟨hr, List.forall_mem_singleton.2 first⟩

theorem findFrom_entry {name : String} {entries : List (String × ElementType)} : ∀ {n : Nat} {s : Slot},
    Registers.findFrom name n entries = some s →
      ∃ k, s.register = n + k ∧ entries[k]? = some (name, s.type) := by
  induction entries with
  | nil => exact fun h => nomatch h
  | cons entry entries ih =>
      intro n s h
      rw [Registers.findFrom] at h
      split at h
      · rename_i same
        cases h
        exact ⟨0, rfl, by rw [← same]; rfl⟩
      · obtain ⟨k, at_, found⟩ := ih h
        exact ⟨k + 1, by omega, found⟩

theorem find?_entry {r : Registers} {name : String} {s : Slot} (h : r.find? name = some s) :
    r.entries[s.register]? = some (name, s.type) := by
  obtain ⟨k, at_, found⟩ := findFrom_entry h
  rw [at_, Nat.zero_add]
  exact found

/-- Every register that a line of the method reads or writes is below the limit, and is that of a
variable other than the receiver. -/
def MethodListing.KeepsTo (listing : MethodListing) (r : Registers) : Prop :=
  ∀ op, .op op ∈ listing.code → ∀ n ∈ op.register?,
    n < listing.localsLimit ∧ ∃ name t, r.entries[n]? = some (name, t) ∧ name ≠ "this"

section Lines

variable {f : Frame}

/-- The registers of the line are those of variables. -/
def CodeLine.InFrame (f : Frame) (l : CodeLine) : Prop :=
  ∀ op, l = .op op → ∀ n ∈ op.register?, ∃ entry, f.registers.entries[n]? = some entry

theorem inFrame_of_none {op : Opcode} (h : op.register? = none) : CodeLine.InFrame f (.op op) := by
  rintro _ ⟨⟩ n hn
  rw [h] at hn
  cases hn

theorem inFrame_of_find {name : String} {s : Slot} {op : Opcode}
    (h : f.registers.find? name = some s) (hr : op.register? = some s.register) :
    CodeLine.InFrame f (.op op) := by
  rintro _ ⟨⟩ n hn
  rw [hr] at hn
  cases hn
  exact ⟨_, find?_entry h⟩

theorem inFrame_label (name : String) : CodeLine.InFrame f (.label name) :=
  fun _ h => nomatch h

theorem permits_inFrame : Permits f fun w => ∀ l ∈ w, l.InFrame f where
  nil := List.forall_mem_nil _
  append _ _ h h' := List.forall_mem_append.2 ⟨h, h'⟩
  label name := List.forall_mem_singleton.2 (inFrame_label name)
  neutral op h := by
    refine List.forall_mem_singleton.2 (inFrame_of_none ?_)
    cases op <;> first | rfl | cases h
  load _ _ h := List.forall_mem_singleton.2 (inFrame_of_find h rfl)
  store _ _ h := List.forall_mem_singleton.2 (inFrame_of_find h rfl)
  increment _ _ _ h := List.forall_mem_singleton.2 (inFrame_of_find h rfl)
  choice _ _ _ _ _ := by
    simp only [List.forall_mem_cons]
    exact ⟨inFrame_of_none rfl, inFrame_of_none rfl, inFrame_of_none rfl, inFrame_label _,
      inFrame_of_none rfl, inFrame_label _, List.forall_mem_nil _⟩

theorem allows_inFrame {i : Instruction} (h : .receiver ∉ i.uses false) :
    Allows f (fun w => ∀ l ∈ w, l.InFrame f) i where
  receiver used := absurd used h
  call c op _ called := by
    simp only [invocation?, Option.bind_eq_bind, Option.bind_eq_some_iff] at called
    obtain ⟨_, -, _, -, _, -, _, -, ⟨⟩⟩ := called
    exact List.forall_mem_singleton.2 (inFrame_of_none rfl)
  jump _ _ := List.forall_mem_singleton.2 (inFrame_of_none rfl)
  branch _ _ := List.forall_mem_singleton.2 (inFrame_of_none rfl)
  leave op left := by
    refine List.forall_mem_singleton.2 (inFrame_of_none ?_)
    cases i <;> cases left <;> rfl

end Lines

/-- The lines of a static method that does not use the receiver keep to its registers. -/
theorem keepsTo_of_ofMethod {names : ClassNames} {m : Method} {listing : MethodListing}
    (hi : ∀ l ∈ m.body, l.instruction.Formed) (static : m.isStatic = true)
    (hp : .receiver ∉ m.params.flatMap Element.uses) (hu : .receiver ∉ m.uses)
    (h : MethodListing.ofMethod names m = .ok listing) :
    listing.KeepsTo (.ofMethod m) := by
  have unused : ∀ l ∈ m.body, .receiver ∉ l.instruction.uses false :=
    fun l hl used => hu (List.mem_flatMap.2 ⟨l, hl, used⟩)
  have named : ∀ entry ∈ (Registers.ofMethod m).entries, entry.1 ≠ "this" := by
    refine entries_of_foldl_insert ?_ (List.forall_mem_nil _)
    rw [Method.mentions, if_pos static, List.nil_append]
    refine List.forall_mem_append.2 ⟨Element.not_this_of_all hp, fun entry hm => ?_⟩
    obtain ⟨l, hl, hm⟩ := List.mem_flatMap.1 hm
    exact Instruction.not_this_of_mentions (unused l hl) entry hm
  obtain ⟨t, w, run, code⟩ := code_of_ofMethod h
  have inFrame : ∀ l ∈ listing.code, l.InFrame ⟨names, .ofMethod m⟩ := by
    rw [code]
    refine List.forall_mem_append.2
      ⟨method_lines permits_inFrame hi (fun l hl => allows_inFrame (unused l hl)) _ _ _ _ run, ?_⟩
    split
    · exact List.forall_mem_singleton.2 (inFrame_of_none rfl)
    · exact List.forall_mem_nil _
  have limit : listing.localsLimit = (Registers.ofMethod m).entries.length := by
    obtain ⟨_, -, rfl⟩ := ok_of_map h
    rfl
  intro op hop n hn
  obtain ⟨⟨name, t⟩, found⟩ := inFrame (.op op) hop op rfl n hn
  rw [limit]
  exact ⟨(List.getElem?_eq_some_iff.1 found).1, name, t, found,
    named _ (List.mem_of_getElem? found)⟩

/-- What a static method of the program has to do with the receiver once it is lowered. -/
structure StaticUse (p : Source.Program) (m : Source.Method) (u : Method) : Prop where
  /-- The receiver is an operand exactly if the body says it, other than as a whole statement. -/
  used_iff : .receiver ∈ u.uses ↔ Source.Stmt.anyUsesThis m.body = true
  /-- It is none of the entry method. -/
  entry : m.isMain = true → .receiver ∉ u.uses
  /-- If it is no operand, the lines of the method keep to its registers. -/
  registers : .receiver ∉ u.uses → ∀ listing,
    MethodListing.ofMethod p.classNames u.readBack = .ok listing → listing.KeepsTo (.ofMethod u.readBack)

theorem params_uses {table : SymbolTable} (ht : table.Written) {m : Source.Method} {u : Method}
    (h : Lowering.LoweredTo table m u) : u.readBack.params.flatMap Element.uses = [] := by
  obtain ⟨lines, -, rfl⟩ := h
  rw [List.flatMap_eq_nil_iff]
  refine List.forall_mem_map.2 (List.forall_mem_map.2 fun param hparam => ?_)
  cases hs : table.method? m.name with
  | none =>
      rw [SymbolTable.parameters?, hs] at hparam
      cases hparam
  | some signature =>
      rw [SymbolTable.parameters?, hs] at hparam
      obtain ⟨name, type⟩ := ht.params signature (List.mem_of_find?_eq_some hs) param hparam
      exact Lowering.uses_var name.ne_this type.lowered

theorem staticUse_of_lowered {p : Source.Program} (hn : p.Named)
    (h : (Analysis.ofProgram p).hasErrors = false) {m : Source.Method} (hm : m ∈ p.methods)
    (static : m.isStatic = true) {u : Method} (hu : Lowering.LoweredTo (.ofProgram p) m u) :
    StaticUse p m u := by
  have written := Lowering.written_ofProgram hn
  have named := hn.methods m hm
  have indexable := p.indexable_of_no_errors hn h m hm
  have accepts := Analysis.accepts_of_no_errors h m hm
  have uses := hu.uses written named indexable
  have used_iff : .receiver ∈ u.uses ↔ Source.Stmt.anyUsesThis m.body = true := by
    rw [← u.receiver_mem_uses_readBack, uses]
    exact Scope.receiver_mem_stmts_uses_iff _ static m.body accepts indexable
  refine ⟨used_iff, fun main => ?_, fun unused listing listed => ?_⟩
  · rw [used_iff, Scope.anyUsesThis_of_acceptsAll _ main m.body accepts]
    exact Bool.false_ne_true
  · refine keepsTo_of_ofMethod (List.forall_mem_map.2 (hu.sound written named indexable).formed)
      ?_ ?_ (fun used => unused (u.receiver_mem_uses_readBack.1 used)) listed
    · obtain ⟨lines, -, rfl⟩ := hu
      exact static
    · rw [params_uses written hu]
      exact List.not_mem_nil

end Assembly

namespace Compiler

open Source Ir Lowering Assembly

/-- Of an accepted program, the intermediate form of a static method has the receiver for an operand
exactly if its body says `this` other than as a whole statement, which the entry method does not.  If
it has not, no line of its assembly reads the receiver, and all registers are below the limit. -/
theorem static_uses_receiver_iff {source ir : String} {p : Program}
    (hp : Program.ofText source = .ok p) (h : (Analysis.ofProgram p).hasErrors = false)
    (hir : generateIr source = .ok ir) :
    ∃ us, List.Forall₂ (LoweredTo (.ofProgram p)) p.methods us ∧
      Spells ir ((unitOf (.ofProgram p) us).tokens (p.imports.map (·.path))) ∧
      (∀ u, ClassUnit.ofText ir = .ok u → u = (unitOf (.ofProgram p) us).readBack) ∧
      List.Forall₂ (fun m u => m.isStatic = true → StaticUse p m u) p.methods us := by
  have named := Program.named_of_ofText hp
  obtain ⟨us, lowereds, spelled, read⟩ := exists_lowered hp h hir
  refine ⟨us, lowereds, spelled, read, ?_⟩
  have each : List.Forall₂ (fun m u => m ∈ p.methods ∧ LoweredTo (.ofProgram p) m u) p.methods us :=
    (List.forall₂_and_left _ _).2 ⟨fun m hm => hm, lowereds⟩
  exact each.imp fun m u ⟨hm, hu⟩ static => staticUse_of_lowered named h hm static hu

/-- A static method that keeps to its parameter. -/
theorem static_keeps_to_parameter :
    ∃ p ir us, Program.ofText "class A { public static int f(int x) { return x; } }" = .ok p ∧
      (Analysis.ofProgram p).hasErrors = false ∧
      generateIr "class A { public static int f(int x) { return x; } }" = .ok ir ∧
      List.Forall₂ (LoweredTo (.ofProgram p)) p.methods us ∧
      Spells ir ((unitOf (.ofProgram p) us).tokens (p.imports.map (·.path))) ∧
      List.Forall₂ (fun m u => m.isStatic = true ∧ .receiver ∉ u.uses) p.methods us := by
  obtain ⟨p, ir, u, hp, hir, -, ht⟩ := exists_of_steps
    "class A { public static int f(int x) { return x; } }"
    (fun p _ => !(Analysis.ofProgram p).hasErrors &&
      p.methods.all fun m => m.isStatic && !Stmt.anyUsesThis m.body) (by decide +kernel)
  obtain ⟨accepted, static⟩ : (Analysis.ofProgram p).hasErrors = false ∧
      ∀ m ∈ p.methods, m.isStatic = true ∧ Stmt.anyUsesThis m.body = false := by
    simpa using ht
  obtain ⟨us, lowereds, spelled, -, uses⟩ := static_uses_receiver_iff hp accepted hir
  refine ⟨p, ir, us, hp, accepted, hir, lowereds, spelled, ?_⟩
  refine ((List.forall₂_and_left _ _).2 ⟨static, uses⟩).imp fun m u ⟨⟨hm, unsaid⟩, use⟩ => ⟨hm, ?_⟩
  rw [(use hm).used_iff, unsaid]
  exact Bool.false_ne_true

/-- A static method that is not the entry method may return the receiver, which it has not: the
intermediate form does, and the assembly loads it from the first of no registers. -/
theorem static_returns_receiver :
    ∃ p ir u l, Program.ofText "class A { public static A f() { return this; } }" = .ok p ∧
      (Analysis.ofProgram p).hasErrors = false ∧
      generateIr "class A { public static A f() { return this; } }" = .ok ir ∧
      ClassUnit.ofText ir = .ok u ∧
      (u.methods.any fun m => m.isStatic && m.uses.contains .receiver) = true ∧
      ClassListing.ofUnit u = .ok l ∧
      (l.methods.any fun m => m.isStatic && m.localsLimit == 0 &&
        m.code.contains (.op (.load .reference 0))) = true := by
  obtain ⟨p, ir, u, hp, hir, hu, ht⟩ := exists_of_steps
    "class A { public static A f() { return this; } }"
    (fun p u => !(Analysis.ofProgram p).hasErrors &&
      ((u.methods.any fun m => m.isStatic && m.uses.contains .receiver) &&
        (ClassListing.ofUnit u).toOption.any fun l => l.methods.any fun m =>
          m.isStatic && m.localsLimit == 0 && m.code.contains (.op (.load .reference 0))))
    (by decide +kernel)
  rw [Bool.and_eq_true, Bool.and_eq_true, Bool.not_eq_true'] at ht
  obtain ⟨l, hl, loads⟩ := exists_of_any _ _ ht.2.2
  exact ⟨p, ir, u, l, hp, ht.1, hir, hu, ht.2.1, hl, loads⟩

end Compiler

end JavaMinus
