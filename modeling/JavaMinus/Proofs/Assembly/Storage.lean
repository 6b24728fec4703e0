/-
# Where variables are kept

The parameters of a method have the first registers, after that of the receiver, and every name is
mentioned with one type, if the variables of the method stand apart (`Compiler.variables_stored`):
no two parameters have one name, a local variable with the name of a parameter has its type, the
method declares the parameters of the first one of its name, and no element of an array is indexed.
None of this is checked, so a program can compile and break it.
-/
import JavaMinus.Proofs.Assembly.Compiled
import JavaMinus.Proofs.Assembly.Receivers
import JavaMinus.Proofs.Lowering.VariableTypes

namespace JavaMinus

open Source Ir

/-! ## What is mentioned once it is read back -/

namespace Ir

/-- A variable with the type that is read for it. -/
def readEntry (x : String × ElementType) : String × ElementType := (x.1, x.2.readBack)

theorem Element.mentions_readBack : ∀ e : Element, e.readBack.mentions = e.mentions.map readEntry
  | .literal .. => rfl
  | .var _ (.object className) => by
      show Element.mentions (.var _ (.ofWord className)) = [(_, .ofWord className)]
      unfold ElementType.ofWord
      split <;> rfl
  | .var _ .int32 | .var _ .boolean | .var _ .string | .var _ (.array _) | .var _ (.classRef _)
  | .var _ .this | .var _ .void => rfl
  | .item array index t => congrArg (readEntry (array, .array t) :: ·) index.mentions_readBack

theorem Element.flatMap_mentions_readBack (es : List Element) :
    (es.map Element.readBack).flatMap Element.mentions =
      (es.flatMap Element.mentions).map readEntry := by
  rw [List.flatMap_map, List.map_flatMap]
  exact congrArg (es.flatMap ·) (funext Element.mentions_readBack)

theorem Call.mentions_readBack (c : Call) : c.readBack.mentions = c.mentions.map readEntry := by
  rw [Call.mentions, Call.mentions, List.map_append]
  refine congrArg₂ (· ++ ·) ?_ (Element.flatMap_mentions_readBack c.args)
  show ((c.target.map Element.readBack).map Element.mentions).getD [] = _
  cases c.target with
  | none => rfl
  | some e => exact e.mentions_readBack

theorem Instruction.mentions_readBack : ∀ i : Instruction,
    i.readBack.mentions = i.mentions.map readEntry
  | .assign dest _ rhs => by
      rw [Instruction.mentions, List.map_append, ← dest.mentions_readBack, ← rhs.mentions_readBack]
      rfl
  | .binary lhs _ rhs => by
      rw [Instruction.mentions, List.map_append, ← lhs.mentions_readBack, ← rhs.mentions_readBack]
      rfl
  | .putField object _ value => by
      rw [Instruction.mentions, List.map_append, ← object.mentions_readBack,
        ← value.mentions_readBack]
      rfl
  | .unary _ e | .single e | .getField e _ | .return _ e => e.mentions_readBack
  | .branch condition _ => condition.mentions_readBack
  | .call c => c.mentions_readBack
  | .goto _ | .returnVoid => rfl

theorem Method.mentions_readBack (u : Ir.Method) :
    u.readBack.mentions = u.mentions.map readEntry := by
  rw [Method.mentions, Method.mentions, List.map_append, List.map_append]
  refine congrArg₂ (· ++ ·) (congrArg₂ (· ++ ·) ?_ ?_) ?_
  · show (if u.isStatic then _ else _) = _
    split <;> rfl
  · exact Element.flatMap_mentions_readBack u.params
  · show (u.body.map Labeled.readBack).flatMap _ = _
    rw [List.flatMap_map, List.map_flatMap]
    exact congrArg (u.body.flatMap ·) (funext fun l => l.instruction.mentions_readBack)

end Ir

/-! ## Registers -/

namespace Assembly

namespace Registers

variable {r : Registers} {entry : String × ElementType} {mentions : List (String × ElementType)}

def Apart (r : Registers) : Prop := (r.entries.map Prod.fst).Nodup

theorem any_iff_mem_map :
    r.entries.any (·.1 == entry.1) = true ↔ entry.1 ∈ r.entries.map Prod.fst := by
  rw [List.any_eq_true, List.mem_map]
  exact exists_congr fun other => and_congr_right fun _ => beq_iff_eq

theorem insert_fresh (h : entry.1 ∉ r.entries.map Prod.fst) :
    r.insert entry = ⟨r.entries ++ [entry]⟩ :=
  if_neg fun there => h (any_iff_mem_map.1 there)

theorem Apart.insert (h : r.Apart) : (r.insert entry).Apart := by
  by_cases there : entry.1 ∈ r.entries.map Prod.fst
  · rw [Registers.insert, if_pos (any_iff_mem_map.2 there)]
    exact h
  · rw [insert_fresh there, Apart, List.map_append]
    exact List.nodup_append'.2 ⟨h, List.nodup_singleton _, List.disjoint_singleton.2 there⟩

theorem prefix_insert (r : Registers) (entry : String × ElementType) :
    r.entries <+: (r.insert entry).entries := by
  unfold Registers.insert
  split
  · exact List.prefix_rfl
  · exact List.prefix_append _ _

theorem Apart.foldl_insert (mentions : List (String × ElementType)) : ∀ {r : Registers},
    r.Apart → (mentions.foldl Registers.insert r).Apart := by
  induction mentions with
  | nil => exact fun h => h
  | cons entry mentions ih => exact fun h => ih h.insert

theorem prefix_foldl_insert (mentions : List (String × ElementType)) : ∀ r : Registers,
    r.entries <+: (mentions.foldl Registers.insert r).entries := by
  induction mentions with
  | nil => exact fun r => List.prefix_rfl
  | cons entry mentions ih => exact fun r => (r.prefix_insert entry).trans (ih (r.insert entry))

/-- Variables with names of their own get the next registers, in order. -/
theorem foldl_insert_fresh (mentions : List (String × ElementType)) : ∀ {r : Registers},
    ((r.entries ++ mentions).map Prod.fst).Nodup →
      mentions.foldl Registers.insert r = ⟨r.entries ++ mentions⟩ := by
  induction mentions with
  | nil =>
      intro r _
      rw [List.append_nil]
      rfl
  | cons entry mentions ih =>
      intro r h
      have fresh : entry.1 ∉ r.entries.map Prod.fst := by
        intro there
        rw [List.map_append, List.nodup_append'] at h
        exact List.disjoint_left.1 h.2.2 there List.mem_cons_self
      rw [List.foldl_cons, insert_fresh fresh, ih]
      · rw [List.append_assoc]
        rfl
      · rw [List.append_assoc]
        exact h

theorem findFrom_of_getElem? {name : String} {t : ElementType}
    {entries : List (String × ElementType)} : ∀ {n k : Nat}, (entries.map Prod.fst).Nodup →
      entries[k]? = some (name, t) → findFrom name n entries = some ⟨n + k, t⟩ := by
  induction entries with
  | nil => exact fun _ h => nomatch h
  | cons entry entries ih =>
      intro n k nodup h
      obtain ⟨fresh, others⟩ := List.nodup_cons.1 nodup
      cases k with
      | zero =>
          cases h
          exact if_pos rfl
      | succ k =>
          have other : entry.1 ≠ name := by
            rintro rfl
            exact fresh (List.mem_map.2 ⟨_, List.mem_of_getElem? (l := entries) h, rfl⟩)
          rw [findFrom, if_neg other, ih others h, Nat.add_assoc, Nat.add_comm 1 k]

/-- A variable is found in the register where it is. -/
theorem find?_of_getElem? {name : String} {t : ElementType} {k : Nat} (h : r.Apart)
    (there : r.entries[k]? = some (name, t)) : r.find? name = some ⟨k, t⟩ := by
  rw [find?, findFrom_of_getElem? h there, Nat.zero_add]

theorem apart_ofMethod (u : Ir.Method) : (ofMethod u).Apart :=
  Apart.foldl_insert u.mentions List.nodup_nil

/-- If the names that are mentioned first are all different, they have the first registers. -/
theorem prefix_ofMethod {u : Ir.Method} {first rest : List (String × ElementType)}
    (h : u.mentions = first ++ rest) (nodup : (first.map Prod.fst).Nodup) :
    first <+: (ofMethod u).entries := by
  have given : first.foldl insert empty = ⟨first⟩ := foldl_insert_fresh first nodup
  rw [ofMethod, h, List.foldl_append, given]
  exact prefix_foldl_insert rest ⟨first⟩

end Registers

end Assembly

/-! ## Storage -/

namespace Source

/-- The registers of a method before those of its parameters. -/
def Method.receiverSlots (m : Source.Method) : Nat := if m.isStatic then 0 else 1

/-- The variables of a method are told apart by their names, and what is indexed in it is no element
of an array. -/
structure Method.SeparatesVariables (table : SymbolTable) (m : Source.Method) : Prop where
  /-- The first method of its name has its parameters. -/
  first : table.parameters? m.name = some (m.params.map (·.symbol))
  /-- No two parameters have one name. -/
  apart : (m.params.map (·.name)).Nodup
  /-- In the body a parameter has its type: no local variable of another type has its name. -/
  kept : ∀ d ∈ m.params, table.variableType? m.name d.name = some d.type
  elements : ∀ e ∈ Stmt.occurrencesIn m.body, e.indexesElement = false

instance (table : SymbolTable) (m : Source.Method) : Decidable (m.SeparatesVariables table) :=
  decidable_of_iff (table.parameters? m.name = some (m.params.map (·.symbol)) ∧
      (m.params.map (·.name)).Nodup ∧
      (∀ d ∈ m.params, table.variableType? m.name d.name = some d.type) ∧
      ∀ e ∈ Stmt.occurrencesIn m.body, e.indexesElement = false)
    ⟨fun ⟨first, apart, kept, elements⟩ => ⟨first, apart, kept, elements⟩,
      fun h => ⟨h.first, h.apart, h.kept, h.elements⟩⟩

end Source

namespace Assembly

open Lowering

structure HasStorage (table : SymbolTable) (m : Source.Method) (u : Ir.Method)
    (listing : MethodListing) : Prop where
  /-- A parameter has the register of its place, after that of the receiver. -/
  parameter : ∀ k d, m.params[k]? = some d →
    (Registers.ofMethod u).find? d.name = some ⟨m.receiverSlots + k, d.type.read⟩
  /-- There are registers for the receiver and all parameters. -/
  limit : m.receiverSlots + m.params.length ≤ listing.localsLimit
  /-- No two variables have one register. -/
  own : ∀ name name' slot slot', (Registers.ofMethod u).find? name = some slot →
    (Registers.ofMethod u).find? name' = some slot' → slot.register = slot'.register → name = name'
  /-- A declared variable is mentioned with its type. -/
  declared : ∀ x ∈ u.mentions, ∀ t, table.variableType? m.name x.1 = some t → x.2 = t.read
  /-- Every variable is mentioned with one type. -/
  typed : ∀ x ∈ u.mentions, ∀ y ∈ u.mentions, x.1 = y.1 → x.2 = y.2

variable {table : SymbolTable} {m : Source.Method} {u : Ir.Method}

theorem register_injective {r : Registers} {name name' : String} {slot slot' : Slot}
    (h : r.find? name = some slot) (h' : r.find? name' = some slot')
    (same : slot.register = slot'.register) : name = name' := by
  have there := find?_entry h
  rw [same, find?_entry h'] at there
  exact (congrArg Prod.fst (Option.some.inj there)).symm

def firstMentions (m : Source.Method) : List (String × ElementType) :=
  (if m.isStatic then [] else [("this", .this)]) ++ m.params.map fun d => (d.name, d.type.read)

theorem mentions_of_lowered (h : LoweredTo table m u)
    (first : table.parameters? m.name = some (m.params.map (·.symbol))) :
    ∃ rest, u.readBack.mentions = firstMentions m ++ rest := by
  obtain ⟨lines, -, rfl⟩ := h
  refine ⟨((bodyOf [] lines).1.flatMap fun l => l.instruction.mentions).map readEntry, ?_⟩
  rw [Method.mentions_readBack, Ir.Method.mentions, List.map_append, List.map_append, firstMentions]
  refine congrArg₂ (· ++ ·) (congrArg₂ (· ++ ·) ?_ ?_) rfl
  · show (if m.isStatic then _ else _ : List _).map readEntry = _
    split <;> rfl
  · show ((((table.parameters? m.name).getD []).map (·.lowered)).flatMap _).map readEntry = _
    rw [first, Option.getD_some, List.flatMap_map, List.flatMap_map, List.map_flatMap,
      List.map_eq_flatMap]
    refine congrArg (m.params.flatMap ·) (funext fun d => ?_)
    rw [mentions_lowered]
    rfl

theorem nodup_firstMentions (named : m.Named) (apart : (m.params.map (·.name)).Nodup) :
    ((firstMentions m).map Prod.fst).Nodup := by
  have names : (m.params.map fun d => (d.name, d.type.read)).map Prod.fst =
      m.params.map (·.name) := List.map_map
  rw [firstMentions, List.map_append, names]
  split
  · exact apart
  · refine List.nodup_cons.2 ⟨fun there => ?_, apart⟩
    obtain ⟨d, hd, same⟩ := List.mem_map.1 there
    exact (named.params d hd).1.ne_this same

theorem getElem?_firstMentions {k : Nat} {d : Declaration} (h : m.params[k]? = some d) :
    (firstMentions m)[m.receiverSlots + k]? = some (d.name, d.type.read) := by
  unfold firstMentions Method.receiverSlots
  split
  · rw [List.nil_append, Nat.zero_add, List.getElem?_map, h]
    rfl
  · rw [List.singleton_append, Nat.add_comm, List.getElem?_cons_succ, List.getElem?_map, h]
    rfl

theorem length_firstMentions (m : Source.Method) :
    (firstMentions m).length = m.receiverSlots + m.params.length := by
  unfold firstMentions Method.receiverSlots
  rw [List.length_append, List.length_map]
  split <;> rfl

theorem hasStorage_of_lowered (h : LoweredTo table m u) (named : m.Named)
    (this : table.lookup m.name "this" = none)
    (accepts : (Scope.ofMethod table m).AcceptsAll m.body) (separates : m.SeparatesVariables table)
    {names : ClassNames} {listing : MethodListing}
    (listed : MethodListing.ofMethod names u.readBack = .ok listing) :
    HasStorage table m u.readBack listing := by
  obtain ⟨rest, split⟩ := mentions_of_lowered h separates.first
  have registers := Registers.prefix_ofMethod split (nodup_firstMentions named separates.apart)
  have limit : listing.localsLimit = (Registers.ofMethod u.readBack).entries.length := by
    obtain ⟨_, -, rfl⟩ := ok_of_map listed
    rfl
  have elements : ∀ occ ∈ Stmt.occurrencesIn m.body, occ.IndexesArray (.ofMethod table m) :=
    fun occ hocc => Scope.indexesArray_of_checks
      ((Scope.ofMethod table m).checks_of_acceptsAll m.body accepts occ hocc)
      (separates.elements occ hocc)
  have params : ∀ d ∈ (table.parameters? m.name).getD [],
      (Scope.ofMethod table m).variableType? d.name = some d.type := by
    rw [separates.first]
    exact List.forall_mem_map.2 separates.kept
  obtain ⟨declared, typed⟩ := h.types_unique accepts elements params this
  refine ⟨fun k d hd => ?_, ?_, fun _ _ _ _ => register_injective, ?_, ?_⟩
  · -- Later mentions only add registers, so those of the parameters stay where they are.
    refine Registers.find?_of_getElem? (Registers.apart_ofMethod _) ?_
    obtain ⟨others, entries⟩ := registers
    have there := getElem?_firstMentions hd
    rw [← entries, List.getElem?_append_left (List.getElem?_eq_some_iff.1 there).1, there]
  · rw [limit, ← length_firstMentions]
    exact registers.length_le
  · rw [Method.mentions_readBack]
    exact List.forall_mem_map.2 fun x hx t type =>
      congrArg ElementType.readBack (declared x hx t type)
  · rw [Method.mentions_readBack]
    exact List.forall_mem_map.2 fun x hx => List.forall_mem_map.2 fun y hy same =>
      congrArg ElementType.readBack (typed x hx y hy same)

end Assembly

namespace Compiler

open Assembly Lowering

/-- Of a source that compiles, the intermediate form has a method for each one of the program, and
that of a method whose variables are told apart has storage for each of them: its parameters have
registers in their order, after that of the receiver, and every name is mentioned with one type. -/
theorem variables_stored {source : String} {p : Program} {c : Compilation}
    (hp : Program.ofText source = .ok p) (h : compile source = .ok c) :
    ∃ (unit : ClassUnit) (l : ClassListing) (constructor : Ir.Method) (us : List Ir.Method),
      ClassUnit.ofText c.ir = .ok unit ∧ ClassListing.ofUnit unit = .ok l ∧ c.assembly = l.text ∧
      unit.methods = constructor :: us ∧
      List.Forall₂ (fun (m : Source.Method) (u : Ir.Method) => ∃ method ∈ l.methods,
        MethodListing.ofMethod (.ofUnit unit) u = .ok method ∧
        (m.SeparatesVariables (.ofProgram p) → HasStorage (.ofProgram p) m u method))
        p.methods us := by
  obtain ⟨accepted, hir, hasm⟩ := steps_of_compile hp h
  obtain ⟨unit, hu, hasm⟩ := ok_of_bind hasm
  obtain ⟨l, hl, text⟩ := ok_of_map hasm
  obtain ⟨us, lowereds, -, read⟩ := exists_lowered hp accepted hir
  obtain rfl := read unit hu
  refine ⟨_, l, _, us.map Ir.Method.readBack, hu, hl, text.symm, rfl, ?_⟩
  obtain ⟨listings, listed, rfl⟩ := ok_of_map hl
  have each : ∀ u ∈ us, ∃ method ∈ listings,
      MethodListing.ofMethod p.classNames u.readBack = .ok method := fun u hu =>
    exists_of_forall₂ (forall_of_ofMethods listed).flip u.readBack
      (List.mem_cons_of_mem _ (List.mem_map_of_mem hu))
  have members := (List.forall₂_and_left _ _).2 ⟨fun _ hm => hm, lowereds⟩
  have both := (List.forall₂_and_left _ _).2 ⟨each, members.flip⟩
  have named := Program.named_of_ofText hp
  refine List.forall₂_map_right_iff.2 (both.flip.imp ?_)
  rintro m u ⟨⟨method, member, listedAs⟩, hm, lowered⟩
  refine ⟨method, member, listedAs, fun separates => ?_⟩
  exact hasStorage_of_lowered lowered (named.methods m hm) (named.lookup_this m.name)
    (Analysis.accepts_of_no_errors accepted m hm) separates listedAs

/-- A parameter that is an array, and a variable that takes an element of it. -/
theorem variables_stored_of_array :
    ∃ (p : Program) (c : Compilation) (us : List Ir.Method),
      Program.ofText "class A { int f(int[] x, int y) { return x[y]; } }" = .ok p ∧
      compile "class A { int f(int[] x, int y) { return x[y]; } }" = .ok c ∧
      p.methods ≠ [] ∧
      List.Forall₂ (fun m u => ∃ method, HasStorage (.ofProgram p) m u method) p.methods us := by
  obtain ⟨p, hp, ht⟩ := exists_of_any
    (Program.ofText "class A { int f(int[] x, int y) { return x[y]; } }")
    (fun p => !p.methods.isEmpty &&
      p.methods.all fun m => decide (m.SeparatesVariables (.ofProgram p))) (by decide +kernel)
  obtain ⟨c, hc, -⟩ := exists_of_any
    (compile "class A { int f(int[] x, int y) { return x[y]; } }") (fun _ => true)
    (by decide +kernel)
  simp only [Bool.and_eq_true, Bool.not_eq_true', List.all_eq_true, decide_eq_true_eq] at ht
  obtain ⟨unit, l, constructor, us, -, -, -, -, each⟩ := variables_stored hp hc
  refine ⟨p, c, us, hp, hc, List.isEmpty_eq_false_iff.1 ht.1, ?_⟩
  have members := (List.forall₂_and_left _ _).2 ⟨ht.2, each⟩
  exact members.imp fun m u ⟨separates, listing, _, _, stored⟩ => ⟨listing, stored separates⟩

/-- The second of two parameters with one name has no register. -/
theorem variables_not_stored_of_same_name :
    ∃ (p : Program) (c : Compilation) (l : ClassListing) (m : Source.Method)
        (method : MethodListing),
      Program.ofText "class A { int f(int x, int x) { return x; } }" = .ok p ∧
      compile "class A { int f(int x, int x) { return x; } }" = .ok c ∧
      listing "class A { int f(int x, int x) { return x; } }" = .ok l ∧ c.assembly = l.text ∧
      m ∈ p.methods ∧ method ∈ l.methods ∧ m.name = "f" ∧ method.name = "f" ∧
      m.receiverSlots + m.params.length = 3 ∧ method.params = [.int, .int] ∧
      method.localsLimit = 2 ∧ ∀ u, ¬ HasStorage (.ofProgram p) m u method := by
  obtain ⟨p, hp, hm⟩ := exists_of_any
    (Program.ofText "class A { int f(int x, int x) { return x; } }")
    (fun p => p.methods.any fun m =>
      decide (m.name = "f" ∧ m.receiverSlots + m.params.length = 3)) (by decide +kernel)
  obtain ⟨l, hl, ht⟩ := exists_of_any
    (listing "class A { int f(int x, int x) { return x; } }")
    (fun l => l.methods.any fun method => decide (method.name = "f" ∧
      method.params = [.int, .int] ∧ method.localsLimit = 2)) (by decide +kernel)
  obtain ⟨m, member, hm⟩ := List.any_eq_true.1 hm
  obtain ⟨method, listed, ht⟩ := List.any_eq_true.1 ht
  obtain ⟨name, slots⟩ := of_decide_eq_true hm
  obtain ⟨name', params, limit⟩ := of_decide_eq_true ht
  obtain ⟨c, hc, text⟩ := exists_compiled hl
  refine ⟨p, c, l, m, method, hp, hc, hl, text, member, listed, name, name', slots, params, limit,
    fun u stored => ?_⟩
  have room := stored.limit
  rw [slots, limit] at room
  omega

end Compiler

end JavaMinus
