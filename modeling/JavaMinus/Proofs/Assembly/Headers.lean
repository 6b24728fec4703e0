/-
# The heads of the methods of an assembly

A method is listed with the name, the static flag and the result of its declaration, but with the
parameters of the first declaration of its name, and all types are read back from the intermediate
text (`Method.shownHead`).  So the heads are those that the declarations ask for exactly if
declarations of one name agree in the types of their parameters, no class in a head is called like
another type in that text, and the entry method returns `void` itself, not an array of it
(`Program.keepsSignatures`).

That no weaker condition does rests on `Descriptor.sourceType_lowered`: the descriptor of a type
tells the type, since the simple name of a class is the last part of the path that stands for it.
-/
import JavaMinus.Proofs.Assembly.Linking
import JavaMinus.Proofs.Lowering.Decoding

namespace JavaMinus

open Source Ir

/-! ## Paths -/

namespace DottedPath

def lastSlashed (path : String) : String :=
  String.ofList (path.toList.reverse.takeWhile (· != '/')).reverse

theorem lastSlashed_slashed (path : String) :
    lastSlashed (slashed path) = lastSlashed (lastPart path) := by
  have ahead : ((· != '/') ∘ fun c => if c = '.' then '/' else c) =
      fun c : Char => decide (c != '/' ∧ c != '.') := by
    funext c
    by_cases dot : c = '.' <;> simp [dot, bne, beq_eq_decide]
  have same : ∀ c ∈ path.toList.reverse.takeWhile fun c => decide (c != '/' ∧ c != '.'),
      (if c = '.' then '/' else c) = c := by
    intro c hc
    have kept := List.mem_takeWhile_imp hc
    exact if_neg (bne_iff_ne.1 (of_decide_eq_true kept).2)
  rw [lastSlashed, lastSlashed, slashed, lastPart, String.toList_map, ← List.map_reverse,
    List.takeWhile_map, ahead, List.map_congr_left same, List.map_id', String.toList_ofList,
    List.reverse_reverse, List.takeWhile_takeWhile]

theorem lastSlashed_of_isName {name : String} (h : IsName name) : lastSlashed name = name := by
  have whole : name.toList.reverse.takeWhile (· != '/') = name.toList.reverse := by
    refine List.takeWhile_eq_self_iff.2 ?_
    intro c hc
    refine bne_iff_ne.2 ?_
    rintro rfl
    exact Assembly.slash_not_mem_of_isWord h.1 (List.mem_reverse.1 hc)
  rw [lastSlashed, whole, List.reverse_reverse, String.ofList_toList]

end DottedPath

namespace Assembly

open DottedPath

/-! ## Descriptors -/

theorem lastSlashed_resolve (paths : List String) {name : String} (h : IsName name) :
    lastSlashed (ClassNames.resolveIn (ClassNames.importsOf paths) name) = name := by
  unfold ClassNames.resolveIn
  cases hl : (ClassNames.importsOf paths).lookup name with
  | none => exact lastSlashed_of_isName h
  | some found =>
      obtain ⟨before, after, split, -⟩ := List.lookup_eq_some_iff.1 hl
      have there : (name, found) ∈ ClassNames.importsOf paths := by
        rw [split]
        exact List.mem_append_right _ List.mem_cons_self
      obtain ⟨path, -, same⟩ := List.mem_map.1 there
      obtain ⟨rfl, rfl⟩ := Prod.mk.inj same
      exact (lastSlashed_slashed path).trans (lastSlashed_of_isName h)

/-- The type that has a descriptor. -/
def Descriptor.sourceType : Descriptor → Ty
  | .int => .int
  | .boolean => .boolean
  | .void => .void
  | .reference path => .ofClass (lastSlashed path)
  | .array element => element.sourceType.arrayOf

theorem base_of_isName {name : String} (h : IsName name) :
    Ty.lowered.base name = if name = "String" then .string else .object name := by
  split
  · rename_i text
    rw [text]
    rfl
  · rename_i text
    refine Ty.base_other ?_
    simp only [List.mem_cons, List.not_mem_nil, or_false]
    rintro (rfl | rfl | rfl | rfl | rfl)
    · exact h.free .kInt rfl
    · exact h.free .kBoolean rfl
    · exact h.free .kVoid rfl
    · cases h.word
    · exact text rfl

theorem Descriptor.sourceType_lowered (p : Program) {t : Ty} (h : t.Named) :
    (p.classNames.descriptor t.lowered).sourceType = t := by
  obtain ⟨name, isArray⟩ := t
  have base : (p.classNames.descriptor (Ty.lowered.base name)).sourceType = ⟨name, false⟩ := by
    rcases h with rfl | rfl | rfl | h
    · rfl
    · rfl
    · rfl
    · rw [base_of_isName h]
      split
      · rename_i text
        obtain rfl : name = "String" := text
        rfl
      · exact congrArg Ty.ofClass (lastSlashed_resolve _ h)
  cases isArray with
  | false => exact base
  | true => exact congrArg Ty.arrayOf base

theorem descriptor_lowered_inj (p : Program) {t t' : Ty} (h : t.Named) (h' : t'.Named) :
    p.classNames.descriptor t.lowered = p.classNames.descriptor t'.lowered ↔ t = t' := by
  constructor
  · intro same
    rw [← Descriptor.sourceType_lowered p h, same, Descriptor.sourceType_lowered p h']
  · rintro rfl
    rfl

theorem descriptor_read_eq_iff (names : ClassNames) (t : Ty) :
    names.descriptor t.read = names.descriptor t.lowered ↔ t.isKept = true := by
  constructor
  · intro same
    obtain ⟨name, isArray⟩ := t
    rw [Ty.isKept, Bool.not_eq_true', List.contains_eq_mem, decide_eq_false_iff_not]
    simp only [List.mem_cons, List.not_mem_nil, or_false]
    rintro (rfl | rfl | rfl) <;> cases isArray <;> cases same
  · intro kept
    rw [Ty.read, (Ty.readBack_lowered_eq_iff t).2 kept]

/-! ## Heads -/

structure MethodHead where
  name : String
  isStatic : Bool
  params : List Descriptor
  result : Descriptor
deriving DecidableEq, Repr

/-- The line of the head of a public method. -/
def MethodHead.text (h : MethodHead) : String :=
  ".method " ++ modifiersText .publicAccess h.isStatic false ++ h.name ++
    Opcode.methodDescriptor h.params h.result

def MethodListing.head (m : MethodListing) : MethodHead where
  name := m.name
  isStatic := m.isStatic
  params := m.params
  result := m.result

end Assembly

namespace Source

open Assembly

/-- The head that a declaration asks for. -/
def Method.ownHead (names : ClassNames) (m : Source.Method) : MethodHead where
  name := m.name
  isStatic := m.isStatic
  params := m.params.map fun d => names.descriptor d.type.lowered
  result := names.descriptor m.returnType.lowered

/-- The head under which a method is listed: it has the parameters of the first method of its name,
and its types are read back. -/
def Method.shownHead (p : Program) (m : Source.Method) : MethodHead where
  name := m.name
  isStatic := m.isStatic
  params := p.classNames.descriptors (((SymbolTable.ofProgram p).parameters? m.name).getD [])
  result := p.classNames.descriptor (SymbolTable.signatureOf m).returnType.read

/-- Whether the method has parameters of the same types as the first one of its name, all of its
types are read as they are, and, if it is the entry method, it returns no array. -/
def Method.keepsSignature (table : SymbolTable) (m : Source.Method) : Bool :=
  ((table.parameters? m.name).getD []).map (·.type) == m.params.map (·.type) &&
    (m.params.all (·.type.isKept) &&
      if m.isMain then m.returnType == .void else m.returnType.isKept)

def Program.keepsSignatures (p : Program) : Bool :=
  p.methods.all (Method.keepsSignature (.ofProgram p))

end Source

namespace Assembly

variable {p : Source.Program} {l : ClassListing} {constructor : MethodListing}
  {methods : List MethodListing}

theorem flags_of_ofMethod {names : ClassNames} {u : Ir.Method} {method : MethodListing}
    (h : MethodListing.ofMethod names u = .ok method) :
    method.access = u.access ∧ method.isStatic = u.isStatic ∧ method.isFinal = u.isFinal := by
  obtain ⟨_, -, rfl⟩ := ok_of_map h
  exact ⟨rfl, rfl, rfl⟩

theorem ListedAs.head_eq {m : Source.Method} {method : MethodListing} (h : ListedAs p m method) :
    method.head = m.shownHead p := by
  obtain ⟨name, params, result⟩ := h.head
  have isStatic : method.isStatic = m.isStatic := by
    obtain ⟨u, ⟨lines, -, rfl⟩, listed⟩ := h
    exact (flags_of_ofMethod listed).2.1
  rw [MethodListing.head, name, isStatic, params, result, Method.shownHead]

theorem Listed.heads (listed : Listed p l constructor methods) :
    methods.map MethodListing.head = p.methods.map (Method.shownHead p) := by
  refine List.forall₂_eq_eq_eq ▸ List.forall₂_map_left_iff.2 (List.forall₂_map_right_iff.2 ?_)
  exact listed.others.flip.imp fun method m h => ListedAs.head_eq h

/-- The text of a public method that is not final begins with the line of its head. -/
theorem MethodListing.text_eq {m : MethodListing} (access : m.access = .publicAccess)
    (final : m.isFinal = false) :
    ∃ rest, m.text = m.head.text ++ "\n" ++ rest := by
  have modifiers : modifiersText m.access m.isStatic m.isFinal =
      modifiersText .publicAccess m.isStatic false := by
    rw [access, final]
  have lineBreak : "\n\t.limit stack " = "\n" ++ "\t.limit stack " := by
    decide
  refine ⟨"\t.limit stack " ++ (toString m.stackLimit ++ ("\n\t.limit locals " ++
    (toString m.localsLimit ++ ("\n" ++ (CodeLine.renderAll m.code ++ ".end method\n"))))), ?_⟩
  unfold MethodListing.text MethodHead.text
  rw [modifiers, MethodListing.head, lineBreak]
  iterate 7 rw [← String.append_assoc]

/-- The text of every method begins with the line of its head. -/
theorem Listed.text_heads (listed : Listed p l constructor methods) :
    ∀ m ∈ l.methods, ∃ rest, m.text = m.head.text ++ "\n" ++ rest := by
  rw [listed.members]
  refine List.forall_mem_cons.2 ⟨?_, fun method hm => ?_⟩
  · obtain ⟨access, -, final⟩ := flags_of_ofMethod listed.first
    exact MethodListing.text_eq access final
  · obtain ⟨m, -, u, ⟨lines, -, rfl⟩, listedAs⟩ := exists_of_forall₂ listed.others method hm
    obtain ⟨access, -, final⟩ := flags_of_ofMethod listedAs
    exact MethodListing.text_eq access final

theorem Listed.constructor_head_eq (listed : Listed p l constructor methods) :
    constructor.head = ⟨"<init>", false, [], .void⟩ := by
  obtain ⟨name, params, result⟩ := listed.constructor_head
  obtain ⟨-, isStatic, -⟩ := flags_of_ofMethod listed.first
  rw [MethodListing.head, name, isStatic, params, result]
  rfl

/-! ## Kept signatures -/

theorem exists_first {m : Source.Method} (hm : m ∈ p.methods) : ∃ first ∈ p.methods,
    first.name = m.name ∧
      (SymbolTable.ofProgram p).parameters? m.name = some (first.params.map (·.symbol)) := by
  have declared : ((SymbolTable.ofProgram p).method? m.name).isSome := by
    rw [SymbolTable.method?, List.find?_isSome]
    exact ⟨SymbolTable.signatureOf m, List.mem_map_of_mem hm, beq_self_eq_true _⟩
  obtain ⟨signature, found⟩ := Option.isSome_iff_exists.1 declared
  obtain ⟨first, member, rfl⟩ := List.mem_map.1 (List.mem_of_find?_eq_some found)
  refine ⟨first, member, eq_of_beq (List.find?_some found :), ?_⟩
  rw [SymbolTable.parameters?, found]
  rfl

theorem descriptors_lowered_inj (p : Source.Program) {ts us : List Ty} (ht : ∀ t ∈ ts, t.Named)
    (hu : ∀ u ∈ us, u.Named)
    (same : ts.map (p.classNames.descriptor ·.lowered) =
      us.map (p.classNames.descriptor ·.lowered)) : ts = us := by
  have told : ∀ ts : List Ty, (∀ t ∈ ts, t.Named) →
      (ts.map (p.classNames.descriptor ·.lowered)).map Descriptor.sourceType = ts := by
    intro ts h
    rw [List.map_map]
    exact (List.map_congr_left fun t ht => Descriptor.sourceType_lowered p (h t ht)).trans
      (List.map_id ts)
  rw [← told ts ht, same, told us hu]

theorem result_kept_iff {m : Source.Method} (hm : m.Named) :
    p.classNames.descriptor (SymbolTable.signatureOf m).returnType.read =
        p.classNames.descriptor m.returnType.lowered ↔
      (if m.isMain then m.returnType == .void else m.returnType.isKept) = true := by
  unfold SymbolTable.signatureOf
  split
  · rw [beq_iff_eq, ← descriptor_lowered_inj p hm.returnType (.inr (.inr (.inl rfl)))]
    exact eq_comm
  · exact descriptor_read_eq_iff _ _

theorem shown_params {m first : Source.Method}
    (found : (SymbolTable.ofProgram p).parameters? m.name = some (first.params.map (·.symbol))) :
    (m.shownHead p).params = first.params.map fun d => p.classNames.descriptor d.type.read := by
  rw [Method.shownHead, found, Option.getD_some, ClassNames.descriptors, List.map_map]
  rfl

theorem keepsSignature_iff {m first : Source.Method}
    (found : (SymbolTable.ofProgram p).parameters? m.name = some (first.params.map (·.symbol))) :
    m.keepsSignature (.ofProgram p) = true ↔
      first.params.map (·.type) = m.params.map (·.type) ∧ (∀ d ∈ m.params, d.type.isKept = true) ∧
        (if m.isMain then m.returnType == .void else m.returnType.isKept) = true := by
  rw [Method.keepsSignature, found, Option.getD_some, List.map_map, Bool.and_eq_true,
    Bool.and_eq_true, beq_iff_eq, List.all_eq_true]
  rfl

/-- The heads that are shown are those of the declarations exactly if all methods keep their
signatures. -/
theorem shownHeads_eq_iff (named : p.Named) :
    p.methods.map (Method.shownHead p) = p.methods.map (Method.ownHead p.classNames) ↔
      p.keepsSignatures = true := by
  rw [List.map_inj_left, Program.keepsSignatures, List.all_eq_true]
  constructor
  · intro same m hm
    obtain ⟨first, member, name, found⟩ := exists_first hm
    have kept : ∀ d ∈ first.params, d.type.isKept = true := by
      have own := congrArg MethodHead.params (same first member)
      rw [shown_params (name ▸ found), Method.ownHead, List.map_inj_left] at own
      exact fun d hd => (descriptor_read_eq_iff _ _).1 (own d hd)
    have types : first.params.map (·.type) = m.params.map (·.type) := by
      have own := congrArg MethodHead.params (same m hm)
      rw [shown_params found, Method.ownHead,
        List.map_congr_left fun d hd => (descriptor_read_eq_iff _ _).2 (kept d hd)] at own
      refine descriptors_lowered_inj p ?_ ?_ (by rw [List.map_map, List.map_map]; exact own)
      · exact List.forall_mem_map.2 fun d hd => ((named.methods first member).params d hd).2
      · exact List.forall_mem_map.2 fun d hd => ((named.methods m hm).params d hd).2
    refine (keepsSignature_iff found).2 ⟨types, ?_, ?_⟩
    · intro d hd
      have shown : d.type ∈ first.params.map (·.type) := types ▸ List.mem_map_of_mem hd
      obtain ⟨d', hd', same⟩ := List.mem_map.1 shown
      exact same ▸ kept d' hd'
    · exact (result_kept_iff (named.methods m hm)).1 (congrArg MethodHead.result (same m hm))
  · intro keeps m hm
    obtain ⟨first, -, -, found⟩ := exists_first hm
    obtain ⟨types, kept, result⟩ := (keepsSignature_iff found).1 (keeps m hm)
    have params : (m.shownHead p).params = (m.ownHead p.classNames).params := by
      calc (m.shownHead p).params
          = (first.params.map (·.type)).map fun t => p.classNames.descriptor t.read := by
            rw [shown_params found, List.map_map]
            rfl
        _ = m.params.map fun d => p.classNames.descriptor d.type.read := by
            rw [types, List.map_map]
            rfl
        _ = m.params.map fun d => p.classNames.descriptor d.type.lowered :=
            List.map_congr_left fun d hd => (descriptor_read_eq_iff _ _).2 (kept d hd)
    have results := (result_kept_iff (p := p) (named.methods m hm)).2 result
    rw [Method.shownHead, Method.ownHead, MethodHead.mk.injEq]
    exact ⟨rfl, rfl, params, results⟩

end Assembly

namespace Compiler

open Assembly

/-- The methods of the assembly of a text that compiles, after its constructor: they are shown as
`Method.shownHead` says, one for each declaration and in their order, with their names and static
flags; and their heads are those of the declarations exactly if all methods keep their signatures. -/
theorem signatures_kept_iff {source : String} {p : Program} {c : Compilation}
    (parsed : Program.ofText source = .ok p) (compiled : compile source = .ok c) :
    ∃ l constructor methods, listing source = .ok l ∧ c.assembly = l.text ∧
      l.methods = constructor :: methods ∧ l.added = none ∧
      (∀ m ∈ l.methods, ∃ rest, m.text = m.head.text ++ "\n" ++ rest) ∧
      constructor.head = ⟨"<init>", false, [], .void⟩ ∧
      methods.map MethodListing.head = p.methods.map (Method.shownHead p) ∧
      (methods.map MethodListing.head = p.methods.map (Method.ownHead p.classNames) ↔
        p.keepsSignatures = true) := by
  obtain ⟨l, constructor, methods, hl, text, listed⟩ := exists_listed parsed compiled
  refine ⟨l, constructor, methods, hl, text, listed.members, listed.added, listed.text_heads,
    listed.constructor_head_eq, listed.heads, ?_⟩
  rw [listed.heads]
  exact shownHeads_eq_iff listed.named

/-- An imported class, an array, and the entry method. -/
theorem signatures_kept_of_entry_method :
    ∃ (p : Program) (c : Compilation) (l : ClassListing) (constructor : MethodListing)
        (methods : List MethodListing), Program.ofText
        "import a.B; class A { boolean f(B b, int[] x) { return true; } static void main(String[] s) { } }" =
          .ok p ∧
      compile
        "import a.B; class A { boolean f(B b, int[] x) { return true; } static void main(String[] s) { } }" =
          .ok c ∧
      c.assembly = l.text ∧ l.methods = constructor :: methods ∧
      methods.map MethodListing.head = p.methods.map (Method.ownHead p.classNames) := by
  obtain ⟨p, hp, keeps⟩ := exists_of_any
    (Program.ofText
      "import a.B; class A { boolean f(B b, int[] x) { return true; } static void main(String[] s) { } }")
    Program.keepsSignatures (by decide +kernel)
  obtain ⟨c, hc, -⟩ := exists_of_any
    (compile
      "import a.B; class A { boolean f(B b, int[] x) { return true; } static void main(String[] s) { } }")
    (fun _ => true) (by decide +kernel)
  obtain ⟨l, constructor, methods, -, text, members, -, -, -, -, kept⟩ := signatures_kept_iff hp hc
  exact ⟨p, c, l, constructor, methods, hp, hc, text, members, kept.2 keeps⟩

/-- The second method of a name is listed with the parameters of the first one. -/
theorem signatures_not_kept_of_same_name :
    ∃ (p : Program) (c : Compilation) (l : ClassListing), Program.ofText
        "class A { public int f(int x) { return 1; } public int f(boolean b) { return 2; } }" = .ok p ∧
      compile "class A { public int f(int x) { return 1; } public int f(boolean b) { return 2; } }" =
        .ok c ∧
      c.assembly = l.text ∧
      (l.methods.tail.map fun m => m.head.text) = [".method public f(I)I", ".method public f(I)I"] ∧
      (p.methods.map fun m => (m.ownHead p.classNames).text) =
        [".method public f(I)I", ".method public f(Z)I"] := by
  obtain ⟨p, hp, own⟩ := exists_of_any
    (Program.ofText
      "class A { public int f(int x) { return 1; } public int f(boolean b) { return 2; } }")
    (fun p => (p.methods.map fun m => (m.ownHead p.classNames).text) ==
      [".method public f(I)I", ".method public f(Z)I"]) (by decide +kernel)
  obtain ⟨c, hc, -⟩ := exists_of_any
    (compile "class A { public int f(int x) { return 1; } public int f(boolean b) { return 2; } }")
    (fun _ => true) (by decide +kernel)
  obtain ⟨l, hl, heads⟩ := exists_of_any
    (listing "class A { public int f(int x) { return 1; } public int f(boolean b) { return 2; } }")
    (fun l => (l.methods.tail.map fun m => m.head.text) ==
      [".method public f(I)I", ".method public f(I)I"]) (by decide +kernel)
  obtain ⟨l', -, -, hl', text, -⟩ := exists_listed hp hc
  obtain rfl := Except.ok.inj (hl.symm.trans hl')
  exact ⟨p, c, l, hp, hc, text, eq_of_beq heads, eq_of_beq own⟩

end Compiler

end JavaMinus
