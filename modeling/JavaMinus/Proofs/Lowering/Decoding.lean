/-
# What is read of a lowered program

The names and types of a program stand in its text as they are, and the parser gives some words
another meaning.  In the place of a type `array` begins the type of an array, and `i32`, `bool` and
`V` are types of their own; in the head of the class a word that could be a modifier is taken for one
if another name follows, which is `extends` if the class has a superclass.

So the text is read exactly if the program is readable (`Program.isReadable`).  Imports, names, flags
and the order of members always come back, and all heads do exactly if no class in them has the name
of another type.
-/
import JavaMinus.Proofs.Assembly.Compiled
import JavaMinus.Proofs.Lowering.Legible

namespace JavaMinus

open Source Ir

namespace Ty

/-- Whether the type, if it is read, is read as itself. -/
def isKept (t : Ty) : Bool := !(["i32", "bool", "V"].contains t.name)

theorem readBack_lowered_eq_iff (t : Ty) : t.lowered.readBack = t.lowered ↔ t.isKept = true := by
  obtain ⟨name, isArray⟩ := t
  have base : (lowered.base name).readBack = lowered.base name ↔ isKept ⟨name, isArray⟩ = true := by
    by_cases h : name ∈ ["int", "boolean", "void", "static void", "String"]
    · simp only [List.mem_cons, List.not_mem_nil, or_false] at h
      rcases h with rfl | rfl | rfl | rfl | rfl <;> simp [lowered.base, ElementType.readBack, isKept]
    · rw [base_other h, ElementType.readBack]
      by_cases hw : name ∈ ["i32", "bool", "V"]
      · simp only [List.mem_cons, List.not_mem_nil, or_false] at hw
        rcases hw with rfl | rfl | rfl <;> simp [ElementType.ofWord, isKept]
      · have other : name ∉ ["i32", "bool", "V", "String"] := by
          simp only [List.mem_cons, List.not_mem_nil, or_false, not_or] at h hw ⊢
          exact ⟨hw.1, hw.2.1, hw.2.2, h.2.2.2.2⟩
        rw [ElementType.ofWord_other other]
        simpa [isKept] using hw
  cases isArray with
  | false => exact base
  | true =>
      show ElementType.array _ = ElementType.array _ ↔ _
      rw [ElementType.array.injEq]
      exact base

end Ty

namespace Ir

def Method.head (m : Method) : Method := { m with body := [], trailing := [] }

/-- A unit with the heads of its methods alone. -/
def ClassUnit.heads (u : ClassUnit) : ClassUnit := { u with methods := u.methods.map Method.head }

end Ir

namespace Source

/-- The types in the head of a method: those of the parameters that it shows, and that of its
result. -/
def Method.headTypes (table : SymbolTable) (m : Source.Method) : List Ty :=
  ((table.parameters? m.name).getD []).map (·.type) ++ if m.isMain then [] else [m.returnType]

def Program.headTypes (p : Program) : List Ty :=
  p.fields.map (·.type) ++ p.methods.flatMap (Method.headTypes (.ofProgram p))

/-- Whether the text of a program can be read: it shows no class called `array` as a type, and no
modifier names a class that has a superclass. -/
def Program.isReadable (p : Program) : Bool :=
  (p.superClass.isNone || !Ir.modifierNames.contains p.className) &&
    (p.headTypes.all Ty.isLegible &&
      p.methods.all fun m => Stmt.areLegible (.ofMethod (.ofProgram p) m) m.body)

end Source

namespace Lowering

def headsOf (p : Program) : ClassUnit :=
  { classHead (.ofProgram p) with
    methods := constructorHead (.ofProgram p) :: p.methods.map (headOf (.ofProgram p)) }

variable {table : SymbolTable} {methods : List Source.Method} {us : List Ir.Method}

/-! ## Methods -/

theorem bodyOf_readable {lines : List Line} : ∀ labels : List String,
    ((bodyOf labels lines).1.all fun l => l.instruction.readable) = lines.all Line.readable := by
  induction lines with
  | nil => exact fun labels => rfl
  | cons l lines ih =>
      intro labels
      cases l with
      | text n s => exact ih labels
      | label name => exact ih (labels ++ [name])
      | code n i => exact congrArg (i.readable && ·) (ih [])

section Method

variable {m : Source.Method} {u : Ir.Method}

theorem headOf_readable (table : SymbolTable) (m : Source.Method) :
    ((headOf table m).params.all Element.readable && (headOf table m).returnType.readable) =
      (m.headTypes table).all Ty.isLegible := by
  have params : (headOf table m).params.all Element.readable =
      (((table.parameters? m.name).getD []).map (·.type)).all Ty.isLegible := by
    show (((table.parameters? m.name).getD []).map (·.lowered)).all _ = _
    rw [List.all_map, List.all_map]
    exact congrArg _ (funext fun s => Ty.readable_lowered s.type)
  have result : (headOf table m).returnType.readable =
      (if m.isMain then [] else [m.returnType]).all Ty.isLegible := by
    show ElementType.readable (if m.isMain then .void else m.returnType.lowered) = _
    cases m.isMain with
    | true => rfl
    | false => exact (Ty.readable_lowered _).trans (Bool.and_true _).symm
  rw [Source.Method.headTypes, List.all_append, params, result]

theorem LoweredTo.readable (ht : table.Written) (hm : m.Named) (hi : Stmt.IndexableAll m.body)
    (h : LoweredTo table m u) :
    u.readable =
      ((m.headTypes table).all Ty.isLegible && Stmt.areLegible (.ofMethod table m) m.body) := by
  obtain ⟨lines, ⟨n, c', run⟩, rfl⟩ := h
  obtain ⟨-, -, body⟩ := lowerBody_writes ht hm.body hi ⟨n, m.name, 0, 0⟩ rfl () c' lines run
  rw [paid, Bool.and_true] at body
  rw [← body, ← bodyOf_readable [], ← headOf_readable, Bool.and_assoc]
  rfl

/-- What is read of a method has the head that was written, but for the types in it. -/
theorem LoweredTo.head (h : LoweredTo table m u) :
    u.readBack.head =
      { headOf table m with
        params := (headOf table m).params.map Element.readBack
        returnType := (headOf table m).returnType.readBack } := by
  obtain ⟨lines, -, rfl⟩ := h
  rfl

theorem params_readBack_iff (params : List Symbol) :
    (params.map (·.lowered)).map Element.readBack = params.map (·.lowered) ↔
      (params.map (·.type)).all Ty.isKept = true := by
  induction params with
  | nil => exact ⟨fun _ => rfl, fun _ => rfl⟩
  | cons s params ih =>
      rw [List.map_cons, List.map_cons, List.cons_eq_cons, ih, List.map_cons, List.all_cons,
        Bool.and_eq_true, ← Ty.readBack_lowered_eq_iff]
      show Element.var s.name _ = Element.var s.name _ ∧ _ ↔ _
      rw [Element.var.injEq, eq_self_iff_true, true_and]

theorem result_readBack_iff (table : SymbolTable) (m : Source.Method) :
    (headOf table m).returnType.readBack = (headOf table m).returnType ↔
      (if m.isMain then [] else [m.returnType]).all Ty.isKept = true := by
  show ElementType.readBack (if m.isMain then .void else m.returnType.lowered) =
    (if m.isMain then .void else m.returnType.lowered) ↔ _
  cases m.isMain with
  | true => exact ⟨fun _ => rfl, fun _ => rfl⟩
  | false =>
      rw [if_neg Bool.false_ne_true, if_neg Bool.false_ne_true, List.all_cons, List.all_nil,
        Bool.and_true]
      exact Ty.readBack_lowered_eq_iff _

theorem LoweredTo.head_eq_iff (h : LoweredTo table m u) :
    u.readBack.head = headOf table m ↔ (m.headTypes table).all Ty.isKept = true := by
  rw [h.head, Source.Method.headTypes, List.all_append, Bool.and_eq_true, ← params_readBack_iff,
    ← result_readBack_iff table, Ir.Method.mk.injEq]
  simp only [and_true, true_and]
  rfl

end Method

theorem readable_of_lowered (ht : table.Written) (h : List.Forall₂ (LoweredTo table) methods us) :
    (∀ m ∈ methods, m.Named) → (∀ m ∈ methods, Stmt.IndexableAll m.body) →
      us.all Ir.Method.readable = ((methods.flatMap (Method.headTypes table)).all Ty.isLegible &&
        methods.all fun m => Stmt.areLegible (.ofMethod table m) m.body) := by
  induction h with
  | nil => exact fun _ _ => rfl
  | @cons m u methods us first _ ih =>
      intro hn hi
      obtain ⟨hm, hms⟩ := List.forall_mem_cons.1 hn
      obtain ⟨hb, hbs⟩ := List.forall_mem_cons.1 hi
      rw [List.all_cons, first.readable ht hm hb, ih hms hbs, List.flatMap_cons, List.all_append,
        List.all_cons, Bool.and_assoc, Bool.and_assoc]
      exact congrArg (_ && ·) (Bool.and_left_comm _ _ _)

theorem heads_eq_iff_of_lowered (h : List.Forall₂ (LoweredTo table) methods us) :
    us.map (fun u => u.readBack.head) = methods.map (headOf table) ↔
      (methods.flatMap (Method.headTypes table)).all Ty.isKept = true := by
  induction h with
  | nil => exact ⟨fun _ => rfl, fun _ => rfl⟩
  | cons first _ ih =>
      rw [List.map_cons, List.map_cons, List.cons_eq_cons, first.head_eq_iff, ih,
        List.flatMap_cons, List.all_append, Bool.and_eq_true]

/-! ## Units -/

theorem fields_readable (p : Program) :
    ((unitOf (.ofProgram p) us).fields.all fun f => f.type.readable) =
      (p.fields.map (·.type)).all Ty.isLegible := by
  show (((p.fields.map (·.symbol)).map fieldOf).all fun f => f.type.readable) = _
  rw [List.all_map, List.all_map, List.all_map]
  exact congrArg _ (funext fun d => Ty.readable_lowered d.type)

theorem fieldOf_readBack_iff (s : Symbol) :
    (fieldOf s).readBack = fieldOf s ↔ s.type.isKept = true := by
  rw [← Ty.readBack_lowered_eq_iff, Field.readBack, Ir.Field.mk.injEq]
  exact ⟨fun h => h.2.2.2.2, fun h => ⟨rfl, rfl, rfl, rfl, h⟩⟩

theorem fields_readBack_iff (us : List Ir.Method) (p : Program) :
    (unitOf (.ofProgram p) us).fields.map Field.readBack = (unitOf (.ofProgram p) us).fields ↔
      (p.fields.map (·.type)).all Ty.isKept = true := by
  show ((p.fields.map (·.symbol)).map fieldOf).map Field.readBack =
    (p.fields.map (·.symbol)).map fieldOf ↔ _
  induction p.fields with
  | nil => exact ⟨fun _ => rfl, fun _ => rfl⟩
  | cons d fields ih =>
      rw [List.map_cons, List.map_cons, List.map_cons, List.cons_eq_cons, ih, fieldOf_readBack_iff,
        List.map_cons, List.all_cons, Bool.and_eq_true]
      rfl

theorem unitOf_readable {p : Program} (hn : p.Named)
    (hi : ∀ m ∈ p.methods, Stmt.IndexableAll m.body)
    (h : List.Forall₂ (LoweredTo (.ofProgram p)) p.methods us) :
    (unitOf (.ofProgram p) us).readable = p.isReadable := by
  have head : (unitOf (.ofProgram p) us).headReadable =
      (p.superClass.isNone || !modifierNames.contains p.className) := by
    rw [ClassUnit.headReadable, add_isNone_eq]
    rfl
  have members : (unitOf (.ofProgram p) us).methods.all Ir.Method.readable = us.all Ir.Method.readable :=
    Bool.true_and _
  rw [ClassUnit.readable, head, fields_readable, members,
    readable_of_lowered (written_ofProgram hn) h hn.methods hi, Program.isReadable,
    Program.headTypes, List.all_append, Bool.and_assoc]

/-- The heads that are read are those that were written exactly if their types are kept. -/
theorem heads_eq_iff {p : Program} (h : List.Forall₂ (LoweredTo (.ofProgram p)) p.methods us) :
    (unitOf (.ofProgram p) us).readBack.heads = headsOf p ↔ p.headTypes.all Ty.isKept = true := by
  have members : (unitOf (.ofProgram p) us).readBack.heads.methods = (headsOf p).methods ↔
      us.map (fun u => u.readBack.head) = p.methods.map (headOf (.ofProgram p)) := by
    show ((constructorOf (.ofProgram p) :: us).map Ir.Method.readBack).map Ir.Method.head =
      constructorHead (.ofProgram p) :: _ ↔ _
    rw [List.map_map, List.map_cons, List.cons_eq_cons]
    exact and_iff_right rfl
  rw [Program.headTypes, List.all_append, Bool.and_eq_true, ← fields_readBack_iff us,
    ← heads_eq_iff_of_lowered h, ← members, ClassUnit.mk.injEq]
  exact ⟨fun h => h.2.2.2.2, fun h => ⟨rfl, rfl, rfl, rfl, h⟩⟩

end Lowering

namespace Compiler

open Lowering

/-- The text of an accepted program is read back with all heads as they were written exactly if it
can be read and no class in a head has the name of another type. -/
theorem decodes_iff {source ir : String} {p : Program} (hp : Program.ofText source = .ok p)
    (hir : generateIr source = .ok ir) :
    (∃ u, ClassUnit.ofText ir = .ok u ∧ u.heads = headsOf p) ↔
      p.isReadable = true ∧ p.headTypes.all Ty.isKept = true := by
  have accepted : (Analysis.ofProgram p).hasErrors = false := by
    obtain ⟨p', hp', h⟩ := ok_of_bind hir
    obtain rfl := Except.ok.inj (hp.symm.trans hp')
    obtain ⟨r, hr, -⟩ := ok_of_bind h
    exact no_errors_of_lowered hr
  have named := Program.named_of_ofText hp
  have indexable := p.indexable_of_no_errors named accepted
  obtain ⟨us, lowereds, spelled, -⟩ := exists_lowered hp accepted hir
  have sound := sound_of_lowered (written_ofProgram named) lowereds named.methods indexable
  have printable := unitOf_printable named fun u hu => (sound u hu).printable
  have read := ofText_yields printable spelled
  rw [unitOf_readable named indexable lowereds] at read
  unfold Yields at read
  split at read
  · rename_i readable
    refine ⟨?_, fun h => ⟨_, read, (heads_eq_iff lowereds).2 h.2⟩⟩
    rintro ⟨u, hu, heads⟩
    obtain rfl := Except.ok.inj (read.symm.trans hu)
    exact ⟨readable, (heads_eq_iff lowereds).1 heads⟩
  · rename_i unreadable
    refine ⟨?_, fun h => absurd h.1 unreadable⟩
    rintro ⟨u, hu, -⟩
    obtain ⟨e, he⟩ := read
    cases he.symm.trans hu

/-- A class with a superclass, a field, and a method with parameters of several types. -/
theorem decodes_of_all_types :
    ∃ p ir u, Program.ofText
        "import B; class A extends B { int n; A f(int[] a, String s, boolean b) { return this; } }" =
          .ok p ∧
      generateIr
        "import B; class A extends B { int n; A f(int[] a, String s, boolean b) { return this; } }" =
          .ok ir ∧
      (p.isReadable = true ∧ p.headTypes.all Ty.isKept = true) ∧
      ClassUnit.ofText ir = .ok u ∧ u.heads = headsOf p := by
  obtain ⟨p, ir, u, hp, hir, -, ht⟩ := exists_of_steps
    "import B; class A extends B { int n; A f(int[] a, String s, boolean b) { return this; } }"
    (fun p _ => p.isReadable && p.headTypes.all Ty.isKept) (by decide +kernel)
  rw [Bool.and_eq_true] at ht
  obtain ⟨u, hu, heads⟩ := (decodes_iff hp hir).2 ht
  exact ⟨p, ir, u, hp, hir, ht, hu, heads⟩

/-- A parameter that is an object of a class called `array`. -/
theorem not_decodes_of_class_array :
    ∃ ir, generateIr "class array { public int f(array a) { return 1; } }" = .ok ir ∧
      ∃ e, ClassUnit.ofText ir = .error e := by
  obtain ⟨ir, hir, ht⟩ := exists_of_any
    (generateIr "class array { public int f(array a) { return 1; } }")
    (fun ir => !(ClassUnit.ofText ir).toOption.isSome) (by decide +kernel)
  cases hu : ClassUnit.ofText ir with
  | ok u => simp [hu, Except.toOption] at ht
  | error e => exact ⟨ir, hir, e, hu⟩

end Compiler

end JavaMinus
