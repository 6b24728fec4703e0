/-
# Which programs have assembly

Of a program that the checks accept, the text of the intermediate form is read back as the unit that
was written (`Compiler.exists_lowered`), and that unit has assembly exactly if its instructions fit
(`Assembly.assembly_results`), which they do exactly if the program is emittable.
-/
import JavaMinus.Proofs.Lowering.Names
import JavaMinus.Proofs.Lowering.Printed
import JavaMinus.Proofs.Source.Shape

namespace JavaMinus

open Source

namespace Ir

theorem readBack_of_ofText {text : String} {u v : ClassUnit} {paths : List (List String)}
    (hu : u.Printable paths) (hs : Spells text (u.tokens paths))
    (h : ClassUnit.ofText text = .ok v) : v = u.readBack := by
  have read := ofText_yields hu hs
  unfold Yields at read
  split at read
  · exact Except.ok.inj (h.symm.trans read)
  · obtain ⟨e, he⟩ := read
    cases h.symm.trans he

end Ir

namespace Source

/-- What the checks have let pass can be indexed where it is. -/
theorem Program.indexable_of_no_errors {p : Program} (hn : p.Named)
    (h : (Analysis.ofProgram p).hasErrors = false) :
    ∀ m ∈ p.methods, Stmt.IndexableAll m.body := by
  have other : p.className ≠ "int" := (hn.className.free .kInt ·.symm)
  exact fun m hm => Scope.indexable_of_acceptsAll _ other _ (Analysis.accepts_of_no_errors h m hm)

end Source

namespace Lowering

open Ir

variable {table : SymbolTable} {methods : List Source.Method} {us : List Ir.Method}

theorem sound_of_lowered (ht : table.Written) (h : List.Forall₂ (LoweredTo table) methods us) :
    (∀ m ∈ methods, m.Named) → (∀ m ∈ methods, Stmt.IndexableAll m.body) →
      ∀ u ∈ us, MethodSound u := by
  induction h with
  | nil => exact fun _ _ => List.forall_mem_nil _
  | cons first _ ih =>
      intro hn hi
      obtain ⟨hm, hms⟩ := List.forall_mem_cons.1 hn
      obtain ⟨hb, hbs⟩ := List.forall_mem_cons.1 hi
      exact List.forall_mem_cons.2 ⟨first.sound ht hm hb, ih hms hbs⟩

theorem LoweredTo.fits {m : Source.Method} {u : Ir.Method} (ht : table.Written) (hm : m.Named)
    (hi : Stmt.IndexableAll m.body) (h : LoweredTo table m u) :
    (u.readBack.body.all fun l => l.instruction.fits) =
      Stmt.areEmittable (.ofMethod table m) m.body := by
  have formed : ∀ l ∈ u.readBack.body, l.instruction.Formed :=
    List.forall_mem_map.2 (h.sound ht hm hi).formed
  rw [stmts_areEmittable_eq, ← h.uses ht hm hi, Method.uses_fit formed]

theorem fits_of_lowered (ht : table.Written) (h : List.Forall₂ (LoweredTo table) methods us) :
    (∀ m ∈ methods, m.Named) → (∀ m ∈ methods, Stmt.IndexableAll m.body) →
      (us.all fun u => u.readBack.body.all fun l => l.instruction.fits) =
        methods.all fun m => Stmt.areEmittable (.ofMethod table m) m.body := by
  induction h with
  | nil => exact fun _ _ => rfl
  | cons first _ ih =>
      intro hn hi
      obtain ⟨hm, hms⟩ := List.forall_mem_cons.1 hn
      obtain ⟨hb, hbs⟩ := List.forall_mem_cons.1 hi
      rw [List.all_cons, List.all_cons, first.fits ht hm hb, ih hms hbs]

end Lowering

namespace Compiler

open Ir Lowering

/-- The text of an accepted program is that of the unit of what its methods are lowered to, and
nothing else is read from it. -/
theorem exists_lowered {source ir : String} {p : Program}
    (hp : Program.ofText source = .ok p) (h : (Analysis.ofProgram p).hasErrors = false)
    (hir : generateIr source = .ok ir) :
    ∃ us, List.Forall₂ (LoweredTo (.ofProgram p)) p.methods us ∧
      Spells ir ((unitOf (.ofProgram p) us).tokens (p.imports.map (·.path))) ∧
      ∀ u, ClassUnit.ofText ir = .ok u → u = (unitOf (.ofProgram p) us).readBack := by
  have named := Program.named_of_ofText hp
  have indexable := p.indexable_of_no_errors named h
  rw [generateIr_of_no_errors hp h] at hir
  obtain ⟨us, lowereds, spelled⟩ := irText_spells named indexable hir
  have sound := sound_of_lowered (written_ofProgram named) lowereds named.methods indexable
  have printable := unitOf_printable named fun u hu => (sound u hu).printable
  exact ⟨us, lowereds, spelled, fun u hu => readBack_of_ofText printable spelled hu⟩

/-- The unit of an accepted program has assembly exactly if the program is emittable.  If it is not,
the error is about a value that is not on the stack, a call on something that has no class, or the
creation of something that is no object. -/
theorem assembly_ok_iff {source ir : String} {p : Program} {u : ClassUnit}
    (hp : Program.ofText source = .ok p) (h : (Analysis.ofProgram p).hasErrors = false)
    (hir : generateIr source = .ok ir) (hu : ClassUnit.ofText ir = .ok u) :
    ((∃ assembly, u.assembly = .ok assembly) ↔ p.isEmittable = true) ∧
      ∀ e, u.assembly = .error e → e.IsGap := by
  have named := Program.named_of_ofText hp
  have indexable := p.indexable_of_no_errors named h
  have written := written_ofProgram named
  obtain ⟨us, lowereds, -, read⟩ := exists_lowered hp h hir
  obtain rfl := read u hu
  have sound := sound_of_lowered written lowereds named.methods indexable
  have formed : ∀ m ∈ (unitOf (.ofProgram p) us).readBack.methods, ∀ l ∈ m.body,
      l.instruction.Formed := by
    refine List.forall_mem_map.2 fun m hm => List.forall_mem_map.2 ?_
    rcases List.mem_cons.1 hm with rfl | hm
    · exact (constructorOf_sound written).formed
    · exact (sound m hm).formed
  have results := Assembly.assembly_results formed
  have fits : ((unitOf (.ofProgram p) us).readBack.methods.all fun m =>
      m.body.all fun l => l.instruction.fits) = p.isEmittable := by
    rw [Program.isEmittable, ← fits_of_lowered written lowereds named.methods indexable]
    exact List.all_map
  rw [fits] at results
  unfold Assembly.Results at results
  split at results
  · rename_i emittable
    obtain ⟨assembly, ha⟩ := results
    refine ⟨⟨fun _ => emittable, fun _ => ⟨assembly, ha⟩⟩, fun e he => ?_⟩
    cases ha.symm.trans he
  · rename_i gap
    obtain ⟨e, he, isGap⟩ := results
    refine ⟨⟨?_, fun emittable => absurd emittable gap⟩, fun e' he' => ?_⟩
    · rintro ⟨assembly, ha⟩
      cases ha.symm.trans he
    · cases he.symm.trans he'
      exact isGap

/-- The steps up to the unit that is read, with what a test says of the program and the unit. -/
theorem exists_of_steps (source : String) (test : Program → ClassUnit → Bool)
    (h : (Program.ofText source).toOption.any fun p => (generateIr source).toOption.any fun ir =>
      (ClassUnit.ofText ir).toOption.any (test p)) :
    ∃ p ir u, Program.ofText source = .ok p ∧ generateIr source = .ok ir ∧
      ClassUnit.ofText ir = .ok u ∧ test p u := by
  obtain ⟨p, hp, h⟩ := exists_of_any _ _ h
  obtain ⟨ir, hir, h⟩ := exists_of_any _ _ h
  obtain ⟨u, hu, h⟩ := exists_of_any _ _ h
  exact ⟨p, ir, u, hp, hir, hu, h⟩

/-- A call of a method of the class, as the argument of another. -/
theorem assembly_ok_of_call_as_argument :
    ∃ p ir u, Program.ofText "class A { public int f(int x) { return this.f(this.f(x)); } }" = .ok p ∧
      (Analysis.ofProgram p).hasErrors = false ∧
      generateIr "class A { public int f(int x) { return this.f(this.f(x)); } }" = .ok ir ∧
      ClassUnit.ofText ir = .ok u ∧ p.isEmittable = true ∧
      ∃ assembly, u.assembly = .ok assembly := by
  obtain ⟨p, ir, u, hp, hir, hu, ht⟩ := exists_of_steps
    "class A { public int f(int x) { return this.f(this.f(x)); } }"
    (fun p _ => !(Analysis.ofProgram p).hasErrors && p.isEmittable) (by decide +kernel)
  obtain ⟨accepted, emittable⟩ : (Analysis.ofProgram p).hasErrors = false ∧ p.isEmittable = true := by
    simpa using ht
  exact ⟨p, ir, u, hp, accepted, hir, hu, emittable,
    (assembly_ok_iff hp accepted hir hu).1.2 emittable⟩

/-- The class of texts is known where a descriptor is written, but not where a method is called. -/
theorem assembly_fails_of_call_on_string :
    ∃ p ir u, Program.ofText
        "import java.lang.String; class A { public int f(String s) { return s.hashCode(); } }" =
          .ok p ∧
      (Analysis.ofProgram p).hasErrors = false ∧
      generateIr
        "import java.lang.String; class A { public int f(String s) { return s.hashCode(); } }" =
          .ok ir ∧
      ClassUnit.ofText ir = .ok u ∧ u.assembly = .error (.unsupported (.noOwner "String")) := by
  obtain ⟨p, ir, u, hp, hir, hu, ht⟩ := exists_of_steps
    "import java.lang.String; class A { public int f(String s) { return s.hashCode(); } }"
    (fun p u => !(Analysis.ofProgram p).hasErrors &&
      decide (u.assembly = .error (.unsupported (.noOwner "String")))) (by decide +kernel)
  obtain ⟨accepted, fails⟩ : (Analysis.ofProgram p).hasErrors = false ∧
      u.assembly = .error (.unsupported (.noOwner "String")) := by
    simpa using ht
  exact ⟨p, ir, u, hp, accepted, hir, hu, fails⟩

end Compiler

end JavaMinus
