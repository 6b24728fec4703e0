/-
# The listing of a compiled program

The assembly of a program that compiles is the text of a listing (`Compiler.listing`).  Its methods
are the constructor and, in the order of the program, one for each method: the listing of what that
method is lowered to, once it is read back (`ListedAs`).
-/
import JavaMinus.Proofs.Assembly.Lines
import JavaMinus.Proofs.Assembly.Programs

namespace JavaMinus

open Source Ir

/-! ## Steps that succeed -/

theorem ok_of_bind {ε α β : Type} {x : Except ε α} {f : α → Except ε β} {b : β}
    (h : (x >>= f) = .ok b) : ∃ a, x = .ok a ∧ f a = .ok b := by
  cases x with
  | error e => cases h
  | ok a => exact ⟨a, rfl, h⟩

theorem ok_of_map {ε α β : Type} {x : Except ε α} {f : α → β} {b : β} (h : x.map f = .ok b) :
    ∃ a, x = .ok a ∧ f a = b := by
  cases x with
  | error e => cases h
  | ok a => exact ⟨a, rfl, Except.ok.inj h⟩

/-! ## Listings -/

/-- What class names stand for in the assembly of a program. -/
def Source.Program.classNames (p : Program) : Assembly.ClassNames :=
  .ofUnit (Lowering.classHead (.ofProgram p))

namespace Assembly

open Lowering

/-- The listing of what a method of the program is lowered to. -/
def ListedAs (p : Program) (m : Source.Method) (listing : MethodListing) : Prop :=
  ∃ u, LoweredTo (.ofProgram p) m u ∧ MethodListing.ofMethod p.classNames u.readBack = .ok listing

/-- The listing of a program: that of its constructor and those of its methods. -/
structure Listed (p : Program) (l : ClassListing) (constructor : MethodListing)
    (methods : List MethodListing) : Prop where
  accepted : (Analysis.ofProgram p).hasErrors = false
  named : p.Named
  members : l.methods = constructor :: methods
  /-- No other constructor is added. -/
  added : l.added = none
  name : l.name = p.className
  first : MethodListing.ofMethod p.classNames (constructorOf (.ofProgram p)).readBack =
    .ok constructor
  others : List.Forall₂ (ListedAs p) p.methods methods

theorem exists_of_forall₂ {α β : Type} {R : α → β → Prop} {as : List α} {bs : List β}
    (h : List.Forall₂ R as bs) : ∀ b ∈ bs, ∃ a ∈ as, R a b := by
  induction h with
  | nil => exact List.forall_mem_nil _
  | cons first _ ih =>
      refine List.forall_mem_cons.2 ⟨⟨_, List.mem_cons_self, first⟩, fun b hb => ?_⟩
      obtain ⟨a, ha, related⟩ := ih b hb
      exact ⟨a, List.mem_cons_of_mem _ ha, related⟩

theorem forall_of_ofMethods {names : ClassNames} {methods : List Ir.Method} :
    ∀ {listings : List MethodListing}, MethodListing.ofMethods names methods = .ok listings →
      List.Forall₂ (fun m listing => MethodListing.ofMethod names m = .ok listing) methods
        listings := by
  induction methods with
  | nil =>
      intro listings h
      cases h
      exact .nil
  | cons m methods ih =>
      intro listings h
      obtain ⟨listing, hm, h⟩ := ok_of_bind h
      obtain ⟨others, hms, h⟩ := ok_of_bind h
      cases h
      exact .cons hm (ih hms)

theorem comp_of_forall₂ {α β γ : Type} {R : α → β → Prop} {S : β → γ → Prop} {as : List α}
    {bs : List β} (h : List.Forall₂ R as bs) : ∀ {cs : List γ}, List.Forall₂ S bs cs →
      List.Forall₂ (fun a c => ∃ b ∈ bs, R a b ∧ S b c) as cs := by
  induction h with
  | nil =>
      intro cs h
      cases h
      exact .nil
  | cons first _ ih =>
      intro cs h
      cases h with
      | cons second others =>
          refine .cons ⟨_, List.mem_cons_self, first, second⟩ ((ih others).imp ?_)
          rintro a c ⟨b, hb, both⟩
          exact ⟨b, List.mem_cons_of_mem _ hb, both⟩

/-- The listing of the unit that the methods of a program are lowered to, and that of each method,
which is the listing of a method of the unit. -/
theorem listed_of_ofUnit {p : Program} {us : List Ir.Method} {l : ClassListing} (hn : p.Named)
    (ha : (Analysis.ofProgram p).hasErrors = false)
    (hus : List.Forall₂ (LoweredTo (.ofProgram p)) p.methods us)
    (h : ClassListing.ofUnit (unitOf (.ofProgram p) us).readBack = .ok l) :
    ∃ constructor methods, Listed p l constructor methods ∧
      List.Forall₂ (fun m method => ∃ u ∈ us, LoweredTo (.ofProgram p) m u ∧
        MethodListing.ofMethod p.classNames u.readBack = .ok method) p.methods methods := by
  obtain ⟨listings, hms, rfl⟩ := ok_of_map h
  cases forall_of_ofMethods hms with
  | @cons _ constructor _ methods first others =>
      have each := comp_of_forall₂ hus (List.forall₂_map_left_iff.1 others)
      refine ⟨constructor, methods, ⟨ha, hn, rfl, rfl, rfl, first, each.imp ?_⟩, each⟩
      rintro m method ⟨u, -, lowered, listed⟩
      exact ⟨u, lowered, listed⟩

end Assembly

namespace Compiler

open Assembly

/-- The listing of a source text. -/
def listing (source : String) : Except Error ClassListing := do
  let ir ← generateIr source
  let u ← ClassUnit.ofText ir
  ClassListing.ofUnit u

theorem no_errors_of_lowered {p : Program} {r : Analysis × String} (h : lowered p = .ok r) :
    (Analysis.ofProgram p).hasErrors = false := by
  obtain ⟨analysis, ha, -⟩ := ok_of_bind h
  cases he : (Analysis.ofProgram p).hasErrors with
  | false => rfl
  | true =>
      rw [Analysis.accepted, he] at ha
      cases ha

theorem steps_of_compile {source : String} {p : Program} {c : Compilation}
    (hp : Program.ofText source = .ok p) (h : compile source = .ok c) :
    (Analysis.ofProgram p).hasErrors = false ∧ generateIr source = .ok c.ir ∧
      assemble c.ir = .ok c.assembly := by
  obtain ⟨p', hp', h⟩ := ok_of_bind h
  obtain rfl := Except.ok.inj (hp.symm.trans hp')
  obtain ⟨r, hr, h⟩ := ok_of_bind h
  obtain ⟨assembly, ha, h⟩ := ok_of_bind h
  obtain rfl := Except.ok.inj h
  refine ⟨no_errors_of_lowered hr, ?_, ha⟩
  rw [generateIr, hp]
  show (lowered p >>= fun r => pure r.2) = _
  rw [hr]
  rfl

/-- The assembly of a program that compiles is the text of its listing, which is that of the unit
in its intermediate form. -/
theorem exists_unit {source : String} {p : Program} {c : Compilation}
    (hp : Program.ofText source = .ok p) (h : compile source = .ok c) :
    ∃ unit l constructor methods, ClassUnit.ofText c.ir = .ok unit ∧
      ClassListing.ofUnit unit = .ok l ∧ listing source = .ok l ∧ c.assembly = l.text ∧
      Listed p l constructor methods ∧
      List.Forall₂ (fun m method => ∃ u, u.readBack ∈ unit.methods ∧
        Lowering.LoweredTo (.ofProgram p) m u ∧
        MethodListing.ofMethod p.classNames u.readBack = .ok method) p.methods methods := by
  obtain ⟨accepted, hir, hasm⟩ := steps_of_compile hp h
  obtain ⟨unit, hu, hasm⟩ := ok_of_bind hasm
  obtain ⟨l, hl, text⟩ := ok_of_map hasm
  obtain ⟨us, lowereds, -, read⟩ := exists_lowered hp accepted hir
  obtain rfl := read unit hu
  obtain ⟨constructor, methods, listed, each⟩ :=
    listed_of_ofUnit (Program.named_of_ofText hp) accepted lowereds hl
  refine ⟨_, l, constructor, methods, hu, hl, ?_, text.symm, listed, each.imp ?_⟩
  · rw [listing, hir]
    show (ClassUnit.ofText c.ir >>= fun u => ClassListing.ofUnit u) = _
    rw [hu]
    exact hl
  · rintro m method ⟨u, hu, both⟩
    exact ⟨u, List.mem_cons_of_mem _ (List.mem_map_of_mem hu), both⟩

theorem exists_listed {source : String} {p : Program} {c : Compilation}
    (hp : Program.ofText source = .ok p) (h : compile source = .ok c) :
    ∃ l constructor methods, listing source = .ok l ∧ c.assembly = l.text ∧
      Listed p l constructor methods := by
  obtain ⟨_, l, constructor, methods, -, -, hl, text, listed, -⟩ := exists_unit hp h
  exact ⟨l, constructor, methods, hl, text, listed⟩

/-- What has a listing compiles, and its assembly is the text of the listing. -/
theorem exists_compiled {source : String} {l : ClassListing} (h : listing source = .ok l) :
    ∃ c, compile source = .ok c ∧ c.assembly = l.text := by
  obtain ⟨ir, hir, h⟩ := ok_of_bind h
  obtain ⟨u, hu, hl⟩ := ok_of_bind h
  obtain ⟨p, hp, hir⟩ := ok_of_bind hir
  obtain ⟨r, hr, hir⟩ := ok_of_bind hir
  obtain rfl := Except.ok.inj hir
  refine ⟨⟨p.className, r.1.reports, r.2, l.text⟩, ?_, rfl⟩
  have assembled : assemble r.2 = .ok l.text := by
    rw [assemble, hu]
    show (ClassListing.ofUnit u).map _ = _
    rw [hl]
    rfl
  rw [compile, hp]
  show (lowered p >>= fun r => assemble r.2 >>= fun assembly =>
    pure (⟨p.className, r.1.reports, r.2, assembly⟩ : Compilation)) = _
  rw [hr]
  show (assemble r.2 >>= fun assembly => _) = _
  rw [assembled]
  rfl

end Compiler

end JavaMinus
