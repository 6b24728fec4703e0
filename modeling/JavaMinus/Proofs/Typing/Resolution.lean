/-
# What the names of accepted programs resolve to

A name that is looked up in a method is found among the declarations that belong to it: a local
variable or a parameter of the first method of that name, or a field
(`SymbolTable.declares_of_lookup`).  In an accepted program every name resolves in this way, or is
the last name of an import; every target of an assignment does; and in a static method none of them
is a field.

That every name is reached by a check is the result of `Scope.checks_of_acceptsAll`.  The target of
an assignment is no expression, so it has an induction over the statements of its own.
-/
import JavaMinus.Proofs.Lowering.Names
import JavaMinus.Proofs.Source.Shape
import JavaMinus.Proofs.Typing.Occurrences
import JavaMinus.Proofs.Typing.Scoping
import JavaMinus.Proofs.Typing.Statics
import Mathlib.Data.List.TakeWhile

namespace JavaMinus

open Source

/-! ## Imports -/

theorem dot_not_mem_of_isName {name : String} (h : IsName name) : '.' ∉ name.toList := by
  obtain ⟨word, -⟩ := h
  cases hcs : name.toList with
  | nil => exact List.not_mem_nil
  | cons c cs =>
      rw [hcs, Character.isWord_cons, Bool.and_eq_true] at word
      rw [List.mem_cons, not_or]
      constructor
      · rintro rfl
        cases word.1
      · intro hm
        cases List.all_eq_true.1 word.2 '.' hm

namespace DottedPath

theorem lastPart_undotted {path : String} (h : '.' ∉ path.toList) : lastPart path = path := by
  have undotted : ∀ c ∈ path.toList.reverse, (c != '.') = true := by
    intro c hc
    refine bne_iff_ne.2 ?_
    rintro rfl
    exact h (List.mem_reverse.1 hc)
  rw [lastPart, List.takeWhile_eq_self_iff.2 undotted, List.reverse_reverse, String.ofList_toList]

theorem lastPart_dotted (front back : String) : lastPart (front ++ "." ++ back) = lastPart back := by
  have backwards : (front ++ "." ++ back).toList.reverse =
      back.toList.reverse ++ '.' :: front.toList.reverse := by
    simp
  rw [lastPart, lastPart, backwards, List.takeWhile_append]
  split
  · rename_i whole
    rw [List.takeWhile_cons_of_neg (by decide), List.append_nil,
      (List.takeWhile_prefix _).eq_of_length whole]
  · rfl

/-- The last part of a path is the last of the names that it joins. -/
theorem lastPart_intercalate : ∀ parts : List String, (∀ part ∈ parts, '.' ∉ part.toList) →
    ∀ last, parts.getLast? = some last → lastPart (".".intercalate parts) = last
  | [part], undotted, last, h => by
      cases h
      rw [String.intercalate_singleton]
      exact lastPart_undotted (undotted _ List.mem_cons_self)
  | part :: next :: parts, undotted, last, h => by
      rw [String.intercalate_cons_cons, lastPart_dotted]
      exact lastPart_intercalate (next :: parts) (List.forall_mem_cons.1 undotted).2 last h

end DottedPath

theorem SymbolTable.hasImport_iff {p : Program} (named : p.Named) {name : String} :
    (ofProgram p).hasImport name = true ↔ ∃ i ∈ p.imports, i.path.getLast? = some name := by
  have last : ∀ i ∈ p.imports, i.path.getLast? = some (DottedPath.lastPart i.dotted) := by
    intro i hi
    obtain ⟨nonempty, parts⟩ := named.imports i hi
    have undotted : ∀ part ∈ i.path, '.' ∉ part.toList :=
      fun part hp => dot_not_mem_of_isName (parts part hp)
    have last := List.getLast?_eq_some_getLast nonempty
    rw [Import.dotted, DottedPath.lastPart_intercalate i.path undotted _ last, last]
  rw [hasImport, List.any_eq_true]
  constructor
  · rintro ⟨path, hpath, same⟩
    obtain ⟨i, hi, rfl⟩ := List.mem_map.1 hpath
    exact ⟨i, hi, by rw [last i hi, beq_iff_eq.1 same]⟩
  · rintro ⟨i, hi, same⟩
    rw [last i hi] at same
    exact ⟨i.dotted, List.mem_map_of_mem hi, beq_iff_eq.2 (Option.some.inj same)⟩

namespace SymbolTable

variable (t : SymbolTable)

/-! ## Declarations -/

/-- What a name was found to mean is declared: in the first method of that name, or as a field. -/
def Declares (method : String) : Lookup → Prop
  | ⟨s, .localVariable⟩ => ∃ m, t.method? method = some m ∧ s ∈ m.locals
  | ⟨s, .parameter i⟩ => ∃ m, t.method? method = some m ∧ m.params[i]? = some s
  | ⟨s, .field⟩ => s ∈ t.fields

theorem declares_of_lookup {method name : String} {found : Lookup}
    (h : t.lookup method name = some found) :
    found.symbol.name = name ∧ t.Declares method found := by
  unfold lookup at h
  rcases Option.or_eq_some_iff.1 h with h | ⟨-, h⟩
  · obtain ⟨m, hm, h⟩ := Option.bind_eq_some_iff.1 h
    unfold lookupIn at h
    split at h
    · rename_i s hs
      cases h
      exact ⟨by simpa using List.find?_some hs, m, hm, List.mem_of_find?_eq_some hs⟩
    · obtain ⟨⟨i, s⟩, hi, rfl⟩ := Option.map_eq_some_iff.1 h
      obtain ⟨⟨s', i'⟩, hf, hs'⟩ := Option.map_eq_some_iff.1 hi
      cases hs'
      refine ⟨by simpa using List.find?_some hf, m, hm, ?_⟩
      exact List.mem_zipIdx_iff_getElem?.1 (List.mem_of_find?_eq_some hf)
  · obtain ⟨s, hs, rfl⟩ := Option.map_eq_some_iff.1 h
    exact ⟨by simpa using List.find?_some hs, List.mem_of_find?_eq_some hs⟩

end SymbolTable

namespace Scope

variable (s : Scope)

/-- The name means something that is declared here under it, and in a static method no field. -/
def Resolves (name : String) : Prop :=
  ∃ found, s.lookup name = some found ∧ found.symbol.name = name ∧
    s.table.Declares s.method found ∧ (s.isStatic = true → found.origin ≠ .field)

theorem resolves_of_not_isField {name : String} {found : Lookup} (hl : s.lookup name = some found)
    (h : s.isStatic = true → s.isField name = false) : s.Resolves name := by
  obtain ⟨named, declared⟩ := s.table.declares_of_lookup hl
  refine ⟨found, hl, named, declared, fun hs field => ?_⟩
  have none := h hs
  rw [isField, hl] at none
  exact of_decide_eq_false none field

/-! ## Names -/

theorem resolves_of_checkName {name : String} {loc : Location} {asArray : Bool}
    (h : (s.checkName name loc asArray).Passes) :
    s.Resolves name ∨ s.lookup name = none ∧ s.table.hasImport name = true := by
  cases hl : s.lookup name with
  | some found =>
      exact .inl (s.resolves_of_not_isField hl fun hs => s.not_isField_of_checkName hs h)
  | none =>
      refine .inr ⟨rfl, (s.known_of_checkName h).resolve_left fun declared => ?_⟩
      rw [hl] at declared
      cases declared

theorem resolves_of_occurs {stmts : List Stmt} (accepted : s.AcceptsAll stmts) {tag : Tag}
    {text : String} (h : .name tag text ∈ Stmt.occurrencesIn stmts) :
    s.Resolves text ∨ s.lookup text = none ∧ s.table.hasImport text = true := by
  rcases s.checks_of_acceptsAll stmts accepted _ h with receiver | ⟨pos, passes⟩
  · cases receiver
  · rw [checkExpr] at passes
    exact s.resolves_of_checkName passes

/-! ## Targets of assignments -/

theorem resolves_of_checkTarget {name : String} {loc : Location} {found : Lookup}
    (hl : s.lookup name = some found) (h : (s.checkTarget found name loc).Passes) :
    s.Resolves name :=
  s.resolves_of_not_isField hl fun hs => s.not_isField_of_checkTarget hs hl h

mutual

theorem resolves_of_accepts : ∀ stmt : Stmt, s.Accepts stmt → ∀ n ∈ stmt.targets, s.Resolves n
  | .block _ body, h => resolves_of_acceptsAll body h
  | .ifThen _ _ thenBranch, h => resolves_of_accepts thenBranch h.2
  | .ifElse _ _ thenBranch elseBranch, h => List.forall_mem_append.2
      ⟨resolves_of_accepts thenBranch h.2.1, resolves_of_accepts elseBranch h.2.2⟩
  | .while _ _ body, h => resolves_of_accepts body h.2
  | .expr _, _ | .return .., _ => List.forall_mem_nil _
  | .assign loc target value, h => by
      rw [Accepts, checkAssign] at h
      split at h
      · exact absurd h (Checked.not_passes_fail _ _)
      · rename_i found hl
        rw [Checked.passes_seq_iff] at h
        exact List.forall_mem_singleton.2 (s.resolves_of_checkTarget hl h.1)
  | .assignElement loc target index value, h => by
      rw [Accepts, checkAssignElement] at h
      split at h
      · exact absurd h (Checked.not_passes_fail _ _)
      · rename_i found hl
        rw [Checked.passes_seq_iff] at h
        exact List.forall_mem_singleton.2 (s.resolves_of_checkTarget hl h.1)

theorem resolves_of_acceptsAll : ∀ stmts : List Stmt, s.AcceptsAll stmts →
    ∀ n ∈ Stmt.targetsIn stmts, s.Resolves n
  | [], _ => List.forall_mem_nil _
  | stmt :: stmts, h => List.forall_mem_append.2
      ⟨resolves_of_accepts stmt h.1, resolves_of_acceptsAll stmts h.2⟩

end

end Scope

namespace Analysis

/-- The scoping of an accepted text is sound.  A name in a body, at any depth, resolves, or it is
declared nowhere and the last name of an import; the target of an assignment resolves. -/
theorem resolves_of_no_errors {source : String} {p : Program}
    (parsed : Program.ofText source = .ok p) (accepted : (ofProgram p).hasErrors = false) :
    ∀ m ∈ p.methods,
      (∀ tag text, .name tag text ∈ Stmt.occurrencesIn m.body →
        (Scope.ofMethod (SymbolTable.ofProgram p) m).Resolves text ∨
          (SymbolTable.ofProgram p).lookup m.name text = none ∧
            ∃ i ∈ p.imports, i.path.getLast? = some text) ∧
      ∀ text ∈ Stmt.targetsIn m.body,
        (Scope.ofMethod (SymbolTable.ofProgram p) m).Resolves text := by
  intro m hm
  have passes := accepts_of_no_errors accepted m hm
  refine ⟨fun tag text occurs => ?_, Scope.resolves_of_acceptsAll _ _ passes⟩
  rcases Scope.resolves_of_occurs _ passes occurs with declared | ⟨missing, imported⟩
  · exact .inl declared
  · have named := Program.named_of_ofText parsed
    exact .inr ⟨missing, (SymbolTable.hasImport_iff named).1 imported⟩

/-- Names of all kinds: a field, parameters, local variables, and an imported class. -/
theorem resolves_of_all_origins :
    ∃ p, Program.ofText
        "import io; class A { int n; void f(int[] a) { a[n] = a[(n)]; } static void g(int x) { int y; y = io.put(x); } }" =
          .ok p ∧ (ofProgram p).hasErrors = false ∧
      ∀ m ∈ p.methods,
        (∀ tag text, .name tag text ∈ Stmt.occurrencesIn m.body →
          (Scope.ofMethod (SymbolTable.ofProgram p) m).Resolves text ∨
            (SymbolTable.ofProgram p).lookup m.name text = none ∧
              ∃ i ∈ p.imports, i.path.getLast? = some text) ∧
        ∀ text ∈ Stmt.targetsIn m.body,
          (Scope.ofMethod (SymbolTable.ofProgram p) m).Resolves text := by
  obtain ⟨p, hp, ht⟩ := Compiler.exists_of_any
    (Program.ofText
      "import io; class A { int n; void f(int[] a) { a[n] = a[(n)]; } static void g(int x) { int y; y = io.put(x); } }")
    (fun p => !(ofProgram p).hasErrors) (by decide +kernel)
  have accepted : (ofProgram p).hasErrors = false := Bool.not_eq_true' _ ▸ ht
  exact ⟨p, hp, accepted, resolves_of_no_errors hp accepted⟩

end Analysis

end JavaMinus
