/-
# Calls on the own class

The name of the class that is written stands for itself, and no other name stands for it, if the
program neither extends a class nor imports one of that name (`ClassNames.NamesSelf`).  Then a call on
a value is made to the class exactly if the value is an object of it (`owner_operandType_iff`).
-/
import JavaMinus.Proofs.Lowering.Uses
import JavaMinus.Proofs.Source.Words
import Mathlib.Data.List.TakeWhile

namespace JavaMinus

open Source Ir

/-- The program neither extends a class nor imports one of the name of its own. -/
structure SymbolTable.StandsAlone (t : SymbolTable) : Prop where
  superClass : t.superClass = none
  notImported : t.hasImport t.className = false

namespace Assembly

/-! ## Names of classes -/

theorem slash_not_mem_of_isWord {name : String} (h : Character.isWord name.toList = true) :
    '/' ∉ name.toList := by
  cases hcs : name.toList with
  | nil => exact List.not_mem_nil
  | cons c cs =>
      rw [hcs, Character.isWord_cons, Bool.and_eq_true] at h
      rw [List.mem_cons, not_or]
      constructor
      · rintro rfl
        cases h.1
      · intro hm
        cases List.all_eq_true.1 h.2 '/' hm

theorem lastPart_of_slashed {path : String} (h : '/' ∉ (DottedPath.slashed path).toList) :
    DottedPath.lastPart path = DottedPath.slashed path := by
  have undotted : ∀ c ∈ path.toList, c ≠ '.' := by
    rintro c hc rfl
    refine h ?_
    rw [DottedPath.slashed, String.toList_map]
    exact List.mem_map.2 ⟨'.', hc, rfl⟩
  have last : DottedPath.lastPart path = path := by
    rw [DottedPath.lastPart, List.takeWhile_eq_self_iff.2, List.reverse_reverse,
      String.ofList_toList]
    exact fun c hc => bne_iff_ne.2 (undotted c (List.mem_reverse.1 hc))
  have slashed : DottedPath.slashed path = path := by
    rw [DottedPath.slashed, ← String.toList_inj, String.toList_map]
    exact (List.map_congr_left fun c hc => if_neg (undotted c hc)).trans (List.map_id _)
  rw [last, slashed]

theorem resolve_eq_iff {paths : List String} {className name : String}
    (hi : (paths.any (DottedPath.lastPart · == className)) = false)
    (hc : Character.isWord className.toList = true) :
    ClassNames.resolveIn (ClassNames.importsOf paths) name = className ↔ name = className := by
  unfold ClassNames.resolveIn
  cases hl : (ClassNames.importsOf paths).lookup name with
  | none => rfl
  | some found =>
      obtain ⟨before, after, split, -⟩ := List.lookup_eq_some_iff.1 hl
      have there : (name, found) ∈ ClassNames.importsOf paths := by
        rw [split]
        exact List.mem_append_right _ List.mem_cons_self
      obtain ⟨path, hpath, same⟩ := List.mem_map.1 there
      obtain ⟨rfl, rfl⟩ := Prod.mk.inj same
      have other : DottedPath.lastPart path ≠ className := fun same =>
        List.any_eq_false.1 hi path (List.mem_reverse.1 hpath) (beq_iff_eq.2 same)
      refine iff_of_false (fun slashed => other ?_) other
      have slashed : DottedPath.slashed path = className := slashed
      rw [← slashed]
      refine lastPart_of_slashed ?_
      rw [slashed]
      exact slash_not_mem_of_isWord hc

/-- The name of a class stands for the class that is written, and no other name does. -/
structure ClassNames.NamesSelf (names : ClassNames) (className : String) : Prop where
  self : names.self = className
  super : names.super ≠ className
  resolve : ∀ name, names.resolve name = className ↔ name = className

theorem namesSelf_of_standsAlone {table : SymbolTable} (alone : table.StandsAlone)
    (hc : IsName table.className) :
    (ClassNames.ofUnit (Lowering.classHead table)).NamesSelf table.className where
  self := rfl
  super := by
    show ((table.superClass.map _).getD objectClass) ≠ _
    rw [alone.superClass]
    intro same
    refine slash_not_mem_of_isWord hc.1 ?_
    rw [← same]
    show '/' ∈ objectClass.toList
    decide
  resolve _ := resolve_eq_iff alone.notImported hc.1

end Assembly

namespace Ty

theorem read_of_isObject {t : Ty} (h : t.isObject = true) :
    t = .ofClass t.name ∧ t.read = .object t.name := by
  obtain ⟨name, isArray⟩ := t
  cases isArray with
  | true => cases h
  | false =>
      simp only [isObject, Bool.not_false, Bool.true_and, Bool.not_eq_true', List.contains_eq_mem,
        decide_eq_false_iff_not, List.mem_cons, List.not_mem_nil, or_false, not_or] at h
      have base : name ∉ ["int", "boolean", "void", "static void", "String"] := by simp [h]
      have word : name ∉ ["i32", "bool", "V", "String"] := by simp [h]
      have lowered : Ty.lowered ⟨name, false⟩ = .object name := base_other base
      exact ⟨rfl, by rw [read, lowered, ElementType.readBack, ElementType.ofWord_other word]⟩

end Ty

/-! ## Objects of the own class -/

namespace Source

/-- Whether the receiver of a call is an object of the own class. -/
def Expr.isOwn (s : Scope) (target : Expr) : Bool :=
  !target.namesClass s && (target.isThis ||
    target.loweredType s none == .ofClass s.table.className &&
      (Ty.ofClass s.table.className).isObject)

end Source

namespace Scope

variable {s : Scope} {names : Assembly.ClassNames}

theorem loweredType_of_isThis : ∀ (e : Expr) (expected : Option Ty), e.isThis →
    e.loweredType s expected = .ofClass s.table.className
  | .this _, _, _ => rfl
  | .paren _ inner, expected, h => loweredType_of_isThis inner expected h
  | .int .., _, h | .bool .., _, h | .name .., _, h | .binary .., _, h | .not .., _, h
  | .index .., _, h | .length .., _, h | .call .., _, h | .newArray .., _, h
  | .newObject .., _, h => nomatch h

theorem namesClass_of_isOwn {target : Expr} (h : target.isOwn s = true) :
    target.namesClass s = false := by
  rw [Expr.isOwn, Bool.and_eq_true, Bool.not_eq_true'] at h
  exact h.1

theorem loweredType_of_isOwn {target : Expr} (h : target.isOwn s = true) :
    target.loweredType s none = .ofClass s.table.className := by
  rw [Expr.isOwn, Bool.and_eq_true, Bool.or_eq_true, Bool.and_eq_true, beq_iff_eq] at h
  exact h.2.elim (loweredType_of_isThis target none) And.left

/-- A call on an object of the own class takes its types from the class. -/
theorem called?_of_isOwn {target : Expr} (h : target.isOwn s = true) (method : String) :
    Expr.called? s target method = s.table.method? method := by
  rw [Expr.called?, namesClass_of_isOwn h, if_neg Bool.false_ne_true, loweredType_of_isOwn h]
  exact if_pos rfl

theorem owner_read_iff (hn : names.NamesSelf s.table.className) (t : Ty) :
    names.owner? t.read = some s.table.className ↔
      t = .ofClass s.table.className ∧ (Ty.ofClass s.table.className).isObject = true := by
  constructor
  · intro own
    have object : t.isObject = true := by
      rw [← (Ty.readBack_lowered t).1, ← Assembly.hasMethods_eq names, ← Ty.read, own]
      rfl
    obtain ⟨whole, read⟩ := Ty.read_of_isObject object
    rw [read, Assembly.ClassNames.owner?, Option.some.injEq, hn.resolve] at own
    rw [← own, ← whole]
    exact ⟨rfl, object⟩
  · rintro ⟨rfl, object⟩
    rw [(Ty.read_of_isObject object).2, Assembly.ClassNames.owner?, Option.some.injEq, hn.resolve]
    rfl

/-- A call on a value is made to the class exactly if the value is an object of it. -/
theorem owner_operandType_iff (hn : names.NamesSelf s.table.className) {target : Expr}
    (value : target.namesClass s = false) :
    names.owner? (target.operandType s none) = some s.table.className ↔
      target.isOwn s = true := by
  rw [Expr.isOwn, value, Bool.not_false, Bool.true_and, Expr.operandType]
  cases target.isThis with
  | true => simp [Assembly.ClassNames.owner?, hn.self]
  | false =>
      rw [if_neg Bool.false_ne_true, owner_read_iff hn, Bool.false_or, Bool.and_eq_true,
        beq_iff_eq]

end Scope

end JavaMinus
