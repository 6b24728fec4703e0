/-
# Names in accepted programs

Where a check has passed, every name in the expression is declared in its method or is the last part
of an import.  A name is used in two ways: as a value, or as the target of a call, and a target that
is not declared stands for a class.  `Expr.valueNames` collects the names used as values.
-/
import JavaMinus.Proofs.Typing.Passing
import JavaMinus.Source.Occurrence

namespace JavaMinus

namespace Source

mutual

/-- The names that an expression uses as values; a name that is the target of a call, parentheses
aside, is not one of them. -/
def Expr.valueNames : Expr → List String
  | .int .. | .bool .. | .this _ | .newObject .. => []
  | .name _ text => [text]
  | .binary _ _ lhs rhs => lhs.valueNames ++ rhs.valueNames
  | .not _ operand => operand.valueNames
  | .index _ array i => array.valueNames ++ i.valueNames
  | .length _ array => array.valueNames
  | .call _ target _ args =>
      (if target.asName?.isSome then [] else target.valueNames) ++ Expr.valueNamesIn args
  | .newArray _ size => size.valueNames
  | .paren _ inner => inner.valueNames

def Expr.valueNamesIn : List Expr → List String
  | [] => []
  | e :: es => e.valueNames ++ Expr.valueNamesIn es

end

mutual

/-- The names that the expressions of a statement use as values. -/
def Stmt.valueNames : Stmt → List String
  | .block _ body => Stmt.valueNamesIn body
  | .ifThen _ condition thenBranch => condition.valueNames ++ thenBranch.valueNames
  | .ifElse _ condition thenBranch elseBranch =>
      condition.valueNames ++ (thenBranch.valueNames ++ elseBranch.valueNames)
  | .while _ condition body => condition.valueNames ++ body.valueNames
  | .expr e => e.valueNames
  | .assign _ _ value => value.valueNames
  | .assignElement _ _ index value => index.valueNames ++ value.valueNames
  | .return _ value => Expr.valueNamesIn value.toList

def Stmt.valueNamesIn : List Stmt → List String
  | [] => []
  | s :: ss => s.valueNames ++ Stmt.valueNamesIn ss

end

mutual

/-- The names that a statement assigns to, or to an element of. -/
def Stmt.targets : Stmt → List String
  | .block _ body => Stmt.targetsIn body
  | .ifThen _ _ thenBranch => thenBranch.targets
  | .ifElse _ _ thenBranch elseBranch => thenBranch.targets ++ elseBranch.targets
  | .while _ _ body => body.targets
  | .assign _ target _ | .assignElement _ target _ _ => [target]
  | .expr _ | .return .. => []

def Stmt.targetsIn : List Stmt → List String
  | [] => []
  | s :: ss => s.targets ++ Stmt.targetsIn ss

end

/-- The receiver, in parentheses or not, holds no name. -/
theorem Expr.valueNames_of_isThis : ∀ e : Expr, e.isThis → e.valueNames = []
  | .this _, _ => rfl
  | .paren _ inner, h => valueNames_of_isThis inner h
  | .int .., h | .bool .., h | .name .., h | .binary .., h | .not .., h | .index .., h
  | .length .., h | .call .., h | .newArray .., h | .newObject .., h => nomatch h

theorem Expr.valueNames_unparen (e : Expr) : e.unparen.valueNames = e.valueNames :=
  e.apply_unparen Expr.valueNames fun _ _ => by rw [valueNames]

end Source

open Source

namespace Scope

variable (s : Scope)

/-- The name is declared here, or it is imported. -/
def Known (name : String) : Prop := (s.lookup name).isSome ∨ s.table.hasImport name

theorem known_of_checkName {name : String} {loc : Location} {asArray : Bool}
    (h : (s.checkName name loc asArray).Passes) : s.Known name := by
  unfold checkName at h
  split at h
  · split at h
    · rename_i imported
      exact Or.inr imported
    · exact absurd h (Checked.not_passes_fail _ _)
  · rename_i found hl
    exact Or.inl (by simp [hl])

mutual

theorem known_of_checkExpr : ∀ (e : Expr) (pos : Position), (s.checkExpr e pos).Passes →
    ∀ n ∈ e.valueNames, s.Known n
  | .int .., _, _ | .bool .., _, _ | .this _, _, _ | .newObject .., _, _ => by
      simp [Expr.valueNames]
  | .name _ text, _, h => by
      rw [checkExpr] at h
      simpa [Expr.valueNames] using s.known_of_checkName h
  | .binary _ _ lhs rhs, _, h => by
      rw [checkExpr_binary, Checked.passes_seq_iff, Checked.passes_seq_iff] at h
      intro n hn
      rcases List.mem_append.1 hn with hn | hn
      · exact known_of_checkExpr lhs _ h.1 n hn
      · exact known_of_checkExpr rhs _ h.2.1 n hn
  | .not _ operand, _, h => by
      rw [checkExpr, Checked.passes_seq_iff] at h
      exact known_of_checkExpr operand _ h.1
  | .index _ array index, _, h => by
      rw [checkExpr, Checked.passes_seq_iff, Checked.passes_seq_iff, Checked.passes_seq_iff] at h
      intro n hn
      rcases List.mem_append.1 hn with hn | hn
      · exact known_of_checkExpr array _ h.1 n hn
      · exact known_of_checkExpr index _ h.2.2.1 n hn
  | .length _ array, _, h => by
      rw [checkExpr, Checked.passes_seq_iff] at h
      exact known_of_checkExpr array _ h.1
  | .call _ target method args, _, h => by
      rw [checkExpr_call, checkCallee, Checked.passes_seq_iff, Checked.passes_seq_iff] at h
      intro n hn
      rcases List.mem_append.1 hn with hn | hn
      · split at hn
        · exact nomatch hn
        · split at h
          · rename_i hthis
            rw [target.valueNames_of_isThis hthis] at hn
            exact nomatch hn
          · exact known_of_checkExpr target _ h.1 n hn
      · exact known_of_checkArguments args h.2.1 n hn
  | .newArray _ size, _, h => by
      rw [checkExpr, Checked.passes_seq_iff] at h
      exact known_of_checkExpr size _ h.1
  | .paren _ inner, pos, h => by
      rw [checkExpr] at h
      exact known_of_checkExpr inner pos h

theorem known_of_checkArguments : ∀ args : List Expr, (s.checkArguments args).Passes →
    ∀ n ∈ Expr.valueNamesIn args, s.Known n
  | [], _ => by simp [Expr.valueNamesIn]
  | arg :: args, h => by
      rw [checkArguments, Checked.passes_both_iff] at h
      intro n hn
      rcases List.mem_append.1 hn with hn | hn
      · exact known_of_checkExpr arg _ h.1 n hn
      · exact known_of_checkArguments args h.2 n hn

end

/-! ## Statements -/

theorem known_of_checkCondition {condition : Expr} {statement : Conditional}
    (h : (s.checkCondition condition statement).Passes) : ∀ n ∈ condition.valueNames, s.Known n := by
  obtain ⟨pos, passes⟩ := s.passes_of_checkCondition h
  exact s.known_of_checkExpr condition pos passes

theorem known_of_checkAssign {loc : Location} {target : String} {value : Expr}
    (h : (s.checkAssign loc target value).Passes) :
    (s.lookup target).isSome ∧ ∀ n ∈ value.valueNames, s.Known n := by
  unfold checkAssign at h
  split at h
  · exact absurd h (Checked.not_passes_fail _ _)
  · rename_i found hl
    rw [Checked.passes_seq_iff, Checked.passes_seq_iff] at h
    exact ⟨by simp [hl], s.known_of_checkExpr _ _ h.2.1⟩

theorem known_of_checkAssignElement {loc : Location} {target : String} {index value : Expr}
    (h : (s.checkAssignElement loc target index value).Passes) :
    (s.lookup target).isSome ∧ ∀ n ∈ index.valueNames ++ value.valueNames, s.Known n := by
  unfold checkAssignElement at h
  split at h
  · exact absurd h (Checked.not_passes_fail _ _)
  · rename_i found hl
    simp only [Checked.passes_seq_iff] at h
    refine ⟨by simp [hl], fun n hn => ?_⟩
    rcases List.mem_append.1 hn with hn | hn
    · exact s.known_of_checkExpr _ _ h.2.2.1 n hn
    · exact s.known_of_checkExpr _ _ h.2.2.2.2.1 n hn

theorem known_of_checkReturn {loc : Location} {value : Option Expr}
    (h : (s.checkReturn loc value).Passes) :
    ∀ n ∈ Expr.valueNamesIn value.toList, s.Known n := by
  unfold checkReturn at h
  split at h
  · exact absurd h (Checked.not_passes_fail _ _)
  · split at h
    · simp [Expr.valueNamesIn]
    · rw [Checked.passes_seq_iff] at h
      simpa [Expr.valueNamesIn] using s.known_of_checkExpr _ _ h.1

mutual

theorem known_of_accepts : ∀ stmt : Stmt, s.Accepts stmt →
    (∀ n ∈ stmt.targets, (s.lookup n).isSome) ∧ ∀ n ∈ stmt.valueNames, s.Known n
  | .block _ body, h => known_of_acceptsAll body h
  | .ifThen _ condition thenBranch, h => by
      obtain ⟨targets, names⟩ := known_of_accepts thenBranch h.2
      refine ⟨targets, fun n hn => ?_⟩
      rcases List.mem_append.1 hn with hn | hn
      · exact s.known_of_checkCondition h.1 n hn
      · exact names n hn
  | .ifElse _ condition thenBranch elseBranch, h => by
      obtain ⟨targets, names⟩ := known_of_accepts thenBranch h.2.1
      obtain ⟨targets', names'⟩ := known_of_accepts elseBranch h.2.2
      refine ⟨fun n hn => (List.mem_append.1 hn).elim (targets n) (targets' n), fun n hn => ?_⟩
      rcases List.mem_append.1 hn with hn | hn
      · exact s.known_of_checkCondition h.1 n hn
      · exact (List.mem_append.1 hn).elim (names n) (names' n)
  | .while _ condition body, h => by
      obtain ⟨targets, names⟩ := known_of_accepts body h.2
      refine ⟨targets, fun n hn => ?_⟩
      rcases List.mem_append.1 hn with hn | hn
      · exact s.known_of_checkCondition h.1 n hn
      · exact names n hn
  | .expr e, h => ⟨fun _ hn => (nomatch hn), s.known_of_checkExpr _ _ h⟩
  | .assign _ target value, h => by
      obtain ⟨declared, names⟩ := s.known_of_checkAssign h
      exact ⟨by simpa [Stmt.targets] using declared, names⟩
  | .assignElement _ target index value, h => by
      obtain ⟨declared, names⟩ := s.known_of_checkAssignElement h
      exact ⟨by simpa [Stmt.targets] using declared, names⟩
  | .return _ value, h => ⟨fun _ hn => (nomatch hn), s.known_of_checkReturn h⟩

theorem known_of_acceptsAll : ∀ stmts : List Stmt, s.AcceptsAll stmts →
    (∀ n ∈ Stmt.targetsIn stmts, (s.lookup n).isSome) ∧
      ∀ n ∈ Stmt.valueNamesIn stmts, s.Known n
  | [], _ => ⟨fun _ hn => (nomatch hn), fun _ hn => (nomatch hn)⟩
  | stmt :: stmts, h => by
      obtain ⟨targets, names⟩ := known_of_accepts stmt h.1
      obtain ⟨targets', names'⟩ := known_of_acceptsAll stmts h.2
      exact ⟨fun n hn => (List.mem_append.1 hn).elim (targets n) (targets' n),
        fun n hn => (List.mem_append.1 hn).elim (names n) (names' n)⟩

end

end Scope

end JavaMinus
