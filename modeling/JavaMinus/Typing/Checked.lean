/-
# Checks

A check makes findings: reports, and the types of the operators that it has seen to be right.  It
answers with a value unless a rule is broken; then it halts, and whoever asked halts too.  Findings
are only ever added.
-/
import JavaMinus.Report

namespace JavaMinus

/-- What checks find: reports in order, and types under the numbers of expressions. -/
structure Findings where
  reports : List Report
  types : List (Nat × Ty)
deriving DecidableEq, Repr

namespace Findings

def none : Findings := ⟨[], []⟩

/-- The findings of two checks in order. -/
def append (a b : Findings) : Findings :=
  ⟨a.reports ++ b.reports, a.types ++ b.types⟩

instance : Append Findings := ⟨append⟩

theorem append_def (a b : Findings) : a ++ b = ⟨a.reports ++ b.reports, a.types ++ b.types⟩ := rfl

end Findings

/-- The outcome of a check, missing if it halted, and its findings. -/
structure Checked (α : Type) where
  outcome : Option α
  found : Findings

namespace Checked

variable {α β : Type}

/-- An outcome without findings. -/
protected def pure (a : α) : Checked α := ⟨some a, .none⟩

/-- Goes on after a check that did not halt. -/
protected def bind (m : Checked α) (f : α → Checked β) : Checked β :=
  match m.outcome with
  | none => ⟨none, m.found⟩
  | some a => ⟨(f a).outcome, m.found ++ (f a).found⟩

instance : Monad Checked where
  pure := Checked.pure
  bind := Checked.bind

def halt (reports : List Report) : Checked α := ⟨none, ⟨reports, []⟩⟩

/-- Halts with the report of a broken rule. -/
def fail (loc : Location) (finding : Finding) : Checked α := halt [.error loc finding]

/-- Halts with a report if the condition holds. -/
def failIf (broken : Bool) (loc : Location) (finding : Finding) : Checked Unit :=
  if broken then fail loc finding else pure ()

def haltOn (reports : List Report) : Checked Unit :=
  if reports.isEmpty then pure () else halt reports

def note (id : Nat) (type : Ty) : Checked Unit := ⟨some (), ⟨[], [(id, type)]⟩⟩

/-- Makes both checks, and halts afterwards if one of them halted. -/
def both (a b : Checked Unit) : Checked Unit :=
  ⟨a.outcome.bind fun _ => b.outcome, a.found ++ b.found⟩

theorem bind_of_halted {m : Checked α} {f : α → Checked β} (h : m.outcome = none) :
    m >>= f = ⟨none, m.found⟩ := by
  simp only [bind, Checked.bind, h]

theorem bind_of_outcome {m : Checked α} {f : α → Checked β} {a : α} (h : m.outcome = some a) :
    m >>= f = ⟨(f a).outcome, m.found ++ (f a).found⟩ := by
  simp only [bind, Checked.bind, h]

end Checked

end JavaMinus
