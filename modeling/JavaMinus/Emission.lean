/-
# Emissions

An emission is a step of a generator: it reads and changes a state, writes items in order, and may
stop with an error.  Both generators of the compiler are emissions, the one that writes lines of the
intermediate form and the one that writes lines of assembly.

An error does not take anything back: the items written before it and the changes made to the state
stay, and `Emitted` shows them beside the error.  What is written never depends on what was written
before, because the items are not part of the state.
-/
namespace JavaMinus

/-- What a run of an emission leaves behind. -/
structure Emitted (ε σ ω α : Type) where
  outcome : Except ε α
  state : σ
  written : List ω

/-- A step that may fail with `ε`, works on a state `σ` and writes items `ω`. -/
def Emission (ε σ ω α : Type) : Type :=
  σ → Emitted ε σ ω α

namespace Emission

variable {ε σ ω α β : Type}

/-- Runs the step from a state. -/
def run (m : Emission ε σ ω α) (s : σ) : Emitted ε σ ω α := m s

/-- Does nothing and answers `a`. -/
protected def pure (a : α) : Emission ε σ ω α :=
  fun s => ⟨.ok a, s, []⟩

/-- Runs `m`, then `f` on its answer; an error of `m` is final. -/
protected def bind (m : Emission ε σ ω α) (f : α → Emission ε σ ω β) : Emission ε σ ω β :=
  fun s =>
    match m s with
    | ⟨.error e, s₁, w₁⟩ => ⟨.error e, s₁, w₁⟩
    | ⟨.ok a, s₁, w₁⟩ =>
        let r := f a s₁
        ⟨r.outcome, r.state, w₁ ++ r.written⟩

instance : Monad (Emission ε σ ω) where
  pure := Emission.pure
  bind := Emission.bind

/-- Stops with an error. -/
def fail (e : ε) : Emission ε σ ω α :=
  fun s => ⟨.error e, s, []⟩

def write (item : ω) : Emission ε σ ω Unit :=
  fun s => ⟨.ok (), s, [item]⟩

def state : Emission ε σ ω σ :=
  fun s => ⟨.ok s, s, []⟩

def modifyState (f : σ → σ) : Emission ε σ ω Unit :=
  fun s => ⟨.ok (), f s, []⟩

/-- A value that may be missing, with the error that says so. -/
def need (e : ε) : Option α → Emission ε σ ω α
  | some a => pure a
  | none => fail e

/-- A value computed elsewhere, or its error. -/
def lift : Except ε α → Emission ε σ ω α
  | .ok a => pure a
  | .error e => fail e

/-! ## Runs of the parts -/

theorem run_pure (a : α) (s : σ) : (pure a : Emission ε σ ω α).run s = ⟨.ok a, s, []⟩ := rfl

theorem run_fail (e : ε) (s : σ) : (fail e : Emission ε σ ω α).run s = ⟨.error e, s, []⟩ := rfl

theorem run_write (item : ω) (s : σ) :
    (write item : Emission ε σ ω Unit).run s = ⟨.ok (), s, [item]⟩ := rfl

theorem run_bind_ok {m : Emission ε σ ω α} {f : α → Emission ε σ ω β} {s s₁ : σ} {a : α}
    {w : List ω} (h : m.run s = ⟨.ok a, s₁, w⟩) :
    (m >>= f).run s =
      ⟨((f a).run s₁).outcome, ((f a).run s₁).state, w ++ ((f a).run s₁).written⟩ := by
  simp only [run] at h ⊢
  simp only [bind, Emission.bind, h]

end Emission

end JavaMinus
