/-
# Runs of emissions

A run that ends in success is opened into the runs of its parts.  `Emission.run_bind_ok_iff` is the
one step of it; everything proved about a successful lowering takes the run apart with it.
-/
import JavaMinus.Emission

namespace JavaMinus.Emission

variable {ε σ ω α β : Type}

theorem ext {m n : Emission ε σ ω α} (h : ∀ s, m.run s = n.run s) : m = n :=
  funext h

theorem run_bind (m : Emission ε σ ω α) (f : α → Emission ε σ ω β) (s : σ) :
    (m >>= f).run s =
      match (m.run s).outcome with
      | .error e => ⟨.error e, (m.run s).state, (m.run s).written⟩
      | .ok a =>
          ⟨((f a).run (m.run s).state).outcome, ((f a).run (m.run s).state).state,
            (m.run s).written ++ ((f a).run (m.run s).state).written⟩ := by
  simp only [run, bind, Emission.bind]
  split <;> simp_all

/-- A run of two steps in a row succeeds if both do, and writes what both write. -/
theorem run_bind_ok_iff {m : Emission ε σ ω α} {f : α → Emission ε σ ω β} {s s₂ : σ} {b : β}
    {w : List ω} :
    (m >>= f).run s = ⟨.ok b, s₂, w⟩ ↔
      ∃ a s₁ w₁ w₂, m.run s = ⟨.ok a, s₁, w₁⟩ ∧ (f a).run s₁ = ⟨.ok b, s₂, w₂⟩ ∧
        w = w₁ ++ w₂ := by
  rw [run_bind]
  obtain ⟨outcome, s₁, w₁⟩ := m.run s
  cases outcome with
  | error e => simp
  | ok a =>
      rcases hr : (f a).run s₁ with ⟨outcome, s', w'⟩
      simp only [hr]
      constructor
      · intro h
        obtain ⟨rfl, rfl, rfl⟩ := Emitted.mk.inj h
        exact ⟨a, s₁, w₁, w', rfl, hr, rfl⟩
      · rintro ⟨a', s₁', w₁', w₂, h₁, h₂, rfl⟩
        obtain ⟨ha, rfl, rfl⟩ := Emitted.mk.inj h₁
        cases ha
        obtain ⟨rfl, rfl, rfl⟩ := Emitted.mk.inj (hr.symm.trans h₂)
        rfl

instance : LawfulMonad (Emission ε σ ω) := LawfulMonad.mk' (Emission ε σ ω)
  (by
    intro α m
    refine ext fun s => ?_
    change (m >>= fun a => pure a).run s = m.run s
    rw [run_bind]
    obtain ⟨outcome, s₁, w₁⟩ := m.run s
    cases outcome <;> simp [run_pure])
  (by
    intro α β a f
    refine ext fun s => ?_
    rw [run_bind, run_pure]
    simp)
  (by
    intro α β γ m f g
    refine ext fun s => ?_
    rw [run_bind, run_bind, run_bind]
    obtain ⟨outcome, s₁, w₁⟩ := m.run s
    cases outcome with
    | error e => rfl
    | ok a =>
      simp only [run_bind]
      obtain ⟨outcome, s₂, w₂⟩ := (f a).run s₁
      cases outcome <;> simp)

theorem run_pure_ok_iff {a b : α} {s s' : σ} {w : List ω} :
    (pure a : Emission ε σ ω α).run s = ⟨.ok b, s', w⟩ ↔ a = b ∧ s = s' ∧ w = [] := by
  rw [run_pure, Emitted.mk.injEq, Except.ok.injEq]
  exact and_congr_right' (and_congr_right' eq_comm)

theorem run_state (s : σ) : (state : Emission ε σ ω σ).run s = ⟨.ok s, s, []⟩ := rfl

theorem run_modifyState (f : σ → σ) (s : σ) :
    (modifyState f : Emission ε σ ω Unit).run s = ⟨.ok (), f s, []⟩ := rfl

end JavaMinus.Emission
