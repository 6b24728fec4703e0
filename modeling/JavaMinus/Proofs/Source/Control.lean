/-
# The control of statements

What a statement does, its expressions and assignments aside: a tree over the pieces that have no
control of their own.  The outcomes of conditions are given, and a run takes one at each condition that
it comes to.  It ends where the tree ends, at a return, or at a condition for which no outcome is left.

    simple p         p
    leave p          p, then return
    choice p a b     p, then a or b
    loop p a         p, then a and again, or the end

Each turn of a loop takes an outcome, so there is a run for every sequence of outcomes, and one only
(`Control.exists_runs`, `Control.Runs.unique`).
-/
import JavaMinus.Source.Program

namespace JavaMinus.Source

/-- A tree of control over pieces. -/
inductive Control (π : Type) where
  | skip
  | simple (p : π)
  | leave (p : π)
  | seq (first second : Control π)
  | choice (p : π) (yes no : Control π)
  | loop (p : π) (body : Control π)
deriving DecidableEq, Repr

namespace Control

variable {π ρ : Type}

/-- The tree over other pieces. -/
def map (f : π → ρ) : Control π → Control ρ
  | .skip => .skip
  | .simple p => .simple (f p)
  | .leave p => .leave (f p)
  | .seq first second => .seq (first.map f) (second.map f)
  | .choice p yes no => .choice (f p) (yes.map f) (no.map f)
  | .loop p body => .loop (f p) (body.map f)

/-- The pieces, in the order of the text. -/
def pieces : Control π → List π
  | .skip => []
  | .simple p | .leave p => [p]
  | .seq first second => first.pieces ++ second.pieces
  | .choice p yes no => p :: (yes.pieces ++ no.pieces)
  | .loop p body => p :: body.pieces

end Control

/-! ## Runs -/

/-- How a run ends. -/
inductive Exit where
  /-- It comes to the end. -/
  | finished
  /-- It returns. -/
  | returned
  /-- It stands at a condition for which no outcome is left. -/
  | waiting
deriving DecidableEq, Repr

/-- A run: the pieces that it comes to, how it ends, and the outcomes that are left. -/
structure Course (π : Type) where
  trace : List π
  exit : Exit
  rest : List Bool
deriving DecidableEq, Repr

/-- The run after pieces. -/
def Course.after {π : Type} (r : Course π) (ps : List π) : Course π :=
  { r with trace := ps ++ r.trace }

namespace Control

/-- The run of a tree under outcomes. -/
inductive Runs {π : Type} : Control π → List Bool → Course π → Prop
  | skip {o : List Bool} : Runs .skip o ⟨[], .finished, o⟩
  | simple {p : π} {o : List Bool} : Runs (.simple p) o ⟨[p], .finished, o⟩
  | leave {p : π} {o : List Bool} : Runs (.leave p) o ⟨[p], .returned, o⟩
  | seq {a b : Control π} {o o' : List Bool} {ps : List π} {r : Course π} :
      Runs a o ⟨ps, .finished, o'⟩ → Runs b o' r → Runs (.seq a b) o (r.after ps)
  | seqStop {a b : Control π} {o : List Bool} {r : Course π} :
      Runs a o r → r.exit ≠ .finished → Runs (.seq a b) o r
  | choiceWait {p : π} {a b : Control π} : Runs (.choice p a b) [] ⟨[p], .waiting, []⟩
  | choiceYes {p : π} {a b : Control π} {o : List Bool} {r : Course π} :
      Runs a o r → Runs (.choice p a b) (true :: o) (r.after [p])
  | choiceNo {p : π} {a b : Control π} {o : List Bool} {r : Course π} :
      Runs b o r → Runs (.choice p a b) (false :: o) (r.after [p])
  | loopWait {p : π} {a : Control π} : Runs (.loop p a) [] ⟨[p], .waiting, []⟩
  | loopDone {p : π} {a : Control π} {o : List Bool} :
      Runs (.loop p a) (false :: o) ⟨[p], .finished, o⟩
  | loopAgain {p : π} {a : Control π} {o o' : List Bool} {ps : List π} {r : Course π} :
      Runs a o ⟨ps, .finished, o'⟩ → Runs (.loop p a) o' r →
      Runs (.loop p a) (true :: o) (r.after (p :: ps))
  | loopStop {p : π} {a : Control π} {o : List Bool} {r : Course π} :
      Runs a o r → r.exit ≠ .finished → Runs (.loop p a) (true :: o) (r.after [p])

variable {π : Type} {a : Control π} {o : List Bool} {r : Course π}

theorem Runs.unique (h : a.Runs o r) : ∀ r', a.Runs o r' → r' = r := by
  induction h with
  | skip | simple | leave | choiceWait | loopWait | loopDone => exact fun r' h' => by cases h'; rfl
  | seq _ _ first second =>
      intro r' h'
      cases h' with
      | seq h₁ h₂ =>
          cases first _ h₁
          rw [second _ h₂]
      | seqStop h₁ stops =>
          cases first _ h₁
          exact absurd rfl stops
  | seqStop _ stops first =>
      intro r' h'
      cases h' with
      | seq h₁ _ =>
          cases first _ h₁
          exact absurd rfl stops
      | seqStop h₁ _ => exact first _ h₁
  | choiceYes _ ih =>
      intro r' h'
      cases h' with
      | choiceYes h => rw [ih _ h]
  | choiceNo _ ih =>
      intro r' h'
      cases h' with
      | choiceNo h => rw [ih _ h]
  | loopAgain _ _ first second =>
      intro r' h'
      cases h' with
      | loopAgain h₁ h₂ =>
          cases first _ h₁
          rw [second _ h₂]
      | loopStop h₁ stops =>
          cases first _ h₁
          exact absurd rfl stops
  | loopStop _ stops first =>
      intro r' h'
      cases h' with
      | loopAgain h₁ _ =>
          cases first _ h₁
          exact absurd rfl stops
      | loopStop h₁ _ => rw [first _ h₁]

/-- If the body has a run under any outcomes, the loop has. -/
theorem exists_runs_loop (p : π)
    (body : ∀ o, ∃ r : Course π, a.Runs o r ∧ r.rest.length ≤ o.length) (n : Nat) :
    ∀ o, o.length ≤ n → ∃ r : Course π, (Control.loop p a).Runs o r ∧ r.rest.length ≤ o.length := by
  induction n with
  | zero =>
      intro o ho
      obtain rfl := List.length_eq_zero_iff.1 (Nat.le_zero.1 ho)
      exact ⟨_, .loopWait, Nat.le_refl 0⟩
  | succ n ih =>
      intro o ho
      cases o with
      | nil => exact ⟨_, .loopWait, Nat.le_refl 0⟩
      | cons outcome o =>
          cases outcome with
          | false => exact ⟨_, .loopDone, Nat.le_succ _⟩
          | true =>
              obtain ⟨⟨ps, exit, rest⟩, first, less⟩ := body o
              by_cases finished : exit = .finished
              · subst finished
                have fewer : rest.length ≤ o.length := less
                have bound : o.length ≤ n := Nat.le_of_succ_le_succ ho
                obtain ⟨r, again, less'⟩ := ih rest (Nat.le_trans fewer bound)
                exact ⟨_, .loopAgain first again, Nat.le_succ_of_le (Nat.le_trans less' fewer)⟩
              · exact ⟨_, .loopStop first finished, Nat.le_succ_of_le less⟩

theorem exists_runs (a : Control π) : ∀ o, ∃ r : Course π, a.Runs o r ∧ r.rest.length ≤ o.length := by
  induction a with
  | skip => exact fun o => ⟨_, .skip, Nat.le_refl _⟩
  | simple p => exact fun o => ⟨_, .simple, Nat.le_refl _⟩
  | leave p => exact fun o => ⟨_, .leave, Nat.le_refl _⟩
  | seq a b iha ihb =>
      intro o
      obtain ⟨⟨ps, exit, rest⟩, first, less⟩ := iha o
      by_cases finished : exit = .finished
      · subst finished
        obtain ⟨r, second, less'⟩ := ihb rest
        exact ⟨_, .seq first second, Nat.le_trans less' less⟩
      · exact ⟨_, .seqStop first finished, less⟩
  | choice p a b iha ihb =>
      intro o
      cases o with
      | nil => exact ⟨_, .choiceWait, Nat.le_refl 0⟩
      | cons outcome o =>
          cases outcome with
          | true =>
              obtain ⟨r, taken, less⟩ := iha o
              exact ⟨_, .choiceYes taken, Nat.le_succ_of_le less⟩
          | false =>
              obtain ⟨r, taken, less⟩ := ihb o
              exact ⟨_, .choiceNo taken, Nat.le_succ_of_le less⟩
  | loop p a ih => exact fun o => exists_runs_loop p ih o.length o (Nat.le_refl _)

end Control

/-! ## Statements -/

/-- A statement that has no control. -/
inductive Simple where
  | expr (e : Expr)
  | assign (target : String) (value : Expr)
  | assignElement (target : String) (index value : Expr)

/-- A piece of a statement: a condition, a statement that has no control, or what is returned. -/
inductive Segment where
  | condition (e : Expr)
  | statement (s : Simple)
  | result (value : Option Expr)

mutual

/-- The control of a statement.  Without an `else`, nothing is done there. -/
def Stmt.control : Stmt → Control Segment
  | .block _ body => Stmt.controlIn body
  | .ifThen _ condition thenBranch => .choice (.condition condition) thenBranch.control .skip
  | .ifElse _ condition thenBranch elseBranch =>
      .choice (.condition condition) thenBranch.control elseBranch.control
  | .while _ condition body => .loop (.condition condition) body.control
  | .expr e => .simple (.statement (.expr e))
  | .assign _ target value => .simple (.statement (.assign target value))
  | .assignElement _ target index value => .simple (.statement (.assignElement target index value))
  | .return _ value => .leave (.result value)

def Stmt.controlIn : List Stmt → Control Segment
  | [] => .skip
  | stmt :: stmts => .seq stmt.control (Stmt.controlIn stmts)

end

end JavaMinus.Source
