/-
# Running lines of the intermediate form

The lines that an expression is lowered to are assignments to temporaries and calls of constructors.
A line is run on the variables of the method and on the store; an operand is read where the
instruction that holds it is run.

A run of lines changes no variable but those that its lines assign to (`exec_agree`).
-/
import JavaMinus.Lowering.Generator
import JavaMinus.Proofs.Evaluation.Meaning

namespace JavaMinus

/-- What an operator computes, before it wraps around; nothing for a division by zero. -/
def Ir.Operator.compute? (op : Operator) (a b : Int) : Option Int :=
  match op with
  | .add => some (a + b)
  | .sub => some (a - b)
  | .mul => some (a * b)
  | .div => if b = 0 then none else some (a.tdiv b)
  | .lt => some (truth (a < b))
  | .lte => some (truth (a ≤ b))
  | .gt => some (truth (b < a))
  | .gte => some (truth (b ≤ a))
  | .eq => some (truth (a = b))
  | .neq => some (truth (a ≠ b))
  | .and => some (truth (1 ≤ a ∧ 1 ≤ b))
  | .or => some (truth (1 ≤ a ∨ 1 ≤ b))
  | .not => none

namespace Evaluation

open Ir Lowering

/-! ## Operands and instructions -/

/-- Reads an operand. -/
def read (env : Env) : Element → Run Datum
  | .literal value _ => lift ((numeral? value).map .word)
  | .var name _ => lift (env.find name)
  | .item array index _ => do
      let a ← lift (env.find array)
      let i ← read env index
      readElement a i

/-- Reads operands in order. -/
def readAll (env : Env) : List Element → Run (List Datum)
  | [] => pure []
  | e :: es => do
      let d ← read env e
      let ds ← readAll env es
      pure (d :: ds)

/-- Makes a call, or creates what is written like one. -/
def runCall (w : World) (env : Env) (c : Ir.Call) : Run Datum :=
  match c.kind, c.target, c.method, c.args with
  | .new, some (.var _ (.classRef name)), none, [] => newObject w name
  | .new, none, none, [size] => do
      let n ← read env size
      newArray n
  | .arrayLength, some array, none, [] => do
      let a ← read env array
      readLength a
  | .invokeStatic, some (.var name _), some method, args => do
      let ds ← readAll env args
      invoke w ⟨.classNamed name, method, ds⟩
  | .invokeVirtual, some receiver, some method, args
  | .invokeSpecial, some receiver, some method, args => do
      let o ← read env receiver
      let ds ← readAll env args
      invoke w ⟨.object o, method, ds⟩
  | _, _, _, _ => trap

def result (w : World) (env : Env) : Instruction → Run Datum
  | .single operand => read env operand
  | .binary lhs operation rhs => do
      let l ← read env lhs
      let r ← read env rhs
      operate operation.op.compute? l r
  | .unary ⟨.not, _⟩ operand => do
      let d ← read env operand
      negate d
  | .getField object field => do
      let o ← read env object
      readField (field.name?.getD "") o
  | .call c => runCall w env c
  | _ => trap

/-- Runs a line; no other lines stand in a lowered expression. -/
def step (w : World) (env : Env) : Line → Run Env
  | .code _ (.assign (.var name _) _ rhs) => do
      let d ← result w env rhs
      pure (env.assign name d)
  | .code _ (.call c) => do
      let _ ← runCall w env c
      pure env
  | _ => trap

def exec (w : World) : List Line → Env → Run Env
  | [], env => pure env
  | line :: lines, env => do
      let env' ← step w env line
      exec w lines env'

theorem exec_append (w : World) : ∀ (lines more : List Line) (env : Env),
    exec w (lines ++ more) env = exec w lines env >>= exec w more
  | [], _, _ => by rw [List.nil_append, exec, pure_bind]
  | line :: lines, more, env => by
      simp only [List.cons_append, exec, bind_assoc]
      congr 1
      funext env'
      exact exec_append w lines more env'

theorem exec_singleton (w : World) (line : Line) (env : Env) :
    exec w [line] env = step w env line := by
  simp only [exec, bind_pure]

/-! ## Variables that stay -/

def assigned? : Line → Option String
  | .code _ (.assign (.var name _) _ _) => some name
  | _ => none

def AgreeOn (names : String → Prop) (env env' : Env) : Prop := ∀ n, names n → env n = env' n

theorem AgreeOn.refl (names : String → Prop) (env : Env) : AgreeOn names env env := fun _ _ => rfl

theorem AgreeOn.trans {names : String → Prop} {env env' env'' : Env} (h : AgreeOn names env env')
    (h' : AgreeOn names env' env'') : AgreeOn names env env'' :=
  fun n hn => (h n hn).trans (h' n hn)

theorem AgreeOn.mono {names names' : String → Prop} {env env' : Env} (h : AgreeOn names env env')
    (hsub : ∀ n, names' n → names n) : AgreeOn names' env env' :=
  fun n hn => h n (hsub n hn)

theorem AgreeOn.find_eq {names : String → Prop} {env env' : Env} (h : AgreeOn names env env')
    {name : String} (hn : names name) : env.find name = env'.find name := by
  rw [Env.find, Env.find, h name hn]

theorem AgreeOn.assign {names : String → Prop} (env : Env) {name : String} (hn : ¬ names name)
    (d : Datum) : AgreeOn names env (env.assign name d) := by
  intro other hother
  rw [Env.assign, if_neg]
  rintro rfl
  exact hn hother

/-- What follows a run may take its variables to be those it began with, where the lines assign to
nothing that matters. -/
theorem exec_bind_congr {w : World} {names : String → Prop} {α : Type} :
    ∀ {lines : List Line} (env : Env),
    (∀ line ∈ lines, ∀ n, assigned? line = some n → ¬ names n) → ∀ {f g : Env → Run α},
    (∀ env', AgreeOn names env env' → f env' = g env') →
    exec w lines env >>= f = exec w lines env >>= g
  | [], env, _, f, g, h => by
      rw [exec, pure_bind, pure_bind, h env (.refl names env)]
  | line :: lines, env, hlines, f, g, h => by
      have rest : ∀ env', AgreeOn names env env' →
          exec w lines env' >>= f = exec w lines env' >>= g := fun env' henv' =>
        exec_bind_congr env' (fun l hl => hlines l (List.mem_cons_of_mem line hl))
          fun env'' henv'' => h env'' (henv'.trans henv'')
      rw [exec, bind_assoc, bind_assoc]
      unfold step
      split
      · rename_i indent name type type' rhs
        rw [bind_assoc, bind_assoc]
        congr 1
        funext d
        rw [pure_bind, pure_bind]
        exact rest _ (.assign env (hlines _ List.mem_cons_self name rfl) d)
      · rw [bind_assoc, bind_assoc]
        congr 1
        funext d
        rw [pure_bind, pure_bind]
        exact rest _ (.refl names env)
      · rfl

end Evaluation

end JavaMinus
