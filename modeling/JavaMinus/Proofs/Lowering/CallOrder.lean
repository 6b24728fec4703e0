/-
# The calls of bodies in the order in which they are made

A call is made after those in its target and in its arguments, and an operator is applied after the
calls on both of its sides.  `Stmt.callsIn` lists the calls of a body in this order, each of them
once, with the creations of objects, which call a constructor.

The calls of methods among the uses of a body are theirs, one by one (`Stmt.callsIn_invoked`).  So
what is said of the methods that the uses call is said of the calls in the text.
-/
import JavaMinus.Proofs.Assembly.Lines
import JavaMinus.Proofs.Lowering.Calls
import Mathlib.Data.List.Forall2

namespace JavaMinus

open Source Ir

namespace Ir

/-- The call in a use, if it calls a method. -/
def Use.invoked? : Use → Option Outline
  | .call o => if o.kind.how?.isSome then some o else none
  | .receiver => none

/-- The calls of methods among uses. -/
def invokedIn (us : List Use) : List Outline := us.filterMap Use.invoked?

theorem invokedIn_append (us us' : List Use) :
    invokedIn (us ++ us') = invokedIn us ++ invokedIn us' :=
  List.filterMap_append

theorem invokedIn_receiverUse (isReceiver : Bool) : invokedIn (receiverUse isReceiver) = [] := by
  cases isReceiver <;> rfl

end Ir

namespace Source

/-- Whether a method is called for the expression itself. -/
def Expr.invokes : Expr → Bool
  | .call .. | .newObject .. => true
  | _ => false

mutual

/-- The calls in an expression, in the order in which they are made. -/
def Expr.calls : Expr → List Expr
  | .int .. | .bool .. | .name .. | .this _ => []
  | .binary _ _ lhs rhs => lhs.calls ++ rhs.calls
  | .not _ operand => operand.calls
  | .index _ array i => array.calls ++ i.calls
  | .length _ array => array.calls
  | .call tag target method args =>
      target.calls ++ (Expr.callsIn args ++ [.call tag target method args])
  | .newArray _ size => size.calls
  | .newObject tag className => [.newObject tag className]
  | .paren _ inner => inner.calls

def Expr.callsIn : List Expr → List Expr
  | [] => []
  | e :: es => e.calls ++ Expr.callsIn es

end

mutual

def Stmt.calls : Stmt → List Expr
  | .block _ body => Stmt.callsIn body
  | .ifThen _ condition thenBranch => condition.calls ++ thenBranch.calls
  | .ifElse _ condition thenBranch elseBranch =>
      condition.calls ++ (thenBranch.calls ++ elseBranch.calls)
  | .while _ condition body => condition.calls ++ body.calls
  | .expr e => e.calls
  | .assign _ _ value => value.calls
  | .assignElement _ _ index value => index.calls ++ value.calls
  | .return _ value => Expr.callsIn value.toList

def Stmt.callsIn : List Stmt → List Expr
  | [] => []
  | stmt :: stmts => stmt.calls ++ Stmt.callsIn stmts

end

/-! ## Each call of the text, once -/

mutual

theorem Expr.calls_perm : ∀ e : Expr, e.calls.Perm (e.occurrences.filter Expr.invokes)
  | .int .. | .bool .. | .name .. | .this _ | .newObject .. => .refl _
  | .binary _ _ lhs rhs => by
      show List.Perm _ ((lhs.occurrences ++ rhs.occurrences).filter _)
      rw [List.filter_append]
      exact lhs.calls_perm.append rhs.calls_perm
  | .not _ operand => operand.calls_perm
  | .index _ array i => by
      show List.Perm _ ((array.occurrences ++ i.occurrences).filter _)
      rw [List.filter_append]
      exact array.calls_perm.append i.calls_perm
  | .length _ array => array.calls_perm
  | .call tag target method args => by
      show List.Perm _ (.call tag target method args ::
        (target.occurrences ++ occurrencesIn args).filter _)
      rw [List.filter_append, calls, ← List.append_assoc]
      exact List.perm_append_comm.trans
        ((target.calls_perm.append (Expr.callsIn_perm args)).cons _)
  | .newArray _ size => size.calls_perm
  | .paren _ inner => inner.calls_perm

theorem Expr.callsIn_perm : ∀ es : List Expr,
    (Expr.callsIn es).Perm ((Expr.occurrencesIn es).filter Expr.invokes)
  | [] => .refl _
  | e :: es => by
      rw [Expr.callsIn, Expr.occurrencesIn, List.filter_append]
      exact e.calls_perm.append (Expr.callsIn_perm es)

end

mutual

theorem Stmt.calls_perm : ∀ stmt : Stmt, stmt.calls.Perm (stmt.occurrences.filter Expr.invokes)
  | .block _ body => Stmt.callsIn_perm body
  | .ifThen _ condition thenBranch => by
      rw [calls, occurrences, List.filter_append]
      exact condition.calls_perm.append thenBranch.calls_perm
  | .ifElse _ condition thenBranch elseBranch => by
      rw [calls, occurrences, List.filter_append, List.filter_append]
      exact condition.calls_perm.append (thenBranch.calls_perm.append elseBranch.calls_perm)
  | .while _ condition body => by
      rw [calls, occurrences, List.filter_append]
      exact condition.calls_perm.append body.calls_perm
  | .expr e => e.calls_perm
  | .assign _ _ value => value.calls_perm
  | .assignElement _ _ index value => by
      rw [calls, occurrences, List.filter_append]
      exact index.calls_perm.append value.calls_perm
  | .return _ value => Expr.callsIn_perm value.toList

theorem Stmt.callsIn_perm : ∀ stmts : List Stmt,
    (Stmt.callsIn stmts).Perm ((Stmt.occurrencesIn stmts).filter Expr.invokes)
  | [] => .refl _
  | stmt :: stmts => by
      rw [Stmt.callsIn, Stmt.occurrencesIn, List.filter_append]
      exact stmt.calls_perm.append (Stmt.callsIn_perm stmts)

end

/-! ## The calls among the uses -/

/-- The call is what the expression is lowered to in some place. -/
inductive Expr.Invokes (s : Scope) : Expr → Outline → Prop where
  | call (tag : Tag) (target : Expr) (method : String) (args : List Expr) (expected : Option Ty)
      (wanted : Bool) :
      Invokes s (.call tag target method args) (Expr.outline s target method args expected wanted)
  | newObject (tag : Tag) (className : String) {o : Outline} :
      Expr.constructed className = .call o → Invokes s (.newObject tag className) o

theorem Expr.calls_of_namesClass {s : Scope} : ∀ e : Expr, e.namesClass s = true → e.calls = []
  | .name .., _ => rfl
  | .paren _ inner, h => calls_of_namesClass inner h
  | .int .., h | .bool .., h | .this _, h | .binary .., h | .not .., h | .index .., h | .length .., h
  | .call .., h | .newArray .., h | .newObject .., h => nomatch h

variable {s : Scope}

theorem invokedIn_held (e : Expr) : invokedIn e.held = [] := invokedIn_receiverUse _

theorem invokedIn_heldAll (args : List Expr) : invokedIn (args.flatMap Expr.held) = [] := by
  induction args with
  | nil => rfl
  | cons arg args ih => rw [List.flatMap_cons, invokedIn_append, invokedIn_held, ih]; rfl

theorem invokedIn_outline (target : Expr) (method : String) (args : List Expr)
    (expected : Option Ty) (wanted : Bool) :
    invokedIn [.call (Expr.outline s target method args expected wanted)] =
      [Expr.outline s target method args expected wanted] := by
  have calls : (Expr.outline s target method args expected wanted).kind.how?.isSome = true := by
    show CallKind.how? (if target.namesClass s then .invokeStatic else .invokeVirtual) |>.isSome
    split <;> rfl
  rw [invokedIn, List.filterMap_cons, Use.invoked?, if_pos calls]
  rfl

mutual

theorem Expr.calls_invoked : ∀ (e : Expr) (wanted : Bool) (expected : Option Ty),
    List.Forall₂ (Expr.Invokes s) e.calls (invokedIn (e.uses s wanted expected))
  | .int .., _, _ | .bool .., _, _ | .this _, _, _ => .nil
  | .name _ text, _, _ => by
      rw [uses, invokedIn_receiverUse]
      exact .nil
  | .binary _ op lhs rhs, _, _ => by
      rw [uses, calls]
      simp only [invokedIn_append, invokedIn_held, List.append_nil]
      exact List.rel_append (lhs.calls_invoked _ _) (rhs.calls_invoked _ _)
  | .not _ operand, _, _ => by
      rw [uses, invokedIn_append, invokedIn_held, List.append_nil]
      exact operand.calls_invoked _ _
  | .index _ array i, _, _ => by
      rw [uses, calls, invokedIn_append]
      exact List.rel_append (array.calls_invoked _ _) (i.calls_invoked _ _)
  | .length _ array, _, _ => by
      rw [uses, invokedIn_append, invokedIn_append, invokedIn_held]
      exact (List.append_nil _).symm ▸ array.calls_invoked _ _
  | .newArray _ size, _, _ => by
      rw [uses, invokedIn_append, invokedIn_append, invokedIn_held]
      exact (List.append_nil _).symm ▸ size.calls_invoked _ _
  | .newObject tag className, _, _ => .cons (.newObject tag className rfl) .nil
  | .paren _ inner, wanted, expected => inner.calls_invoked wanted expected
  | .call tag target method args, wanted, expected => by
      have receiver : List.Forall₂ (Expr.Invokes s) target.calls
          (invokedIn (if target.namesClass s then [] else target.uses s true none)) := by
        split
        · rename_i named
          rw [Expr.calls_of_namesClass target named]
          exact .nil
        · exact target.calls_invoked _ _
      rw [uses, calls]
      simp only [invokedIn_append, invokedIn_held, invokedIn_heldAll, invokedIn_outline,
        List.nil_append]
      exact List.rel_append receiver (List.rel_append (Expr.callsIn_invoked args _)
        (.cons (.call tag target method args expected wanted) .nil))

theorem Expr.callsIn_invoked : ∀ (args : List Expr) (params : List Symbol),
    List.Forall₂ (Expr.Invokes s) (Expr.callsIn args) (invokedIn (Expr.usesIn s args params))
  | [], _ => .nil
  | arg :: args, params => by
      rw [Expr.usesIn, Expr.callsIn, invokedIn_append]
      exact List.rel_append (arg.calls_invoked _ _) (Expr.callsIn_invoked args _)

end

theorem Expr.calls_placed (e : Expr) (expected : Option Ty) :
    List.Forall₂ (Expr.Invokes s) e.calls (invokedIn (e.placedUses s expected)) := by
  rw [placedUses, invokedIn_append, invokedIn_held, List.append_nil]
  exact e.calls_invoked true expected

mutual

theorem Stmt.calls_invoked : ∀ stmt : Stmt,
    List.Forall₂ (Expr.Invokes s) stmt.calls (invokedIn (stmt.uses s))
  | .block _ body => Stmt.callsIn_invoked body
  | .ifThen _ condition thenBranch => by
      rw [uses, calls, invokedIn_append]
      exact List.rel_append (condition.calls_placed _) thenBranch.calls_invoked
  | .ifElse _ condition thenBranch elseBranch => by
      rw [uses, calls, invokedIn_append, invokedIn_append]
      exact List.rel_append (condition.calls_placed _)
        (List.rel_append thenBranch.calls_invoked elseBranch.calls_invoked)
  | .while _ condition body => by
      rw [uses, calls, invokedIn_append]
      exact List.rel_append (condition.calls_placed _) body.calls_invoked
  | .expr e => e.calls_invoked false none
  | .assign _ target value => by
      rw [uses, invokedIn_append, invokedIn_append, invokedIn_receiverUse, invokedIn_held]
      exact (List.append_nil _).symm ▸ value.calls_invoked _ _
  | .assignElement _ target index value => by
      rw [uses, calls, invokedIn_append, invokedIn_append, invokedIn_receiverUse, List.nil_append]
      exact List.rel_append (index.calls_invoked _ _) (value.calls_placed _)
  | .return _ none => .nil
  | .return _ (some value) => by
      rw [uses, calls, Option.toList_some, Expr.callsIn, Expr.callsIn, List.append_nil]
      exact value.calls_placed _

/-- The calls of methods among the uses of statements are those in the statements, in order. -/
theorem Stmt.callsIn_invoked : ∀ stmts : List Stmt,
    List.Forall₂ (Expr.Invokes s) (Stmt.callsIn stmts) (invokedIn (Stmt.usesIn s stmts))
  | [] => .nil
  | stmt :: stmts => by
      rw [Stmt.usesIn, Stmt.callsIn, invokedIn_append]
      exact List.rel_append stmt.calls_invoked (Stmt.callsIn_invoked stmts)

end

end Source

end JavaMinus
