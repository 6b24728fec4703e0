/-
# The calls of a program

Each call in the text of a program becomes a call in its intermediate form, once, and apart from
them only objects and arrays are created and lengths are read.  So what can be asked of a call,
whatever is expected of its result, can be asked of the uses of a statement or of the calls that
occur in it (`AsksCalls.forall_mem_stmts_uses_iff`).
-/
import JavaMinus.Proofs.Lowering.Uses
import JavaMinus.Source.Occurrence

namespace JavaMinus

open Source Ir

namespace Source

def Expr.isCall : Expr → Bool
  | .call .. => true
  | _ => false

/-- What is asked of uses is a question about calls: it is true of all other uses, and of a call
exactly if `Q` is true of the expression, where that is `Good`. -/
structure AsksCalls (s : Scope) (Good Q : Expr → Prop) (P : Use → Prop) : Prop where
  receiver : P .receiver
  operation : ∀ o : Outline, o.method = none → P (.call o)
  constructed : ∀ className, P (Expr.constructed className)
  other : ∀ e : Expr, e.isCall = false → Q e
  call : ∀ tag target method args, Good (.call tag target method args) → ∀ wanted expected,
    (P (.call (Expr.outline s target method args expected wanted)) ↔
      Q (.call tag target method args))

theorem Expr.uses_of_namesClass {s : Scope} : ∀ (e : Expr) (wanted : Bool) (expected : Option Ty),
    e.namesClass s = true → e.uses s wanted expected = []
  | .name _ text, _, _, h => by
      have undeclared : s.lookup text = none := Option.isNone_iff_eq_none.1 h
      rw [uses, Scope.isField, undeclared]
      rfl
  | .paren _ inner, wanted, expected, h => uses_of_namesClass inner wanted expected h
  | .int .., _, _, h | .bool .., _, _, h | .this _, _, _, h | .binary .., _, _, h | .not .., _, _, h
  | .index .., _, _, h | .length .., _, _, h | .call .., _, _, h | .newArray .., _, _, h
  | .newObject .., _, _, h => nomatch h

namespace AsksCalls

variable {s : Scope} {Good Q : Expr → Prop} {P : Use → Prop}

theorem receiverUse (h : AsksCalls s Good Q P) (isReceiver : Bool) :
    ∀ u ∈ Ir.receiverUse isReceiver, P u := by
  cases isReceiver with
  | false => exact List.forall_mem_nil _
  | true => exact List.forall_mem_singleton.2 h.receiver

theorem held (h : AsksCalls s Good Q P) (e : Expr) : ∀ u ∈ e.held, P u := h.receiverUse _

theorem heldAll (h : AsksCalls s Good Q P) (args : List Expr) :
    ∀ u ∈ args.flatMap Expr.held, P u := by
  intro u hu
  obtain ⟨e, -, hu⟩ := List.mem_flatMap.1 hu
  exact h.held e u hu

mutual

theorem forall_mem_uses_iff (h : AsksCalls s Good Q P) : ∀ (e : Expr) (wanted : Bool)
    (expected : Option Ty), (∀ occ ∈ e.occurrences, Good occ) →
      ((∀ u ∈ e.uses s wanted expected, P u) ↔ ∀ occ ∈ e.occurrences, Q occ)
  | .int .., _, _, _ | .bool .., _, _, _ | .this _, _, _, _ =>
      iff_of_true (List.forall_mem_nil _) (List.forall_mem_singleton.2 (h.other _ rfl))
  | .name .., _, _, _ =>
      iff_of_true (h.receiverUse _) (List.forall_mem_singleton.2 (h.other _ rfl))
  | .binary tag op lhs rhs, _, _, good => by
      simp only [Expr.occurrences, List.forall_mem_cons, List.forall_mem_append] at good
      have other : Q (.binary tag op lhs rhs) := h.other _ rfl
      simp only [Expr.uses, Expr.occurrences, List.forall_mem_cons, List.forall_mem_append,
        forall_mem_uses_iff h lhs true (some op.operandType) good.2.1,
        forall_mem_uses_iff h rhs true (some op.operandType) good.2.2, other, true_and]
      exact and_congr_right fun _ => and_iff_left ⟨h.held lhs, h.held rhs⟩
  | .not tag operand, _, _, good => by
      obtain ⟨-, good⟩ := List.forall_mem_cons.1 good
      have other : Q (.not tag operand) := h.other _ rfl
      simp only [Expr.uses, Expr.occurrences, List.forall_mem_cons, List.forall_mem_append,
        forall_mem_uses_iff h operand true (some .boolean) good, other, true_and]
      exact and_iff_left (h.held operand)
  | .index tag array i, _, _, good => by
      simp only [Expr.occurrences, List.forall_mem_cons, List.forall_mem_append] at good
      have other : Q (.index tag array i) := h.other _ rfl
      simp only [Expr.uses, Expr.occurrences, List.forall_mem_cons, List.forall_mem_append,
        forall_mem_uses_iff h array true (some .intArray) good.2.1,
        forall_mem_uses_iff h i true (some .int) good.2.2, other, true_and]
  | .length tag array, _, _, good => by
      obtain ⟨-, good⟩ := List.forall_mem_cons.1 good
      have other : Q (.length tag array) := h.other _ rfl
      simp only [Expr.uses, Expr.occurrences, List.forall_mem_cons, List.forall_mem_append,
        forall_mem_uses_iff h array true (some .intArray) good, other, true_and]
      exact and_iff_left ⟨h.held array, h.operation _ rfl, List.forall_mem_nil _⟩
  | .newArray tag size, _, _, good => by
      obtain ⟨-, good⟩ := List.forall_mem_cons.1 good
      have other : Q (.newArray tag size) := h.other _ rfl
      simp only [Expr.uses, Expr.occurrences, List.forall_mem_cons, List.forall_mem_append,
        forall_mem_uses_iff h size true (some .int) good, other, true_and]
      exact and_iff_left ⟨h.held size, h.operation _ rfl, List.forall_mem_nil _⟩
  | .newObject _ className, _, _, _ => by
      refine iff_of_true ?_ (List.forall_mem_singleton.2 (h.other _ rfl))
      refine List.forall_mem_cons.2 ⟨h.operation _ rfl, ?_⟩
      exact List.forall_mem_singleton.2 (h.constructed className)
  | .paren tag inner, wanted, expected, good => by
      obtain ⟨-, good⟩ := List.forall_mem_cons.1 good
      rw [Expr.uses, Expr.occurrences, List.forall_mem_cons,
        forall_mem_uses_iff h inner wanted expected good]
      exact (and_iff_right (h.other _ rfl)).symm
  | .call tag target method args, wanted, expected, good => by
      simp only [Expr.occurrences, List.forall_mem_cons, List.forall_mem_append] at good
      have called : (if target.namesClass s then [] else target.uses s true none) =
          target.uses s true none :=
        ite_eq_right_iff.2 fun named => (target.uses_of_namesClass true none named).symm
      have own : (∀ u ∈ target.held ++ (args.flatMap Expr.held ++
            [.call (Expr.outline s target method args expected wanted)]), P u) ↔
          Q (.call tag target method args) := by
        rw [List.forall_mem_append, and_iff_right (h.held target), List.forall_mem_append,
          and_iff_right (h.heldAll args), List.forall_mem_singleton]
        exact h.call tag target method args good.1 wanted expected
      rw [Expr.uses, called, List.forall_mem_append, List.forall_mem_append, own, Expr.occurrences,
        List.forall_mem_cons, List.forall_mem_append,
        forall_mem_uses_iff h target true none good.2.1,
        forall_mem_usesIn_iff h args (Expr.expectedParams s target method) good.2.2, ← and_assoc,
        and_comm]

theorem forall_mem_usesIn_iff (h : AsksCalls s Good Q P) : ∀ (args : List Expr)
    (params : List Symbol), (∀ occ ∈ Expr.occurrencesIn args, Good occ) →
      ((∀ u ∈ Expr.usesIn s args params, P u) ↔ ∀ occ ∈ Expr.occurrencesIn args, Q occ)
  | [], _, _ => iff_of_true (List.forall_mem_nil _) (List.forall_mem_nil _)
  | arg :: args, params, good => by
      obtain ⟨goodFirst, goodMore⟩ := List.forall_mem_append.1 good
      rw [Expr.usesIn, Expr.occurrencesIn, List.forall_mem_append, List.forall_mem_append,
        forall_mem_uses_iff h arg true (params.head?.map (·.type)) goodFirst,
        forall_mem_usesIn_iff h args params.tail goodMore]

end

theorem forall_mem_placedUses_iff (h : AsksCalls s Good Q P) (e : Expr) (expected : Option Ty)
    (good : ∀ occ ∈ e.occurrences, Good occ) :
    (∀ u ∈ e.placedUses s expected, P u) ↔ ∀ occ ∈ e.occurrences, Q occ := by
  rw [Expr.placedUses, List.forall_mem_append, h.forall_mem_uses_iff e true expected good]
  exact and_iff_left (h.held e)

mutual

theorem forall_mem_stmt_uses_iff (h : AsksCalls s Good Q P) : ∀ stmt : Stmt,
    (∀ occ ∈ stmt.occurrences, Good occ) →
    ((∀ u ∈ stmt.uses s, P u) ↔ ∀ occ ∈ stmt.occurrences, Q occ)
  | .block _ body, good => forall_mem_stmts_uses_iff h body good
  | .ifThen _ condition thenBranch, good => by
      obtain ⟨good, goodThen⟩ := List.forall_mem_append.1 good
      rw [Stmt.uses, Stmt.occurrences, List.forall_mem_append, List.forall_mem_append,
        h.forall_mem_placedUses_iff condition _ good,
        forall_mem_stmt_uses_iff h thenBranch goodThen]
  | .ifElse _ condition thenBranch elseBranch, good => by
      simp only [Stmt.occurrences, List.forall_mem_append] at good
      simp only [Stmt.uses, Stmt.occurrences, List.forall_mem_append,
        h.forall_mem_placedUses_iff condition _ good.1,
        forall_mem_stmt_uses_iff h thenBranch good.2.1,
        forall_mem_stmt_uses_iff h elseBranch good.2.2]
  | .while _ condition body, good => by
      obtain ⟨good, goodBody⟩ := List.forall_mem_append.1 good
      rw [Stmt.uses, Stmt.occurrences, List.forall_mem_append, List.forall_mem_append,
        h.forall_mem_placedUses_iff condition _ good, forall_mem_stmt_uses_iff h body goodBody]
  | .expr e, good => h.forall_mem_uses_iff e false none good
  | .assign _ target value, good => by
      have placed := h.forall_mem_placedUses_iff value (s.variableType? target) good
      rw [Expr.placedUses, List.forall_mem_append] at placed
      rw [Stmt.uses, Stmt.occurrences, List.forall_mem_append, List.forall_mem_append, ← placed]
      exact and_congr_right fun _ => and_iff_right (h.receiverUse _)
  | .assignElement _ target index value, good => by
      obtain ⟨goodIndex, goodValue⟩ := List.forall_mem_append.1 good
      rw [Stmt.uses, Stmt.occurrences, List.forall_mem_append, List.forall_mem_append,
        List.forall_mem_append, h.forall_mem_uses_iff index true _ goodIndex,
        h.forall_mem_placedUses_iff value _ goodValue]
      exact and_iff_right (h.receiverUse _)
  | .return _ none, _ => iff_of_true (List.forall_mem_nil _) (List.forall_mem_nil _)
  | .return _ (some value), good => by
      rw [Stmt.occurrences, Option.toList_some, Expr.occurrencesIn, Expr.occurrencesIn,
        List.append_nil] at good ⊢
      exact h.forall_mem_placedUses_iff value _ good

theorem forall_mem_stmts_uses_iff (h : AsksCalls s Good Q P) : ∀ stmts : List Stmt,
    (∀ occ ∈ Stmt.occurrencesIn stmts, Good occ) →
      ((∀ u ∈ Stmt.usesIn s stmts, P u) ↔ ∀ occ ∈ Stmt.occurrencesIn stmts, Q occ)
  | [], _ => iff_of_true (List.forall_mem_nil _) (List.forall_mem_nil _)
  | stmt :: stmts, good => by
      obtain ⟨goodFirst, goodMore⟩ := List.forall_mem_append.1 good
      rw [Stmt.usesIn, Stmt.occurrencesIn, List.forall_mem_append, List.forall_mem_append,
        forall_mem_stmt_uses_iff h stmt goodFirst, forall_mem_stmts_uses_iff h stmts goodMore]

end

end AsksCalls

end Source

end JavaMinus
