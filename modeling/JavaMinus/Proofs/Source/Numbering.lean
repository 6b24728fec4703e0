/-
# Numbers of expressions

The readers number the expressions from one counter, each when its last token has been read.  So the
numbers of a tree, the parts of an expression before the expression itself and earlier statements
before later ones, are strictly increasing (`Program.ascends_of_ofLexemes`), and no two expressions
of a program have the same number (`Program.nodup_of_ofLexemes`).

Not every number is used in the tree: the access that turns out to be the target of an assignment is
thrown away, and with it the name of its array.  What every reader keeps is therefore that the
numbers of its answer lie, in order, between the counter before and after it (`Ascends`).
-/
import JavaMinus.Proofs.Source.Words
import JavaMinus.Source.Declaration
import JavaMinus.Source.Occurrence

namespace JavaMinus.Source

/-! ## Numbers in order -/

/-- The numbers increase from `k` on, and are all below `k'`. -/
def Ascends : Nat → List Nat → Nat → Prop
  | k, [], k' => k ≤ k'
  | k, n :: ns, k' => k ≤ n ∧ Ascends (n + 1) ns k'

namespace Ascends

theorem le : ∀ {ns : List Nat} {k k' : Nat}, Ascends k ns k' → k ≤ k'
  | [], _, _, h => h
  | _ :: _, _, _, ⟨here, more⟩ => Nat.le_trans (Nat.le_succ_of_le here) more.le

/-- The numbers increase from any earlier one on. -/
theorem from_le {ns : List Nat} {j k k' : Nat} (h : Ascends j ns k') (le : k ≤ j) :
    Ascends k ns k' := by
  cases ns with
  | nil => exact Nat.le_trans le h
  | cons n ns => exact ⟨Nat.le_trans le h.1, h.2⟩

theorem append : ∀ {ms ns : List Nat} {k j k' : Nat}, Ascends k ms j → Ascends j ns k' →
    Ascends k (ms ++ ns) k'
  | [], _, _, _, _, first, second => second.from_le first
  | _ :: _, _, _, _, _, ⟨here, more⟩, second => ⟨here, more.append second⟩

theorem last {ns : List Nat} {k k' : Nat} (h : Ascends k ns k') : Ascends k (ns ++ [k']) (k' + 1) :=
  h.append ⟨Nat.le_refl k', Nat.le_refl _⟩

theorem right : ∀ {ms ns : List Nat} {k k' : Nat}, Ascends k (ms ++ ns) k' → Ascends k ns k'
  | [], _, _, _, h => h
  | _ :: _, _, _, _, ⟨here, more⟩ => more.right.from_le (Nat.le_succ_of_le here)

theorem left : ∀ {ms ns : List Nat} {k k' : Nat}, Ascends k (ms ++ ns) k' → Ascends k ms k'
  | [], _, _, _, h => h.le
  | _ :: _, _, _, _, ⟨here, more⟩ => ⟨here, more.left⟩

theorem le_of_mem : ∀ {ns : List Nat} {k k' n : Nat}, Ascends k ns k' → n ∈ ns → k ≤ n
  | _ :: _, _, _, _, ⟨here, _⟩, .head _ => here
  | _ :: _, _, _, _, ⟨here, more⟩, .tail _ hn =>
      Nat.le_trans (Nat.le_succ_of_le here) (more.le_of_mem hn)

theorem pairwise : ∀ {ns : List Nat} {k k' : Nat}, Ascends k ns k' → ns.Pairwise (· < ·)
  | [], _, _, _ => .nil
  | _ :: _, _, _, ⟨_, more⟩ => .cons (fun _ hn => more.le_of_mem hn) more.pairwise

end Ascends

/-! ## The numbers of a tree -/

mutual

/-- The numbers of an expression and its parts, those of the parts first. -/
def Expr.numbers : Expr → List Nat
  | .int tag _ | .bool tag _ | .name tag _ | .this tag | .newObject tag _ => [tag.id]
  | .binary tag _ lhs rhs => (lhs.numbers ++ rhs.numbers) ++ [tag.id]
  | .not tag e | .length tag e | .newArray tag e | .paren tag e => e.numbers ++ [tag.id]
  | .index tag array i => (array.numbers ++ i.numbers) ++ [tag.id]
  | .call tag target _ args => (target.numbers ++ Expr.numbersIn args) ++ [tag.id]

def Expr.numbersIn : List Expr → List Nat
  | [] => []
  | e :: es => e.numbers ++ Expr.numbersIn es

end

mutual

/-- The numbers of the expressions of a statement, in the order of the text. -/
def Stmt.numbers : Stmt → List Nat
  | .block _ body => Stmt.numbersIn body
  | .ifThen _ condition thenBranch => condition.numbers ++ thenBranch.numbers
  | .ifElse _ condition thenBranch elseBranch =>
      condition.numbers ++ (thenBranch.numbers ++ elseBranch.numbers)
  | .while _ condition body => condition.numbers ++ body.numbers
  | .expr e => e.numbers
  | .assign _ _ value => value.numbers
  | .assignElement _ _ index value => index.numbers ++ value.numbers
  | .return _ value => Expr.numbersIn value.toList

def Stmt.numbersIn : List Stmt → List Nat
  | [] => []
  | s :: ss => s.numbers ++ Stmt.numbersIn ss

end

/-- The numbers of the expressions in the bodies of methods. -/
def Method.numbersIn (ms : List Method) : List Nat :=
  ms.flatMap fun m => Stmt.numbersIn m.body

mutual

theorem Expr.numbers_perm : ∀ e : Expr, e.numbers.Perm (e.occurrences.map Expr.id)
  | .int .. | .bool .. | .name .. | .this _ | .newObject .. => .refl _
  | .binary _ _ lhs rhs => by
      rw [numbers, occurrences, List.map_cons, List.map_append]
      exact List.perm_append_comm.trans ((lhs.numbers_perm.append rhs.numbers_perm).cons _)
  | .not _ e | .length _ e | .newArray _ e | .paren _ e => by
      rw [numbers, occurrences, List.map_cons]
      exact List.perm_append_comm.trans (e.numbers_perm.cons _)
  | .index _ array i => by
      rw [numbers, occurrences, List.map_cons, List.map_append]
      exact List.perm_append_comm.trans ((array.numbers_perm.append i.numbers_perm).cons _)
  | .call _ target _ args => by
      rw [numbers, occurrences, List.map_cons, List.map_append]
      exact List.perm_append_comm.trans
        ((target.numbers_perm.append (Expr.numbersIn_perm args)).cons _)

theorem Expr.numbersIn_perm : ∀ es : List Expr,
    (Expr.numbersIn es).Perm ((Expr.occurrencesIn es).map Expr.id)
  | [] => .refl _
  | e :: es => by
      rw [Expr.numbersIn, Expr.occurrencesIn, List.map_append]
      exact e.numbers_perm.append (Expr.numbersIn_perm es)

end

mutual

theorem Stmt.numbers_perm : ∀ s : Stmt, s.numbers.Perm (s.occurrences.map Expr.id)
  | .block _ body => Stmt.numbersIn_perm body
  | .ifThen _ condition thenBranch => by
      rw [numbers, occurrences, List.map_append]
      exact condition.numbers_perm.append thenBranch.numbers_perm
  | .ifElse _ condition thenBranch elseBranch => by
      rw [numbers, occurrences, List.map_append, List.map_append]
      exact condition.numbers_perm.append
        (thenBranch.numbers_perm.append elseBranch.numbers_perm)
  | .while _ condition body => by
      rw [numbers, occurrences, List.map_append]
      exact condition.numbers_perm.append body.numbers_perm
  | .expr e => e.numbers_perm
  | .assign _ _ value => value.numbers_perm
  | .assignElement _ _ index value => by
      rw [numbers, occurrences, List.map_append]
      exact index.numbers_perm.append value.numbers_perm
  | .return _ value => Expr.numbersIn_perm value.toList

theorem Stmt.numbersIn_perm : ∀ ss : List Stmt,
    (Stmt.numbersIn ss).Perm ((Stmt.occurrencesIn ss).map Expr.id)
  | [] => .refl _
  | s :: ss => by
      rw [Stmt.numbersIn, Stmt.occurrencesIn, List.map_append]
      exact s.numbers_perm.append (Stmt.numbersIn_perm ss)

end

/-- Whatever their order, the numbers in the bodies are those of the expressions that occur. -/
theorem Program.numbers_perm (p : Program) :
    (Method.numbersIn p.methods).Perm (p.occurrences.map Expr.id) := by
  unfold Method.numbersIn Program.occurrences
  induction p.methods with
  | nil => exact .refl _
  | cons m ms ih =>
      rw [List.flatMap_cons, List.flatMap_cons, List.map_append]
      exact (Stmt.numbersIn_perm m.body).append ih

/-! ## What a reader yields -/

variable {α β : Type} {m n : Nat}

/-- The answer and the number of the next expression after it satisfy `P`. -/
def Numbering (P : α → Nat → Prop) (r : Reading α n) : Prop :=
  ∀ p, r = .ok p → P p.value p.rest.nextId

namespace Numbering

theorem ok {P : α → Nat → Prop} {p : Parsed Input.size n α} (h : P p.value p.rest.nextId) :
    Numbering P (.ok p) := by
  intro q hq
  cases hq
  exact h

theorem error {P : α → Nat → Prop} (e : Error) : Numbering P (.error e : Reading α n) := by
  intro p hp
  cases hp

theorem mono {P Q : α → Nat → Prop} {r : Reading α n} (hr : Numbering P r)
    (h : ∀ a k, P a k → Q a k) : Numbering Q r :=
  fun p hp => h _ _ (hr p hp)

theorem bind {P : α → Nat → Prop} {Q : β → Nat → Prop} {r : Reading α m}
    {f : Parsed Input.size m α → Reading β n} (hr : Numbering P r)
    (hf : ∀ p, P p.value p.rest.nextId → Numbering Q (f p)) : Numbering Q (r >>= f) := by
  cases r with
  | error e => exact error e
  | ok p => exact hf p (hr p rfl)

end Numbering

/-- The reader numbers nothing. -/
abbrev Keeps (i : Input) (r : Reading α n) : Prop := Numbering (fun _ k => k = i.nextId) r

theorem expect_keeps (i : Input) (t : Token) (rule : String) : Keeps i (i.expect t rule) := by
  unfold Input.expect
  split
  · split
    · exact .ok rfl
    · exact .error _
  · exact .error _

theorem expectMark_keeps (i : Input) (mark : Mark) (rule : String) :
    Keeps i (i.expectMark mark rule) :=
  expect_keeps i (.mark mark) rule

theorem expectName_keeps (i : Input) (rule : String) : Keeps i (i.expectName rule) := by
  unfold Input.expectName
  split
  · exact .ok rfl
  · exact .error _

theorem close_keeps (p : Parsed Input.size n α) (mark : Mark) (rule : String) :
    Numbering (fun a k => a = p.value ∧ k = p.rest.nextId) (close p mark rule) :=
  (expectMark_keeps p.rest mark rule).bind fun _ hc => .ok ⟨rfl, hc⟩

/-! ## Expressions -/

theorem leaf_ascends {ts : List Lexeme} {k : Nat} {h : ts.length < n} {loc : Location}
    {node : Tag → Expr} (hn : ∀ tag, (node tag).numbers = [tag.id]) :
    Numbering (fun e k' => Ascends k e.numbers k') (leaf ts k n h loc node) := by
  refine .ok ?_
  show Ascends k (node ⟨k, loc⟩).numbers (k + 1)
  rw [hn]
  exact ⟨Nat.le_refl k, Nat.le_refl _⟩

mutual

theorem expression_ascends (i : Input) {size : Nat} (hs : i.size = size) :
    Numbering (fun e k => Ascends i.nextId e.numbers k) (expression i) := by
  rw [expression]
  exact chain_ascends .conjunction i hs
termination_by 16 * size + 11
decreasing_by all_goals (simp only [Level.height]; omega)

theorem chain_ascends (l : Level) (i : Input) {size : Nat} (hs : i.size = size) :
    Numbering (fun e k => Ascends i.nextId e.numbers k) (chain l i) := by
  rw [chain]
  refine (operand_ascends l i hs).bind fun first hfirst => ?_
  have := first.shorter
  exact (operators_ascends l first.value first.rest hfirst rfl).bind fun p hp => .ok hp
termination_by 16 * size + 2 * l.height + 2
decreasing_by all_goals omega

theorem operand_ascends (l : Level) (i : Input) {size : Nat} (hs : i.size = size) :
    Numbering (fun e k => Ascends i.nextId e.numbers k) (operand l i) := by
  cases l with
  | conjunction =>
      rw [operand]
      exact chain_ascends .comparison i hs
  | comparison =>
      rw [operand]
      exact chain_ascends .sum i hs
  | sum =>
      rw [operand]
      exact chain_ascends .product i hs
  | product =>
      rw [operand]
      exact unary_ascends i hs
termination_by 16 * size + 2 * l.height + 1
decreasing_by all_goals (simp only [Level.height]; omega)

/-- The left operand is numbered before the operators that follow it. -/
theorem operators_ascends (l : Level) (lhs : Expr) (i : Input) {k : Nat}
    (hlhs : Ascends k lhs.numbers i.nextId) {size : Nat} (hs : i.size = size) :
    Numbering (fun e k' => Ascends k e.numbers k') (operators l lhs i) := by
  rw [operators.eq_def]
  split
  · rename_i t ts next
    split
    · rename_i op _
      refine (operand_ascends l ⟨ts, next⟩ rfl).bind fun rhs hrhs => ?_
      have := rhs.shorter
      have node : Ascends k (Expr.binary ⟨rhs.rest.nextId, lhs.loc⟩ op lhs rhs.value).numbers
          (rhs.rest.nextId + 1) := (hlhs.append hrhs).last
      exact (operators_ascends l _ ⟨rhs.rest.tokens, rhs.rest.nextId + 1⟩ node rfl).bind
        fun p hp => .ok hp
    · exact .ok hlhs
  · exact .ok hlhs
termination_by 16 * size + 10
decreasing_by
  all_goals
    have := l.height_le
    simp only [Input.size, List.length_cons] at *
    omega

theorem unary_ascends (i : Input) {size : Nat} (hs : i.size = size) :
    Numbering (fun e k => Ascends i.nextId e.numbers k) (unary i) := by
  rw [unary.eq_def]
  split
  · rename_i loc ts k
    exact (unary_ascends ⟨ts, k⟩ rfl).bind fun e he => .ok he.last
  · refine (primary_ascends _ hs).bind fun base hbase => ?_
    have : base.rest.size < size := hs ▸ base.shorter
    exact (selectors_ascends base.value base.rest hbase rfl).bind fun p hp => .ok hp
termination_by 16 * size + 2
decreasing_by all_goals (simp only [Input.size, List.length_cons] at *; omega)

theorem selectors_ascends (e : Expr) (i : Input) {k : Nat} (he : Ascends k e.numbers i.nextId)
    {size : Nat} (hs : i.size = size) :
    Numbering (fun e' k' => Ascends k e'.numbers k') (selectors e i) := by
  rw [selectors.eq_def]
  split
  · rename_i loc ts next
    refine (expression_ascends ⟨ts, next⟩ rfl).bind fun inner hinner => ?_
    refine (close_keeps inner .rbracket _).bind fun index ⟨value, next⟩ => ?_
    rw [← value, ← next] at hinner
    have := index.shorter
    have node : Ascends k (Expr.index ⟨index.rest.nextId, loc⟩ e index.value).numbers
        (index.rest.nextId + 1) := (he.append hinner).last
    exact (selectors_ascends _ ⟨index.rest.tokens, index.rest.nextId + 1⟩ node rfl).bind
      fun p hp => .ok hp
  · rename_i loc _ ts next
    have node : Ascends k (Expr.length ⟨next, loc⟩ e).numbers (next + 1) := he.last
    exact (selectors_ascends _ ⟨ts, next + 1⟩ node rfl).bind fun p hp => .ok hp
  · rename_i loc ts next _
    refine (expectName_keeps ⟨ts, next⟩ _).bind fun word hword => ?_
    refine (close_keeps word .lparen _).bind fun method ⟨_, hmethod⟩ => ?_
    have := method.shorter
    refine (arguments_ascends method.rest rfl).bind fun args hargs => ?_
    have := args.shorter
    rw [hmethod, hword] at hargs
    have node : Ascends k (Expr.call ⟨args.rest.nextId, loc⟩ e method.value args.value).numbers
        (args.rest.nextId + 1) := (he.append hargs).last
    exact (selectors_ascends _ ⟨args.rest.tokens, args.rest.nextId + 1⟩ node rfl).bind
      fun p hp => .ok hp
  · exact .ok he
termination_by 16 * size + 10
decreasing_by all_goals (simp only [Input.size, List.length_cons] at *; omega)

theorem arguments_ascends (i : Input) {size : Nat} (hs : i.size = size) :
    Numbering (fun es k => Ascends i.nextId (Expr.numbersIn es) k) (arguments i) := by
  rw [arguments.eq_def]
  split
  · exact .ok (Nat.le_refl _)
  · exact someArguments_ascends _ hs
termination_by 16 * size + 13
decreasing_by all_goals omega

theorem someArguments_ascends (i : Input) {size : Nat} (hs : i.size = size) :
    Numbering (fun es k => Ascends i.nextId (Expr.numbersIn es) k) (someArguments i) := by
  rw [someArguments]
  refine (expression_ascends i hs).bind fun arg harg => ?_
  split
  · rename_i e loc ts k hlt
    have : Input.size ⟨ts, k⟩ + 1 < size := hs ▸ hlt
    exact (someArguments_ascends ⟨ts, k⟩ rfl).bind fun more hmore => .ok (Ascends.append harg hmore)
  · have single : Ascends i.nextId (Expr.numbersIn [arg.value]) arg.rest.nextId := by
      rw [Expr.numbersIn, Expr.numbersIn, List.append_nil]
      exact harg
    refine (close_keeps (arg.map ([·])) .rparen _).mono fun es k ⟨value, next⟩ => ?_
    rwa [value, next]
termination_by 16 * size + 12
decreasing_by all_goals (simp only [Input.size] at *; omega)

theorem primary_ascends (i : Input) {size : Nat} (hs : i.size = size) :
    Numbering (fun e k => Ascends i.nextId e.numbers k) (primary i) := by
  rw [primary.eq_def]
  split
  · exact leaf_ascends fun _ => rfl
  · exact leaf_ascends fun _ => rfl
  · exact leaf_ascends fun _ => rfl
  · exact leaf_ascends fun _ => rfl
  · exact leaf_ascends fun _ => rfl
  · rename_i loc ts k
    refine (expression_ascends ⟨ts, k⟩ rfl).bind fun inner hinner => ?_
    refine (close_keeps inner .rparen _).bind fun e ⟨value, next⟩ => .ok ?_
    rw [← value, ← next] at hinner
    exact hinner.last
  · rename_i loc ts k
    exact (creation_ascends loc ⟨ts, k⟩ rfl).bind fun e he => .ok he
  · exact .error _
termination_by 16 * size + 1
decreasing_by all_goals (simp only [Input.size, List.length_cons] at *; omega)

theorem creation_ascends (loc : Location) (i : Input) {size : Nat} (hs : i.size = size) :
    Numbering (fun e k => Ascends i.nextId e.numbers k) (creation loc i) := by
  rw [creation.eq_def]
  split
  · rename_i loc' ts k
    refine (expectMark_keeps ⟨ts, k⟩ .lbracket _).bind fun opening hopening => ?_
    have := opening.shorter
    refine (expression_ascends opening.rest rfl).bind fun inner hinner => ?_
    rw [hopening] at hinner
    refine (close_keeps inner .rbracket _).bind fun size ⟨value, next⟩ => .ok ?_
    rw [← value, ← next] at hinner
    exact hinner.last
  · refine (expectName_keeps _ _).bind fun word hword => ?_
    refine (close_keeps word .lparen _).bind fun opening ⟨_, hopening⟩ => ?_
    refine (close_keeps opening .rparen _).bind fun e ⟨_, he⟩ => .ok ?_
    rw [hopening, hword] at he
    exact ⟨Nat.le_of_eq he.symm, Nat.le_refl _⟩
termination_by 16 * size
decreasing_by all_goals (simp only [Input.size, List.length_cons] at *; omega)

end

/-! ## Statements -/

theorem condition_ascends (i : Input) (opening closing : String) :
    Numbering (fun e k => Ascends i.nextId e.numbers k) (condition i opening closing) := by
  refine (expectMark_keeps i .lparen opening).bind fun mark hmark => ?_
  refine (expression_ascends mark.rest rfl).bind fun inner hinner => ?_
  refine (close_keeps inner .rparen closing).bind fun p ⟨value, next⟩ => .ok ?_
  rw [hmark, ← value, ← next] at hinner
  exact hinner

theorem returned_ascends (loc : Location) (i : Input) :
    Numbering (fun s k => Ascends i.nextId s.numbers k) (returned loc i) := by
  unfold returned
  split
  · exact .ok (Nat.le_refl _)
  · refine (expression_ascends i rfl).bind fun inner hinner => ?_
    refine (close_keeps inner .semicolon _).bind fun p ⟨value, next⟩ => .ok ?_
    rw [← value, ← next] at hinner
    show Ascends _ (Stmt.numbers (.return loc (some p.value))) p.rest.nextId
    rwa [Stmt.numbers, Option.toList, Expr.numbersIn, Expr.numbersIn, List.append_nil]

theorem assignment_ascends (i : Input) :
    Numbering (fun s k => Ascends i.nextId s.numbers k) (assignment i) := by
  refine (expectName_keeps i _).bind fun target htarget => ?_
  refine (close_keeps target .assign _).bind fun mark ⟨_, hmark⟩ => ?_
  refine (expression_ascends mark.rest rfl).bind fun inner hinner => ?_
  refine (close_keeps inner .semicolon _).bind fun p ⟨value, next⟩ => .ok ?_
  rw [hmark, htarget, ← value, ← next] at hinner
  exact hinner

/-- The index of an element that is assigned to keeps its numbers. -/
theorem elementTarget_ascends {e index : Expr} {after : Input} {target : String} {k k' : Nat}
    (h : Ascends k e.numbers k') (ht : elementTarget e after = .ok (target, index)) :
    Ascends k index.numbers k' := by
  unfold elementTarget at ht
  split at ht
  · split at ht
    · cases ht
      exact h.left.right
    · cases ht
  · cases ht

theorem expressionStatement_ascends (i : Input) :
    Numbering (fun s k => Ascends i.nextId s.numbers k) (expressionStatement i) := by
  refine (expression_ascends i rfl).bind fun first hfirst => ?_
  split
  · rename_i e loc ts k hlt
    cases ht : elementTarget e ⟨⟨.mark .assign, loc⟩ :: ts, k⟩ with
    | error err => exact .error err
    | ok found =>
        obtain ⟨target, index⟩ := found
        refine (expression_ascends ⟨ts, k⟩ rfl).bind fun inner hinner => ?_
        refine (close_keeps inner .semicolon _).bind fun p ⟨value, next⟩ => .ok ?_
        rw [← value, ← next] at hinner
        exact (elementTarget_ascends hfirst ht).append hinner
  · refine (close_keeps first .semicolon _).bind fun p ⟨value, next⟩ => .ok ?_
    rw [← value, ← next] at hfirst
    exact hfirst

theorem plainStatement_ascends (i : Input) :
    Numbering (fun s k => Ascends i.nextId s.numbers k) (plainStatement i) := by
  unfold plainStatement
  split
  · exact assignment_ascends i
  · split
    · exact .error _
    · exact expressionStatement_ascends i

mutual

theorem statement_ascends (i : Input) {size : Nat} (hs : i.size = size) :
    Numbering (fun s k => Ascends i.nextId s.numbers k) (statement i) := by
  rw [statement.eq_def]
  split
  · rename_i loc ts k
    refine (statements_ascends ⟨ts, k⟩ rfl).bind fun body hbody => ?_
    refine (close_keeps body .rbrace _).bind fun p ⟨value, next⟩ => .ok ?_
    rw [← value, ← next] at hbody
    exact hbody
  · rename_i loc ts k
    refine (condition_ascends ⟨ts, k⟩ _ _).bind fun guard hguard => ?_
    have := guard.shorter
    exact (branches_ascends loc guard.value guard.rest hguard rfl).bind fun p hp => .ok hp
  · rename_i loc ts k
    refine (condition_ascends ⟨ts, k⟩ _ _).bind fun guard hguard => ?_
    have := guard.shorter
    exact (statement_ascends guard.rest rfl).bind fun body hbody => .ok (hguard.append hbody)
  · rename_i loc ts k
    exact (returned_ascends loc ⟨ts, k⟩).bind fun p hp => .ok hp
  · exact plainStatement_ascends _
termination_by 4 * size
decreasing_by all_goals (simp only [Input.size, List.length_cons] at *; omega)

theorem branches_ascends (loc : Location) (guard : Expr) (i : Input) {k : Nat}
    (hguard : Ascends k guard.numbers i.nextId) {size : Nat} (hs : i.size = size) :
    Numbering (fun s k' => Ascends k s.numbers k') (branches loc guard i) := by
  rw [branches]
  refine (statement_ascends i hs).bind fun first hfirst => ?_
  split
  · rename_i thenBranch loc' ts next hlt
    have : Input.size ⟨ts, next⟩ + 1 < size := hs ▸ hlt
    exact (statement_ascends ⟨ts, next⟩ rfl).bind fun second hsecond =>
      .ok (hguard.append (Ascends.append hfirst hsecond))
  · exact .ok (hguard.append hfirst)
termination_by 4 * size + 1
decreasing_by all_goals omega

theorem statements_ascends (i : Input) {size : Nat} (hs : i.size = size) :
    Numbering (fun ss k => Ascends i.nextId (Stmt.numbersIn ss) k) (statements i) := by
  rw [statements]
  split
  · exact .ok (Nat.le_refl _)
  · exact .ok (Nat.le_refl _)
  · refine (statement_ascends i hs).bind fun first hfirst => ?_
    have : first.rest.size < size := hs ▸ first.shorter
    exact (statements_ascends first.rest rfl).bind fun more hmore => .ok (hfirst.append hmore)
termination_by 4 * size + 1
decreasing_by all_goals omega

end

/-! ## Declarations -/

theorem typeOf_keeps (i : Input) : Keeps i (typeOf i) := by
  unfold typeOf
  split
  · split
    · exact .ok rfl
    · exact .error _
  · split
    · exact .ok rfl
    · exact .error _
  · exact .error _

theorem typed_keeps (i : Input) (rule : String) : Keeps i (typed i rule) :=
  (typeOf_keeps i).bind fun type htype =>
    (expectName_keeps type.rest rule).bind fun _ hname => .ok (hname.trans htype)

theorem variableDeclaration_keeps (i : Input) : Keeps i (variableDeclaration i) :=
  (typed_keeps i _).bind fun d hd => (close_keeps d .semicolon _).mono fun _ _ closed =>
    closed.2.trans hd

theorem someParameters_keeps (i : Input) {size : Nat} (hs : i.size = size) :
    Keeps i (someParameters i) := by
  rw [someParameters]
  refine (typed_keeps i _).bind fun first hfirst => ?_
  split
  · rename_i d loc ts k hlt
    have : Input.size ⟨ts, k⟩ + 1 < size := hs ▸ hlt
    exact (someParameters_keeps ⟨ts, k⟩ rfl).bind fun more hmore => .ok (hmore.trans hfirst)
  · exact (close_keeps _ .rparen _).mono fun _ _ closed => closed.2.trans hfirst
termination_by size
decreasing_by all_goals omega

theorem parameters_keeps (i : Input) : Keeps i (parameters i) := by
  unfold parameters
  split
  · exact .ok rfl
  · exact someParameters_keeps _ rfl

theorem bodyItems_ascends (i : Input) {size : Nat} (hs : i.size = size) :
    Numbering (fun items k => Ascends i.nextId (Stmt.numbersIn items.2) k) (bodyItems i) := by
  rw [bodyItems.eq_def]
  split
  · exact .ok (Nat.le_refl _)
  · exact .ok (Nat.le_refl _)
  · split
    · refine (variableDeclaration_keeps i).bind fun d hd => ?_
      have : d.rest.size < size := hs ▸ d.shorter
      refine (bodyItems_ascends d.rest rfl).bind fun more hmore => .ok ?_
      rw [hd] at hmore
      exact hmore
    · refine (statement_ascends i rfl).bind fun s hstmt => ?_
      have : s.rest.size < size := hs ▸ s.shorter
      exact (bodyItems_ascends s.rest rfl).bind fun more hmore => .ok (hstmt.append hmore)
termination_by size
decreasing_by all_goals omega

theorem method_ascends (i : Input) :
    Numbering (fun m k => Ascends i.nextId (Stmt.numbersIn m.body) k) (method i) := by
  refine (typeOf_keeps i.skipModifiers).bind fun returnType htype => ?_
  refine (expectName_keeps returnType.rest _).bind fun word hword => ?_
  refine (close_keeps word .lparen _).bind fun name ⟨_, hname⟩ => ?_
  refine (parameters_keeps name.rest).bind fun params hparams => ?_
  refine (expectMark_keeps params.rest .lbrace _).bind fun opening hopening => ?_
  refine (bodyItems_ascends opening.rest rfl).bind fun items hitems => ?_
  refine (close_keeps items .rbrace _).bind fun body ⟨value, next⟩ => .ok ?_
  rw [hopening, hparams, hname, hword, htype, ← value, ← next] at hitems
  exact hitems

theorem members_ascends (i : Input) {size : Nat} (hs : i.size = size) :
    Numbering (fun items k => Ascends i.nextId (Method.numbersIn items.2) k) (members i) := by
  rw [members.eq_def]
  split
  · exact .ok (Nat.le_refl _)
  · exact .ok (Nat.le_refl _)
  · cases isMethod i with
    | error e => exact .error e
    | ok isMethod =>
        cases isMethod with
        | true =>
            refine (method_ascends i).bind fun m hm => ?_
            have : m.rest.size < size := hs ▸ m.shorter
            exact (members_ascends m.rest rfl).bind fun more hmore => .ok (hm.append hmore)
        | false =>
            refine Numbering.bind (P := fun _ k => k = i.nextId) ?_ fun d hd => ?_
            · exact (variableDeclaration_keeps i.skipModifiers).bind fun d hd => .ok hd
            have : d.rest.size < size := hs ▸ d.shorter
            refine (members_ascends d.rest rfl).bind fun more hmore => .ok ?_
            rw [hd] at hmore
            exact hmore
termination_by size
decreasing_by all_goals omega

/-! ## Programs -/

/-- The numbers of a program that is read increase in the order of the text, those of the parts of
an expression before its own. -/
theorem Program.ascends_of_ofLexemes {ts : List Lexeme} {p : Program}
    (h : Program.ofLexemes ts = .ok p) : ∃ k k', Ascends k (Method.numbersIn p.methods) k' := by
  unfold Program.ofLexemes at h
  obtain ⟨head, -, h⟩ := exists_of_bind h
  unfold classAfter at h
  obtain ⟨word, -, h⟩ := exists_of_bind h
  obtain ⟨name, -, h⟩ := exists_of_bind h
  obtain ⟨parent, -, h⟩ := exists_of_bind h
  obtain ⟨opening, -, h⟩ := exists_of_bind h
  obtain ⟨items, hitems, h⟩ := exists_of_bind h
  obtain ⟨body, -, h⟩ := exists_of_bind h
  have ascends := members_ascends opening.rest rfl items hitems
  split at h
  · cases h
  · cases h
    exact ⟨_, _, ascends⟩

/-- No two expressions that occur in a program have the same number. -/
theorem Program.nodup_of_ofLexemes {ts : List Lexeme} {p : Program}
    (h : Program.ofLexemes ts = .ok p) : (p.occurrences.map Expr.id).Nodup := by
  obtain ⟨k, k', ascends⟩ := Program.ascends_of_ofLexemes h
  rw [← p.numbers_perm.nodup_iff]
  exact ascends.pairwise.imp Nat.ne_of_lt

end JavaMinus.Source
