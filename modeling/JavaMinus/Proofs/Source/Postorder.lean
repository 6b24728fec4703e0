/-
# The order of the numbers

Two expressions of a program that is read can be told apart by their numbers, and the numbers tell
how they stand to each other: the parts of an expression come before it, and what stands in an
earlier statement or method comes before what stands in a later one (`Program.numbered_in_order`).

All of this is read off one list.  The numbers of the whole program increase, and the numbers of
each expression, of each statement without those nested in it and of each method stand in a row in
that list, an expression's own number last.
-/
import JavaMinus.Proofs.Typing.Independence

namespace JavaMinus.Source

/-- Every expression of the first row has a smaller number than every one of the second. -/
def NumberedBefore (es es' : List Expr) : Prop := ∀ e ∈ es, ∀ e' ∈ es', e.id < e'.id

/-- The expressions of a statement with all their parts, without those of the statements nested in
it. -/
def Stmt.ownOccurrences (s : Stmt) : List Expr := Expr.occurrencesIn s.ownExprs

/-! ## The numbers of the parts -/

theorem Expr.occurrences_eq (e : Expr) : e.occurrences = e :: e.occurrences.tail := by
  cases e <;> rfl

theorem Expr.exists_numbers_eq (e : Expr) : ∃ inner, e.numbers = inner ++ [e.id] := by
  cases e with
  | int | bool | name | this | newObject => exact ⟨[], rfl⟩
  | binary | not | index | length | call | newArray | paren => exact ⟨_, rfl⟩

theorem Expr.id_mem_numbers {e x : Expr} (h : x ∈ e.occurrences) : x.id ∈ e.numbers :=
  e.numbers_perm.mem_iff.2 (List.mem_map_of_mem h)

theorem Expr.id_mem_numbersIn {es : List Expr} {x : Expr} (h : x ∈ Expr.occurrencesIn es) :
    x.id ∈ Expr.numbersIn es :=
  (Expr.numbersIn_perm es).mem_iff.2 (List.mem_map_of_mem h)

theorem Stmt.id_mem_numbersIn {ss : List Stmt} {x : Expr} (h : x ∈ Stmt.occurrencesIn ss) :
    x.id ∈ Stmt.numbersIn ss :=
  (Stmt.numbersIn_perm ss).mem_iff.2 (List.mem_map_of_mem h)

/-- Where the numbers increase, the number of an expression is above those of its proper parts. -/
theorem Expr.id_lt_of_pairwise {e x : Expr} (increase : e.numbers.Pairwise (· < ·))
    (h : x ∈ e.occurrences.tail) : x.id < e.id := by
  obtain ⟨inner, numbers⟩ := e.exists_numbers_eq
  have perm := e.numbers_perm
  rw [numbers, e.occurrences_eq, List.map_cons] at perm
  have parts : inner.Perm (e.occurrences.tail.map Expr.id) :=
    (List.perm_append_comm.symm.trans perm).cons_inv
  have inside : x.id ∈ inner := parts.mem_iff.2 (List.mem_map_of_mem h)
  rw [numbers, List.pairwise_append] at increase
  exact increase.2.2 _ inside _ (List.mem_singleton_self _)

/-! ## The numbers of a part in those of the whole -/

mutual

theorem Expr.numbers_sublist {x : Expr} : ∀ e : Expr, x ∈ e.occurrences →
    x.numbers.Sublist e.numbers
  | .int .., h | .bool .., h | .name .., h | .this _, h | .newObject .., h => by
      rw [List.mem_singleton.1 h]
  | .not _ e, h | .length _ e, h | .newArray _ e, h | .paren _ e, h => by
      rcases List.mem_cons.1 h with rfl | inside
      · exact .refl _
      · exact (Expr.numbers_sublist e inside).trans (List.sublist_append_left _ _)
  | .binary _ _ lhs rhs, h => by
      rcases List.mem_cons.1 h with rfl | inside
      · exact .refl _
      rcases List.mem_append.1 inside with inside | inside
      · exact (Expr.numbers_sublist lhs inside).trans
          ((List.sublist_append_left _ _).trans (List.sublist_append_left _ _))
      · exact (Expr.numbers_sublist rhs inside).trans
          ((List.sublist_append_right _ _).trans (List.sublist_append_left _ _))
  | .index _ array i, h => by
      rcases List.mem_cons.1 h with rfl | inside
      · exact .refl _
      rcases List.mem_append.1 inside with inside | inside
      · exact (Expr.numbers_sublist array inside).trans
          ((List.sublist_append_left _ _).trans (List.sublist_append_left _ _))
      · exact (Expr.numbers_sublist i inside).trans
          ((List.sublist_append_right _ _).trans (List.sublist_append_left _ _))
  | .call _ target _ args, h => by
      rcases List.mem_cons.1 h with rfl | inside
      · exact .refl _
      rcases List.mem_append.1 inside with inside | inside
      · exact (Expr.numbers_sublist target inside).trans
          ((List.sublist_append_left _ _).trans (List.sublist_append_left _ _))
      · exact (Expr.numbersIn_sublist args inside).trans
          ((List.sublist_append_right _ _).trans (List.sublist_append_left _ _))

theorem Expr.numbersIn_sublist {x : Expr} : ∀ es : List Expr, x ∈ Expr.occurrencesIn es →
    x.numbers.Sublist (Expr.numbersIn es)
  | [], h => nomatch h
  | e :: es, h => by
      rcases List.mem_append.1 h with inside | inside
      · exact (Expr.numbers_sublist e inside).trans (List.sublist_append_left _ _)
      · exact (Expr.numbersIn_sublist es inside).trans (List.sublist_append_right _ _)

end

mutual

theorem Stmt.numbers_eq : ∀ s : Stmt,
    s.numbers = s.parts.flatMap fun part => Expr.numbersIn part.ownExprs
  | .block _ body => Stmt.numbersIn_eq body
  | .ifThen _ condition thenBranch => by
      rw [numbers, parts, List.flatMap_cons, thenBranch.numbers_eq, ownExprs, Expr.numbersIn,
        Expr.numbersIn, List.append_nil]
  | .ifElse _ condition thenBranch elseBranch => by
      rw [numbers, parts, List.flatMap_cons, List.flatMap_append, thenBranch.numbers_eq,
        elseBranch.numbers_eq, ownExprs, Expr.numbersIn, Expr.numbersIn, List.append_nil]
  | .while _ condition body => by
      rw [numbers, parts, List.flatMap_cons, body.numbers_eq, ownExprs, Expr.numbersIn,
        Expr.numbersIn, List.append_nil]
  | .expr e | .assign _ _ e => by
      rw [numbers, parts, List.flatMap_singleton, ownExprs, Expr.numbersIn, Expr.numbersIn,
        List.append_nil]
  | .assignElement _ _ index value => by
      rw [numbers, parts, List.flatMap_singleton, ownExprs, Expr.numbersIn, Expr.numbersIn,
        Expr.numbersIn, List.append_nil]
  | .return _ value => by rw [numbers, parts, List.flatMap_singleton, ownExprs]

theorem Stmt.numbersIn_eq : ∀ ss : List Stmt,
    Stmt.numbersIn ss = (Stmt.partsIn ss).flatMap fun part => Expr.numbersIn part.ownExprs
  | [] => rfl
  | s :: ss => by
      rw [numbersIn, partsIn, List.flatMap_append, s.numbers_eq, Stmt.numbersIn_eq ss]

end

mutual

theorem Stmt.mem_ownOccurrences {x : Expr} : ∀ s : Stmt, x ∈ s.occurrences →
    ∃ part ∈ s.parts, x ∈ part.ownOccurrences
  | .block _ body, h => by
      obtain ⟨part, there, own⟩ := Stmt.mem_ownOccurrencesIn body h
      exact ⟨part, List.mem_cons_of_mem _ there, own⟩
  | .ifThen _ condition thenBranch, h => by
      rcases List.mem_append.1 h with inside | inside
      · exact ⟨_, List.mem_cons_self, List.mem_append_left _ inside⟩
      · obtain ⟨part, there, own⟩ := Stmt.mem_ownOccurrences thenBranch inside
        exact ⟨part, List.mem_cons_of_mem _ there, own⟩
  | .ifElse _ condition thenBranch elseBranch, h => by
      rcases List.mem_append.1 h with inside | inside
      · exact ⟨_, List.mem_cons_self, List.mem_append_left _ inside⟩
      rcases List.mem_append.1 inside with inside | inside
      · obtain ⟨part, there, own⟩ := Stmt.mem_ownOccurrences thenBranch inside
        exact ⟨part, List.mem_cons_of_mem _ (List.mem_append_left _ there), own⟩
      · obtain ⟨part, there, own⟩ := Stmt.mem_ownOccurrences elseBranch inside
        exact ⟨part, List.mem_cons_of_mem _ (List.mem_append_right _ there), own⟩
  | .while _ condition body, h => by
      rcases List.mem_append.1 h with inside | inside
      · exact ⟨_, List.mem_cons_self, List.mem_append_left _ inside⟩
      · obtain ⟨part, there, own⟩ := Stmt.mem_ownOccurrences body inside
        exact ⟨part, List.mem_cons_of_mem _ there, own⟩
  | .expr _, h | .assign .., h => ⟨_, List.mem_cons_self, List.mem_append_left _ h⟩
  | .assignElement _ _ index value, h => by
      refine ⟨_, List.mem_cons_self, ?_⟩
      rcases List.mem_append.1 h with inside | inside
      · exact List.mem_append_left _ inside
      · exact List.mem_append_right _ (List.mem_append_left _ inside)
  | .return _ _, h => ⟨_, List.mem_cons_self, h⟩

theorem Stmt.mem_ownOccurrencesIn {x : Expr} : ∀ ss : List Stmt, x ∈ Stmt.occurrencesIn ss →
    ∃ part ∈ Stmt.partsIn ss, x ∈ part.ownOccurrences
  | [], h => nomatch h
  | s :: ss, h => by
      rcases List.mem_append.1 h with inside | inside
      · obtain ⟨part, there, own⟩ := Stmt.mem_ownOccurrences s inside
        exact ⟨part, List.mem_append_left _ there, own⟩
      · obtain ⟨part, there, own⟩ := Stmt.mem_ownOccurrencesIn ss inside
        exact ⟨part, List.mem_append_right _ there, own⟩

end

/-! ## Programs -/

theorem Stmt.numbersIn_flatMap (ss : List Stmt) : Stmt.numbersIn ss = ss.flatMap Stmt.numbers := by
  induction ss with
  | nil => rfl
  | cons s ss ih => rw [numbersIn, List.flatMap_cons, ih]

theorem Stmt.id_mem_numbers {s : Stmt} {x : Expr} (h : x ∈ s.occurrences) : x.id ∈ s.numbers :=
  s.numbers_perm.mem_iff.2 (List.mem_map_of_mem h)

/-- In a program that is read all numbers are different.  An expression has a larger number than its
proper parts, and the expressions of a method have smaller numbers than those of a later method.  Of
two statements in a body the earlier one has the smaller numbers; so have, among all statements in
it, nested ones included, the expressions that belong to the earlier one itself. -/
theorem Program.numbered_in_order {ts : List Lexeme} {p : Program}
    (parsed : Program.ofLexemes ts = .ok p) :
    (p.occurrences.map Expr.id).Nodup ∧
    (∀ e ∈ p.occurrences, ∀ part ∈ e.occurrences.tail, part.id < e.id) ∧
    p.methods.Pairwise (fun m m' =>
      NumberedBefore (Stmt.occurrencesIn m.body) (Stmt.occurrencesIn m'.body)) ∧
    ∀ m ∈ p.methods,
      m.body.Pairwise (fun s s' => NumberedBefore s.occurrences s'.occurrences) ∧
      (Stmt.partsIn m.body).Pairwise fun s s' =>
        NumberedBefore s.ownOccurrences s'.ownOccurrences := by
  obtain ⟨k, k', ascends⟩ := Program.ascends_of_ofLexemes parsed
  obtain ⟨inMethods, acrossMethods⟩ := List.pairwise_flatMap.1 ascends.pairwise
  have inBody : ∀ m ∈ p.methods, (m.body.flatMap Stmt.numbers).Pairwise (· < ·) :=
    fun m hm => Stmt.numbersIn_flatMap m.body ▸ inMethods m hm
  have inParts : ∀ m ∈ p.methods, ((Stmt.partsIn m.body).flatMap fun part =>
      Expr.numbersIn part.ownExprs).Pairwise (· < ·) :=
    fun m hm => Stmt.numbersIn_eq m.body ▸ inMethods m hm
  refine ⟨Program.nodup_of_ofLexemes parsed, ?_, ?_, fun m hm => ⟨?_, ?_⟩⟩
  · intro e he part hpart
    obtain ⟨m, hm, inside⟩ := List.mem_flatMap.1 he
    obtain ⟨stmt, hstmt, own⟩ := Stmt.mem_ownOccurrencesIn m.body inside
    have increase := (List.pairwise_flatMap.1 (inParts m hm)).1 stmt hstmt
    exact Expr.id_lt_of_pairwise (increase.sublist (Expr.numbersIn_sublist _ own)) hpart
  · refine acrossMethods.imp fun {m m'} before e he e' he' => ?_
    exact before _ (Stmt.id_mem_numbersIn he) _ (Stmt.id_mem_numbersIn he')
  · refine (List.pairwise_flatMap.1 (inBody m hm)).2.imp fun {s s'} before e he e' he' => ?_
    exact before _ (Stmt.id_mem_numbers he) _ (Stmt.id_mem_numbers he')
  · refine (List.pairwise_flatMap.1 (inParts m hm)).2.imp fun {s s'} before e he e' he' => ?_
    exact before _ (Expr.id_mem_numbersIn he) _ (Expr.id_mem_numbersIn he')

/-- The access `a[0]` before the first assignment mark is thrown away, so the number of its array and
its own are not in the program. -/
theorem Program.numbered_in_order_of_lost_access :
    ∃ ts p, lex "class A \x7b int f(int[] a) \x7b a[0] = 1 + 2; if (a[3] < 4) a = a; return 5; \x7d int g() \x7b return 6; \x7d \x7d" =
        .ok ts ∧ Program.ofLexemes ts = .ok p ∧
      p.occurrences.map Expr.id = [1, 5, 3, 4, 10, 8, 6, 7, 9, 11, 12, 13] ∧
      ∀ e ∈ p.occurrences, ∀ part ∈ e.occurrences.tail, part.id < e.id := by
  obtain ⟨p, hp, ht⟩ := Compiler.exists_of_any
    (Program.ofText "class A \x7b int f(int[] a) \x7b a[0] = 1 + 2; if (a[3] < 4) a = a; return 5; \x7d int g() \x7b return 6; \x7d \x7d")
    (fun p => p.occurrences.map Expr.id == [1, 5, 3, 4, 10, 8, 6, 7, 9, 11, 12, 13])
    (by decide +kernel)
  obtain ⟨ts, lexed, parsed⟩ := exists_of_bind hp
  exact ⟨ts, p, lexed, parsed, eq_of_beq ht, (Program.numbered_in_order parsed).2.1⟩

end JavaMinus.Source
