/-
# Lowering against evaluation

`Implements` relates a step of the generator to a run: whatever the step answers, running the lines
it wrote and then what the answer stands for is the run.  What an answer stands for depends on the
variables that the generator keeps (`Kept`), which no later line assigns to; so an answer may be used
after the lines of a sibling.  The rules of the section `Rules` follow the steps of the generator, and
`lowerRhs_implements` puts them together by recursion on the expression.
-/
import JavaMinus.Lowering.Expression
import JavaMinus.Proofs.Evaluation.Execution
import JavaMinus.Proofs.Ir.Numeral
import JavaMinus.Proofs.Lowering.Runs

namespace JavaMinus.Evaluation

open Source Lowering Ir

/-! ## Names that stay -/

/-- The names that an expression can use in a method. -/
def Visible (table : SymbolTable) (method : String) (n : String) : Prop :=
  n ∈ table.visibleNames method ∨ n = "this"

/-- The names that the generator does not assign to from now on. -/
def Kept (table : SymbolTable) (c : Cursor) (n : String) : Prop :=
  Visible table c.method n ∨ ∃ k < c.temps, n = tempName k

theorem toList_tempName (n : Nat) :
    (tempName n).toList = 't' :: 'm' :: 'p' :: (toString n).toList := by
  rw [tempName, String.toList_append]
  rfl

theorem tempName_injective {m n : Nat} (h : tempName m = tempName n) : m = n := by
  have lists := congrArg String.toList h
  simp only [toList_tempName, List.cons.injEq, true_and] at lists
  exact toString_injective (String.toList_inj.1 lists)

theorem tempName_ne_this (n : Nat) : tempName n ≠ "this" := by
  intro h
  have lists := congrArg String.toList h
  rw [toList_tempName] at lists
  exact absurd (List.cons.inj (List.cons.inj lists).2).1 (by decide)

theorem numeral?_tempName (n : Nat) : numeral? (tempName n) = none := by
  rw [numeral?, toList_tempName]
  exact if_pos (by simp)

theorem firstFree_spec (n : Nat) (taken : List String) :
    n ≤ firstFree n taken ∧ tempName (firstFree n taken) ∉ taken := by
  fun_induction firstFree n taken with
  | case1 n taken hmem ih =>
      refine ⟨by omega, fun h => ih.2 ((List.mem_erase_of_ne ?_).2 h)⟩
      intro heq
      have := tempName_injective heq
      omega
  | case2 n taken hfree => exact ⟨Nat.le_refl _, hfree⟩

/-- The lines that lead from one state of the generator to another: they assign to new temporaries
only. -/
structure Advances (table : SymbolTable) (c c' : Cursor) (lines : List Line) : Prop where
  method : c'.method = c.method
  temps : c.temps ≤ c'.temps
  lines : ∀ line ∈ lines, ∀ n, assigned? line = some n → ¬ Kept table c n

variable {table : SymbolTable}

theorem Kept.mono {c c' : Cursor} (hm : c'.method = c.method) (ht : c.temps ≤ c'.temps)
    {n : String} (h : Kept table c n) : Kept table c' n := by
  rcases h with h | ⟨k, hk, rfl⟩
  · exact Or.inl (hm ▸ h)
  · exact Or.inr ⟨k, Nat.lt_of_lt_of_le hk ht, rfl⟩

theorem Advances.refl (c : Cursor) : Advances table c c [] :=
  ⟨rfl, Nat.le_refl _, fun _ h => (nomatch h)⟩

theorem Advances.trans {c c' c'' : Cursor} {lines lines' : List Line}
    (h : Advances table c c' lines) (h' : Advances table c' c'' lines') :
    Advances table c c'' (lines ++ lines') := by
  refine ⟨h'.method.trans h.method, Nat.le_trans h.temps h'.temps, fun line hline n hn hkept => ?_⟩
  rcases List.mem_append.1 hline with hline | hline
  · exact h.lines line hline n hn hkept
  · exact h'.lines line hline n hn (hkept.mono h.method h.temps)

/-- What depends on the variables that the generator keeps only. -/
def Stays {X : Type} (table : SymbolTable) (c : Cursor) (f : Env → X) : Prop :=
  ∀ env env', AgreeOn (Kept table c) env env' → f env = f env'

namespace Stays

variable {α β X : Type} {c : Cursor}

theorem const (x : X) : Stays table c fun _ => x := fun _ _ _ => rfl

theorem find {name : String} (h : Kept table c name) : Stays table c (Env.find · name) :=
  fun _ _ agree => agree.find_eq h

theorem map {Y : Type} {f : Env → X} (h : Stays table c f) (g : X → Y) :
    Stays table c fun env => g (f env) :=
  fun env env' agree => congrArg g (h env env' agree)

theorem bind {f : Env → Run α} {g : Env → α → Run β} (hf : Stays table c f)
    (hg : Stays table c g) : Stays table c fun env => f env >>= g env := by
  intro env env' agree
  show f env >>= g env = f env' >>= g env'
  rw [hf env env' agree, hg env env' agree]

theorem pi {f : Env → α → X} (h : ∀ a, Stays table c fun env => f env a) : Stays table c f :=
  fun env env' agree => funext fun a => h a env env' agree

theorem mono {c' : Cursor} (hm : c'.method = c.method) (ht : c.temps ≤ c'.temps) {f : Env → X}
    (h : Stays table c f) : Stays table c' f :=
  fun env env' agree => h env env' (agree.mono fun _ hn => hn.mono hm ht)

end Stays

/-! ## Rules -/

variable {w : World} {env₀ : Env} {α β γ δ : Type}

/-- The lines that a step writes, and then what its answer stands for, are the run.  The variables
are those of the method, `env₀`, and temporaries. -/
def Implements (w : World) (table : SymbolTable) (env₀ : Env) (c : Cursor) (m : Lowering α)
    (post : α → Prop) (means : α → Env → Run β) (spec : Env → Run β) : Prop :=
  ∀ a c' lines, m.run c = ⟨.ok a, c', lines⟩ →
    Advances table c c' lines ∧ post a ∧ Stays table c' (means a) ∧
      ∀ env, AgreeOn (Visible table c.method) env₀ env →
        exec w lines env >>= means a = spec env

namespace Implements

variable {c : Cursor} {post : α → Prop} {means : α → Env → Run β} {spec spec' : Env → Run β}

theorem pure {a : α} (hpost : post a) (hstays : Stays table c (means a))
    (h : ∀ env, AgreeOn (Visible table c.method) env₀ env → means a env = spec env) :
    Implements w table env₀ c (pure a) post means spec := by
  intro a' c' lines hrun
  obtain ⟨rfl, rfl, rfl⟩ := Emission.run_pure_ok_iff.1 hrun
  refine ⟨.refl c, hpost, hstays, fun env henv => ?_⟩
  rw [exec, pure_bind, h env henv]

theorem congr {m : Lowering α} (hm : Implements w table env₀ c m post means spec)
    (h : ∀ env, AgreeOn (Visible table c.method) env₀ env → spec env = spec' env) :
    Implements w table env₀ c m post means spec' := by
  intro a c' lines hrun
  obtain ⟨advances, hpost, stays, run⟩ := hm a c' lines hrun
  exact ⟨advances, hpost, stays, fun env henv => (run env henv).trans (h env henv)⟩

/-- One step after the other.  What goes on after the first one is told what its answer stands
for. -/
theorem bind {m : Lowering α} {f : α → Lowering γ} {post' : γ → Prop} {means' : γ → Env → Run δ}
    {k : Env → β → Run δ} (hm : Implements w table env₀ c m post means spec)
    (hk : Stays table c k)
    (hf : ∀ a c₁, c₁.method = c.method → c.temps ≤ c₁.temps → post a → Stays table c₁ (means a) →
      Implements w table env₀ c₁ (f a) post' means' fun env => means a env >>= k env) :
    Implements w table env₀ c (m >>= f) post' means' fun env => spec env >>= k env := by
  intro b c₂ lines hrun
  obtain ⟨a, c₁, w₁, w₂, hrun₁, hrun₂, rfl⟩ := Emission.run_bind_ok_iff.1 hrun
  obtain ⟨advances, hpost, stays, run⟩ := hm a c₁ w₁ hrun₁
  obtain ⟨advances', hpost', stays', run'⟩ :=
    hf a c₁ advances.method advances.temps hpost stays b c₂ w₂ hrun₂
  refine ⟨advances.trans advances', hpost', stays', fun env henv => ?_⟩
  have after : ∀ env₁, AgreeOn (Kept table c) env env₁ →
      exec w w₂ env₁ >>= means' b = means a env₁ >>= k env := by
    intro env₁ agree
    rw [hk env env₁ agree, run' env₁]
    rw [advances.method]
    exact henv.trans (agree.mono fun _ hn => Or.inl hn)
  calc
    exec w (w₁ ++ w₂) env >>= means' b
      = exec w w₁ env >>= fun env₁ => exec w w₂ env₁ >>= means' b := by
          rw [exec_append, bind_assoc]
    _ = exec w w₁ env >>= fun env₁ => means a env₁ >>= k env :=
          exec_bind_congr env advances.lines after
    _ = spec env >>= k env := by rw [← bind_assoc, run env henv]

end Implements

/-! ## What an answer stands for -/

/-- The datum of a literal or a variable. -/
def datum? (env : Env) : Element → Option Datum
  | .literal value _ => (numeral? value).map .word
  | .var name _ => env.find name
  | .item .. => none

def data? (env : Env) : List Element → Option (List Datum)
  | [] => some []
  | e :: es => (datum? env e).bind fun d => (data? env es).map (d :: ·)

/-- Where an operand is to be read. -/
def locate (env : Env) : Element → Option Reading
  | .item array index _ =>
      (env.find array).bind fun a => (datum? env index).bind fun i => Reading.pending? a i
  | e => (datum? env e).map .datum

/-- What a right side delivers where it is placed. -/
def deliver (w : World) (env : Env) : Rhs → Run Reading
  | .value v => lift (locate env v.operand)
  | .operation i _ => .datum <$> result w env i

/-- A literal or a variable. -/
def Simple : Element → Prop
  | .item .. => False
  | _ => True

/-- A literal is a numeral, the index of an element is simple, and a known value is written
down. -/
structure Sound (v : Value) : Prop where
  numeral : ∀ value type, v.operand = .literal value type → (numeral? value).isSome
  index : ∀ array index type, v.operand = .item array index type → Simple index
  literal : ∀ n, v.literal = some n → ∃ type, v.operand = .literal (toString n.toInt) type

/-- A right side that is a value is a sound one. -/
def SoundRhs : Rhs → Prop
  | .value v => Sound v
  | .operation .. => True

theorem lift_bind_comm (o : Option α) (m : Run β) (f : α → β → Run γ) :
    (lift o >>= fun a => m >>= f a) = m >>= fun b => lift o >>= fun a => f a b := by
  funext s
  cases o with
  | none =>
      show none = (m s).bind fun _ => none
      cases m s <;> rfl
  | some a => rfl

theorem lift_map (o : Option α) (f : α → β) : f <$> lift o = lift (o.map f) := by
  funext s
  cases o <;> rfl

theorem read_simple {e : Element} (h : Simple e) (env : Env) : read env e = lift (datum? env e) := by
  cases e with
  | literal | var => rw [read, datum?]
  | item => exact h.elim

theorem locate_simple {e : Element} (h : Simple e) (env : Env) :
    locate env e = (datum? env e).map .datum := by
  cases e with
  | literal | var => rfl
  | item => exact h.elim

theorem read_eq_force {v : Value} (h : Sound v) (env : Env) :
    read env v.operand = lift (locate env v.operand) >>= Reading.force := by
  cases hv : v.operand with
  | literal value type =>
      funext s
      simp only [read, locate, datum?]
      cases numeral? value <;> rfl
  | var name type =>
      funext s
      simp only [read, locate, datum?]
      cases env.find name <;> rfl
  | item array index type =>
      rw [read, locate, read_simple (h.index array index type hv)]
      funext s
      cases env.find array with
      | none => rfl
      | some a =>
          cases datum? env index with
          | none => rfl
          | some i => cases a <;> cases i <;> rfl

namespace Implements

/-- An answer seen through a function. -/
theorem map {c : Cursor} {post : α → Prop} {m : Lowering α} {means : α → Env → Run β}
    {spec : Env → Run β} (hm : Implements w table env₀ c m post means spec) (g : β → γ) :
    Implements w table env₀ c m post (fun a env => g <$> means a env) fun env => g <$> spec env := by
  intro a c' lines hrun
  obtain ⟨advances, hpost, stays, run⟩ := hm a c' lines hrun
  refine ⟨advances, hpost, stays.map (g <$> ·), fun env henv => ?_⟩
  show exec w lines env >>= (fun env => g <$> means a env) = g <$> spec env
  rw [← run env henv, map_bind]

end Implements

/-- A value that is held in a literal or a variable. -/
structure Held (v : Value) : Prop extends Sound v where
  simple : Simple v.operand

variable {c : Cursor}

/-- The result of an instruction goes to a new temporary. -/
theorem bind_implements (i : Instruction) (type : Ty) :
    Implements w table env₀ c (Lowering.bind table i type) Held
      (fun v env => lift (datum? env v.operand)) (result w · i) := by
  intro v c' lines hrun
  obtain ⟨fresh, unseen⟩ := firstFree_spec c.temps (table.visibleNames c.method)
  generalize hn : firstFree c.temps (table.visibleNames c.method) = n at fresh unseen
  have answer : (Lowering.bind table i type).run c = ⟨.ok (.var (tempName n) type),
      { c with temps := n + 1 },
      [.code c.indent (.assign (.var (tempName n) type.lowered) type.lowered i)]⟩ := by
    rw [← hn]
    rfl
  obtain ⟨hv, rfl, rfl⟩ := Emitted.mk.inj (answer.symm.trans hrun)
  cases hv
  refine ⟨⟨rfl, Nat.le_succ_of_le fresh, ?_⟩, ⟨⟨?_, ?_, ?_⟩, trivial⟩, ?_, ?_⟩
  · intro line hline name hname hkept
    obtain rfl := List.mem_singleton.1 hline
    obtain rfl := Option.some.inj hname
    rcases hkept with (hvisible | hthis) | ⟨k, hk, heq⟩
    · exact unseen hvisible
    · exact tempName_ne_this n hthis
    · have := tempName_injective heq
      omega
  · exact fun _ _ h => nomatch h
  · exact fun _ _ _ h => nomatch h
  · exact fun _ h => nomatch h
  · have kept : Kept table { c with temps := n + 1 } (tempName n) :=
      Or.inr ⟨n, Nat.lt_succ_self n, rfl⟩
    exact (Stays.find kept).map lift
  · intro env _
    rw [exec_singleton]
    simp only [step, bind_assoc, pure_bind]
    have held : ∀ d, lift (datum? (env.assign (tempName n) d) (.var (tempName n) type.lowered)) =
        (pure d : Run Datum) := by
      intro d
      simp only [datum?, Env.find, numeral?_tempName, Env.assign]
      rfl
    show (result w env i >>= fun d => lift (datum? (env.assign (tempName n) d) _)) = result w env i
    simp only [Value.var, held, bind_pure]

theorem asValue_implements {rhs : Rhs} (hs : SoundRhs rhs) (hr : Stays table c (deliver w · rhs)) :
    Implements w table env₀ c (asValue table rhs) Sound
      (fun v env => lift (locate env v.operand)) (deliver w · rhs) := by
  cases rhs with
  | value v => exact .pure hs hr fun _ _ => rfl
  | operation i type =>
      have bound : Implements w table env₀ c (Lowering.bind table i type) Held
          (fun v env => lift (datum? env v.operand)) (result w · i) := bind_implements i type
      have held := bound.map Reading.datum
      intro v c' lines hrun
      obtain ⟨advances, hpost, stays, run⟩ := held v c' lines hrun
      have located : ∀ env, lift (locate env v.operand) = .datum <$> lift (datum? env v.operand) :=
        fun env => by rw [lift_map, locate_simple hpost.simple]
      simp only [located]
      exact ⟨advances, hpost.toSound, stays, run⟩

/-- A right side as an operand that is no element of an array. -/
theorem asOperand_implements {rhs : Rhs} (hs : SoundRhs rhs)
    (hr : Stays table c (deliver w · rhs)) :
    Implements w table env₀ c (asOperand table rhs) Held
      (fun v env => lift (datum? env v.operand)) fun env => deliver w env rhs >>= Reading.force := by
  refine (asValue_implements hs hr).bind (k := fun _ => Reading.force) (.const _)
    fun v c₁ _ _ hv stays => ?_
  have forced : ∀ env, lift (locate env v.operand) >>= Reading.force = read env v.operand :=
    fun env => (read_eq_force hv env).symm
  simp only [forced]
  split
  · exact bind_implements (.single v.operand) v.type
  · rename_i hno
    have simple : Simple v.operand := by
      unfold Value.isIndexed at hno
      cases ho : v.operand with
      | item => rw [ho] at hno; exact absurd rfl hno
      | literal | var => trivial
    have held : ∀ env, read env v.operand = lift (datum? env v.operand) := read_simple simple
    refine .pure ⟨hv, simple⟩ ?_ fun env _ => (held env).symm
    simp only [← held, ← forced]
    exact stays.bind (.const _)

/-! ## Operators -/

theorem compute?_lowered (op : BinaryOp) : op.lowered.compute? = op.compute? := by
  cases op <;> rfl

theorem ofInt_truth_le (p : Prop) [Decidable p] :
    Value.ofBool (Int32.ofInt (truth p) != 0) = Int32.ofInt (truth p) := by
  unfold truth
  split <;> decide

theorem ofBool_eq (b : Bool) : Value.ofBool b = Int32.ofInt (truth b) := by
  cases b <;> decide

theorem fold_eq (op : BinaryOp) (a b : Int32) :
    fold op a b = (op.compute? a.toInt b.toInt).map Int32.ofInt := by
  cases op with
  | add => simp [fold, BinaryOp.compute?, Int32.ofInt_add]
  | sub => simp [fold, BinaryOp.compute?, Int32.ofInt_sub]
  | mul => simp [fold, BinaryOp.compute?, Int32.ofInt_mul]
  | div =>
      have zero : b = 0 ↔ b.toInt = 0 := by rw [← Int32.toInt_inj, Int32.toInt_zero]
      simp only [fold, BinaryOp.compute?, zero]
      split
      · rfl
      · exact congrArg some (Int32.toInt_inj.1 (by rw [Int32.toInt_div, Int32.toInt_ofInt]))
  | lt => simp [fold, BinaryOp.compute?, ofBool_eq, Int32.lt_iff_toInt_lt]
  | and => simp [fold, BinaryOp.compute?, ofBool_eq, Int32.le_iff_toInt_le]

theorem sound_literal (n : Int32) (t : ElementType) (type : Ty) :
    Sound ⟨.literal (toString n.toInt) t, type, some n⟩ := by
  refine ⟨fun _ _ h => ?_, fun _ _ _ h => (nomatch h), fun _ h => ⟨t, ?_⟩⟩
  · cases h
    rw [numeral?_toString]
    rfl
  · cases h
    rfl

theorem sound_int (n : Int32) : Sound (.int n) := sound_literal n _ _

theorem sound_bool (b : Bool) : Sound (.bool b) := sound_literal _ _ _

theorem sound_var (name : String) (t : ElementType) (type : Ty) :
    Sound ⟨.var name t, type, none⟩ :=
  ⟨fun _ _ h => (nomatch h), fun _ _ _ h => (nomatch h), fun _ h => (nomatch h)⟩

theorem sound_constant (n : Int32) (type : Ty) : Sound (.constant n type) := by
  unfold Value.constant
  split
  · exact sound_bool _
  · exact sound_int n

theorem locate_int (env : Env) (n : Int32) :
    locate env (Value.int n).operand = some (.datum (.word n)) := by
  simp only [Value.int, locate, datum?, numeral?_toString, Option.map_some]

theorem locate_bool (env : Env) (b : Bool) :
    locate env (Value.bool b).operand = some (.datum (.word (Value.ofBool b))) := by
  simp only [Value.bool, locate, datum?, numeral?_toString, Option.map_some]

theorem locate_literal {v : Value} (h : Sound v) {n : Int32} (hn : v.literal = some n) (env : Env) :
    locate env v.operand = some (.datum (.word n)) := by
  obtain ⟨type, hv⟩ := h.literal n hn
  simp only [hv, locate, datum?, numeral?_toString, Option.map_some]

theorem locate_constant (env : Env) (op : BinaryOp) {a b m : Int} (h : op.compute? a b = some m) :
    locate env (Value.constant (Int32.ofInt m) op.resultType).operand =
      some (.datum (.word (Int32.ofInt m))) := by
  have boolean : Ty.boolean.isBoolean = true := by decide
  have int : Ty.int.isBoolean = false := by decide
  cases op with
  | add | sub | mul | div => exact locate_int env _
  | lt | and =>
      obtain rfl := Option.some.inj h
      show locate env (Value.bool _).operand = _
      rw [locate_bool, ofInt_truth_le]

theorem soundRhs_lowerBinary (op : BinaryOp) (l r : Value) : SoundRhs (lowerBinary op l r) := by
  unfold lowerBinary
  simp only
  split
  · exact sound_constant _ _
  · trivial

/-- The operator computes on what its operands stand for, when both have been read. -/
theorem deliver_lowerBinary {l r : Value} (hl : Sound l) (hr : Sound r) (op : BinaryOp)
    (env : Env) :
    deliver w env (lowerBinary op l r) = (do
      let b ← lift (locate env r.operand)
      let a ← lift (locate env l.operand)
      let a ← a.force
      let b ← b.force
      Reading.datum <$> operate op.compute? a b) := by
  rw [lift_bind_comm]
  unfold lowerBinary
  simp only
  split
  · rename_i n hn
    obtain ⟨a, ha, hn⟩ := Option.bind_eq_some_iff.1 hn
    obtain ⟨b, hb, hn⟩ := Option.bind_eq_some_iff.1 hn
    rw [fold_eq] at hn
    obtain ⟨m, hm, rfl⟩ := Option.map_eq_some_iff.1 hn
    rw [deliver, locate_constant env op hm, locate_literal hl ha, locate_literal hr hb]
    show _ = Reading.datum <$> operate op.compute? (.word a) (.word b)
    rw [operate, hm, lift_map]
    rfl
  · have operands := read_eq_force hl env
    have operands' := read_eq_force hr env
    simp only [deliver, result, compute?_lowered, operands, operands', bind_assoc, map_bind]
    congr 1
    funext a
    rw [lift_bind_comm]

theorem soundRhs_lowerNot (v : Value) : SoundRhs (lowerNot v) := by
  unfold lowerNot
  split
  · exact sound_bool _
  · trivial

theorem deliver_lowerNot {v : Value} (hv : Sound v) (env : Env) :
    deliver w env (lowerNot v) = (do
      let d ← lift (locate env v.operand)
      let d ← d.force
      Reading.datum <$> negate d) := by
  unfold lowerNot
  split
  · rename_i n hn
    have word : Value.ofBool (n == 0) = Int32.ofInt (truth (n = 0)) := by
      rw [ofBool_eq]
      congr 1
      simp [truth]
    rw [deliver, locate_bool, locate_literal hv hn, word]
    rfl
  · simp only [deliver, result, read_eq_force hv env, bind_assoc, map_bind]

/-! ## Names, elements and arguments -/

theorem visible_of_lookup {method name : String} {found : Lookup}
    (h : table.lookup method name = some found) (hlocal : found.origin ≠ .field) :
    name ∈ table.visibleNames method := by
  rw [SymbolTable.lookup, Option.or_eq_some_iff] at h
  rcases h with h | ⟨-, h⟩
  · obtain ⟨signature, hm, hin⟩ := Option.bind_eq_some_iff.1 h
    refine List.mem_append_left _ ?_
    rw [hm, Option.elim_some, List.mem_append]
    unfold SymbolTable.lookupIn at hin
    split at hin
    · rename_i s hs
      refine Or.inl (List.mem_map.2 ⟨s, List.mem_of_find?_eq_some hs, ?_⟩)
      simpa using List.find?_some hs
    · obtain ⟨⟨i, s⟩, hs, -⟩ := Option.map_eq_some_iff.1 hin
      obtain ⟨⟨s', i'⟩, hfind, heq⟩ := Option.map_eq_some_iff.1 hs
      cases heq
      refine Or.inr (List.mem_map.2 ⟨s, ?_, by simpa using List.find?_some hfind⟩)
      exact (List.mem_zipIdx' (List.mem_of_find?_eq_some hfind)).2 ▸ List.getElem_mem _
  · obtain ⟨f, -, rfl⟩ := Option.map_eq_some_iff.1 h
    exact absurd rfl hlocal

theorem lookup_implements {name : String} {f : Option Lookup → Lowering α} {post : α → Prop}
    {means : α → Env → Run β} {spec : Env → Run β}
    (h : Implements w table env₀ c (f (table.lookup c.method name)) post means spec) :
    Implements w table env₀ c (lookup table name >>= f) post means spec :=
  h

theorem targetClass_implements {target : Expr} {f : Option String → Lowering α}
    {post : α → Prop} {means : α → Env → Run β} {spec : Env → Run β}
    (h : Implements w table env₀ c (f (targetClass? table c.method target)) post means spec) :
    Implements w table env₀ c (Lowering.targetClass? table target >>= f) post means spec := by
  unfold targetClass? at h
  unfold Lowering.targetClass?
  cases hn : target.asName? with
  | none =>
      rw [hn] at h
      exact h
  | some name =>
      rw [hn, Option.filter_some] at h
      simp only [bind_assoc, pure_bind]
      exact lookup_implements h

theorem lowerName_implements (name : String) :
    Implements w table env₀ c (lowerName table name) SoundRhs (fun rhs env => deliver w env rhs)
      fun _ => .datum <$> readName table c.method env₀ name := by
  refine lookup_implements ?_
  unfold readName
  cases hl : table.lookup c.method name with
  | none => exact fun a c' lines hrun => nomatch hrun
  | some found =>
      show Implements w table env₀ c (if found.origin = .field then _ else _) _ _ _
      simp only
      split
      · have delivered : ∀ env, deliver w env (.operation
            (.getField thisOperand (.var name found.symbol.type.lowered)) found.symbol.type) =
              .datum <$> (lift (env.find "this") >>= readField name) := fun _ => rfl
        refine .pure trivial ?_ fun env henv => ?_
        · simp only [delivered]
          exact (((Stays.find (Or.inl (Or.inr rfl))).map lift).bind (.const _)).map _
        · rw [delivered, henv.find_eq (Or.inr rfl)]
      · rename_i hlocal
        have kept : Visible table c.method name := Or.inl (visible_of_lookup hl hlocal)
        refine .pure (sound_var name _ _) ?_ fun env henv => ?_
        · exact (Stays.find (Or.inl kept)).map fun d => lift (d.map Reading.datum)
        · rw [lift_map, henv.find_eq kept]
          rfl

theorem emit_implements (call : Ir.Call) :
    Implements w table env₀ c (emit (.call call)) (fun _ => True) (fun _ _ => (pure () : Run Unit))
      fun env => runCall w env call >>= fun _ => pure () := by
  intro _ c' lines hrun
  have answer : (emit (.call call)).run c = ⟨.ok (), c, [.code c.indent (.call call)]⟩ := rfl
  obtain ⟨-, rfl, rfl⟩ := Emitted.mk.inj (answer.symm.trans hrun)
  refine ⟨⟨rfl, Nat.le_refl _, ?_⟩, trivial, .const _, fun env _ => ?_⟩
  · intro line hline name hname
    obtain rfl := List.mem_singleton.1 hline
    exact nomatch hname
  · rw [exec_singleton, step, bind_assoc]
    simp only [pure_bind]

theorem sound_item (a : Value) {i : Value} (hi : Held i) : SoundRhs (.value (.item a i)) :=
  ⟨fun _ _ h => (nomatch h), fun _ _ _ h => by cases h; exact hi.simple, fun _ h => (nomatch h)⟩

/-- An element of an array is located where its array and its index have been. -/
theorem deliver_item {a : Value} (ha : Held a) (i : Value) (env : Env) :
    deliver w env (.value (.item a i)) = (do
      let i ← lift (datum? env i.operand)
      let a ← lift (datum? env a.operand)
      lift (Reading.pending? a i)) := by
  rw [deliver, Value.item, locate]
  generalize datum? env i.operand = index
  have array : ((env.find a.arrayName).bind fun d => index.bind fun j => Reading.pending? d j) =
      (datum? env a.operand).bind fun d => index.bind fun j => Reading.pending? d j := by
    have simple := ha.simple
    cases ho : a.operand with
    | literal value type =>
        obtain ⟨n, hn⟩ := Option.isSome_iff_exists.1 (ha.numeral value type ho)
        rw [Value.arrayName, ho]
        simp only [Env.find, hn, datum?, Option.isSome_some, if_true]
        cases index <;> rfl
    | var name type => rw [Value.arrayName, ho, datum?]
    | item => rw [ho] at simple; exact simple.elim
  rw [array]
  funext s
  cases datum? env a.operand <;> cases index <;> rfl

/-- The result of an instruction in a new temporary, as a right side. -/
theorem bound_implements (i : Instruction) (type : Ty) :
    Implements w table env₀ c (Lowering.bind table i type >>= fun v => pure (.value v)) SoundRhs
      (fun rhs env => deliver w env rhs) fun env => .datum <$> result w env i := by
  refine (((bind_implements i type).map Reading.datum).bind (k := fun _ => pure) (.const _)
    fun v c₁ _ _ hv stays => ?_).congr fun _ _ => bind_pure _
  have located : ∀ env, deliver w env (.value v) =
      (Reading.datum <$> lift (datum? env v.operand) >>= pure) := by
    intro env
    rw [bind_pure, lift_map, deliver, locate_simple hv.simple]
  refine .pure hv.toSound ?_ fun env _ => located env
  simp only [located]
  exact stays.bind (.const _)

theorem lowerNewObject_implements (className : String) {method : String} {tag : Tag} :
    Implements w table env₀ c (lowerNewObject table className) SoundRhs
      (fun rhs env => deliver w env rhs)
      fun _ => evalLate w table method env₀ (.newObject tag className) := by
  rw [evalLate]
  refine (bind_implements _ _).bind (k := fun _ o => do
      let _ ← invoke w ⟨.object o, "<init>", []⟩
      pure (Reading.datum o)) (.const _) fun v c₁ _ _ hv stays => ?_
  refine ((emit_implements ⟨.invokeSpecial, some v.operand, some "<init>", [], .void⟩).bind
    (k := fun env _ => Reading.datum <$> lift (datum? env v.operand))
    (.pi fun _ => stays.map (Reading.datum <$> ·)) fun _ c₂ hm' ht' _ _ => ?_).congr fun env _ => ?_
  · have located : ∀ env, deliver w env (.value v) = (pure () >>= fun _ : Unit =>
        Reading.datum <$> lift (datum? env v.operand) : Run Reading) := by
      intro env
      rw [pure_bind, lift_map, deliver, locate_simple hv.simple]
    refine .pure hv.toSound ?_ fun env _ => located env
    simp only [located]
    exact (stays.mono hm' ht').map fun m => (pure () >>= fun _ : Unit => Reading.datum <$> m)
  · simp only [runCall, read_simple hv.simple, readAll]
    funext s
    cases datum? env v.operand with
    | none => rfl
    | some d =>
        have here : (lift (some d) : Run Datum) = pure d := rfl
        simp only [here, pure_bind, bind_assoc, map_pure]

theorem value_implements {m : Lowering Rhs} {X : Run Reading}
    (hm : Implements w table env₀ c m SoundRhs (fun rhs env => deliver w env rhs) fun _ => X) :
    Implements w table env₀ c (m >>= asValue table) Sound
      (fun v env => lift (locate env v.operand)) fun _ => X := by
  refine (hm.bind (k := fun _ => pure) (.const _) fun rhs c₁ _ _ hs stays => ?_).congr
    fun _ _ => bind_pure _
  simpa only [bind_pure] using asValue_implements hs stays

theorem operand_implements {m : Lowering Rhs} {X : Run Reading}
    (hm : Implements w table env₀ c m SoundRhs (fun rhs env => deliver w env rhs) fun _ => X) :
    Implements w table env₀ c (m >>= asOperand table) Held
      (fun v env => lift (datum? env v.operand)) fun _ => X >>= Reading.force :=
  hm.bind (k := fun _ => Reading.force) (.const _) fun _ _ _ _ hs stays =>
    asOperand_implements hs stays

/-- One step after another, where something that stays is used after both. -/
theorem Implements.bindAfter {X : Type} {x : Env → Option X} {m : Lowering α} {f : α → Lowering γ}
    {post : α → Prop} {post' : γ → Prop} {means : α → Env → Run β} {means' : γ → Env → Run δ}
    {spec : Env → Run β} {k : X → β → Run δ} (hx : Stays table c fun env => lift (x env))
    (hm : Implements w table env₀ c m post means spec)
    (hf : ∀ a c₁, c₁.method = c.method → c.temps ≤ c₁.temps → post a → Stays table c₁ (means a) →
      Implements w table env₀ c₁ (f a) post' means' fun env =>
        means a env >>= fun b => lift (x env) >>= fun y => k y b) :
    Implements w table env₀ c (m >>= f) post' means' fun env =>
      lift (x env) >>= fun y => spec env >>= k y := by
  refine (hm.bind (k := fun env b => lift (x env) >>= fun y => k y b) ?_ hf).congr
    fun env _ => (lift_bind_comm _ _ _).symm
  intro env env' agree
  have same : lift (x env) = lift (x env') := hx env env' agree
  show (fun b => lift (x env) >>= fun y => k y b) = fun b => lift (x env') >>= fun y => k y b
  rw [same]

theorem readAll_simple : ∀ {es : List Element}, (∀ e ∈ es, Simple e) → ∀ env : Env,
    readAll env es = lift (data? env es)
  | [], _, _ => rfl
  | e :: es, h, env => by
      have rest := readAll_simple (fun e' he => h e' (List.mem_cons_of_mem e he)) env
      simp only [readAll, data?, read_simple (h e List.mem_cons_self), rest]
      funext s
      cases datum? env e <;> cases data? env es <;> rfl

theorem deliver_static {operands : List Element} (h : ∀ e ∈ operands, Simple e) (env : Env)
    (className method : String) (t : ElementType) (type : Ty) :
    deliver w env (.operation (.call
        ⟨.invokeStatic, some (.var className (.classRef className)), some method, operands, t⟩)
        type) = (do
      let ds ← lift (data? env operands)
      Reading.datum <$> invoke w ⟨.classNamed className, method, ds⟩) := by
  simp only [deliver, result, runCall, readAll_simple h, map_bind]

/-- A call on an object, with a receiver and arguments that are held. -/
theorem deliver_virtual {receiver : Element} (hr : Simple receiver) {operands : List Element}
    (h : ∀ e ∈ operands, Simple e) (env : Env) (method : String) (t : ElementType) (type : Ty) :
    deliver w env (.operation (.call ⟨.invokeVirtual, some receiver, some method, operands, t⟩)
        type) = (do
      let ds ← lift (data? env operands)
      let o ← lift (datum? env receiver)
      Reading.datum <$> invoke w ⟨.object o, method, ds⟩) := by
  simp only [deliver, result, runCall, read_simple hr, readAll_simple h, map_bind]
  exact lift_bind_comm _ _ _

mutual

theorem lowerRhs_implements : ∀ (e : Expr) (expected : Option Ty) {c : Cursor} {method : String},
    c.method = method →
    Implements w table env₀ c (lowerRhs table e expected) SoundRhs
      (fun rhs env => deliver w env rhs) fun _ => evalLate w table method env₀ e
  | .int _ n, _, _, _, _ => by
      have located : ∀ env, deliver w env (.value (.int n)) = pure (.datum (.word n)) := by
        intro env
        rw [deliver, locate_int]
        rfl
      refine .pure (sound_int n) ?_ fun env _ => located env
      simp only [located]
      exact .const _
  | .bool _ b, _, _, _, _ => by
      have located : ∀ env, deliver w env (.value (.bool b)) =
          pure (.datum (.word (Int32.ofInt (truth b)))) := by
        intro env
        rw [deliver, locate_bool, ofBool_eq]
        rfl
      refine .pure (sound_bool b) ?_ fun env _ => located env
      simp only [located]
      exact .const _
  | .this _, _, c, _, _ => by
      refine .pure (sound_var "this" _ _) ?_ fun env henv => ?_
      · exact (Stays.find (Or.inl (Or.inr rfl))).map fun d => lift (d.map Reading.datum)
      · simp only [evalLate]
        rw [lift_map, henv.find_eq (Or.inr rfl)]
        rfl
  | .name _ name, _, _, _, rfl => lowerName_implements name
  | .paren _ inner, expected, _, _, h => lowerRhs_implements inner expected h
  | .binary _ op lhs rhs, _, _, _, h => by
      rw [lowerRhs, ← bind_assoc]
      simp only [evalLate]
      refine (value_implements (lowerRhs_implements lhs _ h)).bind (.const _)
        fun l c₁ hm _ hl stays => ?_
      rw [← bind_assoc]
      refine (value_implements (lowerRhs_implements rhs _ (hm.trans h))).bindAfter stays
        fun r c₂ hm' ht' hr stays' => ?_
      refine .pure (soundRhs_lowerBinary op l r) ?_ fun env _ => deliver_lowerBinary hl hr op env
      simp only [deliver_lowerBinary hl hr]
      exact stays'.bind (.pi fun _ => (stays.mono hm' ht').bind (.const _))
  | .not _ operand, _, _, _, h => by
      rw [lowerRhs, ← bind_assoc]
      simp only [evalLate]
      refine (value_implements (lowerRhs_implements operand _ h)).bind (.const _)
        fun v c₁ _ _ hv stays => ?_
      refine .pure (soundRhs_lowerNot v) ?_ fun env _ => deliver_lowerNot hv env
      simp only [deliver_lowerNot hv]
      exact stays.bind (.const _)
  | .index _ array index, _, _, _, h => by
      rw [lowerRhs, ← bind_assoc]
      simp only [evalLate]
      refine (operand_implements (lowerRhs_implements array _ h)).bind (.const _)
        fun a c₁ hm _ ha stays => ?_
      rw [← bind_assoc]
      refine (operand_implements (lowerRhs_implements index _ (hm.trans h))).bindAfter stays
        fun i c₂ hm' ht' hi stays' => ?_
      refine .pure (sound_item a hi) ?_ fun env _ => deliver_item ha i env
      simp only [deliver_item ha i]
      exact stays'.bind (.pi fun _ => (stays.mono hm' ht').bind (.const _))
  | .length _ array, _, _, _, h => by
      rw [lowerRhs, ← bind_assoc]
      simp only [evalLate]
      refine (operand_implements (lowerRhs_implements array _ h)).bind (.const _)
        fun a c₁ _ _ ha stays => ?_
      refine (bound_implements (lengthOf a) .int).congr fun env _ => ?_
      simp only [lengthOf, result, runCall, read_simple ha.simple, map_bind]
  | .newArray _ size, _, _, _, h => by
      rw [lowerRhs, ← bind_assoc]
      simp only [evalLate]
      refine (operand_implements (lowerRhs_implements size _ h)).bind (.const _)
        fun n c₁ _ _ hn stays => ?_
      refine (bound_implements (Lowering.arrayOf n) .intArray).congr fun env _ => ?_
      simp only [Lowering.arrayOf, result, runCall, read_simple hn.simple, map_bind]
  | .newObject _ className, _, _, _, _ => lowerNewObject_implements className
  | .call _ target name args, expected, _, _, h => by
      rw [lowerRhs]
      simp only [evalLate]
      refine targetClass_implements ?_
      rw [h]
      cases targetClass? table _ target with
      | some className =>
          simp only [pure_bind]
          refine (lowerArguments_implements args _ h).bind (.const _)
            fun operands c₁ _ _ hs stays => ?_
          have delivered := fun env : Env => deliver_static (w := w) hs env className name
          refine .pure trivial ?_ fun env _ => delivered env _ _
          simp only [Receiver.ofClass, delivered]
          exact stays.bind (.const _)
      | none =>
          rw [← bind_assoc]
          simp only [pure_bind]
          refine (operand_implements (lowerRhs_implements target _ h)).bind (.const _)
            fun v c₁ hm _ hv stays => ?_
          refine (lowerArguments_implements args _ (hm.trans h)).bindAfter stays
            fun operands c₂ hm' ht' hs stays' => ?_
          have delivered := fun env : Env => deliver_virtual (w := w) hv.simple hs env name
          refine .pure trivial ?_ fun env _ => delivered env _ _
          simp only [Receiver.ofValue, delivered]
          exact stays'.bind (.pi fun _ => (stays.mono hm' ht').bind (.const _))

theorem lowerArguments_implements : ∀ (es : List Expr) (params : List Symbol) {c : Cursor}
    {method : String}, c.method = method →
    Implements w table env₀ c (lowerArguments table es params) (∀ e ∈ ·, Simple e)
      (fun operands env => lift (data? env operands)) fun _ => evalLateAll w table method env₀ es
  | [], _, _, _, _ => .pure (fun _ h => nomatch h) (fun _ _ _ => rfl) fun _ _ => by
      rw [evalLateAll]
      rfl
  | e :: es, params, _, _, h => by
      rw [lowerArguments, ← bind_assoc]
      simp only [evalLateAll]
      refine (operand_implements (lowerRhs_implements e _ h)).bind (.const _)
        fun v c₁ hm _ hv stays => ?_
      refine (lowerArguments_implements es _ (hm.trans h)).bindAfter stays
        fun operands c₂ hm' ht' hs stays' => ?_
      have data : ∀ env, lift (data? env (v.operand :: operands)) =
          (lift (data? env operands) >>= fun ds => lift (datum? env v.operand) >>= fun d =>
            pure (d :: ds) : Run (List Datum)) := by
        intro env
        funext s
        rw [data?]
        cases datum? env v.operand <;> cases data? env operands <;> rfl
      refine .pure ?_ ?_ fun env _ => data env
      · exact List.forall_mem_cons.2 ⟨hv.simple, hs⟩
      · simp only [data]
        exact stays'.bind (.pi fun _ => (stays.mono hm' ht').bind (.const _))

end

end JavaMinus.Evaluation
