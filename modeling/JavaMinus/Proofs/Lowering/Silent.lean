/-
# Expressions without lines

Literals, the receiver, variables, array elements that are found without a line, and what is computed
from literals need no line.  `silentValue?` is the value that such an expression leaves.  Of any other
expression a line is written, at the latest when its value is asked for (`lowerValue_silent`).
-/
import JavaMinus.Proofs.Lowering.Expressions

namespace JavaMinus.Lowering

open Source

variable {table : SymbolTable} {s : Scope} {c c' : Cursor} {w w' : List Line}

def Rhs.value? : Rhs → Option Value
  | .value v => some v
  | .operation .. => none

/-- The value that an expression leaves without a line, if it needs none. -/
def silentValue? (s : Scope) : Expr → Option Value
  | .int _ n => some (.int n)
  | .bool _ b => some (.bool b)
  | .this _ => some (.this s.table.className)
  | .name _ text => do
      let found ← s.lookup text
      if found.origin = .field then none else some (.var text found.symbol.type)
  | .paren _ inner => silentValue? s inner
  | .binary _ op lhs rhs => do
      let left ← silentValue? s lhs
      let right ← silentValue? s rhs
      (lowerBinary op left right).value?
  | .not _ operand => do
      let v ← silentValue? s operand
      (lowerNot v).value?
  | .index _ array index => do
      let a ← (silentValue? s array).filter (!·.isIndexed)
      let i ← (silentValue? s index).filter (!·.isIndexed)
      some (.item a i)
  | .length .. | .newArray .. | .newObject .. | .call .. => none

/-- The value if there are no lines. -/
def ifSilent (w : List Line) (v : Option Value) : Option Value := if w = [] then v else none

theorem ifSilent_nil (v : Option Value) : ifSilent [] v = v := rfl

theorem ifSilent_of_ne_nil {v : Option Value} (h : w ≠ []) : ifSilent w v = none := if_neg h

theorem ifSilent_append (v : Option Value) : ifSilent (w ++ w') v = ifSilent w (ifSilent w' v) := by
  cases w with
  | nil => rfl
  | cons l w => rfl

theorem ifSilent_bind {v : Option Value} {g : Value → Option Value} :
    (ifSilent w v).bind g = ifSilent w (v.bind g) := by
  cases w with
  | nil => rfl
  | cons l w => rfl

theorem ifSilent_filter {v : Option Value} {test : Value → Bool} :
    (ifSilent w v).filter test = ifSilent w (v.filter test) := by
  cases w with
  | nil => rfl
  | cons l w => rfl

theorem bind_ne_nil {i : Ir.Instruction} {type : Ty} {v : Value}
    (h : (bind table i type).run c = ⟨.ok v, c', w⟩) : w ≠ [] := by
  obtain ⟨name, c₁, w₁, w₂, -, rest, rfl⟩ := Emission.run_bind_ok_iff.1 h
  obtain ⟨_, c₂, w₃, w₄, emitted, -, rfl⟩ := Emission.run_bind_ok_iff.1 rest
  rw [emit_run] at emitted
  cases emitted
  exact List.append_ne_nil_of_right_ne_nil _ (List.cons_ne_nil _ _)

theorem asValue_silent {rhs : Rhs} {v : Value} (h : (asValue table rhs).run c = ⟨.ok v, c', w⟩) :
    ifSilent w (some v) = rhs.value? := by
  cases rhs with
  | value v' =>
      obtain ⟨rfl, -, rfl⟩ := Emission.run_pure_ok_iff.1 h
      rfl
  | operation i type => exact ifSilent_of_ne_nil (bind_ne_nil h)

theorem asOperand_silent {rhs : Rhs} {v : Value}
    (h : (asOperand table rhs).run c = ⟨.ok v, c', w⟩) :
    ifSilent w (some v) = rhs.value?.filter (!·.isIndexed) := by
  obtain ⟨u, c₁, w₁, w₂, first, rest, rfl⟩ := Emission.run_bind_ok_iff.1 h
  rw [← asValue_silent first, ifSilent_append, ifSilent_filter, Option.filter_some]
  cases hu : u.isIndexed with
  | true =>
      rw [hu] at rest
      rw [ifSilent_of_ne_nil (bind_ne_nil rest)]
      rfl
  | false =>
      rw [hu] at rest
      obtain ⟨rfl, -, rfl⟩ := Emission.run_pure_ok_iff.1 rest
      rfl

theorem lowerName_silent {tag : Tag} {name : String} {rhs : Rhs} (hc : c.method = s.method)
    (h : (lowerName s.table name).run c = ⟨.ok rhs, c', w⟩) :
    silentValue? s (.name tag name) = ifSilent w rhs.value? := by
  obtain ⟨found, c₁, w₁, w₂, looked, rest, rfl⟩ := Emission.run_bind_ok_iff.1 h
  cases looked
  have there : s.lookup name = s.table.lookup c.method name := by rw [hc]; rfl
  cases hl : s.table.lookup c.method name with
  | none =>
      rw [hl] at rest
      cases rest
  | some found =>
      rw [hl] at rest
      obtain ⟨_, c₂, w₃, w₄, needed, placed, rfl⟩ := Emission.run_bind_ok_iff.1 rest
      cases needed
      rw [silentValue?, there, hl]
      show (if found.origin = .field then none else some _) = _
      split at placed
      · rename_i field
        obtain ⟨rfl, -, rfl⟩ := Emission.run_pure_ok_iff.1 placed
        rw [if_pos field]
        rfl
      · rename_i other
        obtain ⟨rfl, -, rfl⟩ := Emission.run_pure_ok_iff.1 placed
        rw [if_neg other]
        rfl

/-- The value of an expression is its silent one if there are no lines, and else it has none. -/
theorem lowerRhs_silent (ht : s.table.Written) : ∀ (e : Expr) {expected : Option Ty}, e.Named →
    e.Indexable → (∀ t, expected = some t → t.Written) → ∀ {c c' : Cursor} {rhs : Rhs}
      {w : List Line}, c.method = s.method →
      (lowerRhs s.table e expected).run c = ⟨.ok rhs, c', w⟩ →
      silentValue? s e = ifSilent w rhs.value?
  | .int .., _, _, _, _, _, _, _, _, _, h | .bool .., _, _, _, _, _, _, _, _, _, h
  | .this _, _, _, _, _, _, _, _, _, _, h => by
      rw [lowerRhs] at h
      obtain ⟨rfl, -, rfl⟩ := Emission.run_pure_ok_iff.1 h
      rfl
  | .name tag name, _, _, _, _, _, _, _, _, hc, h => by
      rw [lowerRhs] at h
      exact lowerName_silent hc h
  | .paren _ inner, _, hn, hi, he, _, _, _, _, hc, h => by
      rw [lowerRhs] at h
      exact lowerRhs_silent ht inner hn hi he hc h
  | .binary _ op lhs rhs, _, hn, hi, _, c, c', r, w, hc, h => by
      rw [lowerRhs] at h
      have typed := written_expected (written_operandType op)
      obtain ⟨l, c₁, w₁, _, run₁, rest₁, rfl⟩ := Emission.run_bind_ok_iff.1 h
      obtain ⟨left, c₂, w₂, _, run₂, rest₂, rfl⟩ := Emission.run_bind_ok_iff.1 rest₁
      obtain ⟨r', c₃, w₃, _, run₃, rest₃, rfl⟩ := Emission.run_bind_ok_iff.1 rest₂
      obtain ⟨right, c₄, w₄, _, run₄, rest₄, rfl⟩ := Emission.run_bind_ok_iff.1 rest₃
      obtain ⟨rfl, -, rfl⟩ := Emission.run_pure_ok_iff.1 rest₄
      obtain ⟨hc₁, hl, -, -⟩ := lowerRhs_emits ht lhs true hn.1 hi.1 typed c hc _ _ _ run₁
      obtain ⟨hc₂, -, -, -⟩ := asValue_emits hl c₁ hc₁ _ _ _ run₂
      have first := lowerRhs_silent ht lhs hn.1 hi.1 typed hc run₁
      have second := lowerRhs_silent ht rhs hn.2 hi.2 typed hc₂ run₃
      rw [← asValue_silent run₂] at first
      rw [← asValue_silent run₄] at second
      rw [silentValue?, first, second]
      simp only [Option.bind_eq_bind, ifSilent_bind, ifSilent_append, ifSilent_nil, Option.bind_some]
  | .not _ operand, _, hn, hi, _, c, c', r, w, hc, h => by
      rw [lowerRhs] at h
      have typed := written_expected Ty.written_boolean
      obtain ⟨r', c₁, w₁, _, run₁, rest₁, rfl⟩ := Emission.run_bind_ok_iff.1 h
      obtain ⟨v, c₂, w₂, _, run₂, rest₂, rfl⟩ := Emission.run_bind_ok_iff.1 rest₁
      obtain ⟨rfl, -, rfl⟩ := Emission.run_pure_ok_iff.1 rest₂
      have inner := lowerRhs_silent ht operand hn hi typed hc run₁
      rw [← asValue_silent run₂] at inner
      rw [silentValue?, inner]
      simp only [Option.bind_eq_bind, ifSilent_bind, ifSilent_append, ifSilent_nil, Option.bind_some]
  | .index _ array i, _, hn, hi, _, c, c', r, w, hc, h => by
      rw [lowerRhs] at h
      have arrayTyped := written_expected Ty.written_intArray
      have indexTyped := written_expected Ty.written_int
      obtain ⟨l, c₁, w₁, _, run₁, rest₁, rfl⟩ := Emission.run_bind_ok_iff.1 h
      obtain ⟨a, c₂, w₂, _, run₂, rest₂, rfl⟩ := Emission.run_bind_ok_iff.1 rest₁
      obtain ⟨r', c₃, w₃, _, run₃, rest₃, rfl⟩ := Emission.run_bind_ok_iff.1 rest₂
      obtain ⟨i', c₄, w₄, _, run₄, rest₄, rfl⟩ := Emission.run_bind_ok_iff.1 rest₃
      obtain ⟨rfl, -, rfl⟩ := Emission.run_pure_ok_iff.1 rest₄
      obtain ⟨hc₁, hl, -, -⟩ := lowerRhs_emits ht array true hn.1 hi.2.1 arrayTyped c hc _ _ _ run₁
      obtain ⟨hc₂, -, -, -⟩ := asOperand_emits hl c₁ hc₁ _ _ _ run₂
      have first := lowerRhs_silent ht array hn.1 hi.2.1 arrayTyped hc run₁
      have second := lowerRhs_silent ht i hn.2 hi.2.2.2 indexTyped hc₂ run₃
      rw [silentValue?, first, second, ifSilent_filter, ifSilent_filter, ← asOperand_silent run₂,
        ← asOperand_silent run₄]
      simp only [Option.bind_eq_bind, ifSilent_bind, ifSilent_append, ifSilent_nil, Option.bind_some]
      rfl
  | .length _ array, _, hn, hi, _, c, c', r, w, hc, h => by
      rw [lowerRhs] at h
      obtain ⟨l, c₁, w₁, _, -, rest₁, rfl⟩ := Emission.run_bind_ok_iff.1 h
      obtain ⟨a, c₂, w₂, _, -, rest₂, rfl⟩ := Emission.run_bind_ok_iff.1 rest₁
      obtain ⟨v, c₃, w₃, _, bound, rest₃, rfl⟩ := Emission.run_bind_ok_iff.1 rest₂
      refine (ifSilent_of_ne_nil ?_).symm
      simp [bind_ne_nil bound]
  | .newArray _ size, _, hn, hi, _, c, c', r, w, hc, h => by
      rw [lowerRhs] at h
      obtain ⟨l, c₁, w₁, _, -, rest₁, rfl⟩ := Emission.run_bind_ok_iff.1 h
      obtain ⟨a, c₂, w₂, _, -, rest₂, rfl⟩ := Emission.run_bind_ok_iff.1 rest₁
      obtain ⟨v, c₃, w₃, _, bound, rest₃, rfl⟩ := Emission.run_bind_ok_iff.1 rest₂
      refine (ifSilent_of_ne_nil ?_).symm
      simp [bind_ne_nil bound]
  | .newObject _ className, _, _, _, _, c, c', r, w, hc, h => by
      rw [lowerRhs] at h
      obtain ⟨v, c₁, w₁, _, bound, -, rfl⟩ := Emission.run_bind_ok_iff.1 h
      refine (ifSilent_of_ne_nil ?_).symm
      simp [bind_ne_nil bound]
  | .call tag target name args, _, hn, hi, he, c, c', r, w, hc, h => by
      obtain ⟨-, left, -, -⟩ := lowerRhs_emits ht (.call tag target name args) true hn hi he c hc _ _ _ h
      obtain ⟨call, t, rfl⟩ := left.call rfl
      unfold ifSilent
      split <;> rfl

/-- The value that an expression leaves without a line is the one that it leaves, and there is one
exactly if there are no lines. -/
theorem lowerValue_silent (ht : s.table.Written) {e : Expr} {expected : Option Ty} (hn : e.Named)
    (hi : e.Indexable) (he : ∀ t, expected = some t → t.Written) {v : Value}
    (hc : c.method = s.method)
    (h : (lowerValue s.table e expected).run c = ⟨.ok v, c', w⟩) :
    silentValue? s e = ifSilent w (some v) := by
  obtain ⟨rhs, c₁, w₁, w₂, run₁, run₂, rfl⟩ := Emission.run_bind_ok_iff.1 h
  rw [lowerRhs_silent ht e hn hi he hc run₁, ← asValue_silent run₂, ifSilent_append]

end JavaMinus.Lowering
