/-
# Where the machine goes on

After a line the machine goes on at the next one or at a label that the line names.  A `goto` and a
return never go on at the next line, and a return goes on nowhere.

Lines are measured by the depth of the stack before them.  `Leads` says that measured lines in a row
hand their depths on, and `marks` collects the depths at the labels that they are or jump to.
-/
import JavaMinus.Assembly.Listing

namespace JavaMinus

/-- The labels that an instruction jumps to. -/
def Ir.Instruction.targets : Ir.Instruction → List String
  | .goto label | .branch _ label => [label]
  | .assign _ _ rhs => rhs.targets
  | _ => []

namespace Assembly

/-- Whether the machine may go on at the next line. -/
def CodeLine.fallsThrough : CodeLine → Bool
  | .op (.goto _) | .op (.returnValue _) | .op .returnVoid => false
  | _ => true

/-- The label where the machine may go on after the line. -/
def CodeLine.target? : CodeLine → Option String
  | .op opcode => opcode.target?
  | .label _ => none

def CodeLine.depthAfter (before : Nat) : CodeLine → Nat
  | .op opcode => before - opcode.pops + opcode.pushes
  | .label _ => before

/-- `Follows code i j`: after line `i` the machine may go on at line `j`.  A line that falls through
at the end of the code goes on at no line: `j` is the number of lines then. -/
inductive Follows (code : List CodeLine) : Nat → Nat → Prop where
  | next {i : Nat} {line : CodeLine} : code[i]? = some line → line.fallsThrough = true →
      Follows code i (i + 1)
  | jump {i j : Nat} {line : CodeLine} {name : String} : code[i]? = some line →
      line.target? = some name → code[j]? = some (.label name) → Follows code i j

/-! ## Measured lines -/

/-- The number of values that a line pops. -/
def CodeLine.pops : CodeLine → Nat
  | .op opcode => opcode.pops
  | .label _ => 0

/-- From depth `a` the lines lead to depth `b`; each stands with the depth before it, finds what it
pops and hands on what it leaves if it falls through. -/
inductive Leads : Nat → List (Nat × CodeLine) → Nat → Prop where
  | done (a : Nat) : Leads a [] a
  | line {a a' b : Nat} {line : CodeLine} {ws : List (Nat × CodeLine)} : line.pops ≤ a →
      (line.fallsThrough = true → a' = line.depthAfter a) → Leads a' ws b →
      Leads a ((a, line) :: ws) b

/-- The greatest depth before an opcode. -/
def peak : List (Nat × CodeLine) → Nat
  | [] => 0
  | (d, .op _) :: ws => max d (peak ws)
  | (_, .label _) :: ws => peak ws

/-- The label that the line is or jumps to, with the depth there. -/
def mark? : Nat × CodeLine → Option (String × Nat)
  | (d, .label name) => some (name, d)
  | (d, .op opcode) => opcode.target?.map (·, (CodeLine.op opcode).depthAfter d)

def marks (ws : List (Nat × CodeLine)) : List (String × Nat) := ws.filterMap mark?

theorem Leads.append {a b c : Nat} {ws ws' : List (Nat × CodeLine)} (h : Leads a ws b)
    (h' : Leads b ws' c) : Leads a (ws ++ ws') c := by
  induction h with
  | done => exact h'
  | line pops falls _ ih => exact .line pops falls (ih h')

/-- The depth at the start is that of an opcode, or still there at the end. -/
theorem Leads.le_peak {a b : Nat} {ws : List (Nat × CodeLine)} (h : Leads a ws b) :
    a ≤ max (peak ws) b := by
  induction h with
  | done a => exact Nat.le_max_right _ a
  | @line a a' b line ws _ falls _ ih =>
      cases line with
      | op opcode => simp only [peak]; omega
      | label name =>
          obtain rfl : a' = a := falls rfl
          exact ih

theorem Leads.head {a b : Nat} {ws : List (Nat × CodeLine)} (h : Leads a ws b) (some : ws ≠ []) :
    ws.head?.map Prod.fst = .some a := by
  cases h with
  | done => exact absurd rfl some
  | line => rfl

/-- Each line finds what it pops and hands its depth on to the next one. -/
theorem Leads.at {a b : Nat} {ws : List (Nat × CodeLine)} (h : Leads a ws b) :
    ∀ {i d : Nat} {line : CodeLine}, ws[i]? = some (d, line) → line.pops ≤ d ∧
      (line.fallsThrough = true → ∀ d' line', ws[i + 1]? = some (d', line') →
        d' = line.depthAfter d) := by
  induction h with
  | done => exact fun h => nomatch h
  | @line a a' b line ws pops falls leads ih =>
      intro i d line' hi
      cases i with
      | zero =>
          obtain ⟨rfl, rfl⟩ := Prod.mk.inj (Option.some.inj hi)
          refine ⟨pops, fun through d' line' next => ?_⟩
          cases leads with
          | done => cases next
          | line =>
              obtain ⟨rfl, -⟩ := Prod.mk.inj (Option.some.inj next)
              exact falls through
      | succ i => exact ih hi

theorem le_peak {ws : List (Nat × CodeLine)} {d : Nat} {op : Opcode} (h : (d, .op op) ∈ ws) :
    d ≤ peak ws := by
  induction ws with
  | nil => cases h
  | cons w ws ih =>
      rcases List.mem_cons.1 h with rfl | h
      · exact Nat.le_max_left _ _
      · have more := ih h
        obtain ⟨d', line⟩ := w
        cases line with
        | op => exact Nat.le_trans more (Nat.le_max_right _ _)
        | label => exact more

theorem peak_cases (ws : List (Nat × CodeLine)) :
    peak ws = 0 ∨ ∃ op, (peak ws, .op op) ∈ ws := by
  induction ws with
  | nil => exact .inl rfl
  | cons w ws ih =>
      obtain ⟨d, line⟩ := w
      have more : ∀ {e : Nat}, (∃ op, (e, .op op) ∈ ws) → ∃ op, (e, .op op) ∈ (d, line) :: ws :=
        fun ⟨op, h⟩ => ⟨op, List.mem_cons_of_mem _ h⟩
      cases line with
      | label name => exact ih.imp_right more
      | op op =>
          rcases Nat.le_total (peak ws) d with above | below
          · have top : peak ((d, .op op) :: ws) = d := Nat.max_eq_left above
            rw [top]
            exact .inr ⟨op, List.mem_cons_self⟩
          · have top : peak ((d, .op op) :: ws) = peak ws := Nat.max_eq_right below
            rw [top]
            exact ih.imp_right more

/-- Among lines with an opcode the peak is the depth before one. -/
theorem peak_mem {ws : List (Nat × CodeLine)} {d : Nat} {op : Opcode} (h : (d, .op op) ∈ ws) :
    ∃ op, (peak ws, .op op) ∈ ws := by
  rcases peak_cases ws with zero | attained
  · have bound := le_peak h
    obtain rfl : d = 0 := by omega
    exact ⟨op, zero ▸ h⟩
  · exact attained

theorem peak_append (ws ws' : List (Nat × CodeLine)) :
    peak (ws ++ ws') = max (peak ws) (peak ws') := by
  induction ws with
  | nil => exact (Nat.max_eq_right (Nat.zero_le _)).symm
  | cons w ws ih =>
      obtain ⟨d, line⟩ := w
      cases line with
      | op opcode =>
          simp only [List.cons_append, peak, ih]
          omega
      | label name => exact ih

theorem marks_append (ws ws' : List (Nat × CodeLine)) :
    marks (ws ++ ws') = marks ws ++ marks ws' :=
  List.filterMap_append

theorem mem_marks_of_label {ws : List (Nat × CodeLine)} {d : Nat} {name : String}
    (h : (d, .label name) ∈ ws) : (name, d) ∈ marks ws :=
  List.mem_filterMap.2 ⟨_, h, rfl⟩

theorem mem_marks_of_target {ws : List (Nat × CodeLine)} {d : Nat} {line : CodeLine} {name : String}
    (h : (d, line) ∈ ws) (ht : line.target? = some name) : (name, line.depthAfter d) ∈ marks ws := by
  cases line with
  | label => cases ht
  | op op =>
      have target : op.target? = some name := ht
      exact List.mem_filterMap.2 ⟨_, h, by rw [mark?, target]; rfl⟩

end Assembly

end JavaMinus
