/-
# What expressions evaluate to

A run works on a heap of objects and arrays, and may trap.  A call is a black box: it is given by a
function from the heap to a result and another heap, so it may change any field and any element of
an array, and it may trap or not come back; it does not reach the variables of its caller.  The calls
that are made are recorded in order.

Words are 32 bits wide and wrap around; a truth value is the word zero or one, and both operands of
`&&` are always evaluated.  `eval` evaluates from left to right.

`evalLate` does the same but for one thing: an element of an array that stands on the left of an
operator is read after the operand on the right has been evaluated, together with it.
-/
import JavaMinus.Ir.Unit
import JavaMinus.Typing.SymbolTable

namespace JavaMinus

open Source

/-- The word of a truth value. -/
def truth (p : Prop) [Decidable p] : Int := if p then 1 else 0

/-- What an operator computes, before it wraps around; nothing for a division by zero. -/
def Source.BinaryOp.compute? (op : BinaryOp) (a b : Int) : Option Int :=
  match op with
  | .add => some (a + b)
  | .sub => some (a - b)
  | .mul => some (a * b)
  | .div => if b = 0 then none else some (a.tdiv b)
  | .lt => some (truth (a < b))
  | .and => some (truth (1 ≤ a ∧ 1 ≤ b))

namespace Evaluation

/-! ## Runs -/

/-- What a variable, a field or an element of an array holds. -/
inductive Datum where
  | word (n : Int32)
  | reference (address : Nat)
  | null
deriving DecidableEq, Repr

/-- What lies at an address. -/
inductive Cell where
  | object (fields : String → Datum)
  | array (elements : List Datum)

/-- The cells by their addresses; new ones are added at the end. -/
abbrev Heap : Type := List Cell

inductive Target where
  | object (receiver : Datum)
  | classNamed (name : String)
deriving DecidableEq, Repr

structure Event where
  target : Target
  method : String
  args : List Datum
deriving DecidableEq, Repr

/-- What surrounds a run. -/
structure World where
  /-- What a call does. -/
  invoke : Event → Heap → Option (Datum × Heap)
  /-- The fields of a new object of a class. -/
  initial : String → String → Datum

/-- The heap, and the calls made so far. -/
structure Store where
  heap : Heap
  calls : List Event

/-- A run that may trap. -/
abbrev Run (α : Type) : Type := StateT Store Option α

/-- The variables of the method that runs. -/
abbrev Env : Type := String → Option Datum

/-- Nothing comes of this. -/
def trap {α : Type} : Run α := fun _ => none

/-- A value that may be missing. -/
def lift {α : Type} (a : Option α) : Run α := fun s => a.map (·, s)

/-- What a variable holds; a numeral is no variable. -/
def Env.find (env : Env) (name : String) : Option Datum :=
  if (Ir.numeral? name).isSome then none else env name

/-- The variables after an assignment. -/
def Env.assign (env : Env) (name : String) (d : Datum) : Env :=
  fun other => if other = name then some d else env other

/-- An operator on two words. -/
def operate (compute? : Int → Int → Option Int) : Datum → Datum → Run Datum
  | .word a, .word b => lift ((compute? a.toInt b.toInt).map fun n => .word (Int32.ofInt n))
  | _, _ => trap

/-- The negation of a truth value. -/
def negate : Datum → Run Datum
  | .word n => pure (.word (Int32.ofInt (truth (n = 0))))
  | _ => trap

/-- The elements of an array at an address. -/
def elements? (heap : Heap) : Datum → Option (List Datum)
  | .reference a =>
      match heap[a]? with
      | some (.array ds) => some ds
      | _ => none
  | _ => none

def element? (heap : Heap) (array index : Datum) : Option Datum :=
  match index with
  | .word i => do
      let ds ← elements? heap array
      if 0 ≤ i.toInt then ds[i.toInt.toNat]? else none
  | _ => none

def readElement (array index : Datum) : Run Datum :=
  fun s => (element? s.heap array index).map (·, s)

def readLength (array : Datum) : Run Datum :=
  fun s => (elements? s.heap array).map fun ds => (.word (Int32.ofInt ds.length), s)

/-- Reads a field of an object. -/
def readField (name : String) : Datum → Run Datum
  | .reference a => fun s =>
      match s.heap[a]? with
      | some (.object fields) => some (fields name, s)
      | _ => none
  | _ => trap

/-- Adds a cell to the heap. -/
def allocate (cell : Cell) : Run Datum :=
  fun s => some (.reference s.heap.length, { s with heap := s.heap ++ [cell] })

/-- A new array of zeros; its size is not negative. -/
def newArray : Datum → Run Datum
  | .word n =>
      if 0 ≤ n.toInt then allocate (.array (List.replicate n.toInt.toNat (.word 0))) else trap
  | _ => trap

def newObject (w : World) (className : String) : Run Datum :=
  allocate (.object (w.initial className))

/-- Makes a call. -/
def invoke (w : World) (e : Event) : Run Datum :=
  fun s => (w.invoke e s.heap).map fun (d, heap) => (d, ⟨heap, s.calls ++ [e]⟩)

/-! ## Expressions -/

/-- The class that the target of a call names, if it is a name that means nothing in the method. -/
def targetClass? (table : SymbolTable) (method : String) (target : Expr) : Option String :=
  target.asName?.filter fun name => (table.lookup method name).isNone

section

variable (w : World) (table : SymbolTable) (method : String) (env : Env)

/-- What a name holds: a variable, or a field of the receiver. -/
def readName (name : String) : Run Datum :=
  match table.lookup method name with
  | none => trap
  | some found =>
      if found.origin = .field then lift (env.find "this") >>= readField name
      else lift (env.find name)

mutual

/-- Evaluates an expression from left to right. -/
def eval : Expr → Run Datum
  | .int _ n => pure (.word n)
  | .bool _ b => pure (.word (Int32.ofInt (truth b)))
  | .this _ => lift (env.find "this")
  | .name _ name => readName table method env name
  | .paren _ inner => eval inner
  | .binary _ op lhs rhs => do
      let l ← eval lhs
      let r ← eval rhs
      operate op.compute? l r
  | .not _ operand => do
      let d ← eval operand
      negate d
  | .index _ array index => do
      let a ← eval array
      let i ← eval index
      readElement a i
  | .length _ array => do
      let a ← eval array
      readLength a
  | .newArray _ size => do
      let n ← eval size
      newArray n
  | .newObject _ className => do
      let o ← newObject w className
      let _ ← invoke w ⟨.object o, "<init>", []⟩
      pure o
  | .call _ target name args =>
      match targetClass? table method target with
      | some className => do
          let ds ← evalAll args
          invoke w ⟨.classNamed className, name, ds⟩
      | none => do
          let o ← eval target
          let ds ← evalAll args
          invoke w ⟨.object o, name, ds⟩

/-- Evaluates expressions from left to right. -/
def evalAll : List Expr → Run (List Datum)
  | [] => pure []
  | e :: es => do
      let d ← eval e
      let ds ← evalAll es
      pure (d :: ds)

end

end

/-! ## Late reading -/

/-- A datum, or an element of an array that is still to be read. -/
inductive Reading where
  | datum (d : Datum)
  | element (array index : Datum)
deriving DecidableEq, Repr

/-- Reads what is still to be read. -/
def Reading.force : Reading → Run Datum
  | .datum d => pure d
  | .element array index => readElement array index

/-- An element that is still to be read; a word has none. -/
def Reading.pending? : Datum → Datum → Option Reading
  | .word _, _ => none
  | array, index => some (.element array index)

section

variable (w : World) (table : SymbolTable) (method : String) (env : Env)

mutual

/-- Evaluates an expression from left to right, but for the elements of arrays: one that an operator
has on its left is read with what is on its right. -/
def evalLate : Expr → Run Reading
  | .int _ n => pure (.datum (.word n))
  | .bool _ b => pure (.datum (.word (Int32.ofInt (truth b))))
  | .this _ => .datum <$> lift (env.find "this")
  | .name _ name => .datum <$> readName table method env name
  | .paren _ inner => evalLate inner
  | .binary _ op lhs rhs => do
      let l ← evalLate lhs
      let r ← evalLate rhs
      let l ← l.force
      let r ← r.force
      .datum <$> operate op.compute? l r
  | .not _ operand => do
      let d ← evalLate operand
      let d ← d.force
      .datum <$> negate d
  | .index _ array index => do
      let a ← evalLate array >>= Reading.force
      let i ← evalLate index >>= Reading.force
      lift (Reading.pending? a i)
  | .length _ array => do
      let a ← evalLate array >>= Reading.force
      .datum <$> readLength a
  | .newArray _ size => do
      let n ← evalLate size >>= Reading.force
      .datum <$> newArray n
  | .newObject _ className => do
      let o ← newObject w className
      let _ ← invoke w ⟨.object o, "<init>", []⟩
      pure (.datum o)
  | .call _ target name args =>
      match targetClass? table method target with
      | some className => do
          let ds ← evalLateAll args
          .datum <$> invoke w ⟨.classNamed className, name, ds⟩
      | none => do
          let o ← evalLate target >>= Reading.force
          let ds ← evalLateAll args
          .datum <$> invoke w ⟨.object o, name, ds⟩

/-- Evaluates arguments; each is read before the next one is evaluated. -/
def evalLateAll : List Expr → Run (List Datum)
  | [] => pure []
  | e :: es => do
      let d ← evalLate e >>= Reading.force
      let ds ← evalLateAll es
      pure (d :: ds)

end

end

end Evaluation

end JavaMinus
