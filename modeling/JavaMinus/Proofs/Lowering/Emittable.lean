/-
# Programs that have assembly

A check lets a call pass whose type it does not know.  Lowering gives such a call the type that its
context expects, and no value where the context expects nothing: a call that is the receiver or the
argument of a call to another class, or the operand of a statement that drops it, returns nothing.
If the result is used all the same, there is no assembly for it.

`Stmt.isEmittable` says of the statements of a program that this does not happen, nor that a method
is called on what is no object, nor that an object is created whose class has the name of a type of
the intermediate form.  It looks at the source and the types under which its expressions are lowered
(`Expr.loweredType`).
-/
import JavaMinus.Lowering.Unit
import JavaMinus.Proofs.Assembly.Success
import JavaMinus.Proofs.Ir.Members
import JavaMinus.Typing.Statement

namespace JavaMinus

open Source

namespace Ty

/-- Whether an operand of the type is an object once it has been written and read: it is no array,
and its class does not have the name of another type. -/
def isObject (t : Ty) : Bool :=
  !t.isArray &&
    !(["int", "boolean", "void", "static void", "String", "i32", "bool", "V"].contains t.name)

/-- Whether a result of the type is a value once it has been written and read. -/
def isValue (t : Ty) : Bool := t.isArray || !(["void", "static void", "V"].contains t.name)

theorem base_other {name : String}
    (h : name ∉ ["int", "boolean", "void", "static void", "String"]) :
    lowered.base name = .object name := by
  rw [lowered.base.eq_6] <;>
  · rintro rfl
    exact h (by decide)

/-- The type as it is read back, by the name and the mark of arrays. -/
theorem readBack_lowered (t : Ty) :
    t.lowered.readBack.hasMethods = t.isObject ∧ (t.lowered.readBack != .void) = t.isValue ∧
      (t.isArray = false → t.lowered.readBack.creates = t.isObject) := by
  obtain ⟨name, isArray⟩ := t
  cases isArray with
  | true => exact ⟨rfl, rfl, Bool.noConfusion⟩
  | false =>
      by_cases h : name ∈ ["int", "boolean", "void", "static void", "String"]
      · simp only [List.mem_cons, List.not_mem_nil, or_false] at h
        rcases h with rfl | rfl | rfl | rfl | rfl <;> decide
      · by_cases hw : name ∈ ["i32", "bool", "V", "String"]
        · simp only [List.mem_cons, List.not_mem_nil, or_false] at hw
          rcases hw with rfl | rfl | rfl | rfl <;> decide
        · have lowered : Ty.lowered ⟨name, false⟩ = .object name := base_other h
          rw [lowered, Ir.ElementType.readBack, Ir.ElementType.ofWord_other hw]
          simp only [List.mem_cons, List.not_mem_nil, or_false, not_or] at h hw
          simp [Ir.ElementType.hasMethods, Ir.ElementType.creates, isObject, isValue, h, hw]

theorem readBack_ne_array {t : Ty} (h : t.isArray = false) : t.lowered.readBack ≠ .array .int32 := by
  obtain ⟨methods, -, creates⟩ := readBack_lowered t
  intro hr
  have same := methods.trans (creates h).symm
  rw [hr] at same
  cases same

theorem isValue_of_isObject {t : Ty} (h : t.isObject = true) : t.isValue = true := by
  obtain ⟨methods, value, -⟩ := readBack_lowered t
  rw [← value, bne_iff_ne]
  intro hv
  rw [h, hv] at methods
  cases methods

end Ty

namespace Source

/-- Whether the target of a call stands for a class: a name that is not declared here. -/
def Expr.namesClass (s : Scope) (target : Expr) : Bool :=
  match target.asName? with
  | some text => (s.lookup text).isNone
  | none => false

/-- The signature that a call takes its types from: that of the own class, if the receiver is one of
its objects. -/
def Expr.signature? (s : Scope) (receiver : Option Ty) (method : String) : Option Signature :=
  if receiver = some (.ofClass s.table.className) then s.table.method? method else none

/-- The type under which an expression is lowered where its context expects a type. -/
def Expr.loweredType (s : Scope) : Expr → Option Ty → Ty
  | .int .., _ | .length .., _ => .int
  | .bool .., _ | .not .., _ => .boolean
  | .this _, _ => .ofClass s.table.className
  | .name _ text, _ => (s.variableType? text).getD .void
  | .binary _ op _ _, _ => op.resultType
  | .index _ array _, _ => (array.loweredType s (some .intArray)).element
  | .newArray .., _ => .intArray
  | .newObject _ className, _ => .ofClass className
  | .paren _ inner, expected => inner.loweredType s expected
  | .call _ target method _, expected =>
      let receiver := if target.namesClass s then none else some (target.loweredType s none)
      Lowering.callType (Expr.signature? s receiver method) expected

/-- The signature that a call of a method on a target takes its types from. -/
def Expr.called? (s : Scope) (target : Expr) (method : String) : Option Signature :=
  Expr.signature? s (if target.namesClass s then none else some (target.loweredType s none)) method

/-- Whether methods can be called on a target: a class, the receiver, or an object. -/
def Expr.isReceiver (s : Scope) (target : Expr) : Bool :=
  target.namesClass s || target.isThis || (target.loweredType s none).isObject

mutual

/-- Whether there is assembly for an expression, lowered where a type is expected.  The result of a
call has to be a value where it is wanted. -/
def Expr.isEmittable (s : Scope) : Expr → Bool → Option Ty → Bool
  | .int .., _, _ | .bool .., _, _ | .this _, _, _ | .name .., _, _ => true
  | .binary _ op lhs rhs, _, _ =>
      lhs.isEmittable s true (some op.operandType) && rhs.isEmittable s true (some op.operandType)
  | .not _ operand, _, _ => operand.isEmittable s true (some .boolean)
  | .index _ array i, _, _ =>
      array.isEmittable s true (some .intArray) && i.isEmittable s true (some .int)
  | .length _ array, _, _ => array.isEmittable s true (some .intArray)
  | .newArray _ size, _, _ => size.isEmittable s true (some .int)
  | .newObject _ className, _, _ => (Ty.ofClass className).isObject
  | .paren _ inner, wanted, expected => inner.isEmittable s wanted expected
  | .call _ target method args, wanted, expected =>
      (target.namesClass s || target.isEmittable s true none) &&
        (Expr.areEmittable s args (((Expr.called? s target method).map (·.params)).getD []) &&
          (target.isReceiver s &&
            (!wanted || (Lowering.callType (Expr.called? s target method) expected).isValue)))

/-- Whether there is assembly for arguments, each lowered for its parameter if there is one. -/
def Expr.areEmittable (s : Scope) : List Expr → List Symbol → Bool
  | [], _ => true
  | arg :: args, params =>
      arg.isEmittable s true (params.head?.map (·.type)) && Expr.areEmittable s args params.tail

end

mutual

def Stmt.isEmittable (s : Scope) : Stmt → Bool
  | .block _ body => Stmt.areEmittable s body
  | .ifThen _ condition thenBranch =>
      condition.isEmittable s true (some .boolean) && thenBranch.isEmittable s
  | .ifElse _ condition thenBranch elseBranch =>
      condition.isEmittable s true (some .boolean) &&
        (thenBranch.isEmittable s && elseBranch.isEmittable s)
  | .while _ condition body =>
      condition.isEmittable s true (some .boolean) && body.isEmittable s
  | .expr e => e.isEmittable s false none
  | .assign _ target value => value.isEmittable s true (s.variableType? target)
  | .assignElement _ target index value =>
      index.isEmittable s true (some .int) &&
        value.isEmittable s true ((s.variableType? target).map (·.element))
  | .return _ none => true
  | .return _ (some value) => value.isEmittable s true (some s.expectedReturn)

def Stmt.areEmittable (s : Scope) : List Stmt → Bool
  | [] => true
  | stmt :: stmts => stmt.isEmittable s && Stmt.areEmittable s stmts

end

/-- Whether there is assembly for the statements of a program. -/
def Program.isEmittable (p : Program) : Bool :=
  p.methods.all fun m => Stmt.areEmittable (.ofMethod (.ofProgram p) m) m.body

end Source

end JavaMinus
