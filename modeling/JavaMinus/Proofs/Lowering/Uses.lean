/-
# What the lines of a program use

`Expr.uses` collects the uses of the instructions that lowering makes of an expression, in the order
in which they are written: each call with the types under which it is lowered, and the receiver
where a field is read.  What an expression leaves is not written yet.  It holds the receiver if it
is the receiver (`Expr.held`), and where it is placed this becomes a use of the instruction there.

Whether there is assembly for an expression is a question about its uses (`isEmittable_eq`).
-/
import JavaMinus.Proofs.Assembly.Uses
import JavaMinus.Proofs.Lowering.Emittable

namespace JavaMinus

open Source Ir

namespace Ty

/-- The type of operands as it is read back. -/
def read (t : Ty) : ElementType := t.lowered.readBack

end Ty

namespace Scope

def isField (s : Scope) (name : String) : Bool := (s.lookup name).any (·.origin = .field)

variable {s : Scope} {name : String} {found : Lookup}

theorem variableType_of_lookup (h : s.table.lookup s.method name = some found) :
    s.variableType? name = some found.symbol.type := by
  rw [variableType?, SymbolTable.variableType?, h]
  rfl

theorem isField_of_lookup (h : s.table.lookup s.method name = some found) :
    s.isField name = decide (found.origin = .field) := by
  rw [isField, lookup, h]
  rfl

end Scope

namespace Source

/-- The use that an expression holds until it is placed. -/
def Expr.held (e : Expr) : List Use := receiverUse e.isThis

def Expr.operandType (s : Scope) (e : Expr) (expected : Option Ty) : ElementType :=
  if e.isThis then .this else (e.loweredType s expected).read

/-- The types of the operands that arguments leave, each lowered for its parameter if there is
one. -/
def Expr.operandTypes (s : Scope) : List Expr → List Symbol → List ElementType
  | [], _ => []
  | arg :: args, params =>
      arg.operandType s (params.head?.map (·.type)) :: operandTypes s args params.tail

/-- The parameters that arguments are lowered for, if the class declares the method. -/
def Expr.expectedParams (s : Scope) (target : Expr) (method : String) : List Symbol :=
  ((Expr.called? s target method).map (·.params)).getD []

/-- A call as it is lowered: on the class that its target names, or on the operand that its target
leaves. -/
def Expr.outline (s : Scope) (target : Expr) (method : String) (args : List Expr)
    (expected : Option Ty) (wanted : Bool) : Outline where
  kind := if target.namesClass s then .invokeStatic else .invokeVirtual
  target := some (if target.namesClass s then .classRef (target.asName?.getD "")
    else target.operandType s none)
  method := some method
  args := Expr.operandTypes s args (Expr.expectedParams s target method)
  returnType := (Lowering.callType (Expr.called? s target method) expected).read
  wanted := wanted

/-- The creation of an object. -/
def Expr.created (className : String) : Use :=
  .call ⟨.new, some (.classRef className), none, [], (Ty.ofClass className).read, true⟩

/-- The call of the constructor of an object. -/
def Expr.constructed (className : String) : Use :=
  .call ⟨.invokeSpecial, some (Ty.ofClass className).read, some "<init>", [], .void, false⟩

mutual

/-- The uses of the lines of an expression, lowered where a type is expected, and of what it leaves
if that is an operation. -/
def Expr.uses (s : Scope) : Expr → Bool → Option Ty → List Use
  | .int .., _, _ | .bool .., _, _ | .this _, _, _ => []
  | .name _ text, _, _ => receiverUse (s.isField text)
  | .binary _ op lhs rhs, _, _ =>
      lhs.uses s true (some op.operandType) ++
        (rhs.uses s true (some op.operandType) ++ (lhs.held ++ rhs.held))
  | .not _ operand, _, _ => operand.uses s true (some .boolean) ++ operand.held
  | .index _ array i, _, _ =>
      array.uses s true (some .intArray) ++ i.uses s true (some .int)
  | .length _ array, _, _ =>
      array.uses s true (some .intArray) ++ (array.held ++
        [.call ⟨.arrayLength, some (array.operandType s (some .intArray)), none, [], .int32, true⟩])
  | .newArray _ size, _, _ =>
      size.uses s true (some .int) ++ (size.held ++
        [.call ⟨.new, none, none, [size.operandType s (some .int)], .array .int32, true⟩])
  | .newObject _ className, _, _ => [Expr.created className, Expr.constructed className]
  | .paren _ inner, wanted, expected => inner.uses s wanted expected
  | .call _ target method args, wanted, expected =>
      (if target.namesClass s then [] else target.uses s true none) ++
        (Expr.usesIn s args (Expr.expectedParams s target method) ++
          (target.held ++ (args.flatMap Expr.held ++
            [.call (Expr.outline s target method args expected wanted)])))

/-- The uses of arguments, each lowered for its parameter if there is one. -/
def Expr.usesIn (s : Scope) : List Expr → List Symbol → List Use
  | [], _ => []
  | arg :: args, params =>
      arg.uses s true (params.head?.map (·.type)) ++ Expr.usesIn s args params.tail

end

/-- The uses of an expression with the instruction that it is placed in. -/
def Expr.placedUses (s : Scope) (e : Expr) (expected : Option Ty) : List Use :=
  e.uses s true expected ++ e.held

mutual

def Stmt.uses (s : Scope) : Stmt → List Use
  | .block _ body => Stmt.usesIn s body
  | .ifThen _ condition thenBranch =>
      condition.placedUses s (some .boolean) ++ thenBranch.uses s
  | .ifElse _ condition thenBranch elseBranch =>
      condition.placedUses s (some .boolean) ++ (thenBranch.uses s ++ elseBranch.uses s)
  | .while _ condition body => condition.placedUses s (some .boolean) ++ body.uses s
  | .expr e => e.uses s false none
  | .assign _ target value =>
      value.uses s true (s.variableType? target) ++
        (receiverUse (s.isField target) ++ value.held)
  | .assignElement _ target index value =>
      receiverUse (s.isField target) ++ (index.uses s true (some .int) ++
        value.placedUses s ((s.variableType? target).map (·.element)))
  | .return _ none => []
  | .return _ (some value) => value.placedUses s (some s.expectedReturn)

def Stmt.usesIn (s : Scope) : List Stmt → List Use
  | [] => []
  | stmt :: stmts => stmt.uses s ++ Stmt.usesIn s stmts

end

/-! ## Uses that fit -/

variable {s : Scope}

theorem Expr.held_fits (e : Expr) : e.held.all Use.fits = true :=
  receiverUse_fits _

theorem Expr.heldAll_fit (args : List Expr) : (args.flatMap Expr.held).all Use.fits = true := by
  rw [List.all_flatMap]
  exact List.all_eq_true.2 fun e _ => e.held_fits

theorem creation_fits (className : String) :
    [Expr.created className, Expr.constructed className].all Use.fits = (Ty.ofClass className).isObject := by
  obtain ⟨methods, value, creates⟩ := Ty.readBack_lowered (.ofClass className)
  show ((Ty.ofClass className).lowered.readBack.creates &&
    (Ty.ofClass className).lowered.readBack != .void && _) = _
  rw [value, creates rfl]
  show (_ && ((Ty.ofClass className).lowered.readBack.hasMethods && _ && _)) = _
  rw [methods]
  cases h : (Ty.ofClass className).isObject with
  | false => rfl
  | true => rw [Ty.isValue_of_isObject h]; rfl

theorem operandType_hasMethods (e : Expr) :
    (e.operandType s none).hasMethods = (e.isThis || (e.loweredType s none).isObject) := by
  unfold Expr.operandType
  cases e.isThis with
  | true => rfl
  | false => exact (Ty.readBack_lowered _).1

theorem outline_fits (target : Expr) (method : String) (args : List Expr) (expected : Option Ty)
    (wanted : Bool) :
    (Expr.outline s target method args expected wanted).fits = (target.isReceiver s &&
      (!wanted || (Lowering.callType (Expr.called? s target method) expected).isValue)) := by
  obtain ⟨-, value, -⟩ :=
    Ty.readBack_lowered (Lowering.callType (Expr.called? s target method) expected)
  rw [Outline.fits, Expr.isReceiver, ← value]
  cases hn : target.namesClass s with
  | true =>
      simp only [Expr.outline, hn]
      rfl
  | false =>
      simp only [Expr.outline, hn]
      show ((target.operandType s none).hasMethods && _) = _
      rw [operandType_hasMethods, Bool.false_or]
      rfl

mutual

/-- There is assembly for an expression exactly if its uses fit. -/
theorem isEmittable_eq : ∀ (e : Expr) (wanted : Bool) (expected : Option Ty),
    e.isEmittable s wanted expected = (e.uses s wanted expected).all Use.fits
  | .int .., _, _ | .bool .., _, _ | .this _, _, _ => rfl
  | .name _ text, _, _ => (receiverUse_fits _).symm
  | .binary _ op lhs rhs, _, _ => by
      rw [Expr.isEmittable, Expr.uses, List.all_append, List.all_append, List.all_append,
        Expr.held_fits, Expr.held_fits, isEmittable_eq lhs, isEmittable_eq rhs]
      simp only [Bool.and_true]
  | .not _ operand, _, _ => by
      rw [Expr.isEmittable, Expr.uses, List.all_append, Expr.held_fits, Bool.and_true]
      exact isEmittable_eq operand _ _
  | .index _ array i, _, _ => by
      rw [Expr.isEmittable, Expr.uses, List.all_append, isEmittable_eq array, isEmittable_eq i]
  | .length _ array, _, _ => by
      rw [Expr.isEmittable, Expr.uses, List.all_append, List.all_append, Expr.held_fits,
        isEmittable_eq array]
      exact (Bool.and_true _).symm
  | .newArray _ size, _, _ => by
      rw [Expr.isEmittable, Expr.uses, List.all_append, List.all_append, Expr.held_fits,
        isEmittable_eq size]
      exact (Bool.and_true _).symm
  | .newObject _ className, _, _ => (creation_fits className).symm
  | .paren _ inner, wanted, expected => isEmittable_eq inner wanted expected
  | .call _ target method args, wanted, expected => by
      have called : [Use.call (Expr.outline s target method args expected wanted)].all Use.fits =
          (Expr.outline s target method args expected wanted).fits := Bool.and_true _
      rw [Expr.isEmittable, Expr.uses, List.all_append, List.all_append, List.all_append,
        List.all_append, Expr.held_fits, Expr.heldAll_fit, Bool.true_and, Bool.true_and, called,
        outline_fits, ← areEmittable_eq args]
      cases target.namesClass s with
      | true => rfl
      | false =>
          rw [Bool.false_or, isEmittable_eq target]
          rfl

/-- There is assembly for arguments exactly if their uses fit. -/
theorem areEmittable_eq : ∀ (args : List Expr) (params : List Symbol),
    Expr.areEmittable s args params = (Expr.usesIn s args params).all Use.fits
  | [], _ => rfl
  | arg :: args, params => by
      rw [Expr.areEmittable, Expr.usesIn, List.all_append, isEmittable_eq arg,
        areEmittable_eq args]

end

theorem placed_isEmittable_eq (e : Expr) (expected : Option Ty) :
    e.isEmittable s true expected = (e.placedUses s expected).all Use.fits := by
  rw [Expr.placedUses, List.all_append, e.held_fits, Bool.and_true]
  exact isEmittable_eq e true expected

mutual

/-- There is assembly for a statement exactly if its uses fit. -/
theorem stmt_isEmittable_eq : ∀ stmt : Stmt, stmt.isEmittable s = (stmt.uses s).all Use.fits
  | .block _ body => stmts_areEmittable_eq body
  | .ifThen _ condition thenBranch => by
      rw [Stmt.isEmittable, Stmt.uses, List.all_append, placed_isEmittable_eq,
        stmt_isEmittable_eq thenBranch]
  | .ifElse _ condition thenBranch elseBranch => by
      rw [Stmt.isEmittable, Stmt.uses, List.all_append, List.all_append, placed_isEmittable_eq,
        stmt_isEmittable_eq thenBranch, stmt_isEmittable_eq elseBranch]
  | .while _ condition body => by
      rw [Stmt.isEmittable, Stmt.uses, List.all_append, placed_isEmittable_eq,
        stmt_isEmittable_eq body]
  | .expr e => isEmittable_eq e false none
  | .assign _ target value => by
      rw [Stmt.isEmittable, Stmt.uses, List.all_append, List.all_append, receiverUse_fits,
        value.held_fits, isEmittable_eq value]
      exact (Bool.and_true _).symm
  | .assignElement _ target index value => by
      rw [Stmt.isEmittable, Stmt.uses, List.all_append, List.all_append, receiverUse_fits,
        Bool.true_and, isEmittable_eq index, placed_isEmittable_eq]
  | .return _ none => rfl
  | .return _ (some value) => placed_isEmittable_eq value _

/-- There is assembly for statements in a row exactly if their uses fit. -/
theorem stmts_areEmittable_eq : ∀ stmts : List Stmt,
    Stmt.areEmittable s stmts = (Stmt.usesIn s stmts).all Use.fits
  | [] => rfl
  | stmt :: stmts => by
      rw [Stmt.areEmittable, Stmt.usesIn, List.all_append, stmt_isEmittable_eq stmt,
        stmts_areEmittable_eq stmts]

end

end Source

end JavaMinus
