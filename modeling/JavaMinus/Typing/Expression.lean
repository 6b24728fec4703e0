/-
# Checking expressions

A check walks over an expression and halts at the first broken rule; only the arguments of a call
are all checked, as siblings, before the call halts.

Operators come in chains that lean to the left, `a + b + c` with `a + b` inside.  A chain is not
checked by recursion on its left operands: its links are laid out from the innermost operator
outwards, and one pass over them carries the type of what stands to the left.  An operand whose type
is not known, such as the result of a call to another class, is taken to have the type that the
operator asks for.
-/
import JavaMinus.Typing.Checked
import JavaMinus.Typing.Scope

namespace JavaMinus

open Source

/-- Where an expression stands. -/
inductive Position where
  | value
  /-- The array of an array access. -/
  | arrayBase
  | arrayIndex
  /-- The condition of a statement. -/
  | condition (statement : Conditional)
deriving DecidableEq, Repr

/-! ## Chains -/

/-- An operator of a chain without its left operand. -/
structure Link where
  tag : Tag
  op : BinaryOp
  rhs : Expr

/-- Lays out a chain: its leftmost operand, and its links from the innermost one outwards, before
those already laid out.  Parentheses around a part of the chain are no border. -/
def layOut : Expr → List Link → Expr × List Link
  | .binary tag op lhs rhs, links => layOut lhs (⟨tag, op, rhs⟩ :: links)
  | .paren _ inner, links => layOut inner links
  | e, links => (e, links)

/-- A bound for the work on links. -/
noncomputable def linksSize : List Link → Nat
  | [] => 0
  | link :: links => 1 + sizeOf link.rhs + linksSize links

theorem layOut_size_le (e : Expr) (links : List Link) :
    sizeOf (layOut e links).1 + linksSize (layOut e links).2 ≤ sizeOf e + linksSize links := by
  fun_induction layOut e links with
  | case1 links tag op lhs rhs ih =>
      simp only [linksSize, Expr.binary.sizeOf_spec] at *
      omega
  | case2 links tag inner ih =>
      simp only [Expr.paren.sizeOf_spec] at *
      omega
  | case3 => exact Nat.le_refl _

theorem linksSize_le_layOut (e : Expr) (links : List Link) :
    linksSize links ≤ linksSize (layOut e links).2 := by
  fun_induction layOut e links with
  | case1 links tag op lhs rhs ih =>
      simp only [linksSize] at ih
      omega
  | case2 links tag inner ih => exact ih
  | case3 => exact Nat.le_refl _

theorem sizeOf_expr_pos (e : Expr) : 0 < sizeOf e := by
  cases e <;>
    simp only [Expr.int.sizeOf_spec, Expr.bool.sizeOf_spec, Expr.name.sizeOf_spec,
      Expr.this.sizeOf_spec, Expr.binary.sizeOf_spec, Expr.not.sizeOf_spec,
      Expr.index.sizeOf_spec, Expr.length.sizeOf_spec, Expr.call.sizeOf_spec,
      Expr.newArray.sizeOf_spec, Expr.newObject.sizeOf_spec, Expr.paren.sizeOf_spec] <;>
    omega

theorem sizeOf_args_pos (args : List Expr) : 0 < sizeOf args := by
  cases args with
  | nil => exact Nat.zero_lt_one
  | cons e es =>
    rw [List.cons.sizeOf_spec]
    omega

/-! ## The rules -/

namespace Scope

variable (s : Scope)

/-- A name is declared or imported, is no field if the method is static, and is an array where an
array is asked for. -/
def checkName (name : String) (loc : Location) (asArray : Bool) : Checked Unit :=
  match s.lookup name with
  | none =>
      if s.table.hasImport name then pure () else Checked.fail loc (.cannotFindSymbol name)
  | some found =>
      if found.origin = .field ∧ s.isStatic then
        Checked.fail loc (.nonStaticInStaticContext name)
      else if asArray ∧ ¬ found.symbol.type.isArray then
        Checked.fail loc (.arrayAccessOnNonArray name)
      else pure ()

/-- If the type of an expression is known, it satisfies the rule. -/
def checkType (e : Expr) (rule : Ty → Bool) (loc : Location) (finding : Ty → Finding) :
    Checked Unit :=
  match s.typeOf? e with
  | some type => Checked.failIf (!rule type) loc (finding type)
  | none => pure ()

/-- The array of an access has a known type, or is no name, and its known type is an array. -/
def checkArray (array : Expr) (loc : Location) : Checked Unit :=
  match s.typeOf? array with
  | none =>
      match array.asName? with
      | some name => Checked.fail loc (.undefinedArray name)
      | none => pure ()
  | some type => Checked.failIf (!type.isArray) loc (.arrayRequired type)

/-- Whether the expression is an array access, parentheses aside. -/
def isElement (e : Expr) : Bool :=
  match e.unparen with
  | .index .. => true
  | _ => false

/-- An index is an integer; an array access is one whatever the array. -/
def checkIndexType (index : Expr) (loc : Location) : Checked Unit :=
  if isElement index then pure ()
  else s.checkType index (·.isInt) loc .invalidArrayIndexType

/-- The receiver can be used for the call: there is one, and a static method calls static methods
only. -/
def checkReceiver (loc : Location) (method : String) : Checked Unit :=
  if s.isMain then Checked.fail loc .thisInMain
  else if s.isStatic ∧ ¬ (s.table.method? method).any (·.isStatic) then
    Checked.fail loc (.invalidStaticCall method)
  else pure ()

/-- The arguments whose known types differ from those of the parameters, from a position on. -/
def argumentMismatches (method : String) : Nat → List Expr → List Symbol → List Report
  | index, arg :: args, param :: params =>
      let others := argumentMismatches method (index + 1) args params
      if arg.isThis then others
      else
        match s.typeOf? arg with
        | none => others
        | some found =>
            if found = param.type then others
            else .error arg.loc (.incompatibleArgument method index param.type found) :: others
  | _, _, _ => []

/-- A call that the class declares and that is made on the receiver or on something declared has
the right arguments; a call that it does not declare is somebody else's. -/
def checkSignature (loc : Location) (target : Expr) (method : String) (args : List Expr) :
    Checked Unit :=
  match s.table.method? method with
  | some signature =>
      if target.isThis || s.isDeclaredTarget target then
        if args.length ≠ signature.params.length then
          Checked.fail loc (.wrongArgumentCount method)
        else Checked.haltOn (s.argumentMismatches method 0 args signature.params)
      else pure ()
  | none =>
      Checked.failIf
        ((target.isThis || target.asName?.isSome) && !s.isImportedTarget target &&
          s.table.superClass.isNone)
        loc (.methodNotDeclared method)

/-- In a condition, the outermost operator of a chain must not begin with an operand that is known
to be no boolean, unless it is a comparison. -/
def checkConditionLink (pos : Position) (isOutermost : Bool) (link : Link) (left : Option Ty) :
    Checked Unit :=
  match pos, left with
  | .condition statement, some type =>
      Checked.failIf (isOutermost && !link.op.isComparison && !type.isBoolean) link.tag.loc
        (.invalidConditionType statement.word type)
  | _, _ => pure ()

/-- Both operands have the type that the operator asks for; then the operator has its type. -/
def checkOperator (link : Link) (left right : Option Ty) : Checked Ty :=
  let lhs := left.getD link.op.operandType
  let rhs := right.getD link.op.operandType
  if lhs ≠ link.op.operandType ∨ rhs ≠ link.op.operandType then
    Checked.fail link.tag.loc (.operatorCannotBeApplied link.op.symbol lhs rhs)
  else do
    Checked.note link.tag.id link.op.resultType
    pure link.op.resultType

mutual

def checkExpr (e : Expr) (pos : Position) : Checked Unit :=
  match e with
  | .int _ _ | .bool _ _ | .newObject _ _ => pure ()
  | .name tag text => s.checkName text tag.loc (pos == .arrayBase)
  | .this tag => Checked.failIf s.isMain tag.loc .thisInMain
  | .binary tag op lhs rhs => do
      let _ ← checkChain tag op lhs rhs pos
      pure ()
  | .not tag operand => do
      checkExpr operand .value
      s.checkType operand (·.isBoolean) tag.loc (.badOperandType "!")
  | .index tag array index => do
      checkExpr array .arrayBase
      s.checkArray array tag.loc
      checkExpr index .arrayIndex
      s.checkIndexType index tag.loc
  | .length tag array => do
      checkExpr array .value
      s.checkType array (·.isArray) tag.loc .arrayRequired
  | .call tag target method args => do
      let _ ← checkCall tag target method args
      pure ()
  | .newArray _ size => do
      checkExpr size .value
      s.checkType size (·.isInt) size.loc (.incompatibleTypes · .int)
  | .paren _ inner => checkExpr inner pos
termination_by 4 * sizeOf e + 2

/-- Checks the chain that an operator closes and answers the type of the operator. -/
def checkChain (tag : Tag) (op : BinaryOp) (lhs rhs : Expr) (pos : Position) : Checked Ty := do
  let left ← operandType (layOut lhs [⟨tag, op, rhs⟩]).1
  let type ← checkLinks pos left (layOut lhs [⟨tag, op, rhs⟩]).2
  pure (type.getD .int)
termination_by 4 * sizeOf lhs + 4 * sizeOf rhs + 4
decreasing_by
  all_goals
    have := layOut_size_le lhs [⟨tag, op, rhs⟩]
    have := linksSize_le_layOut lhs [⟨tag, op, rhs⟩]
    have := sizeOf_expr_pos (layOut lhs [⟨tag, op, rhs⟩]).1
    simp only [linksSize] at *
    omega

/-- Checks the links of a chain after a left operand of a type, and answers the type of the
outermost one. -/
def checkLinks (pos : Position) (left : Option Ty) (links : List Link) : Checked (Option Ty) :=
  match links with
  | [] => pure left
  | link :: links => do
      let right ← operandType link.rhs
      checkConditionLink pos links.isEmpty link left
      let type ← checkOperator link left right
      checkLinks pos (some type) links
termination_by 4 * linksSize links
decreasing_by all_goals (simp only [linksSize]; omega)

/-- Checks an operand by the rule of its form and answers its type. -/
def operandType (e : Expr) : Checked (Option Ty) :=
  match e with
  | .paren _ inner => operandType inner
  | .name tag text => do
      s.checkName text tag.loc false
      pure (s.variableType? text)
  | .call tag target method args => checkCall tag target method args
  | .index tag array index => do
      checkExpr (.index tag array index) .value
      pure (some .int)
  | .binary tag op lhs rhs => do
      let type ← checkChain tag op lhs rhs .value
      pure (some type)
  | e => do
      checkExpr e .value
      pure (s.typeOf? e)
termination_by 4 * sizeOf e + 3

/-- Checks a call and answers the declared return type, if the class declares the method. -/
def checkCall (tag : Tag) (target : Expr) (method : String) (args : List Expr) :
    Checked (Option Ty) := do
  if target.isThis then s.checkReceiver tag.loc method else checkExpr target .value
  checkArguments args
  s.checkSignature tag.loc target method args
  pure (s.table.returnType? method)
termination_by 4 * sizeOf target + 4 * sizeOf args
decreasing_by
  all_goals
    have := sizeOf_expr_pos target
    have := sizeOf_args_pos args
    omega

def checkArguments (args : List Expr) : Checked Unit :=
  match args with
  | [] => pure ()
  | arg :: args => Checked.both (checkExpr arg .value) (checkArguments args)
termination_by 4 * sizeOf args

end

end Scope

end JavaMinus
