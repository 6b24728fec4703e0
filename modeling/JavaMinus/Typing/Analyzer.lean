/-
# The analyzer

The checks as one run over a program, which carries all its findings along.  A rule that needs the
type of an expression asks for it at that moment, and what it is told may depend on the types that
have been noted until then.

`Scope.typeIn?` is how the analyzer tells a type: what has been noted under the number of the
expression comes first, and only then the expression and the symbol table are asked.  The steps are
stated for any way to tell types; the one that asks nothing noted is `Scope.typeOf?`.
-/
import JavaMinus.Typing.Analysis

namespace JavaMinus

open Source

/-! ## Steps -/

/-- A step of the analyzer: with the findings so far it answers, unless it halts, and leaves the
findings after it. -/
abbrev Analyzing (α : Type) : Type := OptionT (StateM Findings) α

namespace Analyzing

variable {α : Type}

/-- The answer of a step, missing if it halted, and the findings after it. -/
def after (m : Analyzing α) (f : Findings) : Option α × Findings := m.run.run f

/-- Makes a check that asks for nothing that has been noted. -/
def make (m : Checked α) : Analyzing α :=
  OptionT.mk (modifyGet fun f => (m.outcome, f ++ m.found))

/-- Takes both steps, and halts afterwards if one of them halted. -/
def both (m n : Analyzing Unit) : Analyzing Unit := OptionT.mk do
  let first ← m.run
  let second ← n.run
  pure (first.bind fun _ => second)

end Analyzing

open Analyzing (make)

/-! ## Telling types -/

/-- The type that was noted last under a number. -/
def noted? (types : List (Nat × Ty)) (id : Nat) : Option Ty := types.reverse.lookup id

/-- The type of an expression in a scope, with what has been noted. -/
def Scope.typeIn? (s : Scope) (types : List (Nat × Ty)) (e : Expr) : Option Ty :=
  (noted? types e.id).or <|
    match e with
    | .binary _ op _ _ => some op.resultType
    | .name _ text => s.variableType? text
    | .this _ => some (.ofClass s.table.className)
    | .call _ _ method _ => s.table.returnType? method
    | .index tag array i =>
        ((Expr.index tag array i).ownType?).or ((typeIn? s types array).map (·.element))
    | .paren _ inner => (inner.ownType?).or (typeIn? s types inner)
    | e => e.ownType?

/-- An analyzer at work in a scope: how it tells the type of an expression from the types that have
been noted. -/
structure Analyzer where
  scope : Scope
  tell : List (Nat × Ty) → Expr → Option Ty

def Scope.analyzer (s : Scope) : Analyzer := ⟨s, s.typeIn?⟩

/-- The analyzer of a scope that does not look at what has been noted. -/
def Scope.forgetful (s : Scope) : Analyzer := ⟨s, fun _ => s.typeOf?⟩

/-! ## Rules about types that are told -/

/-- If there is a type, it satisfies the rule. -/
def typeRule (told : Option Ty) (rule : Ty → Bool) (loc : Location) (finding : Ty → Finding) :
    Checked Unit :=
  match told with
  | some type => Checked.failIf (!rule type) loc (finding type)
  | none => pure ()

/-- The array of an access has a type that is one of an array, or it has none and is no name. -/
def arrayRule (told : Option Ty) (array : Expr) (loc : Location) : Checked Unit :=
  match told with
  | none =>
      match array.asName? with
      | some name => Checked.fail loc (.undefinedArray name)
      | none => pure ()
  | some type => Checked.failIf (!type.isArray) loc (.arrayRequired type)

/-- The arguments that are told to have other types than the parameters, from a position on. -/
def mismatches (tell : Expr → Option Ty) (method : String) :
    Nat → List Expr → List Symbol → List Report
  | index, arg :: args, param :: params =>
      let others := mismatches tell method (index + 1) args params
      if arg.isThis then others
      else
        match tell arg with
        | none => others
        | some found =>
            if found = param.type then others
            else .error arg.loc (.incompatibleArgument method index param.type found) :: others
  | _, _, _ => []

/-- The rule of `Scope.checkSignature`, with the types of the arguments as they are told. -/
def signatureRule (s : Scope) (tell : Expr → Option Ty) (loc : Location) (target : Expr)
    (method : String) (args : List Expr) : Checked Unit :=
  match s.table.method? method with
  | some signature =>
      if target.isThis || s.isDeclaredTarget target then
        if args.length ≠ signature.params.length then
          Checked.fail loc (.wrongArgumentCount method)
        else Checked.haltOn (mismatches tell method 0 args signature.params)
      else pure ()
  | none =>
      Checked.failIf
        ((target.isThis || target.asName?.isSome) && !s.isImportedTarget target &&
          s.table.superClass.isNone)
        loc (.methodNotDeclared method)

/-! ## Expressions -/

namespace Analyzer

variable (a : Analyzer)

/-- How types are told now. -/
def telling : Analyzing (Expr → Option Ty) := return a.tell (← get).types

/-- If the type of the expression is told, it satisfies the rule. -/
def checkType (e : Expr) (rule : Ty → Bool) (loc : Location) (finding : Ty → Finding) :
    Analyzing Unit := do
  let tell ← a.telling
  make (typeRule (tell e) rule loc finding)

/-- The array of an access is one. -/
def checkArray (array : Expr) (loc : Location) : Analyzing Unit := do
  let tell ← a.telling
  make (arrayRule (tell array) array loc)

/-- An index is an integer; an array access is one whatever the array. -/
def checkIndexType (index : Expr) (loc : Location) : Analyzing Unit :=
  if Scope.isElement index then pure ()
  else a.checkType index (·.isInt) loc .invalidArrayIndexType

/-- A call that the class declares has the right arguments. -/
def checkSignature (loc : Location) (target : Expr) (method : String) (args : List Expr) :
    Analyzing Unit := do
  let tell ← a.telling
  make (signatureRule a.scope tell loc target method args)

mutual

def checkExpr (e : Expr) (pos : Position) : Analyzing Unit :=
  match e with
  | .int _ _ | .bool _ _ | .newObject _ _ => pure ()
  | .name tag text => make (a.scope.checkName text tag.loc (pos == .arrayBase))
  | .this tag => make (Checked.failIf a.scope.isMain tag.loc .thisInMain)
  | .binary tag op lhs rhs => do
      let _ ← checkChain tag op lhs rhs pos
      pure ()
  | .not tag operand => do
      checkExpr operand .value
      a.checkType operand (·.isBoolean) tag.loc (.badOperandType "!")
  | .index tag array index => do
      checkExpr array .arrayBase
      a.checkArray array tag.loc
      checkExpr index .arrayIndex
      a.checkIndexType index tag.loc
  | .length tag array => do
      checkExpr array .value
      a.checkType array (·.isArray) tag.loc .arrayRequired
  | .call tag target method args => do
      let _ ← checkCall tag target method args
      pure ()
  | .newArray _ size => do
      checkExpr size .value
      a.checkType size (·.isInt) size.loc (.incompatibleTypes · .int)
  | .paren _ inner => checkExpr inner pos
termination_by 4 * sizeOf e + 2

/-- Checks the chain that an operator closes and answers the type of the operator. -/
def checkChain (tag : Tag) (op : BinaryOp) (lhs rhs : Expr) (pos : Position) : Analyzing Ty := do
  let left ← operandType (layOut lhs [⟨tag, op, rhs⟩]).1
  let type ← checkLinks pos left (layOut lhs [⟨tag, op, rhs⟩]).2
  pure (type.getD .int)
termination_by 4 * sizeOf lhs + 4 * sizeOf rhs + 4
decreasing_by
  all_goals
    have := layOut_size_le lhs [⟨tag, op, rhs⟩]
    have := linksSize_le_layOut lhs [⟨tag, op, rhs⟩]
    have := sizeOf_expr_pos (layOut lhs [⟨tag, op, rhs⟩]).1
    simp only [linksSize] at *
    omega

/-- Checks the links of a chain after a left operand of a type, and answers the type of the
outermost one.  The type of every operator that passes is noted. -/
def checkLinks (pos : Position) (left : Option Ty) (links : List Link) :
    Analyzing (Option Ty) :=
  match links with
  | [] => pure left
  | link :: links => do
      let right ← operandType link.rhs
      make (Scope.checkConditionLink pos links.isEmpty link left)
      let type ← make (Scope.checkOperator link left right)
      checkLinks pos (some type) links
termination_by 4 * linksSize links
decreasing_by all_goals (simp only [linksSize]; omega)

/-- Checks an operand by the rule of its form and answers its type. -/
def operandType (e : Expr) : Analyzing (Option Ty) :=
  match e with
  | .paren _ inner => operandType inner
  | .name tag text => do
      make (a.scope.checkName text tag.loc false)
      pure (a.scope.variableType? text)
  | .call tag target method args => checkCall tag target method args
  | .index tag array index => do
      checkExpr (.index tag array index) .value
      pure (some .int)
  | .binary tag op lhs rhs => do
      let type ← checkChain tag op lhs rhs .value
      pure (some type)
  | e => do
      checkExpr e .value
      let tell ← a.telling
      pure (tell e)
termination_by 4 * sizeOf e + 3

/-- Checks a call and answers the declared return type, if the class declares the method. -/
def checkCall (tag : Tag) (target : Expr) (method : String) (args : List Expr) :
    Analyzing (Option Ty) := do
  if target.isThis then make (a.scope.checkReceiver tag.loc method) else checkExpr target .value
  checkArguments args
  a.checkSignature tag.loc target method args
  pure (a.scope.table.returnType? method)
termination_by 4 * sizeOf target + 4 * sizeOf args
decreasing_by
  all_goals
    have := sizeOf_expr_pos target
    have := sizeOf_args_pos args
    omega

def checkArguments (args : List Expr) : Analyzing Unit :=
  match args with
  | [] => pure ()
  | arg :: args => Analyzing.both (checkExpr arg .value) (checkArguments args)
termination_by 4 * sizeOf args

end

/-! ## Statements -/

/-- A condition is boolean; an array access is let through. -/
def checkCondition (condition : Expr) (statement : Conditional) : Analyzing Unit :=
  match condition.unparen with
  | .binary tag op lhs rhs => do
      let _ ← a.checkChain tag op lhs rhs (.condition statement)
      pure ()
  | .index tag array index => a.checkExpr (.index tag array index) .value
  | inner => do
      a.checkExpr inner .value
      a.checkType inner (·.isBoolean) condition.loc (.invalidConditionType statement.word)

def checkStored (value : Expr) (type : Ty) (loc : Location) : Analyzing Unit :=
  a.checkType value (a.scope.table.compatible type) loc (.incompatibleTypes · type)

/-- The target is declared, and the value can be stored in it. -/
def checkAssign (loc : Location) (target : String) (value : Expr) : Analyzing Unit :=
  match a.scope.lookup target with
  | none => make (Checked.fail loc (.cannotFindSymbol target))
  | some found => do
      make (a.scope.checkTarget found target loc)
      a.checkExpr value .value
      a.checkStored value found.symbol.type loc

/-- The target is an array of integers, the index an integer, and the value can be stored. -/
def checkAssignElement (loc : Location) (target : String) (index value : Expr) :
    Analyzing Unit :=
  match a.scope.lookup target with
  | none => make (Checked.fail loc (.undefinedArray target))
  | some found => do
      make (a.scope.checkTarget found target loc)
      make (Scope.checkElementTarget target found.symbol.type loc)
      a.checkExpr index .arrayIndex
      a.checkIndexType index loc
      a.checkExpr value .value
      a.checkStored value found.symbol.type.element loc

/-- The entry method does not return; any other returns a value of its type, or nothing if that is
`void`. -/
def checkReturn (loc : Location) (value : Option Expr) : Analyzing Unit :=
  if a.scope.isMain then make (Checked.fail loc .returnInMain)
  else
    match value with
    | none =>
        make (Checked.failIf (!a.scope.expectedReturn.isVoid) loc
          (.incompatibleReturnType a.scope.method a.scope.expectedReturn .void))
    | some e => do
        a.checkExpr e .value
        a.checkType e (fun found => found == a.scope.expectedReturn || a.scope.isExternalCall e) loc
          (.incompatibleReturnType a.scope.method a.scope.expectedReturn)

mutual

/-- The findings after a statement.  Whether a part of it halted makes no difference to the parts
after it. -/
def checkStmt : Stmt → Findings → Findings
  | .block _ body, f => checkStmts body f
  | .ifThen _ condition thenBranch, f =>
      checkStmt thenBranch ((a.checkCondition condition .whenTrue).after f).2
  | .ifElse _ condition thenBranch elseBranch, f =>
      checkStmt elseBranch
        (checkStmt thenBranch ((a.checkCondition condition .whenTrue).after f).2)
  | .while _ condition body, f =>
      checkStmt body ((a.checkCondition condition .whileTrue).after f).2
  | .expr e, f => ((a.checkExpr e .value).after f).2
  | .assign loc target value, f => ((a.checkAssign loc target value).after f).2
  | .assignElement loc target index value, f =>
      ((a.checkAssignElement loc target index value).after f).2
  | .return loc value, f => ((a.checkReturn loc value).after f).2

def checkStmts : List Stmt → Findings → Findings
  | [], f => f
  | stmt :: stmts, f => checkStmts stmts (checkStmt stmt f)

end

def checkMethods (table : SymbolTable) : List Method → Findings → Findings
  | [], f => f
  | m :: ms, f => checkMethods table ms ((Scope.ofMethod table m).analyzer.checkStmts m.body f)

def ofProgram (p : Program) : Findings :=
  checkMethods (SymbolTable.ofProgram p) p.methods .none

end Analyzer

end JavaMinus
