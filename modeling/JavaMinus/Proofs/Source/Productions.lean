/-
# The grammar of programs

`DerivesProgram` is the grammar of whole programs as the readers follow it, with no reader in it.
Modifiers stand in any order and number, and those of a field say nothing; fields stand between
methods and local variables between statements, so of their order only the part within a kind is
left in the tree.

The trees have their tags and places here, and a derivation leaves these open.  A type may be named
by any name, and so may everything else: the grammar is of tokens, whatever text they are from.
-/
import JavaMinus.Proofs.Source.Writing

namespace JavaMinus.Source

/-! ## Statements -/

mutual

inductive DerivesStmt : List Token → Stmt → Prop
  | block {w body} (loc) :
      DerivesStmts w body → DerivesStmt (.mark .lbrace :: (w ++ [.mark .rbrace])) (.block loc body)
  | ifThen {u v guard first} (loc) :
      Derives .expression u guard.untagged → DerivesStmt v first →
        DerivesStmt (.keyword .kIf :: .mark .lparen :: (u ++ .mark .rparen :: v))
          (.ifThen loc guard first)
  | ifElse {u v v' guard first second} (loc) :
      Derives .expression u guard.untagged → DerivesStmt v first → DerivesStmt v' second →
        DerivesStmt
          (.keyword .kIf :: .mark .lparen :: (u ++ .mark .rparen :: (v ++ .keyword .kElse :: v')))
          (.ifElse loc guard first second)
  | while {u v guard body} (loc) :
      Derives .expression u guard.untagged → DerivesStmt v body →
        DerivesStmt (.keyword .kWhile :: .mark .lparen :: (u ++ .mark .rparen :: v))
          (.while loc guard body)
  | expr {w e} :
      Derives .expression w e.untagged → DerivesStmt (w ++ [.mark .semicolon]) (.expr e)
  | assign {w value} (loc target) :
      Derives .expression w value.untagged →
        DerivesStmt (.name target :: .mark .assign :: (w ++ [.mark .semicolon]))
          (.assign loc target value)
  | assignElement {u v tag array target index value} (loc) :
      Derives .expression u (Expr.index tag array index).untagged → array.asName? = some target →
        Derives .expression v value.untagged →
        DerivesStmt (u ++ .mark .assign :: (v ++ [.mark .semicolon]))
          (.assignElement loc target index value)
  | returnNothing (loc) :
      DerivesStmt [.keyword .kReturn, .mark .semicolon] (.return loc none)
  | return {w value} (loc) :
      Derives .expression w value.untagged →
        DerivesStmt (.keyword .kReturn :: (w ++ [.mark .semicolon])) (.return loc (some value))

inductive DerivesStmts : List Token → List Stmt → Prop
  | nil : DerivesStmts [] []
  | cons {u v s ss} : DerivesStmt u s → DerivesStmts v ss → DerivesStmts (u ++ v) (s :: ss)

end

/-! ## Declarations -/

/-- The token is a word for a type of this name. -/
inductive TypeWord : Token → String → Prop
  | int : TypeWord (.keyword .kInt) "int"
  | boolean : TypeWord (.keyword .kBoolean) "boolean"
  | void : TypeWord (.keyword .kVoid) "void"
  | name (text) : TypeWord (.name text) text

inductive DerivesType : List Token → Ty → Prop
  | plain {t name} : TypeWord t name → DerivesType [t] ⟨name, false⟩
  | array {t name} :
      TypeWord t name → DerivesType [t, .mark .lbracket, .mark .rbracket] ⟨name, true⟩

/-- The tokens are a type and a name. -/
inductive DerivesTyped : List Token → Declaration → Prop
  | intro {w type} (name loc) :
      DerivesType w type → DerivesTyped (w ++ [.name name]) ⟨name, type, loc⟩

/-- The tokens are a field or a local variable. -/
def DerivesVariable (w : List Token) (d : Declaration) : Prop :=
  ∃ v, w = v ++ [.mark .semicolon] ∧ DerivesTyped v d

/-- The tokens are the parameters of a method, with commas between them. -/
inductive DerivesParameters : List Token → List Declaration → Prop
  | none : DerivesParameters [] []
  | last {w d} : DerivesTyped w d → DerivesParameters w [d]
  | more {u v d d' ds} :
      DerivesTyped u d → DerivesParameters v (d' :: ds) →
        DerivesParameters (u ++ .mark .comma :: v) (d :: d' :: ds)

/-- The tokens are the local variables and the statements of a body, in any order. -/
inductive DerivesItems : List Token → List Declaration × List Stmt → Prop
  | nil : DerivesItems [] ([], [])
  | variable {u v d ds ss} :
      DerivesVariable u d → DerivesItems v (ds, ss) → DerivesItems (u ++ v) (d :: ds, ss)
  | statement {u v s ds ss} :
      DerivesStmt u s → DerivesItems v (ds, ss) → DerivesItems (u ++ v) (ds, s :: ss)

/-- The tokens are modifiers that turn what the first argument says into what the second says. -/
inductive DerivesModifiers : List Token → Modifiers → Modifiers → Prop
  | nil (m) : DerivesModifiers [] m m
  | isPublic {w m m'} :
      DerivesModifiers w { m with isPublic := true } m' →
        DerivesModifiers (.keyword .kPublic :: w) m m'
  | isPrivate {w m m'} :
      DerivesModifiers w { m with isPublic := false } m' →
        DerivesModifiers (.keyword .kPrivate :: w) m m'
  | isStatic {w m m'} :
      DerivesModifiers w { m with isStatic := true } m' →
        DerivesModifiers (.keyword .kStatic :: w) m m'

inductive DerivesMethod : List Token → Method → Prop
  | intro {u r ps b mods returnType params items} (name bodyLoc loc) :
      DerivesModifiers u ⟨false, false⟩ mods → DerivesType r returnType →
        DerivesParameters ps params → DerivesItems b items →
        DerivesMethod
          (u ++ (r ++ .name name :: .mark .lparen ::
            (ps ++ .mark .rparen :: .mark .lbrace :: (b ++ [.mark .rbrace]))))
          { name := name
            kind := methodKind name mods.isStatic returnType params
            isPublic := mods.isPublic
            returnType := returnType
            params := params
            locals := items.1
            body := items.2
            bodyLoc := bodyLoc
            loc := loc }

/-- The tokens are the fields and the methods of a class, in any order. -/
inductive DerivesMembers : List Token → List Declaration × List Method → Prop
  | nil : DerivesMembers [] ([], [])
  | field {u v w mods d ds ms} :
      DerivesModifiers u ⟨false, false⟩ mods → DerivesVariable v d → DerivesMembers w (ds, ms) →
        DerivesMembers (u ++ v ++ w) (d :: ds, ms)
  | method {u v m ds ms} :
      DerivesMethod u m → DerivesMembers v (ds, ms) → DerivesMembers (u ++ v) (ds, m :: ms)

/-! ## Programs -/

inductive DerivesImports : List Token → List Import → Prop
  | nil : DerivesImports [] []
  | cons {v parts is} (first loc) :
      DerivesImports v is →
        DerivesImports
          (.keyword .kImport :: .name first :: (partTokens parts ++ .mark .semicolon :: v))
          (⟨first :: parts, loc⟩ :: is)

inductive DerivesProgram : List Token → Program → Prop
  | intro {u b imports items access} (className parent loc) :
      DerivesImports u imports → access = [] ∨ access = [.keyword .kPublic] →
        DerivesMembers b items →
        DerivesProgram
          (u ++ (access ++ .keyword .kClass :: .name className ::
            (parentTokens parent ++ .mark .lbrace :: (b ++ [.mark .rbrace]))))
          { imports := imports
            className := className
            superClass := parent
            loc := loc
            fields := items.1
            methods := items.2 }

end JavaMinus.Source
