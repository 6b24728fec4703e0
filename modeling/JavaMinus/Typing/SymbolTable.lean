/-
# The symbol table

What a program declares: the imports, the class and its superclass, the fields and the methods, each
in the order of declaration.  Registering checks nothing, so a name may be declared twice; the first
declaration is the one that is found.

Inside a method a name means a local variable, else a parameter, else a field.
-/
import JavaMinus.DottedPath
import JavaMinus.Source.Program

namespace JavaMinus

open Source

/-- What a method declares. -/
structure Signature where
  name : String
  returnType : Ty
  params : List Symbol
  locals : List Symbol
  isStatic : Bool
deriving DecidableEq, Repr

/-- Where a name was declared; parameters are counted from zero. -/
inductive Origin where
  | localVariable
  | parameter (index : Nat)
  | field
deriving DecidableEq, Repr

/-- A name's declaration and its origin. -/
structure Lookup where
  symbol : Symbol
  origin : Origin
deriving DecidableEq, Repr

/-- The declarations of a program. -/
structure SymbolTable where
  imports : List String
  className : String
  superClass : Option String
  fields : List Symbol
  methods : List Signature
deriving DecidableEq, Repr

namespace SymbolTable

/-! ## Registering -/

def empty : SymbolTable := ⟨[], "", none, [], []⟩

def addImport (t : SymbolTable) (path : String) : SymbolTable :=
  { t with imports := t.imports ++ [path] }

def setClassName (t : SymbolTable) (name : String) : SymbolTable :=
  { t with className := name }

def setSuperClass (t : SymbolTable) (name : String) : SymbolTable :=
  { t with superClass := some name }

def addField (t : SymbolTable) (field : Symbol) : SymbolTable :=
  { t with fields := t.fields ++ [field] }

def addMethod (t : SymbolTable) (signature : Signature) : SymbolTable :=
  { t with methods := t.methods ++ [signature] }

/-- The signature of a method; the entry method has its own return type. -/
def signatureOf (m : Method) : Signature where
  name := m.name
  returnType := if m.isMain then .staticVoid else m.returnType
  params := m.params.map (·.symbol)
  locals := m.locals.map (·.symbol)
  isStatic := m.isStatic

def ofProgram (p : Program) : SymbolTable where
  imports := p.imports.map (·.dotted)
  className := p.className
  superClass := p.superClass
  fields := p.fields.map (·.symbol)
  methods := p.methods.map signatureOf

/-! ## Finding -/

variable (t : SymbolTable)

def method? (name : String) : Option Signature :=
  t.methods.find? (·.name == name)

def returnType? (method : String) : Option Ty :=
  (t.method? method).map (·.returnType)

def parameters? (method : String) : Option (List Symbol) :=
  (t.method? method).map (·.params)

def locals? (method : String) : Option (List Symbol) :=
  (t.method? method).map (·.locals)

def field? (name : String) : Option Symbol :=
  t.fields.find? (·.name == name)

/-- Whether an import ends in the name. -/
def hasImport (name : String) : Bool :=
  t.imports.any (DottedPath.lastPart · == name)

/-- The first symbol of that name, with its position. -/
def indexed? (symbols : List Symbol) (name : String) : Option (Nat × Symbol) :=
  (symbols.zipIdx.find? (·.1.name == name)).map fun (s, i) => (i, s)

/-- What a name means among the names that a method itself declares. -/
def lookupIn (signature : Signature) (name : String) : Option Lookup :=
  match signature.locals.find? (·.name == name) with
  | some s => some ⟨s, .localVariable⟩
  | none => (indexed? signature.params name).map fun (i, s) => ⟨s, .parameter i⟩

def lookup (method name : String) : Option Lookup :=
  ((t.method? method).bind (lookupIn · name)).or
    ((t.field? name).map fun s => ⟨s, .field⟩)

def variableType? (method name : String) : Option Ty :=
  (t.lookup method name).map (·.symbol.type)

/-- All names that mean something in a method. -/
def visibleNames (method : String) : List String :=
  ((t.method? method).elim [] fun s => s.locals.map (·.name) ++ s.params.map (·.name)) ++
    t.fields.map (·.name)

/-- Whether a value of the type `rhs` may be stored where the type `lhs` is declared.

`int` and an array of `int` go with each other, and any other primitive type only with itself.
Between classes everything goes, but for two cases: without a superclass, an object of the own
class is not stored elsewhere; with one, an object of the superclass is not stored as the own
class. -/
def compatible (lhs rhs : Ty) : Bool :=
  if lhs = rhs then true
  else if lhs.isArray ≠ rhs.isArray ∧ lhs.name = "int" ∧ rhs.name = "int" then true
  else if lhs.isPrimitive || rhs.isPrimitive then false
  else
    match t.superClass with
    | none => rhs.name != t.className
    | some parent => !(lhs.name == t.className && rhs.name == parent)

end SymbolTable

end JavaMinus
