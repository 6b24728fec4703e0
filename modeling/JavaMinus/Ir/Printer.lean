/-
# The text of the intermediate form

How each part is written: operands with their type after a dot, instructions, and the head lines of
classes, fields and methods.  Instructions are given without the semicolon that ends them.
-/
import JavaMinus.Ir.Unit

namespace JavaMinus.Ir

/-- An operand.  The receiver and a bare class name stand alone. -/
def Element.text : Element → String
  | .literal value t => value ++ "." ++ t.text
  | .var name .this => name
  | .var name (.classRef _) => name
  | .var name t => name ++ "." ++ t.text
  | .item array index t => array ++ "[" ++ index.text ++ "]." ++ t.text

/-- Texts with a comma between. -/
def commaList (texts : List String) : String := ", ".intercalate texts

/-- The parts of a call between its parentheses; a new array shows as the word `array`. -/
def Call.parts (c : Call) : List String :=
  [(c.target.map Element.text).getD "array"] ++
    (c.method.map fun m => "\"" ++ m ++ "\"").toList ++ c.args.map Element.text

/-- A call, its parts in parentheses and the type of its result after them. -/
def Call.text (c : Call) : String :=
  c.kind.word ++ "(" ++ commaList c.parts ++ ")." ++ c.returnType.text

@[grind =] def Instruction.text : Instruction → String
  | .assign dest type rhs => dest.text ++ " :=." ++ type.text ++ " " ++ rhs.text
  | .binary lhs operation rhs =>
      lhs.text ++ " " ++ operation.op.symbol ++ "." ++ operation.type.text ++ " " ++ rhs.text
  | .unary operation operand =>
      operation.op.symbol ++ "." ++ operation.type.text ++ " " ++ operand.text
  | .single operand => operand.text
  | .call c => c.text
  | .getField object field =>
      "getfield(" ++ commaList [object.text, field.text] ++ ")." ++ field.type.text
  | .putField object field value =>
      "putfield(" ++ commaList [object.text, field.text, value.text] ++ ").V"
  | .goto label => "goto " ++ label
  | .branch condition label => "if (" ++ condition.text ++ ") goto " ++ label
  | .return type value => "ret." ++ type.text ++ " " ++ value.text
  | .returnVoid => "ret.V"

/-- Modifier words, each followed by a space. -/
def modifiersText (access : Access) (isStatic isFinal : Bool) : String :=
  (access.keyword?.map (· ++ " ")).getD "" ++ (if isStatic then "static " else "") ++
    (if isFinal then "final " else "")

def importText (path : String) : String := "import " ++ path ++ ";"

def Field.text (f : Field) : String :=
  ".field " ++ modifiersText f.access f.isStatic f.isFinal ++ f.name ++ "." ++ f.type.text ++ ";"

/-- The line that opens a method or a constructor. -/
def Method.headText (m : Method) : String :=
  (if m.isConstructor then ".construct "
    else ".method " ++ modifiersText m.access m.isStatic m.isFinal) ++
    m.name ++ "(" ++ commaList (m.params.map Element.text) ++ ")." ++ m.returnType.text ++ " \x7b"

/-- The line that opens the class. -/
def ClassUnit.headText (u : ClassUnit) : String :=
  modifiersText u.access false false ++ u.name ++
    (u.superClass.map (" extends " ++ ·)).getD "" ++ " \x7b"

end JavaMinus.Ir
