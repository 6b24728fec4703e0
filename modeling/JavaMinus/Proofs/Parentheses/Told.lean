/-
# What the checks are told

The rules ask for the types of some expressions: the operand of a negation, the array and the index
of an access, a size, the arguments of a call that the class declares, a value that is stored or
returned.  `Scope.told` lists the answers in the order of the text.  An operator does not ask for
the types of its operands, it takes them from `Scope.operandType?`, for which parentheses are
nothing.

Programs that are alike and are told the same report the same (`checkStmts_alike`): the answers are
all that parentheses can change.
-/
import JavaMinus.Proofs.Parentheses.Alike
import JavaMinus.Proofs.Typing.Passing

namespace JavaMinus

open Source

/-! ## Checks that report the same -/

/-- What a report says, its place aside. -/
def Report.content (r : Report) : Severity × Finding := (r.severity, r.finding)

/-- What findings say, places aside. -/
def Findings.contents (f : Findings) : List (Severity × Finding) := f.reports.map Report.content

namespace Findings

theorem contents_append (f g : Findings) : (f ++ g).contents = f.contents ++ g.contents := by
  simp only [contents, reports_append, List.map_append]

end Findings

namespace Checked

variable {α β : Type}

/-- The checks answer the same and report the same, places aside. -/
structure Alike (m m' : Checked α) : Prop where
  outcome : m.outcome = m'.outcome
  contents : m.found.contents = m'.found.contents

namespace Alike

theorem refl (m : Checked α) : m.Alike m := ⟨rfl, rfl⟩

theorem fail (loc loc' : Location) (finding : Finding) :
    (Checked.fail loc finding : Checked α).Alike (Checked.fail loc' finding) := ⟨rfl, rfl⟩

theorem failIf (broken : Bool) (loc loc' : Location) (finding : Finding) :
    (Checked.failIf broken loc finding).Alike (Checked.failIf broken loc' finding) := by
  cases broken with
  | false => exact refl _
  | true => exact fail loc loc' finding

theorem haltOn {rs rs' : List Report} (h : rs.map Report.content = rs'.map Report.content) :
    (Checked.haltOn rs).Alike (Checked.haltOn rs') := by
  cases rs with
  | nil =>
      cases rs' with
      | nil => exact refl _
      | cons => exact nomatch h
  | cons =>
      cases rs' with
      | nil => exact nomatch h
      | cons => exact ⟨rfl, h⟩

theorem bind {m m' : Checked α} {f f' : α → Checked β} (hm : m.Alike m')
    (hf : ∀ a, (f a).Alike (f' a)) : (m >>= f).Alike (m' >>= f') := by
  cases ho : m.outcome with
  | none =>
      rw [bind_of_halted ho, bind_of_halted (hm.outcome ▸ ho)]
      exact ⟨rfl, hm.contents⟩
  | some a =>
      rw [bind_of_outcome ho, bind_of_outcome (hm.outcome ▸ ho)]
      refine ⟨(hf a).outcome, ?_⟩
      show (m.found ++ (f a).found).contents = (m'.found ++ (f' a).found).contents
      rw [Findings.contents_append, Findings.contents_append, hm.contents, (hf a).contents]

theorem both {m m' n n' : Checked Unit} (hm : m.Alike m') (hn : n.Alike n') :
    (Checked.both m n).Alike (Checked.both m' n') := by
  refine ⟨?_, ?_⟩
  · simp only [Checked.both, hm.outcome, hn.outcome]
  · simp only [Checked.both, Findings.contents_append, hm.contents, hn.contents]

end Alike

end Checked

namespace Scope

variable (s : Scope)

/-! ## The answers -/

/-- The answer about an index; an array access is not asked about. -/
def toldIndex (i : Expr) : List (Option Ty) :=
  if isElement i then [] else [s.typeOf? i]

/-- The answers about the arguments of a call that the class declares. -/
def toldSignature (target : Expr) (method : String) (args : List Expr) : List (Option Ty) :=
  if (s.table.method? method).isSome && (target.isThis || s.isDeclaredTarget target) then
    args.map s.typeOf?
  else []

mutual

/-- The answers that the checks of an expression ask for. -/
def told : Expr → List (Option Ty)
  | .int .. | .bool .. | .name .. | .this _ | .newObject .. => []
  | .binary _ _ lhs rhs => told lhs ++ told rhs
  | .not _ operand => told operand ++ [s.typeOf? operand]
  | .index _ array i => told array ++ (s.typeOf? array :: (told i ++ s.toldIndex i))
  | .length _ array => told array ++ [s.typeOf? array]
  | .call _ target method args =>
      told target ++ (toldIn args ++ s.toldSignature target method args)
  | .newArray _ size => told size ++ [s.typeOf? size]
  | .paren _ inner => told inner

/-- The answers that the checks of expressions in a row ask for. -/
def toldIn : List Expr → List (Option Ty)
  | [] => []
  | e :: es => told e ++ toldIn es

end

theorem told_unparen (e : Expr) : s.told e.unparen = s.told e :=
  e.apply_unparen s.told fun _ _ => by rw [told]

mutual

/-- The answers that the checks of a statement ask for.  The condition of a statement is asked about
inside its parentheses, which can make no difference. -/
def toldBy : Stmt → List (Option Ty)
  | .block _ body => toldByAll body
  | .ifThen _ condition thenBranch => s.told condition ++ toldBy thenBranch
  | .ifElse _ condition thenBranch elseBranch =>
      s.told condition ++ (toldBy thenBranch ++ toldBy elseBranch)
  | .while _ condition body => s.told condition ++ toldBy body
  | .expr e => s.told e
  | .assign _ _ value => s.told value ++ [s.typeOf? value]
  | .assignElement _ _ index value =>
      s.told index ++ (s.toldIndex index ++ (s.told value ++ [s.typeOf? value]))
  | .return _ none => []
  | .return _ (some value) => s.told value ++ [s.typeOf? value]

/-- The answers that the checks of statements in a row ask for. -/
def toldByAll : List Stmt → List (Option Ty)
  | [] => []
  | stmt :: stmts => toldBy stmt ++ toldByAll stmts

end

/-! ## Alike expressions are asked about alike -/

variable {s}

theorem isElement_alike {e e' : Expr} (h : e.Alike e') : isElement e = isElement e' := by
  refine h.eq_of_form ?_ ?_ ?_ ?_ ?_ ?_ ?_ ?_ ?_ ?_ ?_ ?_ <;> intros <;> rfl

theorem operandType?_alike {e e' : Expr} (h : e.Alike e') :
    s.operandType? e = s.operandType? e' := by
  refine h.eq_of_form ?_ ?_ ?_ ?_ ?_ ?_ ?_ ?_ ?_ ?_ ?_ ?_ <;> intros <;> rfl

theorem isDeclaredTarget_alike {e e' : Expr} (h : e.Alike e') :
    s.isDeclaredTarget e = s.isDeclaredTarget e' := by
  rw [isDeclaredTarget, isDeclaredTarget, h.asName?_eq]

theorem isImportedTarget_alike {e e' : Expr} (h : e.Alike e') :
    s.isImportedTarget e = s.isImportedTarget e' := by
  rw [isImportedTarget, isImportedTarget, h.asName?_eq]

theorem toldIndex_length {e e' : Expr} (h : e.Alike e') :
    (s.toldIndex e).length = (s.toldIndex e').length := by
  rw [toldIndex, toldIndex, isElement_alike h]
  split <;> rfl

theorem toldSignature_length {e e' : Expr} {m : String} {es es' : List Expr} (h : e.Alike e')
    (h' : Expr.AlikeAll es es') :
    (s.toldSignature e m es).length = (s.toldSignature e' m es').length := by
  rw [toldSignature, toldSignature, h.isThis_eq, isDeclaredTarget_alike h]
  split
  · rw [List.length_map, List.length_map, h'.length_eq]
  · rfl

mutual

theorem told_length : ∀ {e e' : Expr}, e.Alike e' → (s.told e).length = (s.told e').length
  | _, _, .parenLeft h => (told_length h :)
  | _, _, .parenRight h => (told_length h :)
  | _, _, .int | _, _, .bool | _, _, .name | _, _, .this | _, _, .newObject => rfl
  | _, _, .binary h h' => by
      simp only [told, List.length_append, told_length h, told_length h']
  | _, _, .not h | _, _, .length h | _, _, .newArray h => by
      simp only [told, List.length_append, told_length h, List.length_singleton]
  | _, _, .index h h' => by
      simp only [told, List.length_append, List.length_cons, told_length h, told_length h',
        toldIndex_length h']
  | _, _, .call h h' => by
      simp only [told, List.length_append, told_length h, toldIn_length h',
        toldSignature_length h h']

theorem toldIn_length : ∀ {es es' : List Expr}, Expr.AlikeAll es es' →
    (s.toldIn es).length = (s.toldIn es').length
  | _, _, .nil => rfl
  | _, _, .cons h h' => by
      simp only [toldIn, List.length_append, told_length h, toldIn_length h']

end

end Scope

end JavaMinus
