/-
# Parentheses and the checks

Two trees that are alike are checked alike, as long as the rules that ask for a type are told the
same.  The induction is on how the trees are alike; where a rule asks, the answers are the next
ones of the two lists.
-/
import JavaMinus.Proofs.Parentheses.Told

namespace JavaMinus

open Source

namespace Scope

variable {s : Scope}

/-! ## The rules -/

theorem checkName_alike (name : String) (loc loc' : Location) (asArray : Bool) :
    (s.checkName name loc asArray).Alike (s.checkName name loc' asArray) := by
  unfold checkName
  split
  · split
    · exact .refl _
    · exact .fail _ _ _
  · split
    · exact .fail _ _ _
    · split
      · exact .fail _ _ _
      · exact .refl _

theorem checkType_alike {e e' : Expr} (h : s.typeOf? e = s.typeOf? e') (rule : Ty → Bool)
    (loc loc' : Location) (finding : Ty → Finding) :
    (s.checkType e rule loc finding).Alike (s.checkType e' rule loc' finding) := by
  rw [checkType, checkType, h]
  split
  · exact .failIf _ _ _ _
  · exact .refl _

theorem checkArray_alike {e e' : Expr} (halike : e.Alike e') (h : s.typeOf? e = s.typeOf? e')
    (loc loc' : Location) : (s.checkArray e loc).Alike (s.checkArray e' loc') := by
  rw [checkArray, checkArray, h, halike.asName?_eq]
  split
  · split
    · exact .fail _ _ _
    · exact .refl _
  · exact .failIf _ _ _ _

theorem checkIndexType_alike {e e' : Expr} (halike : e.Alike e')
    (h : s.toldIndex e = s.toldIndex e') (loc loc' : Location) :
    (s.checkIndexType e loc).Alike (s.checkIndexType e' loc') := by
  rw [toldIndex, toldIndex, isElement_alike halike] at h
  rw [checkIndexType, checkIndexType, isElement_alike halike]
  split
  · exact .refl _
  · rename_i hno
    rw [if_neg hno, if_neg hno] at h
    exact checkType_alike (List.head_eq_of_cons_eq h) _ _ _ _

theorem checkReceiver_alike (loc loc' : Location) (method : String) :
    (s.checkReceiver loc method).Alike (s.checkReceiver loc' method) := by
  unfold checkReceiver
  split
  · exact .fail _ _ _
  · split
    · exact .fail _ _ _
    · exact .refl _

theorem argumentMismatches_alike (method : String) : ∀ {es es' : List Expr} (n : Nat)
    (params : List Symbol), Expr.AlikeAll es es' → es.map s.typeOf? = es'.map s.typeOf? →
    (s.argumentMismatches method n es params).map Report.content =
      (s.argumentMismatches method n es' params).map Report.content
  | _, _, _, _, .nil, _ => rfl
  | _, _, _, [], .cons _ _, _ => by simp only [argumentMismatches]
  | _, _, n, param :: params, .cons h h', htypes => by
      obtain ⟨htype, hrest⟩ := List.cons.inj htypes
      have rest := argumentMismatches_alike method (n + 1) params h' hrest
      simp only [argumentMismatches, h.isThis_eq, htype]
      split
      · exact rest
      · split
        · exact rest
        · split
          · exact rest
          · exact congrArg (_ :: ·) rest

theorem checkSignature_alike {e e' : Expr} {m : String} {es es' : List Expr} (h : e.Alike e')
    (h' : Expr.AlikeAll es es') (htold : s.toldSignature e m es = s.toldSignature e' m es')
    (loc loc' : Location) :
    (s.checkSignature loc e m es).Alike (s.checkSignature loc' e' m es') := by
  rw [toldSignature, toldSignature, h.isThis_eq, isDeclaredTarget_alike h] at htold
  rw [checkSignature, checkSignature, h.isThis_eq, h.asName?_eq, isDeclaredTarget_alike h,
    isImportedTarget_alike h, h'.length_eq]
  cases hm : s.table.method? m with
  | none => exact .failIf _ _ _ _
  | some signature =>
      simp only
      split
      · rename_i hown
        split
        · exact .fail _ _ _
        · rw [hm, Option.isSome_some, Bool.true_and, if_pos hown, if_pos hown] at htold
          exact .haltOn (argumentMismatches_alike _ 0 _ h' htold)
      · exact .refl _

theorem checkConditionLink_alike (pos : Position) (tag tag' : Tag) (op : BinaryOp)
    (rhs rhs' : Expr) (left : Option Ty) :
    (checkConditionLink pos true ⟨tag, op, rhs⟩ left).Alike
      (checkConditionLink pos true ⟨tag', op, rhs'⟩ left) := by
  cases pos <;> cases left <;> first | exact .refl _ | exact .failIf _ _ _ _

theorem checkOperator_alike (tag tag' : Tag) (op : BinaryOp) (rhs rhs' : Expr)
    (left right : Option Ty) :
    (checkOperator ⟨tag, op, rhs⟩ left right).Alike
      (checkOperator ⟨tag', op, rhs'⟩ left right) := by
  simp only [checkOperator]
  split
  · exact .fail _ _ _
  · exact .bind ⟨rfl, rfl⟩ fun _ => .refl _

/-! ## Expressions -/

mutual

theorem checkExpr_alike : ∀ {e e' : Expr}, e.Alike e' → s.told e = s.told e' →
    ∀ pos : Position, (s.checkExpr e pos).Alike (s.checkExpr e' pos)
  | _, _, .parenLeft h, htold, pos => by
      rw [checkExpr_paren]
      exact checkExpr_alike h htold pos
  | _, _, .parenRight h, htold, pos => by
      rw [checkExpr_paren]
      exact checkExpr_alike h htold pos
  | _, _, .int, _, _ | _, _, .bool, _, _ | _, _, .newObject, _, _ => by
      rw [checkExpr, checkExpr]
      exact .refl _
  | _, _, .name, _, _ => by
      rw [checkExpr, checkExpr]
      exact checkName_alike _ _ _ _
  | _, _, .this, _, _ => by
      rw [checkExpr, checkExpr]
      exact .failIf _ _ _ _
  | _, _, .binary h h', htold, pos => by
      obtain ⟨hl, hr⟩ := List.append_inj htold (told_length h)
      rw [checkExpr_binary, checkExpr_binary, operandType?_alike h, operandType?_alike h']
      exact .bind (checkExpr_alike h hl _) fun _ => .bind (checkExpr_alike h' hr _) fun _ =>
        .bind (checkConditionLink_alike _ _ _ _ _ _ _) fun _ =>
          .bind (checkOperator_alike _ _ _ _ _ _ _) fun _ => .refl _
  | _, _, .not h, htold, _ => by
      obtain ⟨he, ht⟩ := List.append_inj htold (told_length h)
      rw [checkExpr, checkExpr]
      exact .bind (checkExpr_alike h he _) fun _ =>
        checkType_alike (List.head_eq_of_cons_eq ht) _ _ _ _
  | _, _, .index h h', htold, _ => by
      obtain ⟨ha, hrest⟩ := List.append_inj htold (told_length h)
      obtain ⟨ht, hrest⟩ := List.cons.inj hrest
      obtain ⟨hi, htoldIndex⟩ := List.append_inj hrest (told_length h')
      rw [checkExpr, checkExpr]
      exact .bind (checkExpr_alike h ha _) fun _ => .bind (checkArray_alike h ht _ _) fun _ =>
        .bind (checkExpr_alike h' hi _) fun _ => checkIndexType_alike h' htoldIndex _ _
  | _, _, .length h, htold, _ => by
      obtain ⟨he, ht⟩ := List.append_inj htold (told_length h)
      rw [checkExpr, checkExpr]
      exact .bind (checkExpr_alike h he _) fun _ =>
        checkType_alike (List.head_eq_of_cons_eq ht) _ _ _ _
  | _, _, .newArray h, htold, _ => by
      obtain ⟨he, ht⟩ := List.append_inj htold (told_length h)
      rw [checkExpr, checkExpr]
      exact .bind (checkExpr_alike h he _) fun _ =>
        checkType_alike (List.head_eq_of_cons_eq ht) _ _ _ _
  | _, _, .call h h', htold, _ => by
      obtain ⟨he, hrest⟩ := List.append_inj htold (told_length h)
      obtain ⟨hes, hsignature⟩ := List.append_inj hrest (toldIn_length h')
      rw [checkExpr_call, checkExpr_call, checkCallee, checkCallee, h.isThis_eq]
      refine .bind ?_ fun _ => .bind (checkArguments_alike h' hes) fun _ =>
        checkSignature_alike h h' hsignature _ _
      split
      · exact checkReceiver_alike _ _ _
      · exact checkExpr_alike h he _

theorem checkArguments_alike : ∀ {es es' : List Expr}, Expr.AlikeAll es es' →
    s.toldIn es = s.toldIn es' → (s.checkArguments es).Alike (s.checkArguments es')
  | _, _, .nil, _ => .refl _
  | _, _, .cons h h', htold => by
      obtain ⟨he, hes⟩ := List.append_inj htold (told_length h)
      rw [checkArguments, checkArguments]
      exact .both (checkExpr_alike h he _) (checkArguments_alike h' hes)

end

/-! ## Statements -/

/-- A condition is asked about inside its parentheses, where it is no operator and no access: its
type shows at its head. -/
theorem checkCondition_alike {c c' : Expr} (h : c.Alike c') (htold : s.told c = s.told c')
    (statement : Conditional) :
    (s.checkCondition c statement).Alike (s.checkCondition c' statement) := by
  rw [← told_unparen, ← told_unparen s c'] at htold
  have inner := h.unparen
  have checked := fun pos => checkExpr_alike inner htold pos
  unfold checkCondition
  generalize hu : c.unparen = u at *
  generalize hu' : c'.unparen = u' at *
  cases inner with
  | parenLeft => exact absurd hu c.unparen_ne_paren
  | parenRight => exact absurd hu' c'.unparen_ne_paren
  | binary =>
      have whole := checked (.condition statement)
      rwa [checkExpr, checkExpr] at whole
  | index => exact checked .value
  | int | bool | name | this | not | length | call | newArray | newObject =>
      exact .bind (checked .value) fun _ => checkType_alike rfl _ _ _ _

theorem checkAssign_alike {e e' : Expr} (h : e.Alike e')
    (htold : s.told e ++ [s.typeOf? e] = s.told e' ++ [s.typeOf? e']) (target : String)
    (loc loc' : Location) : (s.checkAssign loc target e).Alike (s.checkAssign loc' target e') := by
  obtain ⟨he, ht⟩ := List.append_inj htold (told_length h)
  unfold checkAssign
  split
  · exact .fail _ _ _
  · exact .bind (.failIf _ _ _ _) fun _ => .bind (checkExpr_alike h he _) fun _ =>
      checkType_alike (List.head_eq_of_cons_eq ht) _ _ _ _

theorem checkElementTarget_alike (target : String) (type : Ty) (loc loc' : Location) :
    (checkElementTarget target type loc).Alike (checkElementTarget target type loc') := by
  unfold checkElementTarget
  split
  · exact .fail _ _ _
  · exact .failIf _ _ _ _

theorem checkAssignElement_alike {i i' e e' : Expr} (h : i.Alike i') (h' : e.Alike e')
    (htold : s.told i ++ (s.toldIndex i ++ (s.told e ++ [s.typeOf? e])) =
      s.told i' ++ (s.toldIndex i' ++ (s.told e' ++ [s.typeOf? e'])))
    (target : String) (loc loc' : Location) :
    (s.checkAssignElement loc target i e).Alike (s.checkAssignElement loc' target i' e') := by
  obtain ⟨hi, hrest⟩ := List.append_inj htold (told_length h)
  obtain ⟨hindex, hrest⟩ := List.append_inj hrest (toldIndex_length h)
  obtain ⟨he, ht⟩ := List.append_inj hrest (told_length h')
  unfold checkAssignElement
  split
  · exact .fail _ _ _
  · exact .bind (.failIf _ _ _ _) fun _ => .bind (checkElementTarget_alike _ _ _ _) fun _ =>
      .bind (checkExpr_alike h hi _) fun _ => .bind (checkIndexType_alike h hindex _ _) fun _ =>
        .bind (checkExpr_alike h' he _) fun _ =>
          checkType_alike (List.head_eq_of_cons_eq ht) _ _ _ _

theorem isExternalCall_alike {e e' : Expr} (h : e.Alike e') :
    s.isExternalCall e = s.isExternalCall e' := by
  have inner := h.unparen
  unfold isExternalCall
  generalize hu : e.unparen = u at *
  generalize hu' : e'.unparen = u' at *
  cases inner with
  | parenLeft => exact absurd hu e.unparen_ne_paren
  | parenRight => exact absurd hu' e'.unparen_ne_paren
  | call h => exact isImportedTarget_alike h
  | int | bool | name | this | binary | not | index | length | newArray | newObject => rfl

theorem checkReturn_alike {e e' : Expr} (h : e.Alike e')
    (htold : s.told e ++ [s.typeOf? e] = s.told e' ++ [s.typeOf? e']) (loc loc' : Location) :
    (s.checkReturn loc (some e)).Alike (s.checkReturn loc' (some e')) := by
  obtain ⟨he, ht⟩ := List.append_inj htold (told_length h)
  unfold checkReturn
  split
  · exact .fail _ _ _
  · simp only [isExternalCall_alike h]
    exact .bind (checkExpr_alike h he _) fun _ =>
      checkType_alike (List.head_eq_of_cons_eq ht) _ _ _ _

theorem checkReturn_nothing_alike (loc loc' : Location) :
    (s.checkReturn loc none).Alike (s.checkReturn loc' none) := by
  unfold checkReturn
  split
  · exact .fail _ _ _
  · exact .failIf _ _ _ _

mutual

theorem toldBy_length : ∀ {stmt stmt' : Stmt}, stmt.Alike stmt' →
    (s.toldBy stmt).length = (s.toldBy stmt').length
  | _, _, .block h => toldByAll_length h
  | _, _, .ifThen h h' | _, _, .while h h' => by
      simp only [toldBy, List.length_append, told_length h, toldBy_length h']
  | _, _, .ifElse h h' h'' => by
      simp only [toldBy, List.length_append, told_length h, toldBy_length h', toldBy_length h'']
  | _, _, .expr h => told_length h
  | _, _, .assign h | _, _, .returnValue h => by
      simp only [toldBy, List.length_append, told_length h, List.length_singleton]
  | _, _, .assignElement h h' => by
      simp only [toldBy, List.length_append, told_length h, told_length h', toldIndex_length h,
        List.length_singleton]
  | _, _, .returnNothing => rfl

theorem toldByAll_length : ∀ {stmts stmts' : List Stmt}, Stmt.AlikeAll stmts stmts' →
    (s.toldByAll stmts).length = (s.toldByAll stmts').length
  | _, _, .nil => rfl
  | _, _, .cons h h' => by
      simp only [toldByAll, List.length_append, toldBy_length h, toldByAll_length h']

end

mutual

theorem checkStmt_alike : ∀ {stmt stmt' : Stmt}, stmt.Alike stmt' →
    s.toldBy stmt = s.toldBy stmt' →
    (s.checkStmt stmt).contents = (s.checkStmt stmt').contents
  | _, _, .block h, htold => checkStmts_alike h htold
  | _, _, .ifThen h h', htold | _, _, .while h h', htold => by
      obtain ⟨hc, hs⟩ := List.append_inj htold (told_length h)
      rw [checkStmt, checkStmt, Findings.contents_append, Findings.contents_append,
        (checkCondition_alike h hc _).contents, checkStmt_alike h' hs]
  | _, _, .ifElse h h' h'', htold => by
      obtain ⟨hc, hrest⟩ := List.append_inj htold (told_length h)
      obtain ⟨hs, hr⟩ := List.append_inj hrest (toldBy_length h')
      rw [checkStmt, checkStmt]
      simp only [Findings.contents_append]
      rw [(checkCondition_alike h hc _).contents, checkStmt_alike h' hs, checkStmt_alike h'' hr]
  | _, _, .expr h, htold => (checkExpr_alike h htold _).contents
  | _, _, .assign h, htold => (checkAssign_alike h htold _ _ _).contents
  | _, _, .assignElement h h', htold => (checkAssignElement_alike h h' htold _ _ _).contents
  | _, _, .returnNothing, _ => (checkReturn_nothing_alike _ _).contents
  | _, _, .returnValue h, htold => (checkReturn_alike h htold _ _).contents

theorem checkStmts_alike : ∀ {stmts stmts' : List Stmt}, Stmt.AlikeAll stmts stmts' →
    s.toldByAll stmts = s.toldByAll stmts' →
    (s.checkStmts stmts).contents = (s.checkStmts stmts').contents
  | _, _, .nil, _ => rfl
  | _, _, .cons h h', htold => by
      obtain ⟨hs, hrest⟩ := List.append_inj htold (toldBy_length h)
      rw [checkStmts, checkStmts, Findings.contents_append, Findings.contents_append,
        checkStmt_alike h hs, checkStmts_alike h' hrest]

end

end Scope

namespace Analysis

/-- The answers that the checks of methods in a row ask for. -/
def toldIn (table : SymbolTable) (methods : List Method) : List (Option Ty) :=
  methods.flatMap fun m => (Scope.ofMethod table m).toldByAll m.body

theorem ofMethod_alike (table : SymbolTable) {m m' : Method} (h : m.Alike m') :
    Scope.ofMethod table m = Scope.ofMethod table m' := by
  simp only [Scope.ofMethod, Method.isStatic, Method.isMain, h.name, h.kind]

theorem checkMethods_alike {table : SymbolTable} {methods methods' : List Method}
    (h : List.Forall₂ Method.Alike methods methods')
    (htold : toldIn table methods = toldIn table methods') :
    (checkMethods table methods).contents = (checkMethods table methods').contents := by
  induction h with
  | nil => rfl
  | cons hm hms ih =>
      simp only [toldIn, List.flatMap_cons, ofMethod_alike table hm] at htold
      obtain ⟨hbody, hrest⟩ := List.append_inj htold (Scope.toldByAll_length hm.body)
      rw [checkMethods, checkMethods, Findings.contents_append, Findings.contents_append,
        ofMethod_alike table hm, Scope.checkStmts_alike hm.body hbody, ih hrest]

end Analysis

end JavaMinus
