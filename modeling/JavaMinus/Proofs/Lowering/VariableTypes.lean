/-
# The types of variables in lines

In the lines of a method a variable that the method declares is mentioned with the type that its
name has there, and a temporary with the type of what has been assigned to it (`Types`).  An element
of an array mentions the array with the type of an array of such elements, which is the array's own
as long as what is indexed is an array (`Expr.IndexesArray`).

No temporary is drawn twice, and none has the name of a variable; so in a method whose parameters
keep their types in its body, every name is mentioned with one type (`LoweredTo.types_unique`).
-/
import JavaMinus.Proofs.Lowering.Places
import JavaMinus.Proofs.Lowering.Printed
import JavaMinus.Proofs.Lowering.Temporaries
import JavaMinus.Proofs.Typing.Agreement

namespace JavaMinus

open Source Ir

/-- A variable that means something in the scope, with the type that it is declared with. -/
def Scope.Declares (s : Scope) (x : String × ElementType) : Prop :=
  ∃ t, s.variableType? x.1 = some t ∧ x.2 = t.lowered

/-- A variable of the scope, or one that is known with its type. -/
def Scope.Knows (s : Scope) (known : List (String × ElementType)) (x : String × ElementType) :
    Prop :=
  s.Declares x ∨ x ∈ known

theorem Scope.Knows.mono {s : Scope} {known known' : List (String × ElementType)}
    {x : String × ElementType} (h : s.Knows known x) (sub : known ⊆ known') : s.Knows known' x :=
  h.imp_right fun there => sub there

namespace Source

/-- If the expression is an element of an array, what is indexed is lowered as an array. -/
def Expr.IndexesArray (s : Scope) (e : Expr) : Prop :=
  ∀ tag array i, e = .index tag array i → (array.loweredType s (some .intArray)).isArray = true

/-- Whether the expression is an element of an element of an array. -/
def Expr.indexesElement : Expr → Bool
  | .index _ array _ => Scope.isElement array
  | _ => false

end Source

namespace Scope

variable {s : Scope}

theorem isArray_of_accepts {loc : Location} {target : String} {index value : Expr}
    (h : s.Accepts (.assignElement loc target index value)) :
    (s.variableType? target).all (·.isArray) = true := by
  rw [Accepts, checkAssignElement] at h
  split at h
  · exact absurd h (Checked.not_passes_fail _ _)
  · rename_i found hfound
    rw [variableType_of_lookup hfound, Option.all_some]
    simp only [Checked.passes_seq_iff] at h
    have passes := h.2.1
    unfold checkElementTarget at passes
    split at passes
    · exact absurd passes (Checked.not_passes_fail _ _)
    · rename_i isArray
      exact not_not.1 isArray

/-- What the checks cannot tell the type of, and is no name and no element of an array, is a call;
it returns an array where one is expected. -/
theorem isArray_of_untyped : ∀ array : Expr, s.typeOf? array = none → array.asName? = none →
    isElement array = false → (array.loweredType s (some .intArray)).isArray = true
  | .paren tag inner, type, name, plain =>
      isArray_of_untyped inner (Option.or_eq_none_iff.1 type).2 name plain
  | .call tag target method args, type, _, _ => by
      rw [loweredType_call_unknown tag target method args _ type]
      rfl
  | .name .., _, name, _ => nomatch name
  | .index .., _, _, plain => nomatch plain
  | .int .., type, _, _ | .bool .., type, _, _ | .this _, type, _, _ | .binary .., type, _, _
  | .not .., type, _, _ | .length .., type, _, _ | .newArray .., type, _, _
  | .newObject .., type, _, _ => nomatch type

/-- What an accepted access indexes is lowered as an array, if it is no element of one. -/
theorem isArray_of_checked {array : Expr} {pos : Position} {loc : Location}
    (passes : (s.checkExpr array pos).Passes) (isArray : (s.checkArray array loc).Passes)
    (plain : isElement array = false) :
    (array.loweredType s (some .intArray)).isArray = true := by
  cases type : s.typeOf? array with
  | some t =>
      exact isArray_loweredType array (array_not_operator passes isArray) type
        (isArray_of_checkArray isArray type)
  | none =>
      refine isArray_of_untyped array type ?_ plain
      cases name : array.asName? with
      | none => rfl
      | some text =>
          rw [checkArray, type, name] at isArray
          exact absurd isArray (Checked.not_passes_fail _ _)

theorem indexesArray_of_checks {e : Expr} (h : s.Checks e) (plain : e.indexesElement = false) :
    e.IndexesArray s := by
  rintro tag array i rfl
  obtain receiver | ⟨pos, passes⟩ := h
  · cases receiver
  · rw [checkExpr] at passes
    simp only [Checked.passes_seq_iff] at passes
    exact isArray_of_checked passes.1 passes.2.1 plain

end Scope

theorem Ty.lowered_of_isArray {t : Ty} (h : t.isArray = true) :
    .array t.element.lowered = t.lowered := by
  obtain ⟨name, isArray⟩ := t
  cases h
  rfl

namespace Lowering

variable {s : Scope} {α β : Type} {m : Lowering α} {f : α → Lowering β}
  {known known' : List (String × ElementType)} {Q : α → List (String × ElementType) → Prop}
  {Q' : β → List (String × ElementType) → Prop}

def Line.mentions : Line → List (String × ElementType)
  | .code _ i => i.mentions
  | .label _ | .text .. => []

/-- The new name that a line assigns to, with the type of what is assigned. -/
def Line.made? (s : Scope) : Line → Option (String × ElementType)
  | .code _ (.assign (.var name t) _ _) => if (s.lookup name).isNone then some (name, t) else none
  | _ => none

/-- The new names that lines assign to, with their types, in order. -/
def madeIn (s : Scope) (w : List Line) : List (String × ElementType) := w.filterMap (Line.made? s)

theorem madeIn_append (w w' : List Line) : madeIn s (w ++ w') = madeIn s w ++ madeIn s w' :=
  List.filterMap_append

/-- If the step succeeds, its lines mention variables of the scope, known ones and those that they
have assigned to, each with its type; and its answer satisfies `Q` with what is known after them. -/
def Types (s : Scope) (m : Lowering α) (known : List (String × ElementType))
    (Q : α → List (String × ElementType) → Prop) : Prop :=
  ∀ (c : Cursor) (a : α) (c' : Cursor) (w : List Line), c.method = s.method →
    m.run c = ⟨.ok a, c', w⟩ →
      c'.method = s.method ∧ (∀ l ∈ w, ∀ x ∈ l.mentions, s.Knows (known ++ madeIn s w) x) ∧
        Q a (known ++ madeIn s w)

namespace Types

theorem pure {a : α} (h : Q a known) : Types s (Pure.pure a) known Q := by
  intro c a' c' w same run
  obtain ⟨rfl, rfl, rfl⟩ := Emission.run_pure_ok_iff.1 run
  exact ⟨same, List.forall_mem_nil _, (List.append_nil known).symm ▸ h⟩

theorem bind (hm : Types s m known Q)
    (hf : ∀ a known', known ⊆ known' → Q a known' → Types s (f a) known' Q') :
    Types s (m >>= f) known Q' := by
  intro c b c' w same run
  obtain ⟨a, c₁, w₁, w₂, run₁, run₂, rfl⟩ := Emission.run_bind_ok_iff.1 run
  obtain ⟨same₁, first, ha⟩ := hm c a c₁ w₁ same run₁
  obtain ⟨same₂, second, hb⟩ := hf a _ (List.subset_append_left _ _) ha c₁ b c' w₂ same₁ run₂
  rw [madeIn_append, ← List.append_assoc]
  refine ⟨same₂, List.forall_mem_append.2 ⟨fun l hl x hx => ?_, second⟩, hb⟩
  exact (first l hl x hx).mono (List.subset_append_left _ _)

theorem mono {Q₂ : α → List (String × ElementType) → Prop} (h : Types s m known Q)
    (imp : ∀ a known', Q a known' → Q₂ a known') : Types s m known Q₂ := by
  intro c a c' w same run
  obtain ⟨same', lines, ha⟩ := h c a c' w same run
  exact ⟨same', lines, imp a _ ha⟩

theorem covered {xs : List (Expr × Option Ty)} {R : α → Prop} (h : Types s m known Q)
    (covers : Covers s m xs R) : Types s m known fun a known' => Q a known' ∧ R a := by
  intro c a c' w same run
  obtain ⟨same', lines, ha⟩ := h c a c' w same run
  exact ⟨same', lines, ha, (covers c a c' w same run).2.2⟩

end Types

theorem lookup_types (name : String) : Types s (lookup s.table name) known
    fun found _ => found = s.lookup name := by
  intro c a c' w same run
  cases run
  exact ⟨same, List.forall_mem_nil _, by rw [same]; rfl⟩

theorem need_types (e : Error) (o : Option α) :
    Types s (Emission.need e o : Lowering α) known fun a _ => o = some a := by
  cases o with
  | none =>
      intro c a c' w same run
      cases run
  | some x => exact .pure rfl

theorem newLabel_types : Types s newLabel known fun _ _ => True := by
  intro c a c' w same run
  cases run
  exact ⟨same, List.forall_mem_nil _, trivial⟩

theorem emitLabel_types (name : String) : Types s (emitLabel name) known fun _ _ => True := by
  intro c a c' w same run
  cases run
  exact ⟨same, List.forall_mem_singleton.2 (List.forall_mem_nil _), trivial⟩

theorem emit_types {i : Instruction} (h : ∀ x ∈ i.mentions, s.Knows known x) :
    Types s (emit i) known fun _ _ => True := by
  intro c a c' w same run
  cases run
  refine ⟨same, List.forall_mem_singleton.2 fun x hx => ?_, trivial⟩
  exact (h x hx).mono (List.subset_append_left _ _)

/-! ## Values -/

/-- The value mentions what is known, and if it is an array, so is the word that stands for it
before a bracket. -/
structure Value.Told (s : Scope) (known : List (String × ElementType)) (v : Value) : Prop where
  operand : ∀ x ∈ v.operand.mentions, s.Knows known x
  array : v.type.isArray = true → s.Knows known (v.arrayName, v.type.lowered)

theorem Value.Told.mono {v : Value} (h : v.Told s known) (sub : known ⊆ known') : v.Told s known' :=
  ⟨fun x hx => (h.operand x hx).mono sub, fun array => (h.array array).mono sub⟩

/-- A right side that mentions what is known. -/
def Rhs.Told (s : Scope) (known : List (String × ElementType)) : Rhs → Prop
  | .value v => v.Told s known
  | .operation i _ => ∀ x ∈ i.mentions, s.Knows known x

theorem Rhs.Told.instruction {rhs : Rhs} (h : rhs.Told s known) :
    ∀ x ∈ rhs.instruction.mentions, s.Knows known x := by
  cases rhs with
  | value v => exact h.operand
  | operation i type => exact h

theorem told_int (n : Int32) : (Value.int n).Told s known :=
  ⟨List.forall_mem_nil _, fun array => nomatch array⟩

theorem told_bool (b : Bool) : (Value.bool b).Told s known :=
  ⟨List.forall_mem_nil _, fun array => nomatch array⟩

theorem told_this (className : String) : (Value.this className).Told s known :=
  ⟨List.forall_mem_nil _, fun array => nomatch array⟩

theorem told_var {name : String} {type : Ty} (h : s.Knows known (name, type.lowered)) :
    (Value.var name type).Told s known := by
  refine ⟨fun x hx => ?_, fun _ => h⟩
  obtain rfl := eq_of_mem_mentions_var hx
  exact h

/-- An element of an array is told by the array and by the index. -/
theorem told_item {a i : Value} (ha : a.Told s known) (array : a.type.isArray = true)
    (hi : i.Told s known) : (Value.item a i).Told s known where
  operand := by
    refine List.forall_mem_cons.2 ⟨?_, hi.operand⟩
    rw [Ty.lowered_of_isArray array]
    exact ha.array array
  array isArray := nomatch isArray

/-- A new temporary is known with its type after the line that assigns to it. -/
theorem bind_types {i : Instruction} (h : ∀ x ∈ i.mentions, s.Knows known x) (type : Ty) :
    Types s (Lowering.bind s.table i type) known
      fun v known' => v.Told s known' ∧ v.type = type := by
  intro c a c' w same run
  obtain ⟨n, -, -, free, -, drawn⟩ := newTemp_ends s.table c
  have answer : (Lowering.bind s.table i type).run c = ⟨.ok (.var (tempName n) type),
      { c with temps := n + 1 },
      [.code c.indent (.assign (.var (tempName n) type.lowered) type.lowered i)]⟩ :=
    Emission.run_bind_ok drawn
  obtain ⟨hv, rfl, rfl⟩ := Emitted.mk.inj (answer.symm.trans run)
  cases hv
  have undeclared : (s.lookup (tempName n)).isNone = true :=
    Option.isNone_iff_eq_none.2 (by rw [Scope.lookup, ← same, free])
  have made : madeIn s [.code c.indent (.assign (.var (tempName n) type.lowered) type.lowered i)] =
      [(tempName n, type.lowered)] := List.filterMap_cons_some (if_pos undeclared)
  have new : (Value.var (tempName n) type).Told s (known ++ [(tempName n, type.lowered)]) :=
    told_var (.inr (List.mem_append_right _ List.mem_cons_self))
  rw [made]
  refine ⟨same, List.forall_mem_singleton.2 (List.forall_mem_append.2 ⟨new.operand, ?_⟩), new, rfl⟩
  exact fun x hx => (h x hx).mono (List.subset_append_left _ _)

theorem asValue_types {rhs : Rhs} (h : rhs.Told s known) :
    Types s (asValue s.table rhs) known fun v known' => v.Told s known' ∧ v.type = rhs.type := by
  cases rhs with
  | value v => exact .pure ⟨h, rfl⟩
  | operation i type => exact bind_types h type

theorem asOperand_types {rhs : Rhs} (h : rhs.Told s known) :
    Types s (asOperand s.table rhs) known fun v known' => v.Told s known' ∧ v.type = rhs.type := by
  refine (asValue_types h).bind fun v known₁ _ hv => ?_
  split
  · refine (bind_types (i := .single v.operand) hv.1.operand v.type).mono fun v' _ hv' => ?_
    exact ⟨hv'.1, hv'.2.trans hv.2⟩
  · exact .pure hv

/-- A step whose right side is used as a value, and what is done with that. -/
theorem Types.valued {m : Lowering Rhs} {f : Value → Lowering β}
    (hm : Types s m known fun rhs known' => rhs.Told s known')
    (hf : ∀ v known', known ⊆ known' → v.Told s known' → Types s (f v) known' Q') :
    Types s (m >>= fun rhs => asValue s.table rhs >>= f) known Q' := by
  refine hm.bind fun rhs known₁ sub hr => (asValue_types hr).bind fun v known₂ sub' hv => ?_
  exact hf v known₂ (List.Subset.trans sub sub') hv.1

theorem Types.operand {m : Lowering Rhs} {f : Value → Lowering β} {xs : List (Expr × Option Ty)}
    {type : Ty} (hm : Types s m known fun rhs known' => rhs.Told s known')
    (covers : Covers s m xs fun rhs => rhs.type = type)
    (hf : ∀ v known', known ⊆ known' → v.Told s known' → v.type = type →
      Types s (f v) known' Q') :
    Types s (m >>= fun rhs => asOperand s.table rhs >>= f) known Q' := by
  refine (hm.covered covers).bind fun rhs known₁ sub hr => ?_
  refine (asOperand_types hr.1).bind fun v known₂ sub' hv => ?_
  exact hf v known₂ (List.Subset.trans sub sub') hv.1 (hv.2.trans hr.2)

/-! ## Expressions -/

theorem lowerName_types (name : String) :
    Types s (lowerName s.table name) known fun rhs known' => rhs.Told s known' := by
  refine (lookup_types name).bind fun found _ _ hfound => ?_
  refine (need_types _ _).bind fun x _ _ hx => ?_
  have type := Scope.variableType_of_lookup (hfound.symm.trans hx)
  show Types s (if x.origin = .field then Pure.pure (Rhs.operation _ _)
    else Pure.pure (Rhs.value _)) _ _
  split
  · exact .pure (List.forall_mem_nil _)
  · exact .pure (told_var (.inl ⟨_, type, rfl⟩))

theorem lowerBinary_told (op : BinaryOp) {left right : Value} (hl : left.Told s known)
    (hr : right.Told s known) : (lowerBinary op left right).Told s known := by
  simp only [lowerBinary]
  split
  · rename_i n _
    unfold Value.constant
    split
    · exact told_bool _
    · exact told_int n
  · exact List.forall_mem_append.2 ⟨hl.operand, hr.operand⟩

theorem lowerNot_told {v : Value} (h : v.Told s known) : (lowerNot v).Told s known := by
  unfold lowerNot
  split
  · exact told_bool _
  · exact h.operand

theorem targetClass_types (target : Expr) :
    Types s (targetClass? s.table target) known fun _ _ => True := by
  unfold targetClass?
  split
  · exact (lookup_types _).bind fun _ _ _ _ => .pure trivial
  · exact .pure trivial

theorem told_call {kind : CallKind} {receiver : Element} {method : Option String}
    {args : List Element} {type : ElementType} (hr : ∀ x ∈ receiver.mentions, s.Knows known x)
    (ha : ∀ arg ∈ args, ∀ x ∈ arg.mentions, s.Knows known x) :
    ∀ x ∈ (Instruction.call ⟨kind, some receiver, method, args, type⟩).mentions,
      s.Knows known x :=
  List.forall_mem_append.2 ⟨hr, List.forall_mem_flatMap.2 ha⟩

/-- The new temporary for an instruction, as the right side of an expression. -/
theorem bound_types {i : Instruction} (h : ∀ x ∈ i.mentions, s.Knows known x) (type : Ty) :
    Types s (Lowering.bind s.table i type >>= fun v => Pure.pure (Rhs.value v)) known
      fun rhs known' => rhs.Told s known' :=
  (bind_types h type).bind fun _ _ _ hv => .pure hv.1

mutual

theorem lowerRhs_types : ∀ (e : Expr) (expected : Option Ty) (known : List (String × ElementType)),
    (∀ occ ∈ e.occurrences, occ.IndexesArray s) →
    Types s (lowerRhs s.table e expected) known fun rhs known' => rhs.Told s known'
  | .int _ n, _, _, _ => .pure (told_int n)
  | .bool _ b, _, _, _ => .pure (told_bool b)
  | .this _, _, _, _ => .pure (told_this _)
  | .name _ name, _, _, _ => lowerName_types name
  | .paren _ inner, expected, known, h =>
      lowerRhs_types inner expected known (List.forall_mem_cons.1 h).2
  | .binary _ op lhs rhs, _, known, h => by
      obtain ⟨hl, hr⟩ := List.forall_mem_append.1 (List.forall_mem_cons.1 h).2
      rw [lowerRhs]
      refine (lowerRhs_types lhs _ known hl).valued fun left known₁ _ tl => ?_
      refine (lowerRhs_types rhs _ known₁ hr).valued fun right known₂ sub tr => ?_
      exact .pure (lowerBinary_told op (tl.mono sub) tr)
  | .not _ operand, _, known, h => by
      rw [lowerRhs]
      refine (lowerRhs_types operand _ known (List.forall_mem_cons.1 h).2).valued ?_
      exact fun v known₁ _ tv => .pure (lowerNot_told tv)
  | .index tag array index, _, known, h => by
      obtain ⟨own, others⟩ := List.forall_mem_cons.1 h
      obtain ⟨ha, hi⟩ := List.forall_mem_append.1 others
      rw [lowerRhs]
      -- The operand keeps the type under which the array is lowered, which is that of an array.
      refine (lowerRhs_types array _ known ha).operand (lowerRhs_covers array _)
        fun a known₁ _ ta type => ?_
      refine (lowerRhs_types index _ known₁ hi).operand (lowerRhs_covers index _)
        fun i known₂ sub ti _ => ?_
      exact .pure (told_item (ta.mono sub) (type ▸ own tag array index rfl) ti)
  | .length _ array, _, known, h => by
      rw [lowerRhs]
      refine (lowerRhs_types array _ known (List.forall_mem_cons.1 h).2).operand
        (lowerRhs_covers array _) fun a known₁ _ ta _ => ?_
      exact bound_types (told_call ta.operand (List.forall_mem_nil _)) _
  | .newArray _ size, _, known, h => by
      rw [lowerRhs]
      refine (lowerRhs_types size _ known (List.forall_mem_cons.1 h).2).operand
        (lowerRhs_covers size _) fun n known₁ _ tn _ => ?_
      have size_told : ∀ x ∈ (arrayOf n).mentions, s.Knows known₁ x :=
        List.forall_mem_flatMap.2 (List.forall_mem_singleton.2 tn.operand)
      exact bound_types size_told _
  | .newObject _ className, _, known, _ => by
      rw [lowerRhs, lowerNewObject]
      refine (bind_types (List.forall_mem_nil _) _).bind fun v known₁ _ hv => ?_
      refine (emit_types (told_call hv.1.operand (List.forall_mem_nil _))).bind ?_
      exact fun _ known₂ sub _ => .pure (hv.1.mono sub)
  | .call _ target name args, expected, known, h => by
      obtain ⟨ht, ha⟩ := List.forall_mem_append.1 (List.forall_mem_cons.1 h).2
      rw [lowerRhs]
      refine (targetClass_types target).bind fun named known₁ _ _ => ?_
      cases named with
      | some className =>
          refine (lowerArguments_types args _ known₁ ha).bind fun operands known₂ _ told => ?_
          exact .pure (told_call (List.forall_mem_nil _) told)
      | none =>
          refine (lowerRhs_types target none known₁ ht).operand (lowerRhs_covers target none)
            fun v known₂ _ tv _ => ?_
          refine (lowerArguments_types args _ known₂ ha).bind fun operands known₃ sub told => ?_
          exact .pure (told_call (fun x hx => (tv.operand x hx).mono sub) told)

theorem lowerArguments_types : ∀ (args : List Expr) (params : List Symbol)
    (known : List (String × ElementType)), (∀ occ ∈ Expr.occurrencesIn args, occ.IndexesArray s) →
    Types s (lowerArguments s.table args params) known
      fun operands known' => ∀ arg ∈ operands, ∀ x ∈ arg.mentions, s.Knows known' x
  | [], _, _, _ => .pure (List.forall_mem_nil _)
  | arg :: args, params, known, h => by
      obtain ⟨first, others⟩ := List.forall_mem_append.1 h
      rw [lowerArguments]
      refine (lowerRhs_types arg _ known first).operand (lowerRhs_covers arg _)
        fun v known₁ _ tv _ => ?_
      refine (lowerArguments_types args _ known₁ others).bind fun operands known₂ sub told => ?_
      exact .pure (List.forall_mem_cons.2 ⟨fun x hx => (tv.operand x hx).mono sub, told⟩)

end

theorem lowerValue_types (e : Expr) (expected : Option Ty) (known : List (String × ElementType))
    (h : ∀ occ ∈ e.occurrences, occ.IndexesArray s) :
    Types s (lowerValue s.table e expected) known fun v known' => v.Told s known' :=
  (lowerRhs_types e expected known h).bind fun _ _ _ hr =>
    (asValue_types hr).mono fun _ _ hv => hv.1

theorem lowerOperand_types (e : Expr) (expected : Option Ty) (known : List (String × ElementType))
    (h : ∀ occ ∈ e.occurrences, occ.IndexesArray s) :
    Types s (lowerOperand s.table e expected) known fun v known' => v.Told s known' :=
  (lowerRhs_types e expected known h).bind fun _ _ _ hr =>
    (asOperand_types hr).mono fun _ _ hv => hv.1

/-! ## Statements -/

theorem lowerExprStmt_types (e : Expr) (known : List (String × ElementType))
    (h : ∀ occ ∈ e.occurrences, occ.IndexesArray s) :
    Types s (lowerExprStmt s.table e) known fun _ _ => True := by
  unfold lowerExprStmt
  split
  · exact (lowerRhs_types e none known h).bind fun rhs _ _ hr => emit_types hr.instruction
  · exact (lowerValue_types e none known h).bind fun _ _ _ _ => .pure trivial

theorem lowerAssign_types (target : String) (value : Expr) (known : List (String × ElementType))
    (h : ∀ occ ∈ value.occurrences, occ.IndexesArray s) :
    Types s (lowerAssign s.table target value) known fun _ _ => True := by
  refine (lookup_types target).bind fun found _ _ hfound => ?_
  refine (need_types _ _).bind fun x known₁ _ hx => ?_
  have type := Scope.variableType_of_lookup (hfound.symm.trans hx)
  show Types s (if x.origin = .field then _ else _) _ _
  split
  · refine (lowerOperand_types value _ known₁ h).bind fun v _ _ hv => emit_types ?_
    exact List.forall_mem_append.2 ⟨List.forall_mem_nil _, hv.operand⟩
  · refine (lowerRhs_types value _ known₁ h).bind fun rhs known₂ _ hr => emit_types ?_
    have dest : (Value.var target x.symbol.type).Told s known₂ := told_var (.inl ⟨_, type, rfl⟩)
    exact List.forall_mem_append.2 ⟨dest.operand, hr.instruction⟩

theorem lowerAssignElement_types (target : String) (index value : Expr)
    (known : List (String × ElementType)) (array : (s.variableType? target).all (·.isArray) = true)
    (hi : ∀ occ ∈ index.occurrences, occ.IndexesArray s)
    (hv : ∀ occ ∈ value.occurrences, occ.IndexesArray s) :
    Types s (lowerAssignElement s.table target index value) known fun _ _ => True := by
  refine ((lowerName_types target).covered (lowerName_covers target)).bind
    fun named known₁ _ hn => ?_
  refine (asValue_types hn.1).bind fun a known₂ _ ha => ?_
  refine (lowerOperand_types index _ known₂ hi).bind fun i known₃ sub ti => ?_
  refine (lowerRhs_types value _ known₃ hv).bind fun rhs known₄ sub' tr => emit_types ?_
  have isArray : a.type.isArray = true := by
    rw [hn.2, Option.all_some] at array
    rw [ha.2, array]
  have item := told_item ((ha.1.mono sub).mono sub') isArray (ti.mono sub')
  exact List.forall_mem_append.2 ⟨item.operand, tr.instruction⟩

theorem lowerReturn_types (value : Option Expr) (known : List (String × ElementType))
    (h : ∀ occ ∈ Expr.occurrencesIn value.toList, occ.IndexesArray s) :
    Types s (lowerReturn s.table value) known fun _ _ => True := by
  have state : Types s (Emission.state : Lowering Cursor) known fun _ _ => True := by
    intro c a c' w same run
    cases run
    exact ⟨same, List.forall_mem_nil _, trivial⟩
  refine state.bind fun c known₁ _ _ => ?_
  cases value with
  | none => exact emit_types (List.forall_mem_nil _)
  | some e =>
      refine (lowerValue_types e _ known₁ (List.forall_mem_append.1 h).1).bind ?_
      exact fun v _ _ hv => emit_types hv.operand

theorem emitUnless_types {v : Value} (h : v.Told s known) (label : String) :
    Types s (emitUnless v label) known fun _ _ => True :=
  emit_types h.operand

theorem goto_types (label : String) : Types s (emit (.goto label)) known fun _ _ => True :=
  emit_types (List.forall_mem_nil _)

mutual

theorem lowerStmt_types : ∀ (stmt : Stmt) (known : List (String × ElementType)),
    s.Accepts stmt → (∀ occ ∈ stmt.occurrences, occ.IndexesArray s) →
    Types s (lowerStmt s.table stmt) known fun _ _ => True
  | .block _ body, known, accepts, h => lowerStmts_types body known accepts h
  | .ifThen _ condition thenBranch, known, accepts, h => by
      obtain ⟨hc, ht⟩ := List.forall_mem_append.1 h
      rw [lowerStmt]
      refine newLabel_types.bind fun n known₁ _ _ => ?_
      refine (lowerValue_types condition _ known₁ hc).bind fun c known₂ _ tc => ?_
      refine (emitUnless_types tc _).bind fun _ known₃ _ _ => ?_
      refine (lowerStmt_types thenBranch known₃ accepts.2 ht).bind fun _ _ _ _ => ?_
      refine (goto_types _).bind fun _ _ _ _ => (emitLabel_types _).bind fun _ _ _ _ => ?_
      exact emitLabel_types _
  | .ifElse _ condition thenBranch elseBranch, known, accepts, h => by
      obtain ⟨hc, branches⟩ := List.forall_mem_append.1 h
      obtain ⟨ht, he⟩ := List.forall_mem_append.1 branches
      rw [lowerStmt]
      refine newLabel_types.bind fun n known₁ _ _ => ?_
      refine (lowerValue_types condition _ known₁ hc).bind fun c known₂ _ tc => ?_
      refine (emitUnless_types tc _).bind fun _ known₃ _ _ => ?_
      refine (lowerStmt_types thenBranch known₃ accepts.2.1 ht).bind fun _ _ _ _ => ?_
      refine (goto_types _).bind fun _ _ _ _ => (emitLabel_types _).bind fun _ known₄ _ _ => ?_
      refine (lowerStmt_types elseBranch known₄ accepts.2.2 he).bind fun _ _ _ _ => ?_
      exact emitLabel_types _
  | .while _ condition body, known, accepts, h => by
      obtain ⟨hc, hb⟩ := List.forall_mem_append.1 h
      rw [lowerStmt]
      refine newLabel_types.bind fun n _ _ _ => (emitLabel_types _).bind fun _ known₁ _ _ => ?_
      refine (lowerValue_types condition _ known₁ hc).bind fun c known₂ _ tc => ?_
      refine (emitUnless_types tc _).bind fun _ known₃ _ _ => ?_
      refine (lowerStmt_types body known₃ accepts.2 hb).bind fun _ _ _ _ => ?_
      exact (goto_types _).bind fun _ _ _ _ => emitLabel_types _
  | .expr e, known, _, h => lowerExprStmt_types e known h
  | .assign _ target value, known, _, h => lowerAssign_types target value known h
  | .assignElement _ target index value, known, accepts, h =>
      lowerAssignElement_types target index value known (Scope.isArray_of_accepts accepts)
        (List.forall_mem_append.1 h).1 (List.forall_mem_append.1 h).2
  | .return _ value, known, _, h => lowerReturn_types value known h

/-- The lines of accepted statements mention variables with their types. -/
theorem lowerStmts_types : ∀ (stmts : List Stmt) (known : List (String × ElementType)),
    s.AcceptsAll stmts → (∀ occ ∈ Stmt.occurrencesIn stmts, occ.IndexesArray s) →
    Types s (lowerStmts s.table stmts) known fun _ _ => True
  | [], _, _, _ => .pure trivial
  | stmt :: stmts, known, accepts, h => by
      obtain ⟨first, others⟩ := List.forall_mem_append.1 h
      rw [lowerStmts]
      refine (lowerStmt_types stmt known accepts.1 first).bind fun _ known₁ _ _ => ?_
      exact lowerStmts_types stmts known₁ accepts.2 others

end

theorem lowerBody_types (m : Source.Method) (accepts : s.AcceptsAll m.body)
    (h : ∀ occ ∈ Stmt.occurrencesIn m.body, occ.IndexesArray s) :
    Types s (lowerBody s.table m) [] fun _ _ => True := by
  refine (lowerStmts_types m.body [] accepts h).bind fun _ _ _ _ => ?_
  split
  · exact emit_types (List.forall_mem_nil _)
  · exact .pure trivial

/-! ## Methods -/

theorem map_made? (l : Line) : (Line.made? s l).map Prod.fst =
    (Evaluation.assigned? l).filter fun name => (s.lookup name).isNone := by
  cases l with
  | text | label => rfl
  | code n i =>
      cases i with
      | assign dest type rhs =>
          cases dest with
          | literal | item => rfl
          | var name t =>
              show Option.map Prod.fst (if (s.lookup name).isNone then some (name, t) else none) =
                Option.filter _ (some name)
              rw [Option.filter_some]
              split <;> rfl
      | binary | unary | single | call | getField | putField | goto | branch | «return»
      | returnVoid => rfl

/-- The new names that lines assign to are the temporaries that they draw. -/
theorem map_madeIn (w : List Line) : (madeIn s w).map Prod.fst = drawnIn s.table s.method w := by
  rw [madeIn, drawnIn, assignedIn, List.map_filterMap, List.filter_filterMap]
  exact congrArg (List.filterMap · w) (funext map_made?)

theorem lowerBody_draws (table : SymbolTable) (m : Source.Method) :
    Draws table m.name (lowerBody table m) [] fun _ _ => True := by
  refine (lowerStmts_draws m.body []).bind fun _ _ _ => ?_
  split
  · refine emit_last (List.forall_mem_nil _) ?_
    rintro n t ⟨⟩
  · exact .pure trivial

theorem bodyOf_mentions {lines : List Line} (labels : List String) :
    ((bodyOf labels lines).1.flatMap fun l => l.instruction.mentions) =
      lines.flatMap Line.mentions :=
  bodyOf_flatMap (g := Ir.Instruction.mentions) (fun _ _ => rfl) (fun _ => rfl)
    (fun _ _ => rfl) labels

theorem mentions_lowered (d : Symbol) : d.lowered.mentions = [(d.name, d.type.lowered)] := by
  unfold Symbol.lowered Ty.lowered
  split
  · rfl
  · unfold Ty.lowered.base
    split <;> rfl

variable {table : SymbolTable} {m : Source.Method} {u : Ir.Method}

/-- What a method mentions: the receiver, and otherwise variables that it declares, with their
types, and temporaries, each of them with a single type. -/
theorem LoweredTo.mentions_known (h : LoweredTo table m u)
    (accepts : (Scope.ofMethod table m).AcceptsAll m.body)
    (elements : ∀ occ ∈ Stmt.occurrencesIn m.body, occ.IndexesArray (.ofMethod table m))
    (params : ∀ d ∈ (table.parameters? m.name).getD [],
      (Scope.ofMethod table m).variableType? d.name = some d.type) :
    ∃ temps : List (String × ElementType), (temps.map Prod.fst).Nodup ∧
      (∀ x ∈ temps, table.lookup m.name x.1 = none ∧ x.1 ≠ "this") ∧
      ∀ x ∈ u.mentions, x = ("this", .this) ∨ (Scope.ofMethod table m).Knows temps x := by
  obtain ⟨lines, ⟨n, c', run⟩, rfl⟩ := h
  obtain ⟨-, body, -⟩ := lowerBody_types m accepts elements _ _ _ _ rfl run
  obtain ⟨-, drawn, -, -⟩ := lowerBody_draws table m _ _ _ _ rfl run
  have names := map_madeIn (s := .ofMethod table m) lines
  refine ⟨madeIn (.ofMethod table m) lines, ?_, fun x hx => ?_, ?_⟩
  · rw [names]
    exact drawn.nodup
  · have member : x.1 ∈ drawnIn table m.name lines := names ▸ List.mem_map_of_mem hx
    obtain ⟨k, -, name, free⟩ := drawn.numbered x.1 member
    exact ⟨free, name ▸ tempName_ne_this k⟩
  · -- The receiver, the parameters and the body.
    refine List.forall_mem_append.2 ⟨List.forall_mem_append.2 ⟨fun x hx => .inl ?_, ?_⟩, ?_⟩
    · split at hx
      · cases hx
      · exact List.mem_singleton.1 hx
    · refine List.forall_mem_flatMap.2 (List.forall_mem_map.2 fun d hd => ?_)
      rw [mentions_lowered]
      exact List.forall_mem_singleton.2 (.inr (.inl ⟨_, params d hd, rfl⟩))
    · show ∀ x ∈ (bodyOf [] lines).1.flatMap fun l => l.instruction.mentions, _
      rw [bodyOf_mentions]
      exact List.forall_mem_flatMap.2 fun l hl x hx => .inr (body l hl x hx)

/-- A declared variable is mentioned with its type, and every other one with one type as well. -/
theorem LoweredTo.types_unique (h : LoweredTo table m u)
    (accepts : (Scope.ofMethod table m).AcceptsAll m.body)
    (elements : ∀ occ ∈ Stmt.occurrencesIn m.body, occ.IndexesArray (.ofMethod table m))
    (params : ∀ d ∈ (table.parameters? m.name).getD [],
      (Scope.ofMethod table m).variableType? d.name = some d.type)
    (this : table.lookup m.name "this" = none) :
    (∀ x ∈ u.mentions, ∀ t, table.variableType? m.name x.1 = some t → x.2 = t.lowered) ∧
      ∀ x ∈ u.mentions, ∀ y ∈ u.mentions, x.1 = y.1 → x.2 = y.2 := by
  obtain ⟨temps, nodup, undeclared, known⟩ := h.mentions_known accepts elements params
  have untyped : ∀ {name : String}, table.lookup m.name name = none →
      table.variableType? m.name name = none := fun {name} free => by
    rw [SymbolTable.variableType?, free]
    rfl
  have declared : ∀ x ∈ u.mentions, ∀ t, table.variableType? m.name x.1 = some t →
      x.2 = t.lowered := by
    intro x hx t type
    rcases known x hx with rfl | ⟨t', type', same⟩ | temp
    · cases (untyped this).symm.trans type
    · cases type'.symm.trans type
      exact same
    · cases (untyped (undeclared x temp).1).symm.trans type
  -- The receiver, the declared variables and the temporaries have no name in common.
  refine ⟨declared, fun x hx y hy same => ?_⟩
  rcases known x hx with rfl | ⟨t, type, own⟩ | temp
  · rcases known y hy with rfl | ⟨t, type, -⟩ | temp
    · rfl
    · rw [← same] at type
      cases (untyped this).symm.trans type
    · exact absurd same.symm (undeclared y temp).2
  · rw [own, declared y hy t (same ▸ type)]
  · rcases known y hy with rfl | ⟨t, type, own⟩ | temp'
    · exact absurd same (undeclared x temp).2
    · rw [← same] at type
      cases (untyped (undeclared x temp).1).symm.trans type
    · exact congrArg Prod.snd (List.inj_on_of_nodup_map nodup temp temp' same)

end Lowering

end JavaMinus
