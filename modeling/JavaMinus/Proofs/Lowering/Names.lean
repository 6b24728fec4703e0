/-
# Programs that are lowered

The checks let a name through that is declared or imported; the generator only knows what is
declared, except for the target of a call.  So an accepted program is lowered exactly if every name
that it uses as a value is declared (`irText_ok_iff`), and if it is not, the error is about such a
name.  No accepted program assigns to a name that is not declared.

`Looks` is what every step of the generator keeps: it stays in its method, and it fails only at the
first of its names that is not declared.
-/
import Mathlib
import JavaMinus.Compiler
import JavaMinus.Proofs.Lowering.Runs
import JavaMinus.Proofs.Typing.Scoping

namespace JavaMinus

namespace Source

theorem Expr.valueNames_of_asName? {e : Expr} {name : String} (h : e.asName? = some name) :
    e.valueNames = [name] := by
  rw [← e.valueNames_unparen]
  unfold Expr.asName? at h
  split at h
  · rename_i tag text hu
    cases h
    rw [hu, Expr.valueNames]
  · cases h

/-- The names that a method's body uses as values, with the name of the method. -/
def Method.valueUses (m : Method) : List (String × String) :=
  (Stmt.valueNamesIn m.body).map (m.name, ·)

/-- The names that the bodies of a program use as values, each with its method. -/
def Program.valueUses (p : Program) : List (String × String) :=
  p.methods.flatMap Method.valueUses

end Source

namespace Lowering

open Source

variable {table : SymbolTable} {α β : Type}

/-- An outcome that is a success if all names are declared in their methods, and else an error about
one of those that are not. -/
def Explained (table : SymbolTable) (uses : List (String × String)) : Except Error α → Prop
  | .ok _ => ∀ u ∈ uses, (table.lookup u.1 u.2).isSome
  | .error e => ∃ u ∈ uses, table.lookup u.1 u.2 = none ∧
      e = .internal (.unresolvedIdentifier u.2)

/-- Two steps in a row fail at the first name that is not declared. -/
theorem Explained.bind {m : Lowering α} {f : α → Lowering β} {c : Cursor}
    {uses uses' : List (String × String)} (hm : Explained table uses (m.run c).outcome)
    (hf : ∀ a, Explained table uses' ((f a).run (m.run c).state).outcome) :
    Explained table (uses ++ uses') ((m >>= f).run c).outcome := by
  rw [Emission.run_bind]
  cases ho : (m.run c).outcome with
  | error e =>
      rw [ho] at hm
      obtain ⟨u, hu, missing⟩ := hm
      exact ⟨u, List.mem_append_left _ hu, missing⟩
  | ok a =>
      rw [ho] at hm
      have hfa := hf a
      show Explained table (uses ++ uses') ((f a).run (m.run c).state).outcome
      cases hb : ((f a).run (m.run c).state).outcome with
      | error e =>
          rw [hb] at hfa
          obtain ⟨u, hu, missing⟩ := hfa
          exact ⟨u, List.mem_append_right _ hu, missing⟩
      | ok b =>
          rw [hb] at hfa
          intro u hu
          exact (List.mem_append.1 hu).elim (hm u) (hfa u)

/-- A first step that fails at no name. -/
theorem Explained.andThen {m : Lowering α} {f : α → Lowering β} {c : Cursor}
    {uses : List (String × String)} (hm : Explained table [] (m.run c).outcome)
    (hf : ∀ a, Explained table uses ((f a).run (m.run c).state).outcome) :
    Explained table uses ((m >>= f).run c).outcome :=
  Explained.bind hm hf

/-- A step within a method stays in it and fails only at a name that is not declared there. -/
def Looks (table : SymbolTable) (method : String) (names : List String) (m : Lowering α) : Prop :=
  ∀ c : Cursor, c.method = method →
    (m.run c).state.method = method ∧
      Explained table (names.map (method, ·)) (m.run c).outcome

section Looks

variable {method : String}

namespace Looks

theorem pure (a : α) : Looks table method [] (pure a) :=
  fun _ hc => ⟨hc, fun _ hu => (nomatch hu)⟩

theorem bind {m : Lowering α} {f : α → Lowering β} {names names' : List String}
    (hm : Looks table method names m) (hf : ∀ a, Looks table method names' (f a)) :
    Looks table method (names ++ names') (m >>= f) := by
  intro c hc
  have first := hm c hc
  refine ⟨?_, ?_⟩
  · rw [Emission.run_bind]
    cases (m.run c).outcome with
    | error e => exact first.1
    | ok a => exact (hf a _ first.1).1
  · rw [List.map_append]
    exact Explained.bind first.2 fun a => (hf a _ first.1).2

theorem andThen {m : Lowering α} {f : α → Lowering β} {names : List String}
    (hm : Looks table method [] m) (hf : ∀ a, Looks table method names (f a)) :
    Looks table method names (m >>= f) :=
  hm.bind hf

theorem before {m : Lowering α} {f : α → Lowering β} {names : List String}
    (hm : Looks table method names m) (hf : ∀ a, Looks table method [] (f a)) :
    Looks table method names (m >>= f) := by
  simpa using hm.bind hf

theorem of_declared {m : Lowering α} {names : List String} (hm : Looks table method names m)
    (declared : ∀ n ∈ names, (table.lookup method n).isSome) : Looks table method [] m := by
  intro c hc
  obtain ⟨stays, explained⟩ := hm c hc
  refine ⟨stays, ?_⟩
  cases ho : (m.run c).outcome with
  | ok a => exact fun _ hu => (nomatch hu)
  | error e =>
      rw [ho] at explained
      obtain ⟨u, hu, missing, -⟩ := explained
      obtain ⟨n, hn, rfl⟩ := List.mem_map.1 hu
      have here := declared n hn
      rw [missing] at here
      exact nomatch here

theorem lookup_bind {name : String} {f : Option Lookup → Lowering β} {names : List String}
    (hf : Looks table method names (f (table.lookup method name))) :
    Looks table method names (lookup table name >>= f) := by
  intro c hc
  have same : (lookup table name >>= f).run c = (f (table.lookup method name)).run c := by
    subst hc
    rfl
  rw [same]
  exact hf c hc

end Looks

/-! ## Expressions -/

theorem emit_looks (i : Ir.Instruction) : Looks table method [] (emit i) :=
  fun _ hc => ⟨hc, fun _ hu => (nomatch hu)⟩

theorem emitText_looks (s : String) : Looks table method [] (emitText s) :=
  fun _ hc => ⟨hc, fun _ hu => (nomatch hu)⟩

theorem emitLabel_looks (name : String) : Looks table method [] (emitLabel name) :=
  fun _ hc => ⟨hc, fun _ hu => (nomatch hu)⟩

theorem newLabel_looks : Looks table method [] newLabel :=
  fun _ hc => ⟨hc, fun _ hu => (nomatch hu)⟩

theorem setIndent_looks (f : Nat → Nat) : Looks table method [] (setIndent f) :=
  fun _ hc => ⟨hc, fun _ hu => (nomatch hu)⟩

theorem bind_looks (rhs : Ir.Instruction) (type : Ty) :
    Looks table method [] (bind table rhs type) :=
  fun _ hc => ⟨hc, fun _ hu => (nomatch hu)⟩

theorem asValue_looks : ∀ rhs : Rhs, Looks table method [] (asValue table rhs)
  | .value v => .pure v
  | .operation i type => bind_looks i type

theorem asOperand_looks (rhs : Rhs) : Looks table method [] (asOperand table rhs) := by
  refine (asValue_looks rhs).andThen fun v => ?_
  split
  · exact bind_looks _ _
  · exact .pure v

theorem need_looks (name : String) :
    Looks table method [name]
      (Emission.need (.internal (.unresolvedIdentifier name)) (table.lookup method name)) := by
  intro c hc
  cases hl : table.lookup method name with
  | none => exact ⟨hc, (method, name), List.mem_cons_self, hl, rfl⟩
  | some found =>
      refine ⟨hc, fun u hu => ?_⟩
      obtain rfl := List.mem_singleton.1 hu
      rw [hl]
      rfl

theorem lowerName_looks (name : String) : Looks table method [name] (lowerName table name) := by
  refine Looks.lookup_bind ((need_looks name).before fun found => ?_)
  show Looks table method [] (if found.origin = .field then _ else _)
  split
  · exact .pure _
  · exact .pure _

theorem lowerNewObject_looks (className : String) :
    Looks table method [] (lowerNewObject table className) :=
  (bind_looks _ _).andThen fun _ => (emit_looks _).andThen fun _ => .pure _

/-- Where the target of a call is declared, it is lowered like any operand; where it is not, it
stands for a class and is not lowered. -/
theorem targetClass_looks {target : Expr} {f : Option String → Lowering β} {names : List String}
    (hnone : (target.asName?.isNone ∨ ∀ n ∈ target.valueNames, (table.lookup method n).isSome) →
      Looks table method names (f none))
    (hsome : target.asName?.isSome → ∀ n, Looks table method names (f (some n))) :
    Looks table method names (targetClass? table target >>= f) := by
  unfold targetClass?
  split
  · rename_i name hname
    rw [bind_assoc]
    refine Looks.lookup_bind ?_
    rw [pure_bind]
    cases hl : table.lookup method name with
    | none => exact hsome (by simp [hname]) name
    | some found =>
        refine hnone (Or.inr fun n hn => ?_)
        rw [Expr.valueNames_of_asName? hname] at hn
        obtain rfl := List.mem_singleton.1 hn
        simp [hl]
  · rename_i hname
    rw [pure_bind]
    exact hnone (Or.inl (by simp [hname]))

mutual

theorem lowerRhs_looks : ∀ (e : Expr) (expected : Option Ty),
    Looks table method e.valueNames (lowerRhs table e expected)
  | .int .., _ | .bool .., _ | .this _, _ => .pure _
  | .name _ name, _ => lowerName_looks name
  | .paren _ inner, expected => lowerRhs_looks inner expected
  | .binary _ _ lhs rhs, _ => by
      rw [lowerRhs]
      refine (lowerRhs_looks lhs _).bind fun _ => (asValue_looks _).andThen fun _ => ?_
      exact (lowerRhs_looks rhs _).before fun _ => (asValue_looks _).andThen fun _ => .pure _
  | .not _ operand, _ => by
      rw [lowerRhs]
      exact (lowerRhs_looks operand _).before fun _ => (asValue_looks _).andThen fun _ => .pure _
  | .index _ array index, _ => by
      rw [lowerRhs]
      refine (lowerRhs_looks array _).bind fun _ => (asOperand_looks _).andThen fun _ => ?_
      exact (lowerRhs_looks index _).before fun _ => (asOperand_looks _).andThen fun _ => .pure _
  | .length _ array, _ => by
      rw [lowerRhs]
      exact (lowerRhs_looks array _).before fun _ => (asOperand_looks _).andThen fun _ =>
        (bind_looks _ _).andThen fun _ => .pure _
  | .newArray _ size, _ => by
      rw [lowerRhs]
      exact (lowerRhs_looks size _).before fun _ => (asOperand_looks _).andThen fun _ =>
        (bind_looks _ _).andThen fun _ => .pure _
  | .newObject _ className, _ => lowerNewObject_looks className
  | .call _ target method' args, expected => by
      rw [lowerRhs, Expr.valueNames]
      refine targetClass_looks (fun hvalue => ?_) fun hname n => ?_
      · have receiver : Looks table method
            (if target.asName?.isSome then [] else target.valueNames)
            (lowerRhs table target none) := by
          split
          · rename_i hname
            refine (lowerRhs_looks target none).of_declared (hvalue.resolve_left fun hno => ?_)
            rw [Option.isNone_iff_eq_none.1 hno] at hname
            exact nomatch hname
          · exact lowerRhs_looks target none
        refine receiver.bind fun rhs => (asOperand_looks rhs).andThen fun v => ?_
        exact (Looks.pure _).andThen fun _ => (lowerArguments_looks args _).before fun _ => .pure _
      · rw [if_pos hname, List.nil_append]
        exact (Looks.pure _).andThen fun _ => (lowerArguments_looks args _).before fun _ => .pure _

theorem lowerArguments_looks : ∀ (args : List Expr) (params : List Symbol),
    Looks table method (Expr.valueNamesIn args) (lowerArguments table args params)
  | [], _ => .pure _
  | arg :: args, params => by
      rw [lowerArguments]
      refine (lowerRhs_looks arg _).bind fun _ => (asOperand_looks _).andThen fun _ => ?_
      exact (lowerArguments_looks args _).before fun _ => .pure _

end

theorem lowerValue_looks (e : Expr) (expected : Option Ty) :
    Looks table method e.valueNames (lowerValue table e expected) :=
  (lowerRhs_looks e expected).before asValue_looks

theorem lowerOperand_looks (e : Expr) (expected : Option Ty) :
    Looks table method e.valueNames (lowerOperand table e expected) :=
  (lowerRhs_looks e expected).before asOperand_looks

/-! ## Statements

The target of an assignment is declared in an accepted program, so it is not counted. -/

theorem need_declared_looks {name : String} (h : (table.lookup method name).isSome) (e : Error) :
    Looks table method [] (Emission.need e (table.lookup method name)) := by
  obtain ⟨found, hl⟩ := Option.isSome_iff_exists.1 h
  rw [hl]
  exact .pure found

theorem lowerExprStmt_looks (e : Expr) : Looks table method e.valueNames (lowerExprStmt table e) := by
  unfold lowerExprStmt
  split
  · exact (lowerRhs_looks e none).before fun _ => emit_looks _
  · exact (lowerValue_looks e none).before fun _ => .pure _

theorem lowerAssign_looks {target : String} (h : (table.lookup method target).isSome)
    (value : Expr) : Looks table method value.valueNames (lowerAssign table target value) := by
  refine Looks.lookup_bind ((need_declared_looks h _).andThen fun found => ?_)
  show Looks table method value.valueNames (if found.origin = .field then _ else _)
  split
  · exact (lowerOperand_looks value _).before fun _ => emit_looks _
  · exact (lowerRhs_looks value _).before fun _ => emit_looks _

theorem lowerAssignElement_looks {target : String} (h : (table.lookup method target).isSome)
    (index value : Expr) :
    Looks table method (index.valueNames ++ value.valueNames)
      (lowerAssignElement table target index value) := by
  refine ((lowerName_looks target).of_declared (by simpa using h)).andThen fun rhs => ?_
  refine (asValue_looks rhs).andThen fun array => ?_
  exact (lowerOperand_looks index _).bind fun _ =>
    (lowerRhs_looks value _).before fun _ => emit_looks _

theorem lowerReturn_looks (value : Option Expr) :
    Looks table method (Expr.valueNamesIn value.toList) (lowerReturn table value) := by
  refine Looks.andThen (fun _ hc => ⟨hc, fun _ hu => (nomatch hu)⟩) fun cursor => ?_
  cases value with
  | none => exact emit_looks _
  | some e =>
      simp only [Option.toList_some, Expr.valueNamesIn, List.append_nil]
      exact (lowerValue_looks e _).before fun _ => emit_looks _

mutual

theorem lowerStmt_looks : ∀ stmt : Stmt, (∀ n ∈ stmt.targets, (table.lookup method n).isSome) →
    Looks table method stmt.valueNames (lowerStmt table stmt)
  | .block _ body, h => lowerStmts_looks body h
  | .ifThen _ condition thenBranch, h => by
      rw [lowerStmt, Stmt.valueNames]
      refine newLabel_looks.andThen fun n => (lowerValue_looks condition _).bind fun c => ?_
      refine (emit_looks _).andThen fun _ => (lowerStmt_looks thenBranch h).before fun _ => ?_
      exact (emit_looks _).andThen fun _ => (emitLabel_looks _).andThen fun _ =>
        emitLabel_looks _
  | .ifElse _ condition thenBranch elseBranch, h => by
      rw [lowerStmt, Stmt.valueNames]
      refine newLabel_looks.andThen fun n => (lowerValue_looks condition _).bind fun c => ?_
      refine (emit_looks _).andThen fun _ =>
        (lowerStmt_looks thenBranch fun n hn => h n (List.mem_append_left _ hn)).bind fun _ => ?_
      refine (emit_looks _).andThen fun _ => (emitLabel_looks _).andThen fun _ => ?_
      exact (lowerStmt_looks elseBranch fun n hn => h n (List.mem_append_right _ hn)).before
        fun _ => emitLabel_looks _
  | .while _ condition body, h => by
      rw [lowerStmt, Stmt.valueNames]
      refine newLabel_looks.andThen fun n => (emitLabel_looks _).andThen fun _ => ?_
      refine (lowerValue_looks condition _).bind fun c => (emit_looks _).andThen fun _ => ?_
      exact (lowerStmt_looks body h).before fun _ => (emit_looks _).andThen fun _ =>
        emitLabel_looks _
  | .expr e, _ => lowerExprStmt_looks e
  | .assign _ target value, h => lowerAssign_looks (h target List.mem_cons_self) value
  | .assignElement _ target index value, h =>
      lowerAssignElement_looks (h target List.mem_cons_self) index value
  | .return _ value, _ => lowerReturn_looks value

theorem lowerStmts_looks : ∀ stmts : List Stmt,
    (∀ n ∈ Stmt.targetsIn stmts, (table.lookup method n).isSome) →
    Looks table method (Stmt.valueNamesIn stmts) (lowerStmts table stmts)
  | [], _ => .pure ()
  | stmt :: stmts, h => by
      rw [lowerStmts]
      exact (lowerStmt_looks stmt fun n hn => h n (List.mem_append_left _ hn)).bind fun _ =>
        lowerStmts_looks stmts fun n hn => h n (List.mem_append_right _ hn)

end

theorem indented_looks {m : Lowering Unit} {names : List String} (h : Looks table method names m) :
    Looks table method names (indented m) :=
  (setIndent_looks _).andThen fun _ => h.before fun _ => setIndent_looks _

theorem emitBlock_looks (head : String) {body : Lowering Unit} {names : List String}
    (h : Looks table method names body) : Looks table method names (emitBlock head body) :=
  (emitText_looks _).andThen fun _ => (indented_looks h).before fun _ => emitText_looks _

theorem emitTexts_looks : ∀ texts : List String, Looks table method [] (emitTexts texts)
  | [] => .pure ()
  | t :: ts => (emitText_looks t).andThen fun _ => emitTexts_looks ts

theorem lowerBody_looks {m : Method}
    (h : ∀ n ∈ Stmt.targetsIn m.body, (table.lookup method n).isSome) :
    Looks table method (Stmt.valueNamesIn m.body) (lowerBody table m) := by
  refine (lowerStmts_looks m.body h).before fun _ => ?_
  split
  · exact emit_looks _
  · exact .pure ()

end Looks

/-! ## Programs -/

theorem lowerMethod_explained {m : Method}
    (h : ∀ n ∈ Stmt.targetsIn m.body, (table.lookup m.name n).isSome) (c : Cursor) :
    Explained table m.valueUses ((lowerMethod table m).run c).outcome :=
  (emitBlock_looks (headOf table m).headText (lowerBody_looks h) _ rfl).2

theorem lowerMethods_explained : ∀ methods : List Method,
    (∀ m ∈ methods, ∀ n ∈ Stmt.targetsIn m.body, (table.lookup m.name n).isSome) →
    ∀ c : Cursor, Explained table (methods.flatMap Method.valueUses)
      ((lowerMethods table methods).run c).outcome
  | [], _, _ => fun _ hu => (nomatch hu)
  | m :: ms, h, c => by
      rw [lowerMethods, List.flatMap_cons]
      refine Explained.andThen (fun _ hu => (nomatch hu)) fun _ => ?_
      refine Explained.bind (lowerMethod_explained (h m List.mem_cons_self) _) fun _ => ?_
      exact lowerMethods_explained ms (fun m' hm => h m' (List.mem_cons_of_mem m hm)) _

theorem emitTexts_explained (texts : List String) (c : Cursor) :
    Explained table [] ((emitTexts texts).run c).outcome :=
  (emitTexts_looks texts c rfl).2

theorem lowerMembers_explained {methods : List Method}
    (h : ∀ m ∈ methods, ∀ n ∈ Stmt.targetsIn m.body, (table.lookup m.name n).isSome) (c : Cursor) :
    Explained table (methods.flatMap Method.valueUses)
      ((lowerMembers table methods).run c).outcome := by
  refine Explained.andThen (emitTexts_explained _ c) fun _ => ?_
  refine Explained.andThen (emitText_looks "" _ rfl).2 fun _ => ?_
  refine Explained.andThen
    (emitBlock_looks (constructorHead table).headText (emit_looks superCall) _ rfl).2 fun _ => ?_
  exact lowerMethods_explained methods h _

theorem emitBlock_explained (head : String) {body : Lowering Unit}
    {uses : List (String × String)} (h : ∀ c, Explained table uses (body.run c).outcome)
    (c : Cursor) : Explained table uses ((emitBlock head body).run c).outcome := by
  rw [← uses.append_nil]
  refine Explained.andThen (emitText_looks head _ rfl).2 fun _ => ?_
  refine Explained.bind ?_ fun _ => (emitText_looks _ _ rfl).2
  refine Explained.andThen (setIndent_looks _ _ rfl).2 fun _ => ?_
  rw [← uses.append_nil]
  exact Explained.bind (h _) fun _ => (setIndent_looks _ _ rfl).2

theorem lowerProgram_explained {p : Program}
    (h : ∀ m ∈ p.methods, ∀ n ∈ Stmt.targetsIn m.body, (table.lookup m.name n).isSome)
    (c : Cursor) : Explained table p.valueUses ((lowerProgram table p).run c).outcome := by
  refine Explained.andThen (emitTexts_explained _ c) fun _ => ?_
  have unit := emitBlock_explained (classHead table).headText (lowerMembers_explained h)
  split
  · exact Explained.andThen (fun _ hu => (nomatch hu)) fun _ => unit _
  · exact Explained.andThen (emitText_looks "" _ rfl).2 fun _ => unit _

theorem irText_explained {p : Program}
    (h : ∀ m ∈ p.methods, ∀ n ∈ Stmt.targetsIn m.body, (table.lookup m.name n).isSome) :
    Explained table p.valueUses (irText table p) := by
  have run := lowerProgram_explained h .start
  simp only [irText]
  cases ho : ((lowerProgram table p).run .start).outcome with
  | error e => rwa [ho] at run
  | ok a => rwa [ho] at run

end Lowering

open Source

namespace Analysis

open Lowering

/-- The names of an accepted program: every target of an assignment is declared, and every name used
as a value is declared or imported. -/
theorem known_of_no_errors {p : Program} (h : (ofProgram p).hasErrors = false) :
    (∀ m ∈ p.methods, ∀ n ∈ Stmt.targetsIn m.body,
      ((SymbolTable.ofProgram p).lookup m.name n).isSome) ∧
    ∀ u ∈ p.valueUses, ((SymbolTable.ofProgram p).lookup u.1 u.2).isSome ∨
      (SymbolTable.ofProgram p).hasImport u.2 := by
  have known := fun m hm => Scope.known_of_acceptsAll _ _ (accepts_of_no_errors h m hm)
  refine ⟨fun m hm => (known m hm).1, fun u hu => ?_⟩
  obtain ⟨m, hm, hu⟩ := List.mem_flatMap.1 hu
  obtain ⟨n, hn, rfl⟩ := List.mem_map.1 hu
  exact (known m hm).2 n hn

/-- An accepted program is lowered if all names that it uses as values are declared; if not, the
error is about one of them that is imported only. -/
theorem irText_of_no_errors {p : Program} (h : (ofProgram p).hasErrors = false) :
    match irText (SymbolTable.ofProgram p) p with
    | .ok _ => ∀ u ∈ p.valueUses, ((SymbolTable.ofProgram p).lookup u.1 u.2).isSome
    | .error e => ∃ u ∈ p.valueUses, (SymbolTable.ofProgram p).lookup u.1 u.2 = none ∧
        (SymbolTable.ofProgram p).hasImport u.2 ∧ e = .internal (.unresolvedIdentifier u.2) := by
  obtain ⟨targets, names⟩ := known_of_no_errors h
  have explained := irText_explained targets
  cases ho : irText (SymbolTable.ofProgram p) p with
  | ok ir => rwa [ho] at explained
  | error e =>
      rw [ho] at explained
      obtain ⟨u, hu, missing, rfl⟩ := explained
      exact ⟨u, hu, missing, (names u hu).resolve_left (by simp [missing]), rfl⟩

end Analysis

namespace Compiler

theorem generateIr_of_no_errors {source : String} {p : Program}
    (hp : Program.ofText source = .ok p) (h : (Analysis.ofProgram p).hasErrors = false) :
    generateIr source = Lowering.irText (SymbolTable.ofProgram p) p := by
  have passed : (Analysis.ofProgram p).accepted = .ok (Analysis.ofProgram p) := by
    rw [Analysis.accepted, h]
    rfl
  have table : (Analysis.ofProgram p).table = SymbolTable.ofProgram p := rfl
  simp only [generateIr, lowered, hp, passed, bind, Except.bind, pure, Except.pure, table]
  cases Lowering.irText (SymbolTable.ofProgram p) p with
  | error e => rfl
  | ok ir => rfl

/-- An accepted source text is lowered exactly if every name that it uses as a value is declared in
its method.  The error of one that is not lowered is about such a name, which is imported only; no
error is about the target of an assignment. -/
theorem generateIr_ok_iff {source : String} {p : Program} (hp : Program.ofText source = .ok p)
    (h : (Analysis.ofProgram p).hasErrors = false) :
    ((∃ ir, generateIr source = .ok ir) ↔
      ∀ u ∈ p.valueUses, ((SymbolTable.ofProgram p).lookup u.1 u.2).isSome) ∧
    ∀ e, generateIr source = .error e →
      ∃ u ∈ p.valueUses, (SymbolTable.ofProgram p).lookup u.1 u.2 = none ∧
        (SymbolTable.ofProgram p).hasImport u.2 ∧ e = .internal (.unresolvedIdentifier u.2) := by
  rw [generateIr_of_no_errors hp h]
  have outcome := Analysis.irText_of_no_errors h
  cases ho : Lowering.irText (SymbolTable.ofProgram p) p with
  | ok ir =>
      rw [ho] at outcome
      exact ⟨⟨fun _ => outcome, fun _ => ⟨ir, rfl⟩⟩, fun e he => nomatch he⟩
  | error e =>
      rw [ho] at outcome
      obtain ⟨u, hu, missing, rest⟩ := outcome
      refine ⟨⟨fun ⟨ir, hir⟩ => (nomatch hir), fun declared => ?_⟩, fun e' he => ?_⟩
      · have here := declared u hu
        rw [missing] at here
        exact nomatch here
      · cases he
        exact ⟨u, hu, missing, rest⟩

/-- What a step answers, with what a test says of it. -/
theorem exists_of_any {α : Type} (r : Except Error α) (test : α → Bool)
    (h : r.toOption.any test) : ∃ a, r = .ok a ∧ test a := by
  cases r with
  | error e => exact nomatch h
  | ok a => exact ⟨a, rfl, h⟩

/-- A call to an imported class. -/
theorem generateIr_ok_of_import_called :
    ∃ p, Program.ofText "import io; class A { public void f(int x) { io.print(x); } }" = .ok p ∧
      (Analysis.ofProgram p).hasErrors = false ∧
      (∀ u ∈ p.valueUses, ((SymbolTable.ofProgram p).lookup u.1 u.2).isSome) ∧
      ∃ ir, generateIr "import io; class A { public void f(int x) { io.print(x); } }" = .ok ir := by
  obtain ⟨p, hp, ht⟩ := exists_of_any
    (Program.ofText "import io; class A { public void f(int x) { io.print(x); } }")
    (fun p => !(Analysis.ofProgram p).hasErrors &&
      p.valueUses.all fun u => ((SymbolTable.ofProgram p).lookup u.1 u.2).isSome)
    (by decide +kernel)
  obtain ⟨accepted, declared⟩ : (Analysis.ofProgram p).hasErrors = false ∧
      ∀ u ∈ p.valueUses, ((SymbolTable.ofProgram p).lookup u.1 u.2).isSome := by
    simpa [List.all_eq_true] using ht
  exact ⟨p, hp, accepted, declared, (generateIr_ok_iff hp accepted).1.2 declared⟩

/-- An imported class that is used as a value passes the checks and is not lowered. -/
theorem generateIr_fails_of_import_as_value :
    ∃ p, Program.ofText "import io; class A { public void f() { io; } }" = .ok p ∧
      (Analysis.ofProgram p).hasErrors = false ∧
      generateIr "import io; class A { public void f() { io; } }" =
        .error (.internal (.unresolvedIdentifier "io")) := by
  obtain ⟨p, hp, ht⟩ := exists_of_any
    (Program.ofText "import io; class A { public void f() { io; } }")
    (fun p => !(Analysis.ofProgram p).hasErrors) (by decide +kernel)
  exact ⟨p, hp, by simpa using ht, by cbv⟩

end Compiler

end JavaMinus
