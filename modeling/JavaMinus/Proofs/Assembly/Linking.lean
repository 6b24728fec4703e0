/-
# Linked assembly

The assembly of a class is linked if every call of a method of the class itself names one that it
has, with its descriptors (`ClassListing.Linked`).  Of a program that stands alone it is linked exactly
if its calls match their signatures, and what its assembly calls is there but for calls that the checks
have not settled (`Compiler.linked_iff`).
-/
import JavaMinus.Proofs.Assembly.Invocations
import JavaMinus.Proofs.Lowering.Calls
import JavaMinus.Proofs.Typing.Occurrences
import JavaMinus.Proofs.Typing.Signatures
import JavaMinus.Proofs.Typing.Statics

namespace JavaMinus

open Source Ir

/-- Whether all calls on objects of the own class match the signatures of its methods. -/
def Source.Program.matchesSignatures (p : Program) : Bool :=
  p.methods.all fun m => (Stmt.occurrencesIn m.body).all fun e =>
    e.matchesSignature (.ofMethod (.ofProgram p) m) p.classNames

namespace Assembly

/-- The methods of a listed class, its constructors included. -/
def ClassListing.allMethods (l : ClassListing) : List MethodListing := l.methods ++ l.added.toList

/-- The class has a method of the name with the parameters and the result. -/
def ClassListing.HasMethod (l : ClassListing) (name : String) (params : List Descriptor)
    (result : Descriptor) : Prop :=
  ∃ method ∈ l.allMethods, method.name = name ∧ method.params = params ∧ method.result = result

/-- Every call of a method of the class itself names one that it has. -/
def ClassListing.Linked (l : ClassListing) : Prop :=
  ∀ method ∈ l.allMethods, ∀ how name params result,
    .op (.invoke how l.name name params result) ∈ method.code → l.HasMethod name params result

/-! ## Heads -/

section Heads

variable {p : Source.Program} {l : ClassListing} {constructor : MethodListing}
  {methods : List MethodListing}

theorem head_of_ofMethod {names : ClassNames} {m : Ir.Method} {method : MethodListing}
    (h : MethodListing.ofMethod names m = .ok method) :
    method.name = (if m.isConstructor then constructorName else m.name) ∧
      method.params = (m.params.map fun e => names.descriptor e.type) ∧
      method.result = names.descriptor m.returnType := by
  obtain ⟨_, -, rfl⟩ := ok_of_map h
  exact ⟨rfl, rfl, rfl⟩

theorem ListedAs.head {m : Source.Method} {method : MethodListing} (h : ListedAs p m method) :
    method.name = m.name ∧
      method.params =
        p.classNames.descriptors (((SymbolTable.ofProgram p).parameters? m.name).getD []) ∧
      method.result = p.classNames.descriptor (SymbolTable.signatureOf m).returnType.read := by
  obtain ⟨u, ⟨lines, -, rfl⟩, listed⟩ := h
  obtain ⟨name, params, result⟩ := head_of_ofMethod listed
  refine ⟨name, params.trans ?_, result.trans ?_⟩
  · show List.map _ (List.map _ (List.map _ _)) = _
    rw [List.map_map, List.map_map]
    rfl
  · show p.classNames.descriptor (if m.isMain then _ else m.returnType.lowered).readBack = _
    unfold SymbolTable.signatureOf
    cases m.isMain <;> rfl

theorem Listed.allMethods (listed : Listed p l constructor methods) :
    l.allMethods = constructor :: methods := by
  rw [ClassListing.allMethods, listed.members, listed.added]
  exact List.append_nil _

theorem Listed.constructor_head (listed : Listed p l constructor methods) :
    constructor.name = "<init>" ∧ constructor.params = [] ∧ constructor.result = .void :=
  head_of_ofMethod listed.first

theorem Listed.exists_declaration (listed : Listed p l constructor methods) {name : String}
    (hn : IsName name) {method : MethodListing} (hm : method ∈ l.allMethods)
    (same : method.name = name) : ∃ m ∈ p.methods, m.name = name ∧ ListedAs p m method := by
  rw [listed.allMethods] at hm
  rcases List.mem_cons.1 hm with rfl | hm
  · rw [listed.constructor_head.1] at same
    subst same
    cases hn.1
  · obtain ⟨m, member, listedAs⟩ := exists_of_forall₂ listed.others method hm
    exact ⟨m, member, listedAs.head.1.symm.trans same, listedAs⟩

theorem Listed.not_hasMethod (listed : Listed p l constructor methods) {name : String}
    (hn : IsName name) (undeclared : (SymbolTable.ofProgram p).method? name = none)
    (params : List Descriptor) (result : Descriptor) : ¬ l.HasMethod name params result := by
  rintro ⟨method, hm, same, -⟩
  obtain ⟨m, member, rfl, -⟩ := listed.exists_declaration hn hm same
  refine List.find?_eq_none.1 undeclared (SymbolTable.signatureOf m) ?_ (beq_self_eq_true _)
  exact List.mem_map_of_mem member

theorem Listed.hasMethod_iff (listed : Listed p l constructor methods) {name : String}
    (hn : IsName name) {signature : Signature}
    (declared : (SymbolTable.ofProgram p).method? name = some signature)
    (params : List Descriptor) :
    l.HasMethod name params (p.classNames.descriptor signature.returnType.read) ↔
      params = p.classNames.descriptors signature.params := by
  have parameters : ((SymbolTable.ofProgram p).parameters? name).getD [] = signature.params := by
    rw [SymbolTable.parameters?, declared]
    rfl
  constructor
  · rintro ⟨method, hm, same, rfl, -⟩
    obtain ⟨m, -, rfl, listedAs⟩ := listed.exists_declaration hn hm same
    rw [listedAs.head.2.1, parameters]
  · rintro rfl
    obtain ⟨m, member, rfl⟩ := List.mem_map.1 (List.mem_of_find?_eq_some declared)
    have same : m.name = name := eq_of_beq (List.find?_some declared :)
    obtain ⟨method, hm, listedAs⟩ : ∃ method ∈ methods, ListedAs p m method :=
      exists_of_forall₂ listed.others.flip m member
    obtain ⟨hname, hparams, hresult⟩ := listedAs.head
    refine ⟨method, ?_, hname.trans same, ?_, hresult⟩
    · rw [listed.allMethods]
      exact List.mem_cons_of_mem _ hm
    · rw [hparams, same, parameters]

end Heads

/-! ## What calls call -/

theorem invocation?_outline {s : Scope} {names : ClassNames} {target : Expr}
    (value : target.namesClass s = false) (method : String) (args : List Expr)
    (expected : Option Ty) (wanted : Bool) :
    (Expr.outline s target method args expected wanted).invocation? names =
      (names.owner? (target.operandType s none)).map fun className =>
        .invoke .virtual className method
          ((Expr.operandTypes s args (Expr.expectedParams s target method)).map names.descriptor)
          (names.descriptor (Lowering.callType (Expr.called? s target method) expected).read) := by
  rw [Expr.outline, value]
  show (names.owner? (target.operandType s none)).bind _ = _
  cases names.owner? (target.operandType s none) <;> rfl

theorem invocation?_outline_class {s : Scope} {target : Expr}
    (named : target.namesClass s = true) (names : ClassNames) (method : String) (args : List Expr)
    (expected : Option Ty) (wanted : Bool) :
    ∃ params result, (Expr.outline s target method args expected wanted).invocation? names =
      some (.invoke .static (names.resolve (target.asName?.getD "")) method params result) := by
  rw [Expr.outline, named]
  exact ⟨_, _, rfl⟩

/-- What the use calls, if that is a method of the class itself, is there, or the call is exempt. -/
def ClassListing.Links (l : ClassListing) (names : ClassNames)
    (Exempt : String → List Descriptor → Prop) : Use → Prop
  | .receiver => True
  | .call o => ∀ how name params result,
      o.invocation? names = some (.invoke how l.name name params result) →
        l.HasMethod name params result ∨ Exempt name params

section Links

variable {p : Source.Program} {l : ClassListing} {constructor : MethodListing}
  {methods : List MethodListing} {s : Scope} {Exempt : String → List Descriptor → Prop}

theorem Listed.namesSelf (listed : Listed p l constructor methods)
    (alone : (SymbolTable.ofProgram p).StandsAlone) : p.classNames.NamesSelf p.className :=
  namesSelf_of_standsAlone alone listed.named.className

/-- A creation of an object of the class calls its constructor. -/
theorem links_constructed (listed : Listed p l constructor methods) (className : String) :
    l.Links p.classNames Exempt (Expr.constructed className) := by
  intro how name params result called
  obtain ⟨_, -, same⟩ := Option.bind_eq_some_iff.1 called
  obtain ⟨-, -, rfl, rfl, rfl⟩ := Opcode.invoke.inj (Option.some.inj same)
  refine .inl ⟨constructor, ?_, listed.constructor_head⟩
  rw [listed.allMethods]
  exact List.mem_cons_self

theorem links_of_method_none {names : ClassNames} {o : Outline} (none : o.method = none) :
    l.Links names Exempt (.call o) := by
  intro how name params result called
  simp only [Outline.invocation?, none, Option.bind_eq_bind, Option.bind_none,
    Option.bind_eq_some_iff, reduceCtorEq, and_false, exists_false] at called

theorem links_outline_of_namesClass (listed : Listed p l constructor methods)
    (alone : (SymbolTable.ofProgram p).StandsAlone) (ht : s.table = .ofProgram p) {target : Expr}
    (named : target.namesClass s = true) {pos : Position} (h : (s.checkExpr target pos).Passes)
    (method : String) (args : List Expr) (expected : Option Ty) (wanted : Bool) :
    l.Links p.classNames Exempt (.call (Expr.outline s target method args expected wanted)) := by
  intro how name params result called
  obtain ⟨text, hname, imported⟩ := Scope.hasImport_of_namesClass target pos named h
  obtain ⟨_, _, own⟩ := invocation?_outline_class named p.classNames method args expected wanted
  rw [own, Option.some.injEq, Opcode.invoke.injEq, hname, listed.name, Option.getD_some,
    (listed.namesSelf alone).resolve] at called
  have foreign : (SymbolTable.ofProgram p).hasImport p.className = false := alone.notImported
  rw [called.2.1, ht, foreign] at imported
  cases imported

/-- An accepted call on a value finds its method exactly if it matches the signature of one, or is
not made to the own class. -/
theorem links_outline_iff (listed : Listed p l constructor methods)
    (alone : (SymbolTable.ofProgram p).StandsAlone) (ht : s.table = .ofProgram p) {tag : Tag}
    {target : Expr} {method : String} {args : List Expr} {pos : Position} (hm : IsName method)
    (h : (s.checkExpr (.call tag target method args) pos).Passes)
    (value : target.namesClass s = false) (expected : Option Ty) (wanted : Bool) :
    l.Links p.classNames (fun _ _ => False)
        (.call (Expr.outline s target method args expected wanted)) ↔
      (Expr.call tag target method args).matchesSignature s p.classNames = true := by
  have self : s.table.className = p.className := by rw [ht]; rfl
  have owner := Scope.owner_operandType_iff (self ▸ listed.namesSelf alone) value
  rw [self] at owner
  simp only [ClassListing.Links, or_false]
  rw [invocation?_outline value, Expr.matchesSignature, listed.name]
  cases ho : target.isOwn s with
  | false =>
      refine iff_of_true (fun how name params result called => ?_) rfl
      obtain ⟨className, found, own⟩ := Option.map_eq_some_iff.1 called
      rw [(Opcode.invoke.inj own).2.1] at found
      exact absurd (owner.1 found) (Bool.eq_false_iff.1 ho)
  | true =>
      have called := Scope.called?_of_isOwn ho method
      rw [owner.2 ho, called, Option.map_some, Bool.not_true, Bool.false_or]
      cases declared : s.table.method? method with
      | none =>
          refine iff_of_false (fun found => ?_) Bool.false_ne_true
          exact listed.not_hasMethod hm (ht ▸ declared) _ _ (found _ _ _ _ rfl)
      | some signature =>
          have params : Expr.expectedParams s target method = signature.params := by
            rw [Expr.expectedParams, called, declared]
            rfl
          have has := listed.hasMethod_iff hm (ht ▸ declared)
            ((Expr.operandTypes s args signature.params).map p.classNames.descriptor)
          rw [Option.any_some, Scope.arePassed_of_checkExpr h declared, Scope.arePassed_iff, params,
            ← has]
          refine ⟨fun found => found _ _ _ _ rfl, fun found how name params result called => ?_⟩
          obtain ⟨-, -, rfl, rfl, rfl⟩ := Opcode.invoke.inj (Option.some.inj called)
          exact found

/-- What the uses of an accepted method call is there exactly if the calls that occur in it match. -/
theorem asksCalls (listed : Listed p l constructor methods)
    (alone : (SymbolTable.ofProgram p).StandsAlone) (ht : s.table = .ofProgram p) :
    AsksCalls s (fun e => e.Named ∧ s.Checks e) (·.matchesSignature s p.classNames = true)
      (l.Links p.classNames fun _ _ => False) where
  receiver := trivial
  operation _ none := links_of_method_none none
  constructed className := links_constructed listed className
  other e h := by
    cases e with
    | call => cases h
    | int | bool | name | this | binary | not | index | length | newArray | newObject | paren => rfl
  call tag target method args good wanted expected := by
    obtain ⟨⟨-, hm, -⟩, checks⟩ := good
    obtain ⟨pos, h⟩ := checks.resolve_left Bool.false_ne_true
    cases named : target.namesClass s with
    | false => exact links_outline_iff listed alone ht hm h named expected wanted
    | true =>
        have own : target.isOwn s = false := by rw [Expr.isOwn, named]; rfl
        refine iff_of_true ?_ (by rw [Expr.matchesSignature, own]; rfl)
        rw [Scope.checkExpr_call, Checked.passes_seq_iff, Scope.checkCallee] at h
        have passes := h.1
        split at passes
        · rename_i this
          have holds := Expr.usesThis_of_isThis _ this
          rw [Scope.usesThis_of_namesClass s target named] at holds
          cases holds
        · exact links_outline_of_namesClass listed alone ht named passes method args expected wanted

/-- What the uses of an accepted method call is there, but for calls that the checks have not
settled. -/
theorem asksEscapes (listed : Listed p l constructor methods)
    (alone : (SymbolTable.ofProgram p).StandsAlone) (ht : s.table = .ofProgram p)
    (body : List Stmt) :
    AsksCalls s (fun e => (e.Named ∧ s.Checks e) ∧ e ∈ Stmt.occurrencesIn body) (fun _ => True)
      (l.Links p.classNames fun name params =>
        ∃ call ∈ Stmt.occurrencesIn body, call.Escapes s p.classNames name params) where
  receiver := trivial
  operation _ none := links_of_method_none none
  constructed className := links_constructed listed className
  other _ _ := trivial
  call tag target method args good wanted expected := by
    obtain ⟨good, member⟩ := good
    refine iff_of_true (fun how name params result called => ?_) trivial
    cases matched : (Expr.call tag target method args).matchesSignature s p.classNames with
    | true =>
        have links :=
          ((asksCalls listed alone ht).call tag target method args good wanted expected).2 matched
        exact .inl ((links how name params result called).resolve_right id)
    | false =>
        obtain ⟨pos, h⟩ := good.2.resolve_left Bool.false_ne_true
        have escapes := Scope.escapes_of_not_matches (ht ▸ alone) h matched
        have value : target.namesClass s = false := by
          obtain ⟨_, _, _, ⟨⟩, own, -⟩ := escapes
          exact Scope.namesClass_of_isOwn own
        rw [invocation?_outline value] at called
        obtain ⟨_, -, same⟩ := Option.map_eq_some_iff.1 called
        obtain ⟨-, -, rfl, rfl, -⟩ := Opcode.invoke.inj same
        exact .inr ⟨_, member, escapes⟩

/-! ## The methods of an accepted program -/

/-- A method of an accepted program calls what the calls among the uses of its body call. -/
theorem invocation_mem_iff_of_listed (listed : Listed p l constructor methods)
    {m : Source.Method} (hm : m ∈ p.methods) {method : MethodListing} (h : ListedAs p m method)
    {op : Opcode} (ho : op.isInvocation = true) :
    .op op ∈ method.code ↔ ∃ o, .call o ∈ Stmt.usesIn (.ofMethod (.ofProgram p) m) m.body ∧
      o.invocation? p.classNames = some op := by
  obtain ⟨u, lowered, hl⟩ := h
  have written := Lowering.written_ofProgram listed.named
  have named := listed.named.methods m hm
  have indexable := p.indexable_of_no_errors listed.named listed.accepted m hm
  have formed : ∀ l ∈ u.readBack.body, l.instruction.Formed :=
    List.forall_mem_map.2 (lowered.sound written named indexable).formed
  rw [invocation_mem_code_iff formed hl ho, lowered.uses written named indexable]

/-- What a method of an accepted program calls is there or exempt exactly if it is so of its uses. -/
theorem calls_iff_links (listed : Listed p l constructor methods) {m : Source.Method}
    (hm : m ∈ p.methods) {method : MethodListing} (h : ListedAs p m method) :
    (∀ how name params result, .op (.invoke how l.name name params result) ∈ method.code →
        l.HasMethod name params result ∨ Exempt name params) ↔
      ∀ used ∈ Stmt.usesIn (.ofMethod (.ofProgram p) m) m.body,
        l.Links p.classNames Exempt used := by
  constructor
  · intro linked used hused
    cases used with
    | receiver => trivial
    | call o =>
        intro how name params result called
        exact linked how name params result
          ((invocation_mem_iff_of_listed listed hm h rfl).2 ⟨o, hused, called⟩)
  · intro links how name params result hop
    obtain ⟨o, hused, called⟩ := (invocation_mem_iff_of_listed listed hm h rfl).1 hop
    exact links (.call o) hused how name params result called

/-- What occurs in an accepted program has names and passes the checks. -/
theorem named_and_checks (listed : Listed p l constructor methods) {m : Source.Method}
    (hm : m ∈ p.methods) : ∀ occ ∈ Stmt.occurrencesIn m.body,
      occ.Named ∧ (Scope.ofMethod (.ofProgram p) m).Checks occ := fun occ hocc =>
  ⟨Stmt.named_occurrencesIn m.body (listed.named.methods m hm).body occ hocc,
    Scope.checks_of_acceptsAll _ m.body (Analysis.accepts_of_no_errors listed.accepted m hm) occ
      hocc⟩

/-- A method of an accepted program calls only what is there exactly if its calls match. -/
theorem linked_method_iff (listed : Listed p l constructor methods)
    (alone : (SymbolTable.ofProgram p).StandsAlone) {m : Source.Method} (hm : m ∈ p.methods)
    {method : MethodListing} (h : ListedAs p m method) :
    (∀ how name params result, .op (.invoke how l.name name params result) ∈ method.code →
        l.HasMethod name params result) ↔
      ((Stmt.occurrencesIn m.body).all fun e =>
        e.matchesSignature (.ofMethod (.ofProgram p) m) p.classNames) = true := by
  have asks := asksCalls (s := .ofMethod (.ofProgram p) m) listed alone rfl
  have calls := @calls_iff_links p l constructor methods (fun _ _ => False) listed m hm method h
  simp only [or_false] at calls
  rw [calls, List.all_eq_true, asks.forall_mem_stmts_uses_iff m.body (named_and_checks listed hm)]

/-- What a method of an accepted program calls of the class itself is there, but for calls that the
checks have not settled. -/
theorem hasMethod_or_escapes (listed : Listed p l constructor methods)
    (alone : (SymbolTable.ofProgram p).StandsAlone) {m : Source.Method} (hm : m ∈ p.methods)
    {method : MethodListing} (h : ListedAs p m method) :
    ∀ how name params result, .op (.invoke how l.name name params result) ∈ method.code →
      l.HasMethod name params result ∨ ∃ call ∈ Stmt.occurrencesIn m.body,
        call.Escapes (.ofMethod (.ofProgram p) m) p.classNames name params := by
  have asks := asksEscapes (s := .ofMethod (.ofProgram p) m) listed alone rfl m.body
  refine (calls_iff_links listed hm h).2 ((asks.forall_mem_stmts_uses_iff m.body ?_).2 ?_)
  · exact fun occ hocc => ⟨named_and_checks listed hm occ hocc, hocc⟩
  · exact fun _ _ => trivial

/-- The constructor calls that of the superclass only. -/
theorem constructor_calls_super (listed : Listed p l constructor methods)
    (alone : (SymbolTable.ofProgram p).StandsAlone) (how : Invocation) (name : String)
    (params : List Descriptor) (result : Descriptor) :
    .op (.invoke how l.name name params result) ∉ constructor.code := by
  intro hop
  have formed : ∀ l ∈ (Lowering.constructorOf (.ofProgram p)).readBack.body,
      l.instruction.Formed := List.forall_mem_map.2
    (Lowering.constructorOf_sound (Lowering.written_ofProgram listed.named)).formed
  obtain ⟨o, hused, called⟩ := (invocation_mem_code_iff formed listed.first rfl).1 hop
  have uses : (Lowering.constructorOf (.ofProgram p)).readBack.uses =
      [.receiver, .call ⟨.invokeSpecial, some .this, some "<init>", [], .void, false⟩] := rfl
  rw [uses] at hused
  simp only [List.mem_cons, reduceCtorEq, Use.call.injEq, List.not_mem_nil, or_false,
    false_or] at hused
  subst hused
  refine (listed.namesSelf alone).super ?_
  rw [← listed.name]
  exact (Opcode.invoke.inj (Option.some.inj called)).2.1

/-- Each method of a listed program is listed with its declaration. -/
theorem Listed.each (listed : Listed p l constructor methods) :
    List.Forall₂ (fun m method => m ∈ p.methods ∧ ListedAs p m method) p.methods methods :=
  (List.forall₂_and_left _ _).2 ⟨fun _ hm => hm, listed.others⟩

/-- The assembly of an accepted program is linked exactly if its calls match. -/
theorem linked_iff_of_listed (listed : Listed p l constructor methods)
    (alone : (SymbolTable.ofProgram p).StandsAlone) :
    l.Linked ↔ p.matchesSignatures = true := by
  rw [ClassListing.Linked, listed.allMethods, List.forall_mem_cons, Program.matchesSignatures,
    List.all_eq_true]
  constructor
  · rintro ⟨-, linked⟩ m hm
    obtain ⟨method, member, -, listedAs⟩ := exists_of_forall₂ listed.each.flip m hm
    exact (linked_method_iff listed alone hm listedAs).1 (linked method member)
  · intro matched
    refine ⟨fun how name params result hop => ?_, fun method member => ?_⟩
    · exact absurd hop (constructor_calls_super listed alone how name params result)
    · obtain ⟨m, hm, -, listedAs⟩ := exists_of_forall₂ listed.each method member
      exact (linked_method_iff listed alone hm listedAs).2 (matched m hm)

end Links

end Assembly

namespace Compiler

open Assembly

/-- Of a program that compiles, and neither extends a class nor imports one of its own name, the
assembly is linked exactly if every call on an object of the own class matches the signature of a
method.  Whatever it calls of the class itself is there even so, unless the call escapes the checks:
they do not look at its arguments, or one of them is not plain. -/
theorem linked_iff {source : String} {p : Program} {c : Compilation}
    (hp : Program.ofText source = .ok p) (h : compile source = .ok c) (hs : p.superClass = none)
    (hi : (SymbolTable.ofProgram p).hasImport p.className = false) :
    ∃ l constructor methods, listing source = .ok l ∧ c.assembly = l.text ∧
      l.allMethods = constructor :: methods ∧
      (l.Linked ↔ p.matchesSignatures = true) ∧
      (∀ how name params result,
        .op (.invoke how l.name name params result) ∉ constructor.code) ∧
      List.Forall₂ (fun m method => ∀ how name params result,
        .op (.invoke how l.name name params result) ∈ method.code →
          l.HasMethod name params result ∨ ∃ call ∈ Stmt.occurrencesIn m.body,
            call.Escapes (.ofMethod (.ofProgram p) m) p.classNames name params)
        p.methods methods := by
  obtain ⟨l, constructor, methods, hl, text, listed⟩ := exists_listed hp h
  refine ⟨l, constructor, methods, hl, text, listed.allMethods,
    linked_iff_of_listed listed ⟨hs, hi⟩, constructor_calls_super listed ⟨hs, hi⟩, ?_⟩
  exact listed.each.imp fun m method ⟨hm, listedAs⟩ => hasMethod_or_escapes listed ⟨hs, hi⟩ hm listedAs

/-- A call of a method of the class, as the argument of another. -/
theorem linked_of_call_as_argument :
    ∃ (p : Program) (c : Compilation) (l : ClassListing) (constructor : MethodListing)
      (methods : List MethodListing),
      Program.ofText "class A { public int f(int x) { return this.f(this.f(x)); } }" = .ok p ∧
      p.superClass = none ∧ (SymbolTable.ofProgram p).hasImport p.className = false ∧
      compile "class A { public int f(int x) { return this.f(this.f(x)); } }" = .ok c ∧
      c.assembly = l.text ∧ l.allMethods = constructor :: methods ∧
      List.Forall₂ (fun (_ : Source.Method) (method : MethodListing) => ∀ how name params result,
        .op (.invoke how l.name name params result) ∈ method.code →
          l.HasMethod name params result) p.methods methods := by
  obtain ⟨p, hp, ht⟩ := exists_of_any
    (Program.ofText "class A { public int f(int x) { return this.f(this.f(x)); } }")
    (fun p => p.superClass.isNone && (!(SymbolTable.ofProgram p).hasImport p.className &&
      p.methods.all fun m => (Stmt.occurrencesIn m.body).all fun e =>
        e.isSettled (.ofMethod (.ofProgram p) m))) (by decide +kernel)
  obtain ⟨c, hc, -⟩ := exists_of_any
    (compile "class A { public int f(int x) { return this.f(this.f(x)); } }") (fun _ => true)
    (by decide +kernel)
  simp only [Bool.and_eq_true, Option.isNone_iff_eq_none, Bool.not_eq_true', List.all_eq_true] at ht
  obtain ⟨hs, hi, settled⟩ := ht
  obtain ⟨l, constructor, methods, -, text, members, -, -, linked⟩ := linked_iff hp hc hs hi
  refine ⟨p, c, l, constructor, methods, hp, hs, hi, hc, text, members, ?_⟩
  refine ((List.forall₂_and_left _ _).2 ⟨settled, linked⟩).imp ?_
  rintro m method ⟨hm, links⟩ how name params result hop
  refine (links how name params result hop).resolve_right ?_
  rintro ⟨call, member, _, _, _, -, -, -, -, other⟩
  rw [hm call member] at other
  cases other

/-- The arguments of a call on a new object are not looked at. -/
theorem not_linked_of_call_on_new_object :
    ∃ (p : Program) (c : Compilation) (l : ClassListing),
      Program.ofText "class A { public int f(int x) { return new A().f(true); } }" = .ok p ∧
      p.superClass = none ∧ (SymbolTable.ofProgram p).hasImport p.className = false ∧
      compile "class A { public int f(int x) { return new A().f(true); } }" = .ok c ∧
      listing "class A { public int f(int x) { return new A().f(true); } }" = .ok l ∧
      ¬ l.Linked := by
  obtain ⟨p, hp, ht⟩ := exists_of_any
    (Program.ofText "class A { public int f(int x) { return new A().f(true); } }")
    (fun p => p.superClass.isNone && !(SymbolTable.ofProgram p).hasImport p.className)
    (by decide +kernel)
  obtain ⟨c, hc, -⟩ := exists_of_any
    (compile "class A { public int f(int x) { return new A().f(true); } }") (fun _ => true)
    (by decide +kernel)
  obtain ⟨l, hl, hlt⟩ := exists_of_any
    (listing "class A { public int f(int x) { return new A().f(true); } }")
    (fun l => (l.allMethods.any fun method =>
        method.code.contains (.op (.invoke .virtual l.name "f" [.boolean] .int))) &&
      l.allMethods.all fun method => method.params != [.boolean]) (by decide +kernel)
  simp only [Bool.and_eq_true, Option.isNone_iff_eq_none, Bool.not_eq_true'] at ht
  simp only [Bool.and_eq_true, List.any_eq_true, List.all_eq_true, List.contains_iff_mem,
    bne_iff_ne] at hlt
  obtain ⟨⟨method, member, calls⟩, other⟩ := hlt
  refine ⟨p, c, l, hp, ht.1, ht.2, hc, hl, fun linked => ?_⟩
  obtain ⟨callee, there, -, params, -⟩ := linked method member _ _ _ _ calls
  exact other callee there params

end Compiler

end JavaMinus
