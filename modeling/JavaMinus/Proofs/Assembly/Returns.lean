/-
# Returns and descriptors

A method with a result has to be left with one opcode: `return` if the result is none, `ireturn` if
it is a number or a truth value, and `areturn` if it is an object or an array.  The code of a method
has the returns of its statements, in their order, and after them at most one `return` that one of
the two generators has added: the first one where the type is named `void`, the second one where no
line is a return, whatever the method's type is.

So a method that should return a value and has no return statement at all is left with `return`
(`returnsMatch_iff`).  Apart from that method, `value_returns_match` says under which conditions the
checks have settled that the returns match.
-/
import JavaMinus.Proofs.Assembly.Endings
import JavaMinus.Proofs.Assembly.Headers
import JavaMinus.Proofs.Typing.Returns

namespace JavaMinus

namespace Assembly

open Ir Assembling

/-! ## The returns of code -/

def CodeLine.return? : CodeLine → Option Opcode
  | .op opcode => if opcode.isReturn then some opcode else none
  | .label _ => none

theorem CodeLine.return?_eq_some_iff {line : CodeLine} {op : Opcode} :
    line.return? = some op ↔ line = .op op ∧ op.isReturn = true := by
  cases line with
  | label name => exact iff_of_false (fun h => nomatch h) (fun h => nomatch h.1)
  | op other =>
      rw [return?]
      split
      · rename_i leaves
        rw [Option.some.injEq, CodeLine.op.injEq, iff_self_and]
        rintro rfl
        exact leaves
      · rename_i stays
        refine iff_of_false (fun h => nomatch h) ?_
        rintro ⟨⟨⟩, leaves⟩
        exact stays leaves

/-- The lines have just these returns. -/
def HasReturns (ops : List Opcode) (w : List CodeLine) : Prop := w.filterMap CodeLine.return? = ops

section Instructions

variable {f : Frame}

theorem HasReturns.append {ops ops' : List Opcode} {w w' : List CodeLine} (h : HasReturns ops w)
    (h' : HasReturns ops' w') : HasReturns (ops ++ ops') (w ++ w') := by
  rw [HasReturns, List.filterMap_append, h, h']

theorem hasReturns_labels (names : List String) : HasReturns [] (names.map .label) :=
  List.filterMap_eq_nil_iff.2 fun line hl => by
    obtain ⟨name, -, rfl⟩ := List.mem_map.1 hl
    rfl

theorem permits_hasReturns : Permits f (HasReturns []) where
  nil := rfl
  append _ _ h h' := h.append h'
  label _ := rfl
  neutral op h := by
    have stays := (Opcode.quiet_of_isNeutral h).2.1
    rw [HasReturns, List.filterMap_cons, CodeLine.return?, stays]
    rfl
  load _ _ _ := rfl
  store _ _ _ := rfl
  increment _ _ _ _ := rfl
  choice _ _ _ _ _ := rfl

theorem allows_hasReturns {i : Instruction} (h : Assembly.return? i = none) :
    Allows f (HasReturns []) i where
  receiver _ := rfl
  call c op _ called := by
    simp only [invocation?, Option.bind_eq_bind, Option.bind_eq_some_iff] at called
    obtain ⟨_, -, _, -, _, -, _, -, ⟨⟩⟩ := called
    rfl
  jump _ _ := rfl
  branch _ _ := rfl
  leave op left := nomatch h.symm.trans left

theorem instruction_returns {i : Instruction} (hi : i.Formed) :
    Lines (HasReturns (Assembly.return? i).toList) (lower f false i) := by
  intro t x t' w run
  cases hr : Assembly.return? i with
  | none => exact instruction_lines permits_hasReturns hi (allows_hasReturns hr) _ _ _ _ run
  | some op =>
      cases i with
      | returnVoid =>
          obtain ⟨-, -, rfl, -⟩ := emit_ok run
          cases hr
          rfl
      | «return» type value =>
          obtain ⟨_, t₁, w₁, w₂, loaded, left, rfl⟩ := Emission.run_bind_ok_iff.1 run
          obtain ⟨-, -, rfl, -⟩ := emit_ok left
          cases hr
          have first : HasReturns [] w₁ :=
            load_lines permits_hasReturns (fun _ => rfl) _ _ _ _ loaded
          exact first.append rfl
      | assign | binary | unary | single | call | getField | putField | branch | goto => cases hr

theorem lowerBody_returns {body : List Labeled} (hi : ∀ l ∈ body, l.instruction.Formed) :
    Lines (HasReturns (body.filterMap fun l => Assembly.return? l.instruction))
      (lowerBody f body) := by
  induction body with
  | nil =>
      intro t x t' w run
      cases run
      rfl
  | cons l body ih =>
      intro t x t' w run
      obtain ⟨formed, more⟩ := List.forall_mem_cons.1 hi
      obtain ⟨_, t₁, w₁, _, labeled, rest, rfl⟩ := Emission.run_bind_ok_iff.1 run
      obtain ⟨-, rfl, rfl⟩ := Emitted.mk.inj ((emitLabels_run l.labels t).symm.trans labeled)
      obtain ⟨_, t₂, w₂, w₃, lowered, others, rfl⟩ := Emission.run_bind_ok_iff.1 rest
      have own := instruction_returns formed _ _ _ _ lowered
      have whole := (hasReturns_labels l.labels).append (own.append (ih more _ _ _ _ others))
      rw [List.filterMap_cons]
      cases hr : Assembly.return? l.instruction with
      | none => rw [hr] at whole; exact whole
      | some op => rw [hr] at whole; exact whole

theorem lowerMethod_returns {m : Method} (hi : ∀ l ∈ m.body, l.instruction.Formed) :
    Lines (HasReturns (m.body.filterMap fun l => Assembly.return? l.instruction))
      (lowerMethod f m) := by
  intro t x t' w run
  obtain ⟨_, t₁, w₁, w₂, lowered, labeled, rfl⟩ := Emission.run_bind_ok_iff.1 run
  obtain ⟨-, rfl, rfl⟩ := Emitted.mk.inj ((emitLabels_run m.trailing t₁).symm.trans labeled)
  have body := lowerBody_returns hi _ _ _ _ lowered
  have whole := body.append (hasReturns_labels m.trailing)
  rwa [List.append_nil] at whole

/-- The returns in the code of a method: those of its body, and one that is added where it is due.
-/
theorem returns_of_ofMethod {names : ClassNames} {m : Method} {listing : MethodListing}
    {ending : Option Ending} {returns : Bool} (hi : ∀ l ∈ m.body, l.instruction.Formed)
    (hm : Lowering.MethodShape m ending returns) (h : MethodListing.ofMethod names m = .ok listing) :
    listing.code.filterMap CodeLine.return? =
      (m.body.filterMap fun l => Assembly.return? l.instruction) ++
        if !returns || ending == some .label && m.returnType == .void then [.returnVoid] else [] := by
  obtain ⟨t, w, run, code⟩ := code_of_ofMethod h
  have own : HasReturns _ w := lowerMethod_returns hi _ _ _ _ run
  rw [code, ← needsReturn_of_shape hi hm run]
  refine own.append ?_
  cases needsReturn m w <;> rfl

end Instructions

/-! ## Matching -/

/-- The opcode that a method with the result is to be left with. -/
def Descriptor.returnOpcode : Descriptor → Opcode
  | .void => .returnVoid
  | .int | .boolean => .returnValue .number
  | .reference _ | .array _ => .returnValue .reference

/-- The returns of the method match its descriptor. -/
structure MethodListing.ReturnsMatch (m : MethodListing) : Prop where
  bare : .op .returnVoid ∈ m.code → m.result = .void
  number : .op (.returnValue .number) ∈ m.code → m.result = .int ∨ m.result = .boolean
  reference : .op (.returnValue .reference) ∈ m.code →
    (∃ className, m.result = .reference className) ∨ ∃ element, m.result = .array element

theorem mem_returns_iff {w : List CodeLine} {op : Opcode} (h : op.isReturn = true) :
    op ∈ w.filterMap CodeLine.return? ↔ .op op ∈ w := by
  rw [List.mem_filterMap]
  constructor
  · rintro ⟨line, hl, some_⟩
    rwa [← (CodeLine.return?_eq_some_iff.1 some_).1]
  · intro there
    exact ⟨_, there, CodeLine.return?_eq_some_iff.2 ⟨rfl, h⟩⟩

/-- The returns match exactly if each of them is the opcode that the result asks for. -/
theorem MethodListing.returnsMatch_iff_all (m : MethodListing) :
    m.ReturnsMatch ↔ ∀ op ∈ m.code.filterMap CodeLine.return?, op = m.result.returnOpcode := by
  constructor
  · rintro ⟨bare, number, reference⟩ op hop
    obtain ⟨line, there, some_⟩ := List.mem_filterMap.1 hop
    obtain ⟨rfl, leaves⟩ := CodeLine.return?_eq_some_iff.1 some_
    cases op with
    | returnVoid => rw [bare there]; rfl
    | returnValue kind =>
        cases kind with
        | number => rcases number there with h | h <;> rw [h] <;> rfl
        | reference => rcases reference there with ⟨_, h⟩ | ⟨_, h⟩ <;> rw [h] <;> rfl
    | constant | constantText | load | store | increment | arithmetic | loadItem | storeItem
    | arrayLength | newArray | newObject | getField | putField | invoke | pop | goto | branch =>
        cases leaves
  · intro all
    have here : ∀ op : Opcode, op.isReturn = true → .op op ∈ m.code → op = m.result.returnOpcode :=
      fun op leaves there => all op ((mem_returns_iff leaves).2 there)
    refine ⟨fun there => ?_, fun there => ?_, fun there => ?_⟩
    · have same := here _ rfl there
      cases hr : m.result <;> rw [hr] at same <;> first | rfl | cases same
    · have same := here _ rfl there
      cases hr : m.result with
      | int => exact .inl rfl
      | boolean => exact .inr rfl
      | void | reference | array => rw [hr] at same; cases same
    · have same := here _ rfl there
      cases hr : m.result with
      | reference className => exact .inl ⟨className, rfl⟩
      | array element => exact .inr ⟨element, rfl⟩
      | int | boolean | void => rw [hr] at same; cases same

end Assembly

/-- The opcode that a method is to be left with which returns a value of the type, or none. -/
def Ir.ElementType.returnOpcode (t : Ir.ElementType) : Assembly.Opcode :=
  if t = .void then .returnVoid else .returnValue (.ofType t)

theorem Assembly.returnOpcode_descriptor (names : Assembly.ClassNames) (t : Ir.ElementType) :
    (names.descriptor t).returnOpcode = t.returnOpcode := by
  cases t <;> rfl

namespace Source

open Lowering

/-- The opcode that the method is to be left with, by its declared type. -/
def Method.returnOpcode (m : Method) : Assembly.Opcode :=
  (SymbolTable.signatureOf m).returnType.read.returnOpcode

/-- Whether the assembler adds a `return` to the method: there is none, or labels come last and
nothing is returned. -/
def Method.getsReturn (table : SymbolTable) (m : Method) : Bool :=
  !m.returns || m.ending? (.ofMethod table m) == some .label &&
    (SymbolTable.signatureOf m).returnType.read == .void

/-- Whether the returns of the method match its type: each of those that it is lowered to does, and
there is one, or nothing is returned. -/
def Method.returnsMatch (table : SymbolTable) (m : Method) : Bool :=
  ((returnOpcodes table m).all fun op => op == m.returnOpcode) &&
    (m.returns || m.returnOpcode == .returnVoid)

/-- The type of the method is a single one, that of its returns, and the checks can tell those. -/
structure Method.IsPlain (table : SymbolTable) (m : Method) : Prop where
  /-- The first method of the name returns the same type. -/
  first : (Scope.ofMethod table m).expectedReturn = (SymbolTable.signatureOf m).returnType
  /-- The name of the type is not the word of another type of the intermediate form. -/
  kept : m.returnType.isKept = true
  /-- A type named `void` is `void`, and then nothing is returned. -/
  void : m.returnType.isVoid = true → m.returnType = .void ∧ ∀ e, some e ∉ Stmt.returnedIn m.body
  /-- No import ends in the name of the class. -/
  other : table.hasImport table.className = false
  /-- The checks can tell the type of a returned element of an array, and it is lowered so. -/
  elements : ∀ e, some e ∈ Stmt.returnedIn m.body → Scope.isElement e = true →
    ∃ t, (Scope.ofMethod table m).typeOf? e = some t ∧
      e.isAgreed (.ofMethod table m) (some (Scope.ofMethod table m).expectedReturn) = true

end Source

namespace Assembly

open Source

variable {p : Program} {m : Source.Method} {listing : MethodListing}

theorem returns_of_listed (hn : p.Named) (h : (Analysis.ofProgram p).hasErrors = false)
    (hm : m ∈ p.methods) (hl : ListedAs p m listing) :
    listing.code.filterMap CodeLine.return? =
      Lowering.returnOpcodes (.ofProgram p) m ++
        if m.getsReturn (.ofProgram p) then [.returnVoid] else [] := by
  obtain ⟨u, lowered, listed⟩ := hl
  have written := Lowering.written_ofProgram hn
  have named := hn.methods m hm
  have indexable := p.indexable_of_no_errors hn h m hm
  have formed : ∀ l ∈ u.readBack.body, l.instruction.Formed :=
    List.forall_mem_map.2 (lowered.sound written named indexable).formed
  rw [returns_of_ofMethod formed (lowered.shape written named indexable) listed,
    lowered.returns written named indexable]
  obtain ⟨lines, -, rfl⟩ := lowered
  have result : (Lowering.methodOf (Lowering.headOf (.ofProgram p) m) lines).readBack.returnType =
      (SymbolTable.signatureOf m).returnType.read := by
    show (if m.isMain then _ else m.returnType.lowered).readBack = _
    unfold SymbolTable.signatureOf
    cases m.isMain <;> rfl
  rw [result, Method.getsReturn]

theorem returnsMatch_iff_of_listed (hn : p.Named) (h : (Analysis.ofProgram p).hasErrors = false)
    (hm : m ∈ p.methods) (hl : ListedAs p m listing) :
    listing.ReturnsMatch ↔ m.returnsMatch (.ofProgram p) = true := by
  have asked : listing.result.returnOpcode = m.returnOpcode := by
    rw [hl.head.2.2, returnOpcode_descriptor, Method.returnOpcode]
  rw [listing.returnsMatch_iff_all, returns_of_listed hn h hm hl, asked, List.forall_mem_append,
    Method.returnsMatch, Bool.and_eq_true, List.all_eq_true]
  refine and_congr (forall₂_congr fun op _ => beq_iff_eq.symm) ?_
  rw [Method.getsReturn]
  cases hr : m.returns with
  | true =>
      -- Labels come last only where nothing is returned, and there a `return` matches.
      refine iff_of_true (fun op hop => ?_) rfl
      split at hop
      · rename_i label
        rw [Bool.not_true, Bool.false_or, Bool.and_eq_true, beq_iff_eq, beq_iff_eq] at label
        rw [List.mem_singleton.1 hop, Method.returnOpcode, label.2]
        rfl
      · exact absurd hop List.not_mem_nil
  | false =>
      rw [Bool.not_false, Bool.true_or, if_pos rfl, List.forall_mem_singleton, Bool.false_or,
        beq_iff_eq, eq_comm]

/-! ## Where the returns match -/

theorem returnOpcode_of_void (hvoid : (SymbolTable.signatureOf m).returnType = .void ∨
    (SymbolTable.signatureOf m).returnType = .staticVoid) : m.returnOpcode = .returnVoid := by
  rw [Method.returnOpcode]
  rcases hvoid with hvoid | hvoid <;> rw [hvoid] <;> rfl

theorem read_ne_void {t : Ty} (named : t.Named) (kept : t.isKept = true) (hv : t.isVoid = false) :
    t.read ≠ .void := by
  have value := (Ty.readBack_lowered t).2.1
  rw [← bne_iff_ne, Ty.read, value, Ty.isValue, Bool.or_eq_true, Bool.not_eq_true',
    List.contains_eq_mem, decide_eq_false_iff_not]
  refine .inr fun there => ?_
  simp only [List.mem_cons, List.not_mem_nil, or_false] at there
  rcases there with name | name | name
  · rw [Ty.isVoid, name] at hv
    cases hv
  · rcases named with h | h | h | h
    · exact absurd (name.symm.trans h) (by decide)
    · exact absurd (name.symm.trans h) (by decide)
    · exact absurd (name.symm.trans h) (by decide)
    · rw [name] at h
      exact absurd h.1 (by decide)
  · rw [Ty.isKept, name] at kept
    cases kept

theorem not_number_of_isName {name : String} (h : IsName name) :
    ¬ (Ty.ofClass name = .int ∨ Ty.ofClass name = .boolean) := by
  rintro (same | same)
  · cases congrArg Ty.name same
    exact h.free .kInt rfl
  · cases congrArg Ty.name same
    exact h.free .kBoolean rfl

theorem returnType_of_not_main (h : m.isMain = false) :
    (SymbolTable.signatureOf m).returnType = m.returnType := by
  rw [SymbolTable.signatureOf, h]
  rfl

theorem declared_of_listed (h : (Analysis.ofProgram p).hasErrors = false) (hm : m ∈ p.methods)
    (hl : ListedAs p m listing) : ∀ n ∈ Stmt.valueNamesIn m.body,
      ((Scope.ofMethod (.ofProgram p) m).lookup n).isSome := by
  obtain ⟨u, ⟨lines, ⟨indent, c', run⟩, -⟩, -⟩ := hl
  have targets := (Analysis.known_of_no_errors h).1 m hm
  obtain ⟨-, explained⟩ := Lowering.lowerBody_looks targets ⟨indent, m.name, 0, 0⟩ rfl
  rw [run] at explained
  intro n hn
  exact explained (m.name, n) (List.mem_map_of_mem hn)

/-- In a plain method a returned value has the opcode that the method's type asks for. -/
theorem value_return_matches (hn : p.Named) (h : (Analysis.ofProgram p).hasErrors = false)
    (hm : m ∈ p.methods) (hl : ListedAs p m listing) (plain : m.IsPlain (.ofProgram p)) {e : Expr}
    (he : some e ∈ Stmt.returnedIn m.body) :
    (Scope.ofMethod (.ofProgram p) m).returnOpcode (some e) = m.returnOpcode := by
  have accepts := Analysis.accepts_of_no_errors h m hm
  obtain ⟨loc, passes⟩ := Scope.checkReturn_of_acceptsAll m.body accepts _ he
  obtain ⟨main, checks, rule⟩ := Scope.rule_of_checkReturn passes
  have declared := declared_of_listed h hm hl
  have types := Scope.loweredType_of_checkReturn plain.other e
    (fun n hn => declared n (Stmt.valueNames_of_returnedIn m.body he hn)) checks rule
    (plain.elements e he)
  have returnType := returnType_of_not_main (m := m) main
  rw [plain.first, returnType] at types
  have value : m.returnType.read ≠ .void := by
    refine read_ne_void (hn.methods m hm).returnType plain.kept (Bool.eq_false_iff.2 fun isVoid => ?_)
    exact (plain.void isVoid).2 e he
  have asked : m.returnOpcode = .returnValue (.ofType m.returnType.read) := by
    rw [Method.returnOpcode, returnType, Ir.ElementType.returnOpcode, if_neg value]
  rw [asked, Scope.returnOpcode, Expr.operandType, plain.first, returnType]
  by_cases this : e.isThis = true
  · -- The receiver is a reference, and its class is none of the two types of numbers.
    rw [if_pos this]
    rw [Scope.loweredType_of_isThis e _ this] at types
    rcases types with same | ⟨number, -⟩
    · rw [← same, Ty.read, (Ty.readBack_lowered_eq_iff _).2 (same ▸ plain.kept)]
      show _ = Opcode.returnValue (.ofType (Ty.lowered.base p.className))
      rw [base_of_isName hn.className]
      split <;> rfl
    · exact absurd (Ty.eq_of_isNumber number) (not_number_of_isName hn.className)
  · rw [if_neg this]
    rcases types with same | ⟨number, number'⟩
    · rw [same]
    · rcases Ty.eq_of_isNumber number with h | h <;> rcases Ty.eq_of_isNumber number' with h' | h' <;>
        rw [h, h'] <;> rfl

/-- What is named `void`, and the entry method, are left with `return`. -/
theorem returnOpcode_of_due (plain : m.IsPlain (.ofProgram p))
    (due : (m.isMain || m.returnType.isVoid) = true) : m.returnOpcode = .returnVoid := by
  refine returnOpcode_of_void ?_
  rw [SymbolTable.signatureOf]
  cases main : m.isMain with
  | true => exact .inr rfl
  | false =>
      rw [main, Bool.false_or] at due
      exact .inl (plain.void due).1

/-- In a plain method every return has the opcode that the method's type asks for. -/
theorem return_matches (hn : p.Named) (h : (Analysis.ofProgram p).hasErrors = false)
    (hm : m ∈ p.methods) (hl : ListedAs p m listing) (plain : m.IsPlain (.ofProgram p)) :
    ∀ r ∈ Stmt.returnedIn m.body, (Scope.ofMethod (.ofProgram p) m).returnOpcode r = m.returnOpcode
  | some _, hr => value_return_matches hn h hm hl plain hr
  | none, hr => by
      have accepts : (Scope.ofMethod (.ofProgram p) m).AcceptsAll m.body :=
        Analysis.accepts_of_no_errors h m hm
      obtain ⟨loc, passes⟩ := Scope.checkReturn_of_acceptsAll m.body accepts _ hr
      obtain ⟨main, isVoid⟩ := Scope.isVoid_of_checkReturn passes
      rw [plain.first, returnType_of_not_main (m := m) main] at isVoid
      exact (returnOpcode_of_due plain (by rw [isVoid, Bool.or_true])).symm

/-- A plain method that should return a value and returns nothing only has the return that is added.
-/
theorem returns_of_nothing (hn : p.Named) (h : (Analysis.ofProgram p).hasErrors = false)
    (hm : m ∈ p.methods) (hl : ListedAs p m listing) (plain : m.IsPlain (.ofProgram p))
    (asked : listing.result.returnOpcode = m.returnOpcode) (nothing : Stmt.returnedIn m.body = [])
    (value : listing.result ≠ .void) :
    listing.code.filterMap CodeLine.return? = [.returnVoid] := by
  have due : (m.isMain || m.returnType.isVoid) = false := by
    refine Bool.eq_false_iff.2 fun due => value ?_
    have leaves := asked.trans (returnOpcode_of_due plain due)
    cases hr : listing.result <;> rw [hr] at leaves <;> first | rfl | cases leaves
  have returns : m.returns = false := by
    rw [Method.returns, due, Stmt.anyReturns_iff, nothing]
    rfl
  rw [returns_of_listed hn h hm hl, Lowering.returnOpcodes, nothing, Method.isCompleted, due,
    Method.getsReturn, returns, Bool.and_false]
  rfl

/-- The returns of a plain method match, unless it should return a value and nothing is returned in
it: then its only return is a `return` at the end. -/
theorem returnsMatch_of_isPlain (hn : p.Named) (h : (Analysis.ofProgram p).hasErrors = false)
    (hm : m ∈ p.methods) (hl : ListedAs p m listing) (plain : m.IsPlain (.ofProgram p)) :
    listing.ReturnsMatch ∨ (Stmt.returnedIn m.body = [] ∧ listing.result ≠ .void ∧
      listing.code.filterMap CodeLine.return? = [.returnVoid]) := by
  have asked : listing.result.returnOpcode = m.returnOpcode := by
    rw [hl.head.2.2, returnOpcode_descriptor, Method.returnOpcode]
  by_cases implicit : Stmt.returnedIn m.body = [] ∧ listing.result ≠ .void
  · exact .inr ⟨implicit.1, implicit.2,
      returns_of_nothing hn h hm hl plain asked implicit.1 implicit.2⟩
  · refine .inl ((returnsMatch_iff_of_listed hn h hm hl).2 ?_)
    rw [Method.returnsMatch, Bool.and_eq_true, List.all_eq_true, Lowering.returnOpcodes]
    refine ⟨List.forall_mem_append.2 ⟨List.forall_mem_map.2 fun r hr => ?_, fun op hop => ?_⟩, ?_⟩
    · exact beq_iff_eq.2 (return_matches hn h hm hl plain r hr)
    · split at hop
      · rename_i completed
        rw [Method.isCompleted, Bool.and_eq_true] at completed
        rw [List.mem_singleton.1 hop, returnOpcode_of_due plain completed.2]
        rfl
      · exact absurd hop List.not_mem_nil
    · rw [Bool.or_eq_true, beq_iff_eq]
      by_cases nothing : Stmt.returnedIn m.body = []
      · refine .inr ?_
        have result : listing.result = .void := Decidable.byContradiction fun other =>
          implicit ⟨nothing, other⟩
        rw [← asked, result]
        rfl
      · refine .inl ?_
        rw [Method.returns, Stmt.anyReturns_iff, List.isEmpty_eq_false_iff.2 nothing]
        exact Bool.or_true _

/-- The constructor only calls its superclass's. -/
theorem constructor_returnsMatch {l : ClassListing} {constructor : MethodListing}
    {methods : List MethodListing} (listed : Listed p l constructor methods) :
    constructor.ReturnsMatch := by
  have sound := (Lowering.constructorOf_sound (Lowering.written_ofProgram listed.named)).formed
  have formed : ∀ l ∈ (Lowering.constructorOf (.ofProgram p)).readBack.body,
      l.instruction.Formed := List.forall_mem_map.2 sound
  rw [constructor.returnsMatch_iff_all, listed.constructor_head.2.2,
    returns_of_ofMethod formed (constructor_shape _) listed.first]
  exact List.forall_mem_singleton.2 rfl

end Assembly

namespace Compiler

open Source Assembly

/-- The returns of a program that compiles.  Its constructor is left with `return`, as its
descriptor asks.  The code of every other method has the returns of its statements in their order,
and after them at most one `return` that the assembler adds; they match the descriptor exactly if
the method's do.  In a plain method they do, unless it should return a value and has no return
statement at all: then its only return is the one that is added. -/
theorem returnsMatch_iff {source : String} {p : Program} {c : Compilation}
    (hp : Program.ofText source = .ok p) (h : compile source = .ok c) :
    ∃ l constructor methods, listing source = .ok l ∧ c.assembly = l.text ∧
      l.methods = constructor :: methods ∧ l.added = none ∧ constructor.ReturnsMatch ∧
      List.Forall₂ (fun (m : Method) (method : MethodListing) =>
        method.code.filterMap CodeLine.return? =
          Lowering.returnOpcodes (.ofProgram p) m ++
            (if m.getsReturn (.ofProgram p) then [.returnVoid] else []) ∧
        (method.ReturnsMatch ↔ m.returnsMatch (.ofProgram p) = true) ∧
        (m.IsPlain (.ofProgram p) → method.ReturnsMatch ∨
          (Stmt.returnedIn m.body = [] ∧ method.result ≠ .void ∧
            method.code.filterMap CodeLine.return? = [.returnVoid]))) p.methods methods := by
  obtain ⟨l, constructor, methods, hl, text, listed⟩ := exists_listed hp h
  have named := listed.named
  have accepted := listed.accepted
  refine ⟨l, constructor, methods, hl, text, listed.members, listed.added,
    constructor_returnsMatch listed, listed.each.imp fun m method ⟨hm, hl⟩ => ?_⟩
  exact ⟨returns_of_listed named accepted hm hl, returnsMatch_iff_of_listed named accepted hm hl,
    returnsMatch_of_isPlain named accepted hm hl⟩

/-- A method that returns a new object or the receiver. -/
theorem returnsMatch_of_objects :
    ∃ (p : Program) (c : Compilation) (l : ClassListing) (constructor : MethodListing)
      (methods : List MethodListing),
      Program.ofText
        "class A { public A f(boolean b) { if (b) return new A(); return this; } }" =
          .ok p ∧
      compile
        "class A { public A f(boolean b) { if (b) return new A(); return this; } }" =
          .ok c ∧
      c.assembly = l.text ∧ l.methods = constructor :: methods ∧ constructor.ReturnsMatch ∧
      List.Forall₂ (fun (_ : Method) (method : MethodListing) => method.ReturnsMatch)
        p.methods methods := by
  obtain ⟨p, hp, ht⟩ := exists_of_any
    (Program.ofText
      "class A { public A f(boolean b) { if (b) return new A(); return this; } }")
    (fun p => p.methods.all fun m => m.returnsMatch (.ofProgram p)) (by decide +kernel)
  obtain ⟨c, hc, -⟩ := exists_of_any
    (compile
      "class A { public A f(boolean b) { if (b) return new A(); return this; } }")
    (fun _ => true) (by decide +kernel)
  obtain ⟨l, constructor, methods, -, text, members, -, first, others⟩ := returnsMatch_iff hp hc
  refine ⟨p, c, l, constructor, methods, hp, hc, text, members, first, ?_⟩
  exact ((List.forall₂_and_left _ _).2 ⟨List.all_eq_true.1 ht, others⟩).imp
    fun _ _ ⟨hm, _, matches_, _⟩ => matches_.2 hm

/-- A method that should return an integer and has no return statement is left with `return`. -/
theorem not_returnsMatch_of_missing_return :
    ∃ (c : Compilation) (l : ClassListing) (method : MethodListing),
      compile "class A { public int f() { } }" = .ok c ∧
      listing "class A { public int f() { } }" = .ok l ∧ c.assembly = l.text ∧
      method ∈ l.methods ∧ method.code = [.op .returnVoid] ∧ method.result = .int ∧
      ¬ method.ReturnsMatch := by
  obtain ⟨l, hl, ht⟩ := exists_of_any (listing "class A { public int f() { } }")
    (fun l => l.methods.any fun method =>
      method.code == [.op .returnVoid] && method.result == .int) (by decide +kernel)
  obtain ⟨method, member, ht⟩ := List.any_eq_true.1 ht
  rw [Bool.and_eq_true, beq_iff_eq, beq_iff_eq] at ht
  obtain ⟨code, result⟩ := ht
  obtain ⟨c, hc, text⟩ := exists_compiled hl
  refine ⟨c, l, method, hc, hl, text, member, code, result, fun matches_ => ?_⟩
  have bare := matches_.bare (by rw [code]; exact List.mem_cons_self)
  rw [result] at bare
  cases bare

end Compiler

end JavaMinus
