/-
# The unit that a lowered program is the text of

The lines of a body are instructions with the labels before them, piled up until the next
instruction (`bodyOf`).  From the bodies up, the lines of a program are the text of the unit whose
methods have these bodies (`unitOf`).  That unit can be written, its instructions have known forms,
and what they use is what the statements of the program use.
-/
import JavaMinus.Proofs.Ir.Heads
import JavaMinus.Proofs.Lowering.Statements
import Mathlib.Data.List.Forall2

namespace JavaMinus.Lowering

open Source Character Ir

variable {table : SymbolTable} {c c' : Cursor} {w : List Line}

/-! ## Lines -/

def Line.tokens : Line → List Ir.Token
  | .code _ i => i.tokens ++ [.mark .semicolon]
  | .label name => [.name name, .mark .colon]
  | .text .. => []

theorem blanks_spell (n : Nat) : Spells (Line.blanks n) [] := by
  have blanks : ∀ k : Nat, Spells (String.ofList (List.replicate k ' ')) [] := by
    intro k
    induction k with
    | zero => exact Spells.nil
    | succ k ih =>
        intro rest us h
        have more := ih rest us h
        rw [String.toList_ofList] at more ⊢
        exact .gap rfl more
  exact blanks (4 * n)

theorem text_spells {n : Nat} {s : String} {ts : List Ir.Token} (h : Spells s ts) :
    Spells (Line.render (.text n s)) ts := by
  have ended := h.append spells_lineBreak
  rw [List.append_nil] at ended
  rw [Line.render]
  split
  · rename_i empty
    rw [String.isEmpty_iff] at empty
    rw [empty] at ended
    exact ended
  · have whole := (blanks_spell n).append ended
    rwa [List.nil_append, ← String.append_assoc] at whole

theorem Line.render_spells {l : Line} (h : l.Sound) : Spells l.render l.tokens := by
  cases l with
  | text n s => exact h.elim
  | label name => exact (spells_word h).append spells_colonBreak rfl rfl
  | code n i =>
      have ending : Spells ";\n" [.mark .semicolon] :=
        (spells_semicolon.append spells_lineBreak).congr rfl
      have written := (Instruction.text_spells h.1).append ending rfl rfl
      have whole := (blanks_spell n).append written
      rwa [List.nil_append, ← String.append_assoc] at whole

theorem renderAll_cons (l : Line) (lines : List Line) :
    Line.renderAll (l :: lines) = l.render ++ Line.renderAll lines := by
  rw [Line.renderAll, List.map_cons, String.join_cons]
  rfl

theorem renderAll_append (lines lines' : List Line) :
    Line.renderAll (lines ++ lines') = Line.renderAll lines ++ Line.renderAll lines' := by
  rw [Line.renderAll, List.map_append, String.join_append]
  rfl

theorem lines_spell {lines : List Line} (h : ∀ l ∈ lines, l.Sound) :
    Spells (Line.renderAll lines) (lines.flatMap Line.tokens) :=
  join_spells fun l hl => l.render_spells (h l hl)

/-! ## Bodies -/

/-- The instructions of lines, each with the labels before it, and the labels after the last. -/
def bodyOf : List String → List Line → List Labeled × List String
  | labels, [] => ([], labels)
  | labels, .label name :: lines => bodyOf (labels ++ [name]) lines
  | labels, .code _ i :: lines => (⟨labels, i⟩ :: (bodyOf [] lines).1, (bodyOf [] lines).2)
  | labels, .text .. :: lines => bodyOf labels lines

theorem bodyOf_tokens {lines : List Line} : ∀ labels : List String,
    bodyTokens (bodyOf labels lines).1 (bodyOf labels lines).2 =
      labelTokens labels ++ (lines.flatMap Line.tokens ++ [.mark .rbrace]) := by
  induction lines with
  | nil => exact fun labels => rfl
  | cons l lines ih =>
      intro labels
      cases l with
      | text n s => exact ih labels
      | label name =>
          rw [bodyOf, ih (labels ++ [name])]
          simp [labelTokens, Line.tokens]
      | code n i =>
          have rest := ih []
          simp only [bodyTokens, labelTokens, List.flatMap_nil, List.nil_append] at rest
          simp [bodyOf, bodyTokens, Labeled.tokens, Line.tokens, rest, labelTokens]

/-- What only instructions have is had by a body as by its lines. -/
theorem bodyOf_flatMap {α : Type} {g : Ir.Instruction → List α} {f : Line → List α}
    (code : ∀ n i, f (.code n i) = g i) (label : ∀ name, f (.label name) = [])
    (text : ∀ n s, f (.text n s) = []) {lines : List Line} : ∀ labels : List String,
    ((bodyOf labels lines).1.flatMap fun l => g l.instruction) = lines.flatMap f := by
  induction lines with
  | nil => exact fun labels => rfl
  | cons l lines ih =>
      intro labels
      rw [List.flatMap_cons]
      cases l with
      | text n s =>
          rw [text, List.nil_append]
          exact ih labels
      | label name =>
          rw [label, List.nil_append]
          exact ih (labels ++ [name])
      | code n i =>
          rw [code]
          exact congrArg (g i ++ ·) (ih [])

theorem bodyOf_uses {lines : List Line} (labels : List String) :
    ((bodyOf labels lines).1.flatMap fun l => l.instruction.readBack.uses false) =
      lines.flatMap Line.uses :=
  bodyOf_flatMap (g := fun i => i.readBack.uses false) (fun _ _ => rfl) (fun _ => rfl)
    (fun _ _ => rfl) labels

theorem bodyOf_words {lines : List Line} : ∀ {labels : List String},
    (∀ name ∈ labels, isWord name.toList = true) → (∀ l ∈ lines, l.Sound) →
    (∀ l ∈ (bodyOf labels lines).1, ∀ name ∈ l.labels, isWord name.toList = true) ∧
      ∀ name ∈ (bodyOf labels lines).2, isWord name.toList = true := by
  induction lines with
  | nil => exact fun hlabels _ => ⟨List.forall_mem_nil _, hlabels⟩
  | cons l lines ih =>
      intro labels hlabels h
      obtain ⟨hl, hlines⟩ := List.forall_mem_cons.1 h
      cases l with
      | text n s => exact hl.elim
      | label name =>
          refine ih (List.forall_mem_append.2 ⟨hlabels, ?_⟩) hlines
          exact List.forall_mem_singleton.2 hl
      | code n i =>
          obtain ⟨before, after⟩ := ih (List.forall_mem_nil _) hlines
          exact ⟨List.forall_mem_cons.2 ⟨hlabels, before⟩, after⟩

theorem bodyOf_sound {lines : List Line} : ∀ {labels : List String}, (∀ l ∈ lines, l.Sound) →
    ∀ l ∈ (bodyOf labels lines).1,
      l.instruction.Printable ∧ l.instruction.readBack.Formed := by
  induction lines with
  | nil => exact fun _ => List.forall_mem_nil _
  | cons l lines ih =>
      intro labels h
      obtain ⟨hl, hlines⟩ := List.forall_mem_cons.1 h
      cases l with
      | text n s => exact hl.elim
      | label name => exact ih hlines
      | code n i => exact List.forall_mem_cons.2 ⟨hl, ih hlines⟩

/-! ## Blocks -/

theorem emitText_run (s : String) (c : Cursor) :
    (emitText s).run c = ⟨.ok (), c, [.text c.indent s]⟩ :=
  rfl

theorem emitTexts_run (texts : List String) (c : Cursor) :
    (emitTexts texts).run c = ⟨.ok (), c, texts.map (.text c.indent)⟩ := by
  induction texts with
  | nil => rfl
  | cons s texts ih =>
      rw [emitTexts, Emission.run_bind_ok (emitText_run s c), ih]
      rfl

/-- The lines of a block are its head, the lines inside, and the brace that closes it. -/
theorem emitBlock_run {head : String} {body : Lowering Unit} {a : Unit}
    (h : (emitBlock head body).run c = ⟨.ok a, c', w⟩) :
    ∃ c₂ lines n k, body.run { c with indent := c.indent + 1 } = ⟨.ok (), c₂, lines⟩ ∧
      w = .text n head :: (lines ++ [.text k "\x7d"]) := by
  obtain ⟨_, c₀, w₀, w₁, hhead, hrest, rfl⟩ := Emission.run_bind_ok_iff.1 h
  cases hhead
  obtain ⟨_, c₁, w₂, w₃, hbody, hend, rfl⟩ := Emission.run_bind_ok_iff.1 hrest
  obtain ⟨_, c₂, w₄, w₅, hin, hmore, rfl⟩ := Emission.run_bind_ok_iff.1 hbody
  cases hin
  obtain ⟨_, c₃, lines, w₆, hlines, hout, rfl⟩ := Emission.run_bind_ok_iff.1 hmore
  cases hout
  cases hend
  refine ⟨c₃, lines, c.indent, c₃.indent - 1, hlines, ?_⟩
  rw [List.append_nil]
  rfl

theorem block_spells {head : String} {ts us : List Ir.Token} {lines : List Line} {n k : Nat}
    (hh : Spells head ts) (hl : Spells (Line.renderAll lines) us) :
    Spells (Line.renderAll (.text n head :: (lines ++ [.text k "\x7d"])))
      (ts ++ (us ++ [.mark .rbrace])) := by
  have closing : Spells (Line.renderAll [.text k "\x7d"]) [.mark .rbrace] := by
    have only := (text_spells (n := k) spells_rbrace).append Spells.nil
    rw [renderAll_cons]
    exact only
  rw [renderAll_cons, renderAll_append]
  exact (text_spells hh).append (hl.append closing)

/-! ## Methods -/

/-- The method with a head, and with lines for a body. -/
def methodOf (head : Ir.Method) (lines : List Line) : Ir.Method :=
  { head with body := (bodyOf [] lines).1, trailing := (bodyOf [] lines).2 }

def methodTokens (u : Ir.Method) : List Ir.Token := .mark .dot :: .name u.directive :: u.tokens

/-- The lines are those that the body of a method is lowered to. -/
def LinesOf (table : SymbolTable) (m : Source.Method) (lines : List Line) : Prop :=
  ∃ n c', (lowerBody table m).run ⟨n, m.name, 0, 0⟩ = ⟨.ok (), c', lines⟩

/-- The method is what the other one is lowered to. -/
def LoweredTo (table : SymbolTable) (m : Source.Method) (u : Ir.Method) : Prop :=
  ∃ lines, LinesOf table m lines ∧ u = methodOf (headOf table m) lines

/-- A method that can be written, whose instructions have known forms once they are read back. -/
structure MethodSound (u : Ir.Method) : Prop where
  printable : u.Printable
  formed : ∀ l ∈ u.body, l.instruction.readBack.Formed

theorem methodOf_sound {head : Ir.Method} {lines : List Line}
    (hn : isWord head.name.toList = true) (hp : ∀ e ∈ head.params, e.Printable)
    (hr : head.returnType.Printable)
    (hc : head.isConstructor = true →
      head.access = .publicAccess ∧ head.isStatic = false ∧ head.isFinal = false)
    (sound : ∀ l ∈ lines, l.Sound) : MethodSound (methodOf head lines) := by
  obtain ⟨before, after⟩ := bodyOf_words (List.forall_mem_nil _) sound
  have each := @bodyOf_sound lines [] sound
  exact
    { printable :=
        { name := hn
          params := hp
          returnType := hr
          body := fun l hl => ⟨before l hl, (each l hl).1⟩
          trailing := after
          constructor := hc }
      formed := fun l hl => (each l hl).2 }

theorem methodOf_spells {head : Ir.Method} {lines : List Line} {n k : Nat}
    (hn : isWord head.name.toList = true) (hp : ∀ e ∈ head.params, e.Printable)
    (hr : head.returnType.Printable) (sound : ∀ l ∈ lines, l.Sound) :
    Spells (Line.renderAll (.text n head.headText :: (lines ++ [.text k "\x7d"])))
      (methodTokens (methodOf head lines)) := by
  have whole := block_spells (n := n) (k := k) (Method.head_spells hn hp hr) (lines_spell sound)
  have same := @bodyOf_tokens lines []
  rw [methodTokens, ← Method.headTokens_append]
  rw [methodOf, same]
  exact whole

theorem printable_params (ht : table.Written) (name : String) :
    ∀ e ∈ ((table.parameters? name).getD []).map (·.lowered), e.Printable := by
  intro e he
  obtain ⟨p, hp, rfl⟩ := List.mem_map.1 he
  cases hm : table.method? name with
  | none =>
      rw [SymbolTable.parameters?, hm] at hp
      cases hp
  | some signature =>
      rw [SymbolTable.parameters?, hm] at hp
      obtain ⟨hname, htype⟩ := ht.params signature (List.mem_of_find?_eq_some hm) p hp
      exact printable_var hname.1 hname.ne_this htype.lowered

theorem printable_result {m : Source.Method} (hm : m.Named) :
    (headOf table m).returnType.Printable := by
  show Ir.ElementType.Printable (if m.isMain then .void else m.returnType.lowered)
  split
  · trivial
  · exact hm.returnType.written.lowered

section Method

variable {m : Source.Method} {u : Ir.Method} {lines : List Line}

theorem LinesOf.emitted (ht : table.Written) (hm : m.Named) (hi : Stmt.IndexableAll m.body)
    (h : LinesOf table m lines) :
    (∀ l ∈ lines, l.Sound) ∧
      lines.flatMap Line.uses = Stmt.usesIn (.ofMethod table m) m.body := by
  obtain ⟨n, c', run⟩ := h
  obtain ⟨-, -, sound, uses⟩ := lowerBody_emits ht hm.body hi ⟨n, m.name, 0, 0⟩ rfl () c' lines run
  rw [settled, List.append_nil] at uses
  exact ⟨sound, uses⟩

theorem LoweredTo.sound (ht : table.Written) (hm : m.Named) (hi : Stmt.IndexableAll m.body)
    (h : LoweredTo table m u) : MethodSound u := by
  obtain ⟨lines, run, rfl⟩ := h
  exact methodOf_sound hm.name.1 (printable_params ht m.name) (printable_result hm)
    (fun h => nomatch h) (run.emitted ht hm hi).1

theorem LoweredTo.uses (ht : table.Written) (hm : m.Named) (hi : Stmt.IndexableAll m.body)
    (h : LoweredTo table m u) :
    u.readBack.uses = Stmt.usesIn (.ofMethod table m) m.body := by
  obtain ⟨lines, run, rfl⟩ := h
  rw [← (run.emitted ht hm hi).2, ← bodyOf_uses []]
  exact List.flatMap_map ..

theorem lowerMethod_spells {a : Unit} (ht : table.Written) (hm : m.Named)
    (hi : Stmt.IndexableAll m.body) (h : (lowerMethod table m).run c = ⟨.ok a, c', w⟩) :
    ∃ u, LoweredTo table m u ∧ Spells (Line.renderAll w) (methodTokens u) := by
  obtain ⟨_, c₁, w₁, w₂, hbegin, hblock, rfl⟩ := Emission.run_bind_ok_iff.1 h
  cases hbegin
  obtain ⟨c₂, lines, n, k, run, rfl⟩ := emitBlock_run hblock
  have linesOf : LinesOf table m lines := ⟨_, _, run⟩
  exact ⟨_, ⟨lines, linesOf, rfl⟩, methodOf_spells hm.name.1 (printable_params ht m.name)
    (printable_result hm) (linesOf.emitted ht hm hi).1⟩

end Method

def constructorOf (table : SymbolTable) : Ir.Method :=
  methodOf (constructorHead table) [.code 0 superCall]

theorem superCall_sound (n : Nat) : Line.Sound (.code n superCall) := by
  have sound : CallSound ⟨.invokeSpecial, some thisOperand, some "<init>", [], .void⟩ :=
    invocation_sound rfl rfl (fun _ => trivial) (fun h => nomatch h) rfl (List.forall_mem_nil _)
      trivial
  exact ⟨sound.printable, sound.formed⟩

theorem constructorOf_sound (ht : table.Written) : MethodSound (constructorOf table) :=
  methodOf_sound ht.className.1 (List.forall_mem_nil _) trivial (fun _ => ⟨rfl, rfl, rfl⟩)
    (List.forall_mem_singleton.2 (superCall_sound 0))

theorem constructor_spells {a : Unit} (ht : table.Written)
    (h : (emitBlock (constructorHead table).headText (emit superCall)).run c = ⟨.ok a, c', w⟩) :
    Spells (Line.renderAll w) (methodTokens (constructorOf table)) := by
  obtain ⟨c₂, lines, n, k, run, rfl⟩ := emitBlock_run h
  rw [emit_run] at run
  cases run
  exact methodOf_spells ht.className.1 (List.forall_mem_nil _) trivial
    (List.forall_mem_singleton.2 (superCall_sound _))

theorem renderAll_emptyLine (n : Nat) (lines : List Line) :
    Line.renderAll (.text n "" :: lines) = "\n" ++ Line.renderAll lines := by
  rw [renderAll_cons]
  rfl

theorem spells_afterEmptyLine {n : Nat} {lines : List Line} {ts : List Ir.Token}
    (h : Spells (Line.renderAll lines) ts) : Spells (Line.renderAll (.text n "" :: lines)) ts := by
  rw [renderAll_emptyLine]
  exact spells_lineBreak.append h

theorem lowerMethods_spell (ht : table.Written) {methods : List Source.Method} :
    ∀ {c c' : Cursor} {w : List Line} {a : Unit}, (∀ m ∈ methods, m.Named) →
      (∀ m ∈ methods, Stmt.IndexableAll m.body) →
      (lowerMethods table methods).run c = ⟨.ok a, c', w⟩ →
      ∃ us, List.Forall₂ (LoweredTo table) methods us ∧
        Spells (Line.renderAll w) (us.flatMap methodTokens) := by
  induction methods with
  | nil =>
      intro c c' w a _ _ h
      cases h
      exact ⟨[], .nil, Spells.nil⟩
  | cons m methods ih =>
      intro c c' w a hn hi h
      obtain ⟨_, c₁, w₁, w₂, hempty, hrest, rfl⟩ := Emission.run_bind_ok_iff.1 h
      cases hempty
      obtain ⟨_, c₂, w₃, w₄, hfirst, hmore, rfl⟩ := Emission.run_bind_ok_iff.1 hrest
      obtain ⟨u, lowered, first⟩ :=
        lowerMethod_spells ht (hn m List.mem_cons_self) (hi m List.mem_cons_self) hfirst
      obtain ⟨us, lowereds, more⟩ := ih (fun m' hm => hn m' (List.mem_cons_of_mem m hm))
        (fun m' hm => hi m' (List.mem_cons_of_mem m hm)) hmore
      have whole := first.append more
      rw [← renderAll_append] at whole
      exact ⟨u :: us, .cons lowered lowereds, spells_afterEmptyLine whole⟩

/-! ## Classes -/

theorem texts_spell {α : Type} {xs : List α} {f : α → String} {g : α → List Ir.Token} (n : Nat)
    (h : ∀ x ∈ xs, Spells (f x) (g x)) :
    Spells (Line.renderAll ((xs.map f).map (.text n))) (xs.flatMap g) := by
  rw [Line.renderAll, List.map_map, List.map_map]
  exact join_spells fun x hx => text_spells (h x hx)

/-- The unit with the methods that the methods of a class are lowered to. -/
def unitOf (table : SymbolTable) (us : List Ir.Method) : ClassUnit :=
  { classHead table with methods := constructorOf table :: us }

/-- The members of the class: its fields, its constructor and its methods. -/
theorem lowerMembers_spell (ht : table.Written) {methods : List Source.Method} {a : Unit}
    (hn : ∀ m ∈ methods, m.Named) (hi : ∀ m ∈ methods, Stmt.IndexableAll m.body)
    (h : (lowerMembers table methods).run c = ⟨.ok a, c', w⟩) :
    ∃ us, List.Forall₂ (LoweredTo table) methods us ∧ Spells (Line.renderAll w)
      ((table.fields.map fieldOf).flatMap (fun f => .mark .dot :: .name "field" :: f.tokens) ++
        (constructorOf table :: us).flatMap methodTokens) := by
  obtain ⟨_, c₁, w₁, w₂, hfields, hrest, rfl⟩ := Emission.run_bind_ok_iff.1 h
  rw [emitTexts_run] at hfields
  cases hfields
  obtain ⟨_, c₂, w₃, w₄, hempty, hrest', rfl⟩ := Emission.run_bind_ok_iff.1 hrest
  cases hempty
  obtain ⟨_, c₃, w₅, w₆, hconstructor, hmethods, rfl⟩ := Emission.run_bind_ok_iff.1 hrest'
  have created := constructor_spells ht hconstructor
  obtain ⟨us, lowereds, more⟩ := lowerMethods_spell ht hn hi hmethods
  refine ⟨us, lowereds, ?_⟩
  have fields : ∀ s ∈ table.fields, Spells (fieldOf s).text
      (.mark .dot :: .name "field" :: (fieldOf s).tokens) :=
    fun s hs => field_spells (ht.fields s hs).1.1 (ht.fields s hs).2.lowered
  have whole := (texts_spell c.indent fields).append
    (spells_afterEmptyLine (n := c.indent) (renderAll_append w₅ w₆ ▸ created.append more))
  rw [← renderAll_append] at whole
  rw [List.flatMap_map, List.flatMap_cons]
  exact whole

/-! ## Programs -/

theorem written_ofProgram {p : Program} (hp : p.Named) : (SymbolTable.ofProgram p).Written where
  className := hp.className
  fields := by
    intro f hf
    obtain ⟨d, hd, rfl⟩ := List.mem_map.1 hf
    exact ⟨(hp.fields d hd).1, (hp.fields d hd).2.written⟩
  returns := by
    intro signature hs
    obtain ⟨m, hm, rfl⟩ := List.mem_map.1 hs
    show Ty.Written (if m.isMain then .staticVoid else m.returnType)
    split
    · exact .inl rfl
    · exact (hp.methods m hm).returnType.written
  params := by
    intro signature hs param hparam
    obtain ⟨m, hm, rfl⟩ := List.mem_map.1 hs
    obtain ⟨d, hd, rfl⟩ := List.mem_map.1 hparam
    exact ⟨((hp.methods m hm).params d hd).1, ((hp.methods m hm).params d hd).2.written⟩
  locals := by
    intro signature hs l hl
    obtain ⟨m, hm, rfl⟩ := List.mem_map.1 hs
    obtain ⟨d, hd, rfl⟩ := List.mem_map.1 hl
    exact ((hp.methods m hm).locals d hd).2.written

theorem unitOf_printable {p : Program} {us : List Ir.Method} (hp : p.Named)
    (hus : ∀ u ∈ us, u.Printable) :
    (unitOf (.ofProgram p) us).Printable (p.imports.map (·.path)) := by
  have ht := written_ofProgram hp
  exact
    { imports := by
        show p.imports.map (·.dotted) = _
        rw [List.map_map]
        rfl
      parts := by
        intro path hpath
        obtain ⟨i, hi, rfl⟩ := List.mem_map.1 hpath
        exact ⟨(hp.imports i hi).1, fun part hpart => ((hp.imports i hi).2 part hpart).1⟩
      name := hp.className.1
      notImport := fun h => nomatch h
      superClass := fun parent hparent => (hp.superClass parent hparent).1
      fields := by
        intro f hf
        obtain ⟨s, hs, rfl⟩ := List.mem_map.1 hf
        exact ⟨(ht.fields s hs).1.1, (ht.fields s hs).2.lowered⟩
      methods := List.forall_mem_cons.2 ⟨(constructorOf_sound ht).printable, hus⟩ }

theorem class_spells {p : Program} {a : Unit} (hp : p.Named)
    (hi : ∀ m ∈ p.methods, Stmt.IndexableAll m.body)
    (h : (emitBlock (classHead (.ofProgram p)).headText
      (lowerMembers (.ofProgram p) p.methods)).run c = ⟨.ok a, c', w⟩) :
    ∃ us, List.Forall₂ (LoweredTo (.ofProgram p)) p.methods us ∧
      Spells (Line.renderAll w) ((unitOf (.ofProgram p) us).headTokens ++
        memberTokens (unitOf (.ofProgram p) us).fields (unitOf (.ofProgram p) us).methods) := by
  obtain ⟨c₂, lines, n, k, hlines, rfl⟩ := emitBlock_run h
  obtain ⟨us, lowereds, members⟩ := lowerMembers_spell (written_ofProgram hp) hp.methods hi hlines
  have head : Spells (classHead (.ofProgram p)).headText (classHead (.ofProgram p)).headTokens :=
    ClassUnit.head_spells hp.className.1 fun parent hparent => (hp.superClass parent hparent).1
  have whole := block_spells (n := n) (k := k) head members
  rw [List.append_assoc] at whole
  exact ⟨us, lowereds, whole⟩

theorem afterImports_run {p : Program} {a : Unit}
    (h : (if (SymbolTable.ofProgram p).imports.isEmpty then
        (pure () : Lowering Unit) >>= fun _ => emitBlock (classHead (.ofProgram p)).headText
          (lowerMembers (.ofProgram p) p.methods)
      else emitText "" >>= fun _ => emitBlock (classHead (.ofProgram p)).headText
          (lowerMembers (.ofProgram p) p.methods)).run c = ⟨.ok a, c', w⟩) :
    ∃ c₁ before lines, Spells (Line.renderAll before) [] ∧ w = before ++ lines ∧
      (emitBlock (classHead (.ofProgram p)).headText
        (lowerMembers (.ofProgram p) p.methods)).run c₁ = ⟨.ok a, c', lines⟩ := by
  split at h
  · obtain ⟨_, c₁, w₁, w₂, hnone, hclass, rfl⟩ := Emission.run_bind_ok_iff.1 h
    cases hnone
    exact ⟨c, [], w₂, Spells.nil, rfl, hclass⟩
  · obtain ⟨_, c₁, w₁, w₂, hempty, hclass, rfl⟩ := Emission.run_bind_ok_iff.1 h
    cases hempty
    refine ⟨c, [.text c.indent ""], w₂, ?_, rfl, hclass⟩
    rw [renderAll_emptyLine]
    exact spells_lineBreak.append Spells.nil

theorem lowerProgram_spells {p : Program} {a : Unit} (hp : p.Named)
    (hi : ∀ m ∈ p.methods, Stmt.IndexableAll m.body)
    (h : (lowerProgram (.ofProgram p) p).run c = ⟨.ok a, c', w⟩) :
    ∃ us, List.Forall₂ (LoweredTo (.ofProgram p)) p.methods us ∧
      Spells (Line.renderAll w) ((unitOf (.ofProgram p) us).tokens (p.imports.map (·.path))) := by
  obtain ⟨_, c₁, w₁, w₂, himports, hrest, rfl⟩ := Emission.run_bind_ok_iff.1 h
  rw [emitTexts_run] at himports
  cases himports
  obtain ⟨c₂, before, lines, blank, rfl, hclass⟩ := afterImports_run hrest
  obtain ⟨us, lowereds, spelled⟩ := class_spells hp hi hclass
  refine ⟨us, lowereds, ?_⟩
  have imports : ∀ i ∈ p.imports, Spells (importText i.dotted) (importTokens i.path) :=
    fun i hi => import_spells (hp.imports i hi).1 fun part hpart => ((hp.imports i hi).2 part hpart).1
  have whole := (texts_spell c.indent imports).append (blank.append spelled)
  rw [← renderAll_append, ← renderAll_append] at whole
  have texts : (SymbolTable.ofProgram p).imports.map importText =
      p.imports.map fun i => importText i.dotted := by
    show (p.imports.map (·.dotted)).map importText = _
    rw [List.map_map]
    rfl
  rw [texts, ClassUnit.tokens, List.flatMap_map]
  simpa only [ClassUnit.headTokens, List.append_assoc, List.cons_append, List.nil_append] using whole

theorem irText_spells {p : Program} {ir : String} (hp : p.Named)
    (hi : ∀ m ∈ p.methods, Stmt.IndexableAll m.body) (h : irText (.ofProgram p) p = .ok ir) :
    ∃ us, List.Forall₂ (LoweredTo (.ofProgram p)) p.methods us ∧
      Spells ir ((unitOf (.ofProgram p) us).tokens (p.imports.map (·.path))) := by
  unfold irText at h
  rcases hr : (lowerProgram (.ofProgram p) p).run .start with ⟨outcome, c', w⟩
  rw [hr] at h
  cases outcome with
  | error e => cases h
  | ok a =>
      cases h
      exact lowerProgram_spells hp hi hr

end JavaMinus.Lowering
