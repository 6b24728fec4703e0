/-
# The depth of the stack at every line

Every line of a method has one depth, whichever way the machine comes to it.  The instructions of a
method start and end at depth zero, so this is where its own labels stand, and the limit that is
announced is the greatest depth before an opcode.
-/
import JavaMinus.Proofs.Assembly.Counting

namespace JavaMinus

namespace Ir

/-- The labels of a method: those before and after its instructions and those that are jumped to. -/
def Method.labels (m : Method) : List String :=
  m.body.flatMap (fun l => l.labels ++ l.instruction.targets) ++ m.trailing

/-- An instruction that leaves its value on the stack where nothing takes it. -/
def Instruction.isBare : Instruction → Bool
  | .single _ | .binary .. | .unary .. | .getField .. => true
  | .call c => (c.kind == .loadConstant || c.kind == .arrayLength) && c.returnType == .void
  | _ => false

theorem Instruction.leaves_of_not_bare {i : Instruction} (h : i.isBare = false) :
    i.leaves false = 0 := by
  cases i with
  | single | binary | unary | getField => cases h
  | assign | putField | goto | branch | «return» | returnVoid => rfl
  | call c =>
      obtain ⟨kind, target, method, args, type⟩ := c
      by_cases ht : type = .void <;> cases kind <;>
        simp_all [isBare, leaves, Call.leaves, Call.made, Call.results]

end Ir

namespace Assembly

open Ir Assembling

variable {R : String → Nat → Prop} {f : Frame}

/-! ## Bodies -/

theorem emitLabels_run (names : List String) (t : Tracker) :
    (emitLabels names).run t = ⟨.ok (), t, names.map .label⟩ := by
  induction names with
  | nil => rfl
  | cons name names ih =>
      have first : (emitLabel name).run t = ⟨.ok (), t, [.label name]⟩ := rfl
      rw [emitLabels, Emission.run_bind_ok first, ih]
      rfl

theorem labels_counted {names : List String} {s : StackDepth} (h : ∀ name ∈ names, R name s.depth)
    (proper : s.depth ≤ s.max) :
    Counted R s (names.map fun name => (s.depth, .label name)) s := by
  induction names with
  | nil => exact .done proper
  | cons name names ih =>
      obtain ⟨first, more⟩ := List.forall_mem_cons.1 h
      obtain ⟨leads, deepest, marked⟩ := ih more
      refine ⟨.line (Nat.zero_le _) (fun _ => rfl) leads, deepest, ?_⟩
      exact List.forall_mem_cons.2 ⟨first, marked⟩

/-- The lines of the instruction `l` stand after those of the instructions `before` and after its
own labels, and the first of them is at depth zero. -/
def StandsAt (f : Frame) (t : Tracker) (before : List Labeled) (l : Labeled)
    (ws : List (Nat × CodeLine)) : Prop :=
  ∃ front own rest t', ws = front ++ ((l.labels.map fun name => (0, .label name)) ++ (own ++ rest)) ∧
    front.map Prod.snd = ((lowerBody f before).run t).written ∧
    own.map Prod.snd = ((lower f false l.instruction).run t').written ∧
    own.head?.map Prod.fst = some 0

/-- An instruction that is not bare, with labels of the method's own. -/
def Settled (l : Labeled) : Prop :=
  (∀ label ∈ l.labels ++ l.instruction.targets, ¬ IsOwn label) ∧ l.instruction.isBare = false

theorem lowerBody_counted {ls : List Labeled} (hs : ∀ l ∈ ls, Settled l) :
    ∀ {t t' : Tracker} {w : List CodeLine}, t.stack.depth = 0 →
      (lowerBody f ls).run t = ⟨.ok (), t', w⟩ →
      t'.stack.depth = 0 ∧ t.labels ≤ t'.labels ∧ ∃ R ws, Ranged (· = 0) t.labels t'.labels R ∧
        w = ws.map Prod.snd ∧ Counted R t.stack ws t'.stack ∧
        ∀ before l after, ls = before ++ l :: after → StandsAt f t before l ws := by
  induction ls with
  | nil =>
      intro t t' w ht run
      cases run
      refine ⟨ht, Nat.le_refl _, Outside (· = 0), [], ?_, rfl, .done (by omega), ?_⟩
      · exact ⟨fun _ _ hr => .inr hr, fun _ _ _ hr _ own => absurd own hr.1⟩
      · intro before l after h
        cases before <;> cases h
  | cons l ls ih =>
      intro t t₂ w ht run
      obtain ⟨⟨free, settled⟩, more⟩ := List.forall_mem_cons.1 hs
      have proper : ∀ s : StackDepth, s.depth = 0 → s.depth ≤ s.max := fun s h => by omega
      obtain ⟨_, t₀, w₁, _, labeled, run', rfl⟩ := Emission.run_bind_ok_iff.1 run
      obtain ⟨-, rfl, rfl⟩ := Emitted.mk.inj ((emitLabels_run l.labels t).symm.trans labeled)
      obtain ⟨_, t₁, w₂, w₃, lowered, rest, rfl⟩ := Emission.run_bind_ok_iff.1 run'
      obtain ⟨labels, R, own, ranged, rfl, counted, below⟩ :=
        lower_steps (fun label h => free label (List.mem_append_right _ h)) t () t₁ w₂ ht
          (proper _ ht) lowered
      rw [Instruction.leaves_of_not_bare settled] at below
      obtain ⟨h₀, labels', R', ws, ranged', rfl, counted', stands⟩ :=
        ih more (Nat.le_zero.1 below) rest
      have marked : Counted (Outside (· = 0)) t.stack
          (l.labels.map fun name => (t.stack.depth, .label name)) t.stack :=
        labels_counted (fun name h => ⟨free name (List.mem_append_left _ h), ht⟩) (proper _ ht)
      rw [ht] at marked
      have first : Counted _ t.stack ((l.labels.map fun name => (0, .label name)) ++ own) t₁.stack :=
        (marked.mono fun name d h => Or.inr h).append (counted.mono fun name d h => Or.inl h)
      refine ⟨h₀, Nat.le_trans labels labels', _,
        (l.labels.map fun name => (0, .label name)) ++ (own ++ ws),
        ranged.outside.append ranged' labels labels', ?_, ?_, ?_⟩
      · rw [List.map_append, List.map_append, List.map_map]
        rfl
      · rw [← List.append_assoc]
        exact (first.mono fun name d h => Or.inl h).append (counted'.mono fun name d h => Or.inr h)
      · intro before l' after h
        cases before with
        | nil =>
            obtain ⟨rfl, rfl⟩ := List.cons.inj h
            refine ⟨[], own, ws, t, rfl, rfl, ?_, ?_⟩
            · rw [lowered]
            · have some := lower_writes l.instruction false t () t₁ _ lowered
              have leads := counted.leads
              rw [ht] at leads
              exact leads.head fun none => some (congrArg (List.map Prod.snd) none)
        | cons b before =>
            obtain ⟨rfl, hls⟩ := List.cons.inj h
            obtain ⟨front, own', rest', t', rfl, hfront, hown, hhead⟩ := stands before l' after hls
            refine ⟨(l.labels.map fun name => (0, .label name)) ++ (own ++ front), own', rest', t',
              ?_, ?_, hown, hhead⟩
            · simp only [List.append_assoc]
            · rw [lowerBody, Emission.run_bind_ok (emitLabels_run l.labels t),
                Emission.run_bind_ok lowered, ← hfront, List.map_append, List.map_append,
                List.map_map]
              rfl

/-! ## Methods -/

/-- A method's lines with the depths before them: each line finds what it pops, the depths agree
wherever the machine goes on, they are zero at the labels of the method and before each of its
instructions, and the greatest depth before an opcode is the limit. -/
structure Measures (f : Frame) (m : Method) (ws : List (Nat × CodeLine)) (limit : Nat) : Prop where
  start : ws.head?.map Prod.fst = some 0
  enough : ∀ d line, (d, line) ∈ ws → line.pops ≤ d
  agree : ∀ i j d d' line line', Follows (ws.map Prod.snd) i j → ws[i]? = some (d, line) →
    ws[j]? = some (d', line') → d' = line.depthAfter d
  label : ∀ d name, (d, .label name) ∈ ws → name ∈ m.labels → d = 0
  instruction : ∀ before l after, m.body = before ++ l :: after → StandsAt f .start before l ws
  attained : ∃ op, (limit, .op op) ∈ ws
  bounded : ∀ d op, (d, .op op) ∈ ws → d ≤ limit

theorem settled_of_method {m : Method} (hl : ∀ name ∈ m.labels, ¬ IsOwn name)
    (hb : ∀ l ∈ m.body, l.instruction.isBare = false) : ∀ l ∈ m.body, Settled l :=
  fun l h => ⟨fun name hn => hl name (List.mem_append_left _ (List.mem_flatMap.2 ⟨l, h, hn⟩)), hb l h⟩

theorem Ranged.agree {low high : Nat} {ws : List (Nat × CodeLine)} {s s' : StackDepth}
    (ranged : Ranged (· = 0) low high R) (counted : Counted R s ws s') {name : String} {d d' : Nat}
    (h : (name, d) ∈ marks ws) (h' : (name, d') ∈ marks ws) : d' = d := by
  have first := counted.marked _ h
  have second := counted.marked _ h'
  by_cases own : IsOwn name
  · exact ranged.unique name d' d second first own
  · have zero : ∀ d, R name d → d = 0 := fun d hr =>
      ((ranged.placed name d hr).resolve_left fun ⟨n, _, _, hn⟩ => own ⟨n, hn⟩).2
    rw [zero d first, zero d' second]

theorem measures_of_counted {m : Method} {low high : Nat} {ws : List (Nat × CodeLine)}
    {limit : Nat} (ranged : Ranged (· = 0) low high R) (counted : Counted R .empty ws ⟨0, limit⟩)
    (hl : ∀ name ∈ m.labels, ¬ IsOwn name) {d : Nat} {op : Opcode} (some : (d, .op op) ∈ ws)
    (stands : ∀ before l after, m.body = before ++ l :: after → StandsAt f .start before l ws) :
    Measures f m ws limit := by
  have peaks : limit = peak ws := by
    have deepest : limit = max 0 (max (peak ws) 0) := counted.deepest
    omega
  subst peaks
  refine
    { start := counted.leads.head fun none => ?_
      enough := fun d line h => ?_
      agree := fun i j d d' line line' follows hi hj => ?_
      label := fun d name h hn => ?_
      instruction := stands
      attained := peak_mem some
      bounded := fun d op h => le_peak h }
  · rw [none] at some
    cases some
  · obtain ⟨i, hi⟩ := List.mem_iff_getElem?.1 h
    exact (counted.leads.at hi).1
  · cases follows with
    | next there through =>
        rw [List.getElem?_map, hi] at there
        obtain rfl := Option.some.inj there
        exact (counted.leads.at hi).2 through d' line' hj
    | jump there target place =>
        rw [List.getElem?_map, hi] at there
        rw [List.getElem?_map, hj] at place
        obtain rfl := Option.some.inj there
        obtain rfl : line' = _ := Option.some.inj place
        exact ranged.agree counted (mem_marks_of_target (List.mem_of_getElem? hi) target)
          (mem_marks_of_label (List.mem_of_getElem? hj))
  · have placed := ranged.placed name d (counted.marked _ (mem_marks_of_label h))
    exact (placed.resolve_left fun ⟨n, _, _, own⟩ => hl name hn ⟨n, own⟩).2

theorem StandsAt.append {t : Tracker} {before : List Labeled} {l : Labeled}
    {ws ws' : List (Nat × CodeLine)} (h : StandsAt f t before l ws) :
    StandsAt f t before l (ws ++ ws') := by
  obtain ⟨front, own, rest, t', rfl, hfront, hown, head⟩ := h
  exact ⟨front, own, rest ++ ws', t', by simp only [List.append_assoc], hfront, hown, head⟩

theorem op_of_not_needsReturn {m : Method} {code : List CodeLine}
    (h : ¬ needsReturn m code = true) : ∃ op, .op op ∈ code := by
  rw [needsReturn, Bool.or_eq_true, not_or, Bool.not_eq_true', Bool.not_eq_false] at h
  obtain ⟨line, hline, returns⟩ := List.any_eq_true.1 h.1
  cases line with
  | op op => exact ⟨op, hline⟩
  | label name => cases returns

/-- Every line of a listed method has one depth, and the limit is the greatest one. -/
theorem exists_measures {names : ClassNames} {m : Method} {listing : MethodListing}
    (h : MethodListing.ofMethod names m = .ok listing) (hl : ∀ name ∈ m.labels, ¬ IsOwn name)
    (hb : ∀ l ∈ m.body, l.instruction.isBare = false) :
    ∃ ws : List (Nat × CodeLine), listing.code = ws.map Prod.snd ∧
      Measures ⟨names, .ofMethod m⟩ m ws listing.stackLimit := by
  rcases hr : (lowerMethod ⟨names, .ofMethod m⟩ m).run .start with ⟨outcome, t, w⟩
  cases outcome with
  | error e =>
      rw [MethodListing.ofMethod, hr] at h
      cases h
  | ok =>
      rw [MethodListing.ofMethod, hr] at h
      obtain rfl := Except.ok.inj h
      obtain ⟨_, t₁, _, _, lowered, labeled, rfl⟩ := Emission.run_bind_ok_iff.1 hr
      obtain ⟨-, rfl, rfl⟩ := Emitted.mk.inj ((emitLabels_run m.trailing t₁).symm.trans labeled)
      obtain ⟨zero, -, R, ws, ranged, rfl, counted, stands⟩ :=
        lowerBody_counted (settled_of_method hl hb) rfl lowered
      have proper : t₁.stack.depth ≤ t₁.stack.max := by omega
      have named : Counted (Outside (· = 0)) t₁.stack
          (m.trailing.map fun name => (0, .label name)) t₁.stack := by
        have marked := labels_counted (R := Outside (· = 0))
          (fun name h => ⟨hl name (List.mem_append_right _ h), zero⟩) proper
        rwa [zero] at marked
      have whole : ∀ {ending : List (Nat × CodeLine)} {d : Nat} {op : Opcode},
          Counted (Outside (· = 0)) t₁.stack ending t₁.stack →
          (d, .op op) ∈ ws ++ ((m.trailing.map fun name => (0, .label name)) ++ ending) →
          Measures ⟨names, .ofMethod m⟩ m
            (ws ++ ((m.trailing.map fun name => (0, .label name)) ++ ending)) t₁.stack.max := by
        intro ending d op ended some
        have joined := (counted.mono fun name d h => Or.inl h).append
          ((named.append ended).mono fun name d h => Or.inr h)
        have final : t₁.stack = ⟨0, t₁.stack.max⟩ := by rw [← zero]
        rw [final] at joined
        exact measures_of_counted ranged.outside joined hl some
          fun before l after h => (stands before l after h).append
      by_cases hn : needsReturn m (ws.map Prod.snd ++ m.trailing.map .label) = true
      · have ended : Counted (Outside (· = 0)) t₁.stack [(0, .op .returnVoid)] t₁.stack := by
          refine ⟨?_, ?_, fun _ h => nomatch h⟩
          · rw [zero]
            exact .line (Nat.le_refl 0) Bool.noConfusion (.done 0)
          · simp only [peak]
            omega
        refine ⟨_, ?_, whole ended (List.mem_append_right _ (List.mem_append_right _
          List.mem_cons_self))⟩
        simp [hn, Function.comp_def]
      · obtain ⟨op, hop⟩ := op_of_not_needsReturn hn
        obtain ⟨d, hd⟩ : ∃ d, (d, .op op) ∈ ws := by simpa using hop
        refine ⟨_, ?_, whole (Counted.done proper) (List.mem_append_left _ hd)⟩
        simp [hn, Function.comp_def]

/-- Two numbers are compared in a loop, and the outcome is kept. -/
def comparing : Method where
  name := "f"
  access := .publicAccess
  isStatic := true
  isFinal := false
  isConstructor := false
  params := [.var "a" .int32, .var "b" .int32]
  returnType := .boolean
  body :=
    [⟨["Loop"], .assign (.var "c" .boolean) .boolean
        (.binary (.var "a" .int32) ⟨.lt, .boolean⟩ (.var "b" .int32))⟩,
      ⟨[], .assign (.var "a" .int32) .int32
        (.binary (.var "a" .int32) ⟨.add, .int32⟩ (.literal "1" .int32))⟩,
      ⟨[], .branch (.single (.var "c" .boolean)) "Loop"⟩, ⟨[], .return .boolean (.var "c" .boolean)⟩]
  trailing := []

theorem measures_of_comparing : ∃ listing ws,
    MethodListing.ofMethod ⟨"A", objectClass, []⟩ comparing = .ok listing ∧
      (∀ name ∈ comparing.labels, ¬ IsOwn name) ∧
      (∀ l ∈ comparing.body, l.instruction.isBare = false) ∧ listing.code = ws.map Prod.snd ∧
      Measures ⟨⟨"A", objectClass, []⟩, .ofMethod comparing⟩ comparing ws
        listing.stackLimit := by
  have free : ∀ name ∈ comparing.labels, ¬ IsOwn name := by
    intro name h
    obtain rfl : name = "Loop" := by simpa [comparing, Method.labels, Instruction.targets] using h
    exact not_isOwn (by decide)
  have settled : ∀ l ∈ comparing.body, l.instruction.isBare = false := by decide
  obtain ⟨listing, h⟩ : ∃ listing, MethodListing.ofMethod ⟨"A", objectClass, []⟩ comparing =
    .ok listing := ⟨_, rfl⟩
  obtain ⟨ws, code, measures⟩ := exists_measures h free settled
  exact ⟨listing, ws, h, free, settled, code, measures⟩

end Assembly

end JavaMinus
