/-
# Arguments in accepted programs

The checks look at the arguments of a call if it is made on the receiver or on something declared.
Then there is an argument for each parameter, and where the checks tell the type of an argument it is
that of the parameter.  Lowering tells the same type of an argument that is plain
(`loweredType_of_isPlain`): not of the receiver, which the checks pass over, nor of an operator in
parentheses, which they take for one of its operands, nor of an element of what is not a variable.
-/
import JavaMinus.Proofs.Lowering.Uses
import JavaMinus.Proofs.Parentheses.Types

namespace JavaMinus

open Source

namespace Source

/-- Whether the checks look at the arguments of a call on the target. -/
def Expr.isChecked (s : Scope) (target : Expr) : Bool := target.isThis || s.isDeclaredTarget target

/-- Whether the checks and lowering tell the same type of the expression, if the checks tell one. -/
def Expr.isPlain (s : Scope) : Expr → Bool
  | .this _ => false
  | .name _ text => (s.lookup text).isSome
  | .index _ array _ => s.isDeclaredTarget array
  | .paren _ inner => !inner.isBinary && inner.isPlain s
  | .int .. | .bool .. | .binary .. | .not .. | .length .. | .call .. | .newArray ..
  | .newObject .. => true

end Source

namespace Scope

variable {s : Scope}

theorem not_isThis_of_isPlain : ∀ e : Expr, e.isPlain s = true → e.isThis = false
  | .this _, h => nomatch h
  | .paren _ inner, h => not_isThis_of_isPlain inner (Bool.and_eq_true_iff.1 h).2
  | .int .., _ | .bool .., _ | .name .., _ | .binary .., _ | .not .., _ | .index .., _
  | .length .., _ | .call .., _ | .newArray .., _ | .newObject .., _ => rfl

/-- A variable has the type of its declaration for the checks and for lowering, parentheses aside. -/
structure IsVariable (s : Scope) (e : Expr) (t : Ty) : Prop where
  named : ∃ text, e.asName? = some text ∧ s.variableType? text = some t
  told : s.typeOf? e = some t
  single : e.isBinary = false
  lowered : ∀ expected, e.loweredType s expected = t

theorem exists_isVariable : ∀ e : Expr, s.isDeclaredTarget e = true → ∃ t, s.IsVariable e t
  | .name _ text, h => by
      obtain ⟨found, hfound⟩ := Option.isSome_iff_exists.1 h
      have declared : s.variableType? text = some found.symbol.type := by
        show (s.lookup text).map (·.symbol.type) = _
        rw [hfound]
        rfl
      refine ⟨found.symbol.type, ⟨text, rfl, declared⟩, declared, rfl, fun _ => ?_⟩
      rw [Expr.loweredType, declared]
      rfl
  | .paren tag inner, h => by
      obtain ⟨t, is⟩ := exists_isVariable inner h
      exact ⟨t, is.named, (typeOf?_paren is.single tag).trans is.told, rfl, is.lowered⟩
  | .int .., h | .bool .., h | .this _, h | .binary .., h | .not .., h | .index .., h
  | .length .., h | .call .., h | .newArray .., h | .newObject .., h => nomatch h

/-- A plain expression of which the checks tell no other type is lowered under the type that is
expected. -/
theorem loweredType_of_isPlain {t : Ty} : ∀ e : Expr, e.isPlain s = true →
    (∀ found, s.typeOf? e = some found → found = t) → e.loweredType s (some t) = t
  | .int .., _, h | .bool .., _, h | .binary .., _, h | .not .., _, h | .length .., _, h
  | .newArray .., _, h | .newObject .., _, h => h _ rfl
  | .this _, hp, _ => nomatch hp
  | .name tag text, hp, h => by
      obtain ⟨found, is⟩ := exists_isVariable (.name tag text) hp
      exact (is.lowered _).trans (h found is.told)
  | .index tag array i, hp, h => by
      obtain ⟨found, is⟩ := exists_isVariable array hp
      rw [Expr.loweredType, is.lowered]
      refine h _ ?_
      rw [typeOf?_index is.single, is.told]
      rfl
  | .paren tag inner, hp, h => by
      obtain ⟨single, hp⟩ := Bool.and_eq_true_iff.1 hp
      rw [typeOf?_paren (Bool.not_eq_true' _ ▸ single)] at h
      exact loweredType_of_isPlain inner hp h
  | .call _ target method args, _, h => by
      show Lowering.callType (Expr.called? s target method) (some t) = t
      rw [Expr.called?]
      generalize (if target.namesClass s then none else some (target.loweredType s none)) = receiver
      rw [Expr.signature?]
      split
      · cases hm : s.table.method? method with
        | none => rfl
        | some signature =>
            refine h _ ?_
            rw [typeOf?, SymbolTable.returnType?, hm]
            rfl
      · rfl

theorem arguments_of_checkExpr {tag : Tag} {target : Expr} {method : String} {args : List Expr}
    {pos : Position} {signature : Signature}
    (h : (s.checkExpr (.call tag target method args) pos).Passes)
    (hm : s.table.method? method = some signature) (hc : target.isChecked s = true) :
    args.length = signature.params.length ∧
      s.argumentMismatches method 0 args signature.params = [] := by
  rw [checkExpr_call, Checked.passes_seq_iff, Checked.passes_seq_iff, checkSignature, hm] at h
  have passes := h.2.2
  simp only [Expr.isChecked] at hc
  simp only [hc, if_true] at passes
  split at passes
  · exact absurd passes (Checked.not_passes_fail _ _)
  · rename_i same
    exact ⟨not_not.1 same, Checked.passes_haltOn_iff.1 passes⟩

end Scope

end JavaMinus
