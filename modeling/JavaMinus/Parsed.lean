/-
# Results of reading a part of an input

A reader that recognises a part of its input answers with the value read and the input that is left.
The two languages of the compiler are read the same way, so the notion is stated once, for any kind
of input that has a size.

`Parsed size n α` says in its type that fewer than `n` units are left.  A reader of `i` answers
`Parsed size (size i) α`, so whoever goes on with the rest goes on with less, which is what ends the
loops over members, statements, operators and arguments.
-/
namespace JavaMinus

/-- A value read, with fewer than `n` units of input left. -/
structure Parsed {ι : Type} (size : ι → Nat) (n : Nat) (α : Type) where
  value : α
  rest : ι
  shorter : size rest < n

namespace Parsed

variable {ι α β : Type} {size : ι → Nat} {m n : Nat}

/-- The same result, held against a larger bound. -/
def within (p : Parsed size m α) (h : m ≤ n) : Parsed size n α :=
  ⟨p.value, p.rest, Nat.lt_of_lt_of_le p.shorter h⟩

/-- The same rest with another value. -/
def map (f : α → β) (p : Parsed size n α) : Parsed size n β :=
  ⟨f p.value, p.rest, p.shorter⟩

end Parsed

end JavaMinus
