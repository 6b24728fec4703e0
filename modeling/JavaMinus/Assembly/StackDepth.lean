/-
# The depth of the operand stack

The number of values on the operand stack at a point of a method, and the greatest number so far,
which is what the method has to announce.
-/
import JavaMinus.Error

namespace JavaMinus.Assembly

/-- The depth of the stack now and at its deepest. -/
structure StackDepth where
  depth : Nat
  max : Nat
deriving DecidableEq, Repr

namespace StackDepth

/-- Nothing has been pushed. -/
def empty : StackDepth := ⟨0, 0⟩

def push (s : StackDepth) (count : Nat) : StackDepth :=
  ⟨s.depth + count, Nat.max s.max (s.depth + count)⟩

/-- The depth after values are popped, which have to be there. -/
def pop (s : StackDepth) (count : Nat) : Except Error StackDepth :=
  if count ≤ s.depth then .ok ⟨s.depth - count, s.max⟩
  else .error (.internal (.stackUnderflow count s.depth))

end StackDepth

end JavaMinus.Assembly
