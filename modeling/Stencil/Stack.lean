/-!
# The stack

Productions, builders and evaluations call each other as deep as a template nests, on a stack that
has room for so many calls only. Functions that nest take the number of calls that may still be
open inside each other. Calls that come back without nesting any further, such as those of the
lexer or of a constructor, are not counted, nor are those of host code. A stack that runs out while
blocks are rendered is a failure without a place.
-/

namespace Stencil

/-- The calls from the scan of a source down to a constant in the head of a loop. -/
def leastCalls : Nat := 18

/-- The room for calls inside each other, enough for a template in which nothing nests. -/
structure Stack where
  calls : Nat
  enough : leastCalls ≤ calls

namespace Stack

def least : Stack := ⟨leastCalls, Nat.le_refl _⟩

theorem calls_eq (stack : Stack) : ∃ n, stack.calls = n + leastCalls :=
  ⟨_, (Nat.sub_add_cancel stack.enough).symm⟩

end Stack

end Stencil
