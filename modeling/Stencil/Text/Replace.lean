/-!
# Replacing

Every occurrence of one sequence in another is replaced, from the left and without overlaps. The
same rule serves texts and bytes.
-/

namespace Stencil.Text

variable {α : Type} [BEq α]

/-- With an empty pattern: the replacement stands before every item and at the end. -/
def interleave (new : List α) : List α → List α
  | [] => new
  | x :: rest => new ++ x :: interleave new rest

/-- With a pattern `old` of one item or more; `skip` items are still covered by the occurrence
before. -/
def replaceFrom (old new : List α) : (skip : Nat) → List α → List α
  | _, [] => []
  | skip + 1, _ :: rest => replaceFrom old new skip rest
  | 0, x :: rest =>
    if old.isPrefixOf (x :: rest) then new ++ replaceFrom old new (old.length - 1) rest
    else x :: replaceFrom old new 0 rest

def replace (old new items : List α) : List α :=
  if old.isEmpty then interleave new items else replaceFrom old new 0 items

def occurs (old : List α) : List α → Bool
  | [] => old.isEmpty
  | x :: rest => old.isPrefixOf (x :: rest) || occurs old rest

def replaces (old new items : List α) : Bool :=
  if old.isEmpty then !new.isEmpty else occurs old items

end Stencil.Text
