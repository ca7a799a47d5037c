import Stencil.Expr.Eval
import Stencil.Proofs.Expr.Limits

/-!
# Depth

How deep a tree nests, whatever its length: along a chain of left operands nothing is counted. The
calls that the parser needs for a tree grow with its depth alone.
-/

namespace Stencil

def BinaryOp.levels : BinaryOp → Nat
  | .member | .pipe | .call => 0
  | .subscript | .or | .and | .arithmetic _ | .comparison _ => 1

namespace Expr

mutual

/-- One level for each step into a right operand, the key of a subscript, an argument of a filter,
parentheses or the operand of a unary operator, and none for a step to the left. -/
def depth : Expr → Nat
  | literal .. | symbol .. | other .. => 0
  | unary _ _ operand => operand.depth + 1
  | binary _ op left right => max left.depth (right.depth + op.levels)
  | arguments _ items => depthOfAll items
  | group _ inner => inner.depth + 1

def depthOfAll : List Expr → Nat
  | [] => 0
  | e :: es => max (e.depth + 1) (depthOfAll es)

end

theorem depth_lt_depthOfAll {e : Expr} : ∀ {es : List Expr}, e ∈ es → e.depth < depthOfAll es
  | _ :: _, h => by
    rw [depthOfAll]
    rcases List.mem_cons.mp h with rfl | h
    · exact Nat.le_max_left _ _
    · exact Nat.lt_of_lt_of_le (depth_lt_depthOfAll h) (Nat.le_max_right _ _)

theorem depth_lt_of_callParts {call e : Expr} {name : Text} {items : List Expr}
    (h : callParts call = .ok (name, items)) (he : e ∈ items) : e.depth < call.depth := by
  unfold callParts at h
  split at h <;> cases h
  · cases he
  · have := depth_lt_depthOfAll he
    simp only [depth, BinaryOp.levels]
    omega

/-! ## The parser -/

mutual

/-- No step takes more of the stack than parentheses do. -/
theorem nesting_le_of_depth : ∀ {e : Expr}, e.WellLevelled → e.nesting ≤ 15 * e.depth + 16
  | literal .., _ | symbol .., _ => Nat.le_add_left 14 2
  | unary _ op e, h => by
    have := nesting_le_of_depth h.2
    rw [depth, nesting]
    cases op <;> simp only [unaryNesting] <;> omega
  | binary s op l r, h => by
    obtain ⟨-, hl, hr⟩ := h
    have hleft := nesting_le_of_depth hl
    rw [nesting_binary_le, depth]
    refine ⟨by omega, ?_⟩
    cases op with
    | pipe =>
      have := nesting_le_of_isFilter hr
      simp only [binaryNesting, BinaryOp.levels]
      omega
    | call => exact hr.elim
    | member =>
      cases r with
      | symbol => exact Nat.le_add_left_of_le (show 14 ≤ 16 by decide)
      | _ => cases hr
    | subscript =>
      have := nesting_le_of_depth hr
      simp only [binaryNesting, BinaryOp.levels]
      omega
    | or | and | arithmetic | comparison =>
      have := nesting_le_of_depth hr.2
      simp only [binaryNesting, BinaryOp.levels]
      omega
  | group _ e, h => by
    have := nesting_le_of_depth (e := e) h
    rw [depth, nesting]
    omega

theorem nesting_le_of_isFilter : ∀ {e : Expr}, e.IsFilter → e.nesting ≤ 15 * e.depth + 15
  | symbol .., _ => Nat.le_add_left 14 1
  | binary _ .call l (arguments _ es), h => by
    have hitems : mostNesting es ≤ 15 * depthOfAll es + 14 := mostNesting_le_of_depth h.2
    have hleft : l.nesting = 14 := by
      cases l with
      | symbol => rfl
      | _ => cases h.1
    rw [nesting_binary_le, depth, depth, BinaryOp.levels, nesting, hleft]
    exact ⟨Nat.le_add_left_of_le (by decide), by simp only [binaryNesting]; omega⟩

theorem mostNesting_le_of_depth : ∀ {es : List Expr}, AreArguments es →
    mostNesting es ≤ 15 * depthOfAll es + 14
  | [], _ => Nat.le_refl 14
  | e :: es, h => by
    have hfirst := nesting_le_of_depth h.2.1
    have hmore := mostNesting_le_of_depth h.2.2
    rw [mostNesting, depthOfAll, Nat.max_le]
    exact ⟨by omega, by omega⟩

end

end Expr

end Stencil
