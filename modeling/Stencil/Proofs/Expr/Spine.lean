import Stencil.Expr.Eval
import Stencil.Proofs.Except

/-!
# Left spines

Evaluation walks down the left operands of binary operators and then applies the operators from the
innermost one outward. What that comes to is said here by recursion on the tree.
-/

namespace Stencil.Expr

/-! ## Trees by their spines -/

/-- Down the left operands of binary operators, to a tree that is none. -/
theorem spine_induction {P : Expr → Prop}
    (binary : ∀ s op left right, P left → P (binary s op left right))
    (primary : ∀ e, (∀ s op left right, e ≠ .binary s op left right) → P e) : ∀ e, P e
  | .binary s op left right => binary s op left right (spine_induction binary primary left)
  | .literal .. | .symbol .. | .unary .. | .arguments .. | .group .. | .other .. =>
    primary _ nofun

theorem eq_binary_or (e : Expr) : (∃ s op left right, e = binary s op left right) ∨
    ∀ s op left right, e ≠ binary s op left right := by
  cases e with
  | binary s op left right => exact .inl ⟨s, op, left, right, rfl⟩
  | _ => exact .inr nofun

theorem unwind_primary {e : Expr} (h : ∀ s op left right, e ≠ binary s op left right)
    (outer : List Step) : e.unwind outer = (e, outer) := by
  cases e with
  | binary s op left right => exact absurd rfl (h s op left right)
  | _ => rfl

/-! ## Values along a spine -/

section
variable (env : Env) (calls : Nat) (eval : Nat → Expr → Result)

/-- The innermost operand of the spine by `eval`, and the operators from there outward. -/
def alongSpine : Expr → Result
  | binary _ op left right => do
    let a ← alongSpine left
    apply env (calls - 1) (fun more => eval (more + 1)) a ⟨op, left.start, right⟩
  | e => eval 0 e

theorem alongSpine_binary (s : Span) (op : BinaryOp) (left right : Expr) :
    alongSpine env calls eval (binary s op left right) =
      alongSpine env calls eval left >>= fun a =>
        apply env (calls - 1) (fun more => eval (more + 1)) a ⟨op, left.start, right⟩ := rfl

theorem alongSpine_primary {e : Expr} (h : ∀ s op left right, e ≠ binary s op left right) :
    alongSpine env calls eval e = eval 0 e := by
  cases e with
  | binary s op left right => exact absurd rfl (h s op left right)
  | _ => rfl

/-- The operators of `outer` are applied after those along the spine. -/
theorem foldlM_unwind (e : Expr) (outer : List Step) :
    let step := apply env (calls - 1) fun more => eval (more + 1)
    (do
      let (head, steps) := e.unwind outer
      let first ← eval 0 head
      steps.foldlM step first) =
      alongSpine env calls eval e >>= fun a => outer.foldlM step a := by
  intro step
  induction e using spine_induction generalizing outer with
  | binary s op left right ih =>
    rw [unwind, ih, alongSpine_binary, bind_assoc]
    simp only [List.foldlM_cons]
    rfl
  | primary e h => rw [unwind_primary h, alongSpine_primary env calls eval h]

theorem handle_binary (s : Span) (op : BinaryOp) (left right : Expr) :
    handle env calls eval (binary s op left right) =
      alongSpine env calls eval (binary s op left right) := by
  refine (foldlM_unwind env calls eval (binary s op left right) []).trans ?_
  simp only [List.foldlM_nil, bind_pure]

end

/-! ## Calls -/

theorem evaluateAfter_eq (env : Env) (e : Expr) : ∀ calls more : Nat,
    evaluateAfter env calls more e = evaluate env (calls - more) e
  | 0, more => by rw [Nat.zero_sub]; cases more <;> rfl
  | _ + 1, 0 => rfl
  | calls + 1, more + 1 => by
    rw [Nat.add_sub_add_right]
    exact evaluateAfter_eq env e calls more

def further (env : Env) (calls : Nat) : Nat → Expr → Result :=
  fun more => evaluate env (calls - more)

theorem evaluate_succ (env : Env) (calls : Nat) (e : Expr) :
    evaluate env (calls + 1) e = handle env (calls - 1) (further env (calls - 1)) e := by
  have heval : (fun more => evaluateAfter env calls (more + 1)) = further env (calls - 1) := by
    funext more d
    rw [evaluateAfter_eq, further, Nat.sub_sub, Nat.add_comm]
  show handle env (calls - 1) (fun more => evaluateAfter env calls (more + 1)) e = _
  rw [heval]

theorem value_succ (env : Env) (calls : Nat) (e : Expr) :
    e.value env (calls + 1) = (evaluate env calls e).mapError fun
      | .fault f => f
      | .tooDeep => .located .evaluationTooDeep e.start := by
  rw [value, if_neg (Nat.succ_ne_zero _), Nat.add_sub_cancel]
  rcases evaluate env calls e with (_ | _) | _ <;> rfl

/-- What holds of a tree and its value whatever its operands come to, as long as it holds of them,
holds of all trees and their values. -/
theorem evaluate_induction {env : Env} {P : Expr → Result → Prop}
    (deep : ∀ e, P e (.error .tooDeep))
    (primary : ∀ calls eval e, (∀ more d, P d (eval more d)) →
      (∀ s op left right, e ≠ binary s op left right) → P e (handle env calls eval e))
    (operator : ∀ calls eval s op left right x, (∀ more d, P d (eval more d)) → P left x →
      P (binary s op left right) (x >>= fun a => apply env calls eval a ⟨op, left.start, right⟩)) :
    ∀ calls e, P e (evaluate env calls e)
  | 0, e => deep e
  | calls + 1, e => by
    have ih (more : Nat) (d : Expr) : P d (further env (calls - 1) more d) :=
      evaluate_induction deep primary operator (calls - 1 - more) d
    have hspine (d : Expr) : P d (alongSpine env (calls - 1) (further env (calls - 1)) d) := by
      induction d using spine_induction with
      | binary s op left right hleft => exact operator _ _ s op left right _ (fun _ => ih _) hleft
      | primary d hd => rw [alongSpine_primary _ _ _ hd]; exact ih 0 d
    rw [evaluate_succ]
    rcases eq_binary_or e with ⟨s, op, left, right, rfl⟩ | hb
    · rw [handle_binary]
      exact hspine _
    · exact primary _ _ _ ih hb
termination_by calls => calls

end Stencil.Expr
