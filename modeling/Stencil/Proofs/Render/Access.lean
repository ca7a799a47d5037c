import Stencil.Proofs.Render.Faults

/-!
# Data access and logic

An expression that only looks things up and decides between them has a value whatever the data: what
is not there is empty, and everything is true or false. The one failure is that of an index into a
sequence that has more items than can be counted.
-/

namespace Stencil

namespace Expr

def isAccess : Expr → Bool
  | literal .. | symbol .. => true
  | group _ inner => inner.isAccess
  | unary _ .not operand => operand.isAccess
  | binary _ .member left (symbol ..) => left.isAccess
  | binary _ .subscript left right | binary _ .and left right | binary _ .or left right =>
    left.isAccess && right.isAccess
  | _ => false

inductive Step.IsAccess : Step → Prop
  | member {start s name} : IsAccess ⟨.member, start, symbol s name⟩
  | subscript {start right} (h : right.isAccess = true) : IsAccess ⟨.subscript, start, right⟩
  | and {start right} (h : right.isAccess = true) : IsAccess ⟨.and, start, right⟩
  | or {start right} (h : right.isAccess = true) : IsAccess ⟨.or, start, right⟩

theorem isAccess_binary {s : Span} {op : BinaryOp} {left right : Expr}
    (h : (binary s op left right).isAccess = true) :
    left.isAccess = true ∧ Step.IsAccess ⟨op, left.start, right⟩ := by
  cases op with
  | member =>
    cases right with
    | symbol => exact ⟨h, .member⟩
    | _ => cases h
  | subscript => exact (Bool.and_eq_true _ _ ▸ h).imp_right .subscript
  | and => exact (Bool.and_eq_true _ _ ▸ h).imp_right .and
  | or => exact (Bool.and_eq_true _ _ ▸ h).imp_right .or
  | _ => cases h

def OfData (f : RenderFault) : Prop := f = .overlong ∨ f = .numeralTooLong

section
variable {env : Env} {calls : Nat} {eval : Nat → Expr → Result}
  (ih : ∀ (more : Nat) (d : Expr), d.isAccess = true → Only OfData (eval more d))
include ih

theorem only_access_step {s : Step} (h : s.IsAccess) (left : Value) :
    Only OfData (apply env calls eval left s) := by
  cases h with
  | member => exact only_shown (.inr rfl) _
  | subscript h =>
    exact (ih 0 _ h).bind (only_applySubscript (P := OfData) (.inl rfl) (.inr rfl) calls left)
  | and h | or h =>
    simp only [apply]
    split
    · exact only_ok _
    · exact (ih 0 _ h).bind fun _ => only_pure _

theorem only_access_handle {e : Expr} (h : e.isAccess = true)
    (hb : ∀ s op left right, e ≠ binary s op left right) :
    Only OfData (handle env calls eval e) := by
  cases e with
  | literal => exact only_ok _
  | symbol => exact only_shown (.inr rfl) _
  | group _ inner => exact ih 0 inner h
  | unary _ op operand =>
    cases op with
    | not => exact (ih 0 operand h).bind (only_applyUnary fun hop => absurd rfl hop)
    | _ => cases h
  | binary s op left right => exact absurd rfl (hb s op left right)
  | _ => cases h

end

theorem only_access (env : Env) (calls : Nat) (e : Expr) :
    e.isAccess = true → Only OfData (evaluate env calls e) := by
  refine evaluate_induction (P := fun e x => e.isAccess = true → Only OfData x) (fun _ _ => nofun)
    (fun calls eval e ih hb h => only_access_handle ih h hb) ?_ calls e
  intro calls eval s op left right x ih hx h
  obtain ⟨hleft, hstep⟩ := isAccess_binary h
  exact (hx hleft).bind (only_access_step ih hstep)

/-- An access has a value if there are calls enough for it and for the display of the data, unless
the data are too long somewhere. -/
theorem evaluate_access (env : Env) (calls : Nat) {e : Expr} (h : e.isAccess = true) :
    (∃ v, evaluate env calls e = .ok v) ∨
    (evaluate env calls e = .error .tooDeep ∧
      ∀ room, env.Each (Host.Shown room) → calls < room + 5 * e.depth + 7) ∨
    (evaluate env calls e = .error (.fault .overlong) ∧ ¬env.Each Host.Counted) ∨
    (evaluate env calls e = .error (.fault .numeralTooLong) ∧
      ∀ room, ¬env.Each (Host.Shown room)) := by
  cases heval : evaluate env calls e with
  | ok v => exact .inl ⟨v, rfl⟩
  | error stop =>
    refine .inr ?_
    cases stop with
    | tooDeep =>
      exact .inl ⟨rfl, fun room henv => Nat.lt_of_not_le fun hle =>
        roomy_evaluate (shown_more henv) hle heval⟩
    | fault f =>
      rcases only_access env calls e h f heval with rfl | rfl
      · exact .inr (.inl ⟨rfl, fun henv => counted_evaluate henv heval⟩)
      · exact .inr (.inr ⟨rfl, fun room henv => shown_evaluate henv heval⟩)

end Expr

end Stencil
