import Stencil.Proofs.Expr.Completeness
import Stencil.Proofs.Expr.Soundness

/-!
# More room

A production that is not refused for want of room answers the same with more room. So the trees that
are read from some tokens with enough room are read from them with less, or nest too deep.
-/

namespace Stencil.Expr

open Token (Kind)

/-- The second production answers what the first one answers, unless that one nests too deep. -/
def Within (p q : Production) : Prop := ∀ tokens, Extends Refusal.tooDeep (p tokens) (q tokens)

theorem required_within {p q : Production} (h : Within p q) (t : Token) (tokens : List Token) :
    Extends .tooDeep (required t p tokens) (required t q tokens) :=
  (h tokens).bind fun _ => extends_refl _

/-- Loops that begin after operands of the two productions. -/
theorem within_of_loop {p q : Production}
    {loop loop' : Nat → Expr → List Token → Except Refusal Parsed} (h : Within p q)
    (hl : ∀ fuel e tokens, Extends .tooDeep (loop fuel e tokens) (loop' fuel e tokens)) :
    Within
      (fun tokens => do
        match ← p tokens with
        | none => return none
        | some (e, rest) => return some (← loop rest.length e rest))
      (fun tokens => do
        match ← q tokens with
        | none => return none
        | some (e, rest) => return some (← loop' rest.length e rest)) := by
  refine fun tokens => (h tokens).bind fun parsed => ?_
  rcases parsed with _ | ⟨e, rest⟩
  · exact extends_refl _
  · exact (hl _ e rest).bind fun _ => extends_refl _

theorem chainFrom_within {p q : Production} (h : Within p q) (operator? : Kind → Option BinaryOp) :
    ∀ fuel e tokens,
    Extends .tooDeep (chainFrom operator? p fuel e tokens) (chainFrom operator? q fuel e tokens)
  | 0, _, _ | _ + 1, _, [] => extends_refl _
  | fuel + 1, e, t :: tokens => by
    unfold chainFrom
    split
    · exact extends_refl _
    · exact (required_within h t tokens).bind fun _ => chainFrom_within h operator? fuel _ _

theorem chain_within {p q : Production} (h : Within p q) (operator? : Kind → Option BinaryOp) :
    Within (chain operator? p) (chain operator? q) :=
  within_of_loop h (chainFrom_within h operator?)

theorem argumentsFrom_within {p q : Production} (h : Within p q) : ∀ fuel tokens,
    Extends .tooDeep (argumentsFrom p fuel tokens) (argumentsFrom q fuel tokens)
  | 0, _ | _ + 1, [] => extends_refl _
  | fuel + 1, t :: tokens => by
    unfold argumentsFrom
    split
    · exact (required_within h t tokens).bind fun _ =>
        (argumentsFrom_within h fuel _).bind fun _ => extends_refl _
    · exact extends_refl _

theorem argumentList_within {p q : Production} (h : Within p q) (t : Token) (tokens : List Token) :
    Extends .tooDeep (argumentList p t tokens) (argumentList q t tokens) := by
  refine (h tokens).bind fun parsed => ?_
  rcases parsed with _ | ⟨e, rest⟩
  · exact extends_refl _
  · exact (argumentsFrom_within h _ rest).bind fun _ => extends_refl _

theorem pipesFrom_within {p q : Production} (h : Within p q) : ∀ fuel e tokens,
    Extends .tooDeep (pipesFrom p fuel e tokens) (pipesFrom q fuel e tokens)
  | 0, _, _ | _ + 1, _, [] => extends_refl _
  | fuel + 1, e, t :: tokens => by
    unfold pipesFrom
    split
    · refine (h tokens).bind fun parsed => ?_
      rcases parsed with _ | ⟨right, rest⟩
      · exact extends_refl _
      · exact pipesFrom_within h fuel _ rest
    · exact extends_refl _

theorem postfixFrom_within {p q : Production} (h : Within p q) : ∀ fuel e tokens,
    Extends .tooDeep (postfixFrom p fuel e tokens) (postfixFrom q fuel e tokens)
  | 0, _, _ | _ + 1, _, [] => extends_refl _
  | fuel + 1, e, t :: tokens => by
    unfold postfixFrom
    split
    · exact (extends_refl _).bind fun _ => postfixFrom_within h fuel _ _
    · exact ((required_within h t tokens).bind fun _ => extends_refl _).bind fun _ =>
        postfixFrom_within h fuel _ _
    · exact extends_refl _

theorem atomFrom_within {p q : Production} (h : Within p q) (t : Token) (tokens : List Token) :
    Extends .tooDeep (atomFrom p t tokens) (atomFrom q t tokens) := by
  unfold atomFrom
  split
  case h_7 =>
    exact ((required_within h t tokens).bind fun _ => extends_refl _).bind fun _ => extends_refl _
  all_goals exact extends_refl _

/-! ## The levels -/

section
variable {inner inner' : Nat → Production} (hi : ∀ {m n}, m ≤ n → Within (inner m) (inner' n))
  {room room' : Nat} (hle : room ≤ room')
include hi hle

theorem atom_within : Within (atom inner room) (atom inner' room') := by
  intro tokens
  by_cases hroom : room < 14
  · rw [atom_tooDeep hroom]
    exact extends_out
  · unfold atom
    rw [if_neg hroom, if_neg (by omega)]
    cases tokens with
    | nil => exact extends_refl _
    | cons t tokens => exact atomFrom_within (hi (Nat.sub_le_sub_right hle 15)) t tokens

theorem postfixed_within : Within (postfixed inner room) (postfixed inner' room') :=
  within_of_loop (atom_within hi hle) (postfixFrom_within (hi (Nat.sub_le_sub_right hle 13)))

theorem signed_within : Within (signed inner room) (signed inner' room')
  | [] => postfixed_within hi hle []
  | t :: tokens => by
    unfold signed
    dsimp only
    cases sign? t.kind with
    | none => exact postfixed_within hi hle _
    | some op =>
      exact (required_within (postfixed_within hi hle) t tokens).bind fun _ => extends_refl _

theorem compared_within : Within (compared inner room) (compared inner' room') :=
  chain_within (chain_within (chain_within (signed_within hi hle) _) _) _

omit hle in
theorem negated_within : ∀ {room room'}, room ≤ room' →
    Within (negated inner room) (negated inner' room')
  | 0, _, _, _ => extends_out
  | room + 1, room' + 1, hle, [] => compared_within hi hle []
  | room + 1, room' + 1, hle, t :: tokens => by
    unfold negated
    split
    · exact (required_within (negated_within (Nat.le_of_succ_le_succ hle)) t tokens).bind
        fun _ => extends_refl _
    · exact compared_within hi hle _

theorem disjunction_within : Within (disjunction inner room) (disjunction inner' room') :=
  chain_within (chain_within (negated_within hi hle) _) _

theorem filterCall_within : Within (filterCall inner room) (filterCall inner' room') := by
  refine fun tokens => (disjunction_within hi hle tokens).bind fun parsed => ?_
  rcases parsed with _ | ⟨target, rest⟩
  · exact extends_refl _
  cases target with
  | symbol s name =>
    dsimp only
    split
    · exact extends_refl _
    · exact (argumentList_within (disjunction_within hi (Nat.sub_le_sub_right hle 1)) _ _).bind
        fun _ => extends_refl _
  | _ => exact extends_refl _

theorem piped_within : Within (piped inner room) (piped inner' room') :=
  within_of_loop (disjunction_within hi hle)
    (pipesFrom_within (filterCall_within hi (Nat.sub_le_sub_right hle 1)))

end

/-! ## The whole -/

theorem parser_within : ∀ {depth depth' : Nat}, depth ≤ depth' → ∀ {room room' : Nat},
    room ≤ room' → Within (parser depth room) (parser depth' room')
  | 0, _, _, _, _, _ => fun _ => extends_out
  | _ + 1, _ + 1, hd, _, _, hle =>
    piped_within (parser_within (Nat.le_of_succ_le_succ hd)) hle

theorem parse_within {room room' : Nat} (hle : room ≤ room') :
    Within (parse room) (parse room') :=
  parser_within (Nat.succ_le_succ hle) hle

/-- Tokens that a tree is read from are refused where there is no room for the tree. -/
theorem parse_tooDeep {room : Nat} {e : Expr} {ts more : List Token} (hr : e.Reads ts)
    (hw : e.WellLevelled) (hs : Short ts) (he : Ends .piped more) (hroom : room < e.nesting) :
    parse room (ts ++ more) = .error .tooDeep := by
  refine Classical.byContradiction fun hne => ?_
  have hmore := parse_within (Nat.le_of_lt hroom) (ts ++ more) hne
  have hparse : parse e.nesting (ts ++ more) = .ok (some (e, more)) :=
    (hr.recovers (Nat.le_refl _) (Nat.le_refl _) hs).inner hw he
  obtain ⟨us, -, hp⟩ := parse_sound room (hmore.symm.trans hparse)
  exact Nat.not_lt.mpr hp.fits hroom

end Stencil.Expr
