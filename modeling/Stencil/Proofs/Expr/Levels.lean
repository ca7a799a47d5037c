import Stencil.Proofs.Except
import Stencil.Proofs.Expr.Grammar

/-!
# The productions by level

The productions of the parser as one family over the levels of precedence, with the table of
operators that each chain goes by, and the steps that they share.
-/

namespace Stencil

open Token (Kind)

/-! ## Tables of operators -/

namespace Level

def operator? : Level → Kind → Option BinaryOp
  | or => Expr.orOperator?
  | and => Expr.andOperator?
  | comparison => Expr.comparisonOperator?
  | sum => Expr.sumOperator?
  | product => Expr.productOperator?
  | _ => fun _ => none

def isChain : Level → Bool
  | or | and | comparison | sum | product => true
  | _ => false

theorem lt_tighter_of_isChain {l : Level} (h : l.isChain = true) : l < l.tighter := by
  cases l <;> revert h <;> decide

theorem operator_eq_some {l : Level} {k : Kind} {op : BinaryOp} (h : l.operator? k = some op) :
    op.kind? = some k ∧ op.level = l ∧ l.isChain = true := by
  cases l <;> first
    | cases h
    | cases k <;> cases h <;> exact ⟨rfl, rfl, rfl⟩

theorem operator_of_isChain {l : Level} {k : Kind} {op : BinaryOp} (hl : l.isChain = true)
    (hop : op.level = l) (hk : op.kind? = some k) : l.operator? k = some op := by
  subst hop
  cases op with
  | arithmetic op => cases op <;> cases hk <;> rfl
  | comparison op => cases op <;> cases hk <;> rfl
  | _ => first | (cases hl; done) | (cases hk; rfl)

end Level

namespace Expr

theorem wellLevelled_chain {s : Span} {op : BinaryOp} {l r : Expr} (h : op.level.isChain = true) :
    (binary s op l r).WellLevelled ↔
      (op.level ≤ l.level ∧ l.WellLevelled) ∧ op.level < r.level ∧ r.WellLevelled := by
  cases op <;> first | (cases h; done) | simp [WellLevelled, and_assoc]

/-! ## The family -/

def production (inner : Nat → Production) (room : Nat) : Level → Production
  | .piped => piped inner room
  | .or => disjunction inner room
  | .and => conjunction inner room
  | .not => negated inner room
  | .comparison => compared inner room
  | .sum => sum inner room
  | .product => product inner room
  | .sign => signed inner room
  | .postfixed => postfixed inner room
  | .atom => atom inner room

/-! ## No room -/

theorem chain_error {operator? : Kind → Option BinaryOp} {operand : Production} {r : Refusal}
    {tokens : List Token} (h : operand tokens = .error r) :
    chain operator? operand tokens = .error r := by
  rw [chain, h]
  rfl

section
variable {inner : Nat → Production} {room : Nat} (hroom : room < 14)
include hroom

theorem atom_tooDeep (tokens : List Token) : atom inner room tokens = .error .tooDeep :=
  if_pos hroom

theorem postfixed_tooDeep (tokens : List Token) :
    postfixed inner room tokens = .error .tooDeep := by
  rw [postfixed, atom_tooDeep hroom]
  rfl

theorem signed_tooDeep : ∀ tokens, signed inner room tokens = .error .tooDeep
  | [] => postfixed_tooDeep hroom []
  | t :: ts => by
    rw [signed]
    split
    · exact postfixed_tooDeep hroom _
    · rw [required, postfixed_tooDeep hroom]
      rfl

theorem compared_tooDeep (tokens : List Token) : compared inner room tokens = .error .tooDeep :=
  chain_error (chain_error (chain_error (signed_tooDeep hroom tokens)))

theorem negated_tooDeep (tokens : List Token) : negated inner room tokens = .error .tooDeep := by
  induction room generalizing tokens with
  | zero => rfl
  | succ room ih =>
    cases tokens with
    | nil => exact compared_tooDeep hroom []
    | cons t ts =>
      rw [negated]
      split
      · rw [required, ih (Nat.lt_of_succ_lt hroom)]
        rfl
      · exact compared_tooDeep hroom _

theorem disjunction_tooDeep (tokens : List Token) :
    disjunction inner room tokens = .error .tooDeep :=
  chain_error (chain_error (negated_tooDeep hroom tokens))

theorem filterCall_tooDeep (tokens : List Token) :
    filterCall inner room tokens = .error .tooDeep := by
  rw [filterCall, disjunction_tooDeep hroom]
  rfl

/-- Without the calls down to the atoms every production refuses. -/
theorem production_tooDeep (tokens : List Token) :
    ∀ l, production inner room l tokens = .error .tooDeep
  | .atom => atom_tooDeep hroom tokens
  | .postfixed => postfixed_tooDeep hroom tokens
  | .sign => signed_tooDeep hroom tokens
  | .product => chain_error (signed_tooDeep hroom tokens)
  | .sum => chain_error (chain_error (signed_tooDeep hroom tokens))
  | .comparison => compared_tooDeep hroom tokens
  | .not => negated_tooDeep hroom tokens
  | .and => chain_error (negated_tooDeep hroom tokens)
  | .or => disjunction_tooDeep hroom tokens
  | .piped => by
    show piped inner room tokens = _
    rw [piped, disjunction_tooDeep hroom]
    rfl

end

/-! ## Shared steps -/

@[simp] theorem accept_nil (k : Kind) : accept? k [] = none := rfl

theorem accept_eq_some {k : Kind} {tokens rest : List Token} {t : Token} :
    accept? k tokens = some (t, rest) ↔ tokens = t :: rest ∧ t.kind = k := by
  cases tokens with
  | nil => simp
  | cons u us =>
    by_cases hu : u.kind = k
    · simp only [accept?, hu, if_true, Option.some.injEq, Prod.mk.injEq, List.cons.injEq]
      constructor
      · rintro ⟨rfl, rfl⟩; exact ⟨⟨rfl, rfl⟩, hu⟩
      · rintro ⟨h, _⟩; exact h
    · simp only [accept?, hu, if_false, List.cons.injEq]
      constructor
      · intro h; cases h
      · rintro ⟨⟨rfl, _⟩, h⟩; exact absurd h hu

theorem fail_ne_ok {α : Type} {k : ParseKind} {o : Nat} {a : α} : fail k o ≠ .ok a := by
  simp [fail]

theorem required_eq_ok {t : Token} {p : Production} {tokens : List Token} {r : Parsed} :
    required t p tokens = .ok r ↔ p tokens = .ok (some r) := by
  unfold required
  rw [bind_eq_ok]
  constructor
  · rintro ⟨o, ho, h⟩
    cases o with
    | none => exact absurd h fail_ne_ok
    | some q => rw [ho, pure_eq_ok.mp h]
  · intro h
    exact ⟨some r, h, rfl⟩

end Expr

end Stencil
