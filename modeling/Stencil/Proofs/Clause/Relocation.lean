import Stencil.Proofs.Clause.Productions
import Stencil.Proofs.Token.Locality

/-!
# Clauses elsewhere

Outputs and statements are read from their tokens the same wherever these are, and a scan that
begins at another offset finds the same clauses, or fails in the same way, that much further on.
-/

namespace Stencil

namespace Relocation

variable (ρ : Relocation)

def binder (x : Symbol) : Symbol := ⟨ρ.span x.span, x.name⟩

def clause : Clause → Clause
  | .text s => .text (ρ.span s)
  | .output s e => .output (ρ.span s) (ρ.expr e)
  | .ifTest s e => .ifTest (ρ.span s) (ρ.expr e)
  | .elifTest s e => .elifTest (ρ.span s) (ρ.expr e)
  | .otherwise s => .otherwise (ρ.span s)
  | .endIf s => .endIf (ρ.span s)
  | .forEach s x e => .forEach (ρ.span s) (ρ.binder x) (ρ.expr e)
  | .endFor s => .endFor (ρ.span s)
  | .other s sort => .other (ρ.span s) sort

@[simp] theorem span_clause (c : Clause) : (ρ.clause c).span = ρ.span c.span := by
  cases c <;> rfl

@[simp] theorem stop_clause (c : Clause) : (ρ.clause c).stop = ρ.stop c.stop := by
  rw [Clause.stop, span_clause]; rfl

end Relocation

namespace Clause

open Stencil.Expr (Refusal accept? accept_move parse_movable parsePostfix_movable)

variable {stack : Stack} (ρ : Relocation)

/-! ## Outputs and statements -/

theorem statementEnd_move (offset : Nat) (tokens : List Token) :
    statementEnd (ρ.stop offset) (ρ.tokens tokens) =
      ρ.outcome ρ.stop (statementEnd offset tokens) := by
  unfold statementEnd
  rw [accept_move]
  cases accept? .statementEnd tokens <;> rfl

theorem readTest_move {tokens : List Token} (hne : tokens ≠ []) :
    readTest stack (ρ.tokens tokens) = ρ.outcome ρ.parsed (readTest stack tokens) := by
  obtain ⟨t, tokens, rfl⟩ := List.exists_cons_of_ne_nil hne
  unfold readTest
  rw [parse_movable]
  apply ρ.outcome_bind
  intro parsed
  cases parsed <;> rfl

theorem readOutput_move (start : Nat) (tokens : List Token) :
    readOutput stack (ρ.start start) (ρ.tokens tokens) =
      ρ.outcome ρ.clause (readOutput stack start tokens) := by
  unfold readOutput
  rw [parse_movable]
  apply ρ.outcome_bind
  intro parsed
  rcases parsed with _ | ⟨e, rest⟩
  · rfl
  simp only [Option.map_some, Relocation.parsed, accept_move]
  cases accept? .expressionEnd rest <;> rfl

theorem readLoop_move (start : Nat) (keyword : Token) (tokens : List Token) :
    readLoop stack (ρ.start start) (ρ.token keyword) (ρ.tokens tokens) =
      ρ.outcome ρ.clause (readLoop stack start keyword tokens) := by
  unfold readLoop
  rw [parse_movable]
  apply ρ.outcome_bind
  intro parsed
  rcases parsed with _ | ⟨target, rest⟩
  · rfl
  cases target with
  | symbol s name =>
    simp only [Option.map_some, Relocation.parsed, Relocation.expr, accept_move]
    cases accept? .inWord rest with
    | none => rfl
    | some r =>
      simp only [Option.map_some]
      rw [parsePostfix_movable]
      apply ρ.outcome_bind
      intro parsed
      rcases parsed with _ | ⟨iterator, rest⟩
      · rfl
      simp only [Option.map_some, Relocation.parsed, Relocation.stop_expr]
      rw [statementEnd_move]
      exact ρ.outcome_bind fun _ => rfl
  | _ => rfl

def Ended (tokens : List Token) : Prop :=
  ∃ init last, tokens = init ++ [last] ∧ (last.kind = .invalid ∨ closes last.kind = true)

theorem Ended.tail {t : Token} {tokens : List Token} (h : Ended (t :: tokens))
    (hi : t.kind ≠ .invalid) (hc : closes t.kind = false) : tokens ≠ [] := by
  rintro rfl
  obtain ⟨init, last, heq, hlast⟩ := h
  cases init with
  | nil =>
    obtain ⟨rfl, -⟩ := List.cons.inj heq
    rcases hlast with hl | hl
    · exact hi hl
    · rw [hc] at hl; cases hl
  | cons u init => simp at heq

theorem bare_move {c d : Nat → Clause} (offset : Nat) (tokens : List Token)
    (h : ∀ n, d (ρ.stop n) = ρ.clause (c n)) :
    (do return d (← statementEnd (ρ.stop offset) (ρ.tokens tokens))) =
      ρ.outcome ρ.clause (do return c (← statementEnd offset tokens)) := by
  rw [statementEnd_move]
  exact ρ.outcome_bind fun n => congrArg Except.ok (h n)

theorem test_move {c d : Nat → Expr → Clause} {tokens : List Token} (hne : tokens ≠ [])
    (h : ∀ n e, d (ρ.stop n) (ρ.expr e) = ρ.clause (c n e)) :
    (do
      let (e, rest) ← readTest stack (ρ.tokens tokens)
      return d (← statementEnd e.stop rest) e) =
    ρ.outcome ρ.clause (do
      let (e, rest) ← readTest stack tokens
      return c (← statementEnd e.stop rest) e) := by
  rw [readTest_move ρ hne]
  apply ρ.outcome_bind
  rintro ⟨e, rest⟩
  simp only [Relocation.parsed, Relocation.stop_expr]
  exact bare_move ρ e.stop rest fun n => h n e

theorem readStatement_move (start : Nat) {tokens : List Token} (h : Ended tokens) :
    readStatement stack (ρ.start start) (ρ.tokens tokens) =
      ρ.outcome ρ.clause (readStatement stack start tokens) := by
  cases tokens with
  | nil => rfl
  | cons keyword tokens =>
    have htest (hk : keyword.kind = .ifWord ∨ keyword.kind = .elifWord) : tokens ≠ [] := by
      apply h.tail <;> rcases hk with hk | hk <;> rw [hk] <;> decide
    simp only [Relocation.tokens_cons, readStatement, Relocation.kind_token]
    split <;> rename_i hk
    · exact test_move ρ (c := fun n e => .ifTest ⟨start, n⟩ e) (htest (.inl hk)) fun _ _ => rfl
    · exact test_move ρ (c := fun n e => .elifTest ⟨start, n⟩ e) (htest (.inr hk)) fun _ _ => rfl
    · exact bare_move ρ (c := fun n => .otherwise ⟨start, n⟩) keyword.stop tokens fun _ => rfl
    · exact bare_move ρ (c := fun n => .endIf ⟨start, n⟩) keyword.stop tokens fun _ => rfl
    · exact readLoop_move ρ start keyword tokens
    · exact bare_move ρ (c := fun n => .endFor ⟨start, n⟩) keyword.stop tokens fun _ => rfl
    · rfl

end Clause

end Stencil
