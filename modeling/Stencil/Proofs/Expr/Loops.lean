import Stencil.Proofs.Expr.Levels

/-!
# How the productions go on

A production of a level takes a first operand and goes on in a loop as long as operators of its
level follow. It is followed here from a tree that its loop has in hand to the place where the
tree ends, and from a level to the looser ones.
-/

namespace Stencil.Expr

open Token (Kind)

/-! ## Where a tree ends -/

def continues? : Kind → Option Level
  | .pipe => some .piped
  | .orWord => some .or
  | .andWord => some .and
  | .less | .lessEqual | .doubleEqual | .greaterEqual | .greater | .notEqual => some .comparison
  | .plus | .minus => some .sum
  | .star | .slash | .doubleSlash | .percent => some .product
  | .dot | .leftBracket => some .postfixed
  | _ => none

def Stops (l : Level) : List Token → Prop
  | [] => True
  | t :: _ => ∀ m, continues? t.kind = some m → m < l

structure Ends (l : Level) (tokens : List Token) : Prop where
  stops : Stops l tokens
  uncalled : accept? .leftParen tokens = none

theorem Stops.tighten {l m : Level} {tokens : List Token} (h : l ≤ m) (hs : Stops l tokens) :
    Stops m tokens := by
  cases tokens with
  | nil => trivial
  | cons t ts => exact fun k hk => Nat.lt_of_lt_of_le (hs k hk) h

theorem Ends.tighten {l m : Level} {tokens : List Token} (h : l ≤ m) (he : Ends l tokens) :
    Ends m tokens :=
  ⟨he.stops.tighten h, he.uncalled⟩

theorem continues_of_kind {op : BinaryOp} {k : Kind} (h : op.kind? = some k) :
    continues? k = some op.level := by
  cases op with
  | arithmetic op => cases op <;> cases h <;> rfl
  | comparison op => cases op <;> cases h <;> rfl
  | _ => first | (cases h; done) | (cases h; rfl)

theorem not_stops {l m : Level} {t : Token} {tokens : List Token} (hm : continues? t.kind = some m)
    (h : l ≤ m) : ¬ Stops l (t :: tokens) :=
  fun hs => Nat.lt_irrefl _ (Nat.lt_of_lt_of_le (hs m hm) h)

theorem accept_cons_ne {k : Kind} {t : Token} {tokens : List Token} (h : t.kind ≠ k) :
    accept? k (t :: tokens) = none := if_neg h

theorem ends_of_none {l : Level} {t : Token} {tokens : List Token}
    (h : continues? t.kind = none) (hp : t.kind ≠ .leftParen) : Ends l (t :: tokens) :=
  ⟨fun m hm => (by rw [h] at hm; cases hm), accept_cons_ne hp⟩

theorem ends_of_kind {l : Level} (op : BinaryOp) {t : Token} {tokens : List Token}
    (h : op.kind? = some t.kind) (hl : op.level < l) : Ends l (t :: tokens) := by
  have hc := continues_of_kind h
  refine ⟨fun m hm => ?_, accept_cons_ne fun hp => ?_⟩
  · rw [hc] at hm; cases hm; exact hl
  · rw [hp] at hc; cases hc

/-! ## The loops by level -/

def loop (inner : Nat → Production) (room : Nat) :
    Level → Nat → Expr → List Token → Except Refusal Parsed
  | .piped => pipesFrom (filterCall inner (room - 1))
  | .postfixed => postfixFrom (inner (room - 13))
  | .not | .sign | .atom => fun _ e tokens => return (e, tokens)
  | l => chainFrom l.operator? (production inner room l.tighter)

theorem loop_chain (inner : Nat → Production) (room : Nat) {l : Level} (h : l.isChain = true) :
    loop inner room l = chainFrom l.operator? (production inner room l.tighter) := by
  cases l <;> first | (cases h; done) | rfl

theorem chainFrom_stops {l : Level} {operand : Production} {tokens : List Token}
    (hs : Stops l tokens) (fuel : Nat) (e : Expr) :
    chainFrom l.operator? operand fuel e tokens = .ok (e, tokens) := by
  cases fuel with
  | zero => rfl
  | succ fuel =>
    cases tokens with
    | nil => rfl
    | cons t ts =>
      unfold chainFrom
      cases hop : l.operator? t.kind with
      | none => rfl
      | some op =>
        obtain ⟨hk, rfl, _⟩ := Level.operator_eq_some hop
        exact absurd hs (not_stops (continues_of_kind hk) (Level.le_refl _))

theorem postfixFrom_stops {inner : Production} {tokens : List Token}
    (hs : Stops .postfixed tokens) (fuel : Nat) (e : Expr) :
    postfixFrom inner fuel e tokens = .ok (e, tokens) := by
  cases fuel with
  | zero => rfl
  | succ fuel =>
    cases tokens with
    | nil => rfl
    | cons t ts =>
      unfold postfixFrom
      split
      · rename_i hk
        exact absurd hs (not_stops (by rw [hk]; rfl) (Level.le_refl _))
      · rename_i hk
        exact absurd hs (not_stops (by rw [hk]; rfl) (Level.le_refl _))
      · rfl

theorem pipesFrom_stops {call : Production} {tokens : List Token}
    (hs : Stops .piped tokens) (fuel : Nat) (e : Expr) :
    pipesFrom call fuel e tokens = .ok (e, tokens) := by
  cases fuel with
  | zero => rfl
  | succ fuel =>
    cases tokens with
    | nil => rfl
    | cons t ts =>
      unfold pipesFrom
      split
      · rename_i hk
        exact absurd hs (not_stops (by rw [hk]; rfl) (Level.le_refl _))
      · rfl

theorem loop_stops {inner : Nat → Production} {room : Nat} {l : Level} {tokens : List Token}
    (hs : Stops l tokens) (fuel : Nat) (e : Expr) :
    loop inner room l fuel e tokens = .ok (e, tokens) := by
  cases l with
  | piped => exact pipesFrom_stops hs fuel e
  | postfixed => exact postfixFrom_stops hs fuel e
  | not | sign | atom => rfl
  | _ => exact chainFrom_stops hs fuel e

/-! ## From a level to the looser ones -/

/-- No tree of a tighter level begins with a prefix of this one. -/
def Begins (l : Level) (t : Token) : Prop :=
  (l = .not → t.kind ≠ .notWord) ∧ (l = .sign → sign? t.kind = none)

/-- A production takes what the next tighter one takes, and goes on from there. -/
theorem production_tighter (inner : Nat → Production) {room : Nat} {l : Level} {t : Token}
    (hroom : 0 < room) (hb : Begins l t) (ts : List Token) :
    production inner room l (t :: ts) = (do
      match ← production inner room l.tighter (t :: ts) with
      | none => return none
      | some (e, rest) => return some (← loop inner room l rest.length e rest)) := by
  have hsame (p : Except Refusal (Option Parsed)) : p = (do
      match ← p with
      | none => return none
      | some (e, rest) => return some (← (return (e, rest) : Except Refusal Parsed))) := by
    rcases p with _ | _ | _ <;> rfl
  cases l with
  | not =>
    obtain ⟨room, rfl⟩ : ∃ n, room = n + 1 := ⟨room - 1, by omega⟩
    show negated inner (room + 1) (t :: ts) = _
    rw [negated, if_neg (hb.1 rfl)]
    exact hsame _
  | sign =>
    show signed inner room (t :: ts) = _
    rw [signed, hb.2 rfl]
    exact hsame _
  | atom => exact hsame _
  | _ => rfl

theorem production_of_tighter {inner : Nat → Production} {room : Nat} {l : Level} {e : Expr}
    {t : Token} {ts rest : List Token} (hroom : 0 < room) (hb : Begins l t)
    (h : production inner room l.tighter (t :: ts) = .ok (some (e, rest))) :
    production inner room l (t :: ts) = (loop inner room l rest.length e rest).map some := by
  rw [production_tighter inner hroom hb, h]
  show (loop inner room l rest.length e rest >>= fun r => pure (some r)) = _
  cases loop inner room l rest.length e rest <;> rfl

/-- Where no prefix stands in between, the errors of tighter productions come through. -/
theorem production_error {inner : Nat → Production} {room : Nat} {l m : Level} {t : Token}
    {ts : List Token} {r : Refusal} (hlt : l < m) (hroom : 0 < room)
    (hb : ∀ k, l ≤ k → k < m → Begins k t)
    (h : production inner room m (t :: ts) = .error r) :
    production inner room l (t :: ts) = .error r := by
  have hnext : production inner room l.tighter (t :: ts) = .error r := by
    by_cases hm : l.tighter = m
    · rw [hm]; exact h
    · have hlt' : l.tighter < m := Level.lt_of_le_of_ne (Level.tighter_le_of_lt hlt) hm
      have hdec : m.rank - l.tighter.rank < m.rank - l.rank := Level.rank_lt_tighter hlt
      exact production_error hlt' hroom
        (fun k hk => hb k (Level.le_trans (Level.le_tighter l) hk)) h
  rw [production_tighter inner hroom (hb l (Level.le_refl _) hlt), hnext]
  rfl
termination_by m.rank - l.rank

theorem production_of_lt {inner : Nat → Production} {room : Nat} {l m : Level} {e : Expr}
    {t : Token}
    {ts rest : List Token} (hlt : l < m) (hroom : 0 < room)
    (hb : ∀ k, l ≤ k → k < m → Begins k t) (hs : Stops l.tighter rest)
    (h : production inner room m (t :: ts) = .ok (some (e, rest))) :
    production inner room l (t :: ts) = (loop inner room l rest.length e rest).map some := by
  refine production_of_tighter hroom (hb l (Level.le_refl _) hlt) ?_
  by_cases hm : l.tighter = m
  · rw [hm]; exact h
  · have hlt' : l.tighter < m := Level.lt_of_le_of_ne (Level.tighter_le_of_lt hlt) hm
    have hdec : m.rank - l.tighter.rank < m.rank - l.rank := Level.rank_lt_tighter hlt
    rw [production_of_lt hlt' hroom
      (fun k hk => hb k (Level.le_trans (Level.le_tighter l) hk))
      (hs.tighten (Level.le_tighter _)) h, loop_stops hs]
    rfl
termination_by m.rank - l.rank

/-! ## Trees in the hand of a loop -/

def Goes (inner : Nat → Production) (room : Nat) (l : Level) (e : Expr) (ts : List Token) : Prop :=
  ∀ more, Ends l.tighter more → ∃ fuel, more.length ≤ fuel ∧
    production inner room l (ts ++ more) = (loop inner room l fuel e more).map some

theorem Goes.parses {inner : Nat → Production} {room : Nat} {l : Level} {e : Expr}
    {ts more : List Token} (h : Goes inner room l e ts) (he : Ends l more) :
    production inner room l (ts ++ more) = .ok (some (e, more)) := by
  obtain ⟨fuel, _, hp⟩ := h more (he.tighten (Level.le_tighter l))
  rw [hp, loop_stops he.stops]
  rfl

theorem Goes.loosen {inner : Nat → Production} {room : Nat} {l m : Level} {e : Expr} {t : Token}
    {ts : List Token} (h : Goes inner room m e (t :: ts)) (hlt : l < m)
    (hroom : 0 < room) (hb : ∀ k, l ≤ k → k < m → Begins k t) :
    Goes inner room l e (t :: ts) := by
  intro more he
  have hm : Ends m more := he.tighten (Level.tighter_le_of_lt hlt)
  exact ⟨more.length, Nat.le_refl _, production_of_lt hlt hroom hb he.stops (h.parses hm)⟩

theorem goes_of_parses {inner : Nat → Production} {room : Nat} {l : Level} {e : Expr}
    {ts : List Token}
    (hl : ∀ fuel more, loop inner room l fuel e more = .ok (e, more))
    (h : ∀ more, Ends l.tighter more →
      production inner room l (ts ++ more) = .ok (some (e, more))) :
    Goes inner room l e ts :=
  fun more he => ⟨more.length, Nat.le_refl _, by rw [h more he, hl]; rfl⟩

theorem Goes.step {inner : Nat → Production} {room : Nat} {l : Level} {left e : Expr}
    {ls ts : List Token} (h : Goes inner room l left ls)
    (hstep : ∀ more, Ends l.tighter more → Ends l.tighter (ts ++ more) ∧ 0 < ts.length ∧
      ∀ fuel, loop inner room l (fuel + 1) left (ts ++ more) = loop inner room l fuel e more) :
    Goes inner room l e (ls ++ ts) := by
  intro more he
  obtain ⟨hends, hpos, hloop⟩ := hstep more he
  obtain ⟨fuel, hfuel, hp⟩ := h (ts ++ more) hends
  rw [List.length_append] at hfuel
  obtain ⟨n, rfl⟩ : ∃ n, fuel = n + 1 := ⟨fuel - 1, by omega⟩
  exact ⟨n, by omega, by rw [List.append_assoc, hp, hloop]⟩

end Stencil.Expr
