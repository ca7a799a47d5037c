import Stencil.Proofs.Expr.Loops
import Stencil.Proofs.Expr.Relocation
import Stencil.Proofs.Expr.Soundness

/-!
# One token decides

Whether a production answers with nothing is decided by the kind of the token in front: atoms begin
with certain kinds, and each looser level adds at most its own prefix.
-/

namespace Stencil

open Token (Kind)

namespace Level

def atomic : List Kind :=
  [.symbol, .string, .integer, .float, .trueWord, .falseWord, .leftParen]

def first : Level → List Kind
  | atom | postfixed => atomic
  | sign | product | sum | comparison => .plus :: .minus :: atomic
  | not | and | or | piped => .notWord :: .plus :: .minus :: atomic

theorem tighter_induction {P : Level → Prop} (hatom : P .atom)
    (step : ∀ l, P l.tighter → P l) (l : Level) : P l := by
  by_cases h : l < .atom
  · have hdec : atom.rank - l.tighter.rank < atom.rank - l.rank := rank_lt_tighter h
    exact step l (tighter_induction hatom step l.tighter)
  · have hle : l ≤ .atom := by cases l <;> decide
    have hl : l = .atom := Decidable.by_contra fun hne => h (lt_of_le_of_ne hle hne)
    exact hl ▸ hatom
termination_by atom.rank - l.rank

end Level

namespace Expr

theorem first_tighter {l : Level} {t : Token} (hb : Begins l t) :
    t.kind ∈ l.first ↔ t.kind ∈ l.tighter.first := by
  cases l with
  | not => exact List.mem_cons.trans (or_iff_right (hb.1 rfl))
  | sign =>
    have hsign := hb.2 rfl
    have hplus : t.kind ≠ .plus := fun h => by rw [h] at hsign; cases hsign
    have hminus : t.kind ≠ .minus := fun h => by rw [h] at hsign; cases hsign
    show t.kind ∈ .plus :: .minus :: Level.atomic ↔ t.kind ∈ Level.atomic
    simp [hplus, hminus]
  | _ => exact Iff.rfl

theorem exists_prefix {l : Level} {t : Token} (hb : ¬ Begins l t) :
    l = .not ∧ t.kind = .notWord ∨ l = .sign ∧ ∃ op, sign? t.kind = some op := by
  by_cases hnot : l = .not ∧ t.kind = .notWord
  · exact .inl hnot
  by_cases hsign : l = .sign ∧ sign? t.kind ≠ none
  · exact .inr ⟨hsign.1, Option.ne_none_iff_exists'.mp hsign.2⟩
  exact absurd ⟨fun h => not_and.mp hnot h, fun h => Decidable.not_not.mp (not_and.mp hsign h)⟩ hb

/-! ## Nothing -/

theorem some_ne_none {α : Type} {x : Except Refusal α} {f : α → Parsed} :
    (x >>= fun a => return some (f a) : Except Refusal (Option Parsed)) ≠ .ok none := by
  intro h
  obtain ⟨_, -, h⟩ := bind_eq_ok.mp h
  cases pure_eq_ok.mp h

theorem loop_eq_none_iff {x : Except Refusal (Option Parsed)}
    {loop : Nat → Expr → List Token → Except Refusal Parsed} :
    (do
      match ← x with
      | none => return none
      | some (e, rest) => return some (← loop rest.length e rest)) = .ok none ↔ x = .ok none := by
  constructor
  · intro h
    obtain ⟨o, rfl, h⟩ := bind_eq_ok.mp h
    cases o with
    | none => rfl
    | some q => exact absurd h (some_ne_none (f := id))
  · rintro rfl
    rfl

section
variable (inner : Nat → Production) (t : Token) (ts : List Token)

theorem atomFrom_eq_none_iff (inner : Production) :
    atomFrom inner t ts = .ok none ↔ t.kind ∉ Level.atom.first := by
  have hpure {k : Kind} {p : Parsed} (hk : t.kind = k) (hm : k ∈ Level.atomic) :
      (pure (some p) : Except Refusal (Option Parsed)) = .ok none ↔ t.kind ∉ Level.atomic :=
    iff_of_false (fun h => nomatch pure_eq_ok.mp h) fun h => h (hk ▸ hm)
  have hbind {k : Kind} {α : Type} {x : Except Refusal α} {f : α → Parsed} (hk : t.kind = k)
      (hm : k ∈ Level.atomic) :
      (x >>= fun a => return some (f a) : Except Refusal (Option Parsed)) = .ok none ↔
        t.kind ∉ Level.atomic :=
    iff_of_false some_ne_none fun h => h (hk ▸ hm)
  show _ ↔ t.kind ∉ Level.atomic
  simp only [atomFrom]
  split <;> rename_i hk
  · exact hpure hk (by decide)
  · exact hpure hk (by decide)
  · exact hbind hk (by decide)
  · exact hbind hk (by decide)
  · exact hpure hk (by decide)
  · exact hpure hk (by decide)
  · exact hbind hk (by decide) (f := id)
  · exact iff_of_true rfl (by simp_all [Level.atomic])

theorem production_eq_none_of_room (l : Level) {room : Nat} (hroom : 14 ≤ room) :
    production inner room l (t :: ts) = .ok none ↔ t.kind ∉ l.first := by
  obtain ⟨rest, rfl⟩ : ∃ n, room = n + 1 := ⟨room - 1, by omega⟩
  induction l using Level.tighter_induction with
  | hatom =>
    show atom inner (rest + 1) (t :: ts) = _ ↔ _
    rw [atom, if_neg (Nat.not_lt.mpr hroom)]
    exact atomFrom_eq_none_iff t ts _
  | step l ih =>
    by_cases hb : Begins l t
    · rw [production_tighter inner (Nat.succ_pos _) hb, first_tighter hb, ← ih]
      exact @loop_eq_none_iff _ (loop inner (rest + 1) l)
    · obtain ⟨rfl, hk⟩ | ⟨rfl, op, hop⟩ := exists_prefix hb
      · show negated inner (rest + 1) (t :: ts) = _ ↔ _
        rw [negated, if_pos hk]
        exact iff_of_false some_ne_none fun h => h (hk ▸ List.mem_cons_self)
      · show signed inner (rest + 1) (t :: ts) = _ ↔ _
        simp only [signed, hop]
        refine iff_of_false some_ne_none fun h => h ?_
        obtain ⟨hk, hl, -⟩ := sign_kind hop
        rw [hk]
        cases op <;> first | decide | cases hl

/-- A production answers with nothing if and only if there is room for an atom and no expression of
its level begins with the front token. -/
theorem production_eq_none_iff (l : Level) {room : Nat} :
    production inner room l (t :: ts) = .ok none ↔ 14 ≤ room ∧ t.kind ∉ l.first := by
  by_cases hroom : 14 ≤ room
  · rw [production_eq_none_of_room inner t ts l hroom, and_iff_right hroom]
  · rw [production_tooDeep (Nat.lt_of_not_le hroom)]
    exact iff_of_false nofun fun h => hroom h.1

theorem filterCall_eq_none_iff {room : Nat} :
    filterCall inner room (t :: ts) = .ok none ↔ 14 ≤ room ∧ t.kind ∉ Level.or.first := by
  rw [← production_eq_none_iff inner t ts .or]
  show _ ↔ disjunction inner room (t :: ts) = .ok none
  constructor
  · intro h
    obtain ⟨o, ho, h⟩ := bind_eq_ok.mp h
    rcases o with _ | ⟨target, rest⟩
    · exact ho
    cases target with
    | symbol s name =>
      cases hc : accept? .leftParen rest with
      | none =>
        simp only [hc] at h
        cases pure_eq_ok.mp h
      | some q =>
        simp only [hc] at h
        exact absurd h some_ne_none
    | _ => exact absurd h fail_ne_ok
  · intro h
    rw [filterCall, h]
    rfl

end

/-! ## Trees -/

theorem production_sound {inner : Nat → Production}
    (hi : ∀ room, Sound (Phrase room .piped) (inner room)) (room : Nat) :
    ∀ l, Sound (Phrase room l) (production inner room l)
  | .piped => piped_sound hi
  | .or => disjunction_sound hi
  | .and => conjunction_sound hi
  | .not => negated_sound hi room
  | .comparison => compared_sound hi
  | .sum => sum_sound hi
  | .product => product_sound hi
  | .sign => signed_sound hi
  | .postfixed => postfixed_sound hi
  | .atom => atom_sound hi

theorem production_movable {inner : Nat → Production} {ρ : Relocation}
    (hi : ∀ room, Movable ρ (inner room)) (room : Nat) : ∀ l, Movable ρ (production inner room l)
  | .piped => piped_movable hi
  | .or => disjunction_movable hi
  | .and => chain_movable (negated_movable hi _) _
  | .not => negated_movable hi room
  | .comparison => compared_movable hi
  | .sum => chain_movable (chain_movable (signed_movable hi) _) _
  | .product => chain_movable (signed_movable hi) _
  | .sign => signed_movable hi
  | .postfixed => postfixed_movable hi
  | .atom => atom_movable hi

end Expr

end Stencil
