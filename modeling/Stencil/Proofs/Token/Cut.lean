import Stencil.Proofs.Token.Layout
import Stencil.Proofs.Token.Stream

/-!
# Tokens cut out of a source

Tokens that follow each other are found again when the text that they cover is cut out of the source
and closed by the end of an output. The lexer may look at two characters after a token, so the two
braces have to do what the source did there. They do, unless the last token is a percent sign, which
would make the end of a statement with the first brace.
-/

namespace Stencil

theorem Text.slice_append {t : Text} {a b c : Nat} (hab : a ≤ b) (hbc : b ≤ c) :
    t.slice a b ++ t.slice b c = t.slice a c := by
  obtain ⟨m, rfl⟩ := Nat.exists_eq_add_of_le hab
  obtain ⟨n, rfl⟩ := Nat.exists_eq_add_of_le hbc
  rw [slice, slice, slice, ← List.drop_drop, Nat.add_assoc, Nat.add_sub_cancel_left,
    Nat.add_sub_cancel_left, ← Nat.add_assoc, Nat.add_sub_cancel_left, List.take_add]

theorem Text.slice_append_drop {t : Text} {a b : Nat} (h : a ≤ b) :
    t.slice a b ++ t.drop b = t.drop a := by
  obtain ⟨n, rfl⟩ := Nat.exists_eq_add_of_le h
  rw [slice, ← List.drop_drop, Nat.add_sub_cancel_left, List.take_append_drop]

theorem Text.slice_ne_nil {t : Text} {a b : Nat} (hab : a < b) (hb : b ≤ t.length) :
    t.slice a b ≠ [] := by
  apply List.ne_nil_of_length_pos
  rw [slice, List.length_take, List.length_drop]
  omega

namespace Token

open Text (skipBlank)

/-! ## One lexeme -/

theorem Stops.cut {p : Char → Bool} {s rest : Text} (h : Stops p (s ++ rest))
    (hp : p '}' = false) : Stops p (s ++ ['}', '}']) := by
  cases s with
  | nil => exact stops_cons.mpr hp
  | cons c s => exact stops_cons.mpr (stops_cons.mp h)

theorem pair_brace {c : Char} {k : Kind} (h : single? c = some k) (hk : k ≠ .percent) :
    (pair? c '}').isSome = false := by
  unfold single? at h
  split at h <;> cases h <;> first | exact absurd rfl hk | rfl

/-- A lexeme stays the same if braces come where the text after `s` did. -/
theorem Lexeme.cut {w : Word} {s rest : Text} (h : Lexeme w (s ++ rest)) (hne : s ++ rest ≠ [])
    (hs : s = [] → w.1 ≠ .percent) : Lexeme w (s ++ ['}', '}']) := by
  generalize ht : s ++ rest = t at h hne
  cases h with
  | pair hp => exact .pair hp
  | single hk hstops =>
    refine .single hk ?_
    cases s with
    | nil => exact stops_cons.mpr (pair_brace hk (hs rfl))
    | cons d s => exact stops_cons.mpr (stops_cons.mp (ht ▸ hstops : Stops _ (d :: (s ++ rest))))
  | dot hstops => exact .dot ((ht ▸ hstops).cut (by decide))
  | closed hq => exact .closed hq
  | unclosed hq => exact absurd rfl hne
  | word hw hstops => exact .word hw ((ht ▸ hstops).cut (by decide))
  | integer hw hdigits hstops hpoint =>
    refine .integer hw hdigits ((ht ▸ hstops).cut (by decide)) fun tail htail => ?_
    subst ht
    cases s with
    | nil => exact absurd (List.cons.inj htail).1 (by decide)
    | cons d s =>
      obtain ⟨rfl, rfl⟩ := List.cons.inj htail
      exact (hpoint (s ++ rest) rfl).cut (by decide)
  | decimal hw hstops => exact .decimal hw ((ht ▸ hstops).cut (by decide))

theorem lexeme_atOffset {source : Text} {offset : Nat}
    (h : (atOffset source offset).kind ≠ .invalid) :
    let t := atOffset source offset
    Lexeme (t.kind, t.text) (source.drop t.stop) := by
  intro t
  obtain ⟨hdrop, -⟩ := drop_start_atOffset h
  have ht : t = _ := atOffset_eq source offset
  cases hl : lexeme? (source.drop (skipBlank source offset)) with
  | none =>
    rw [hl] at ht
    exact absurd (congrArg Token.kind ht) h
  | some w =>
    obtain ⟨rest, hrest, hlex⟩ := exists_lexeme hl
    rw [hl] at ht
    have hw : (t.kind, t.text) = w := by rw [ht]
    rw [start_atOffset, hrest, ← hw] at hdrop
    rw [← List.append_cancel_left hdrop, hw]
    exact hlex

/-! ## Streams -/

section
variable {closes : Kind → Bool} {source : Text}

theorem slice_token {offset : Nat} (h : (atOffset source offset).kind ≠ .invalid) :
    let t := atOffset source offset
    ∃ blanks, (∀ c ∈ blanks, Text.isBlank c = true) ∧
      source.slice offset t.stop = blanks ++ t.text ∧
      offset + blanks.length = t.start ∧ t.stop = t.start + t.text.length := by
  intro t
  have hlength : t.stop = t.start + t.text.length := (drop_start_atOffset h).2
  obtain ⟨blanks, hblank, hdrop, hstop⟩ := drop_atOffset h
  replace hstop : t.stop = offset + (blanks.length + t.text.length) := hstop
  rw [← List.append_assoc] at hdrop
  refine ⟨blanks, hblank, ?_, by omega, hlength⟩
  rw [Text.slice, hdrop, hstop, Nat.add_sub_cancel_left, ← List.length_append, List.take_left]

/-- The tokens at `offset`, cut out of a source that goes on after them, are the stream of the text
between two pairs of braces. -/
theorem Follows.stream_cut (hclose : closes .expressionEnd = true) :
    ∀ {ts : List Token} {offset : Nat}, Follows source offset ts →
      (∀ t ∈ ts, t.kind ≠ .invalid ∧ closes t.kind = false) →
      (∀ init last, ts = init ++ [last] → last.kind ≠ .percent) →
      lastStop offset ts < source.length →
      stream closes offset (source.slice offset (lastStop offset ts) ++ ['}', '}']) =
        ts ++ [⟨.expressionEnd, lastStop offset ts, lastStop offset ts + 2, ['}', '}']⟩]
  | [], offset, _, _, _, _ => by
    have hempty : source.slice offset offset = [] := by
      rw [Text.slice, Nat.sub_self, List.take_zero]
    have hend : stream closes offset ([] ++ (['}', '}'] ++ [])) = _ :=
      stream_gap (w := (.expressionEnd, ['}', '}'])) nofun (lexeme_pair rfl [])
    rw [lastStop, hempty]
    exact hend.trans (if_pos hclose)
  | t :: ts, offset, ⟨ht, hts⟩, hkinds, hlast, hlt => by
    rw [lastStop] at hlt ⊢
    obtain ⟨hvalid, hopen⟩ := hkinds t List.mem_cons_self
    have ih := stream_cut hclose hts (fun u hu => hkinds u (List.mem_cons_of_mem _ hu))
      (fun init u h => hlast (t :: init) u (congrArg _ h)) hlt
    have hle : t.stop ≤ lastStop t.stop ts := hts.le_lastStop
    rw [ht] at hvalid
    obtain ⟨blanks, hblank, hslice, hstart, hstop⟩ := slice_token hvalid
    have hlex := lexeme_atOffset hvalid
    simp only [← ht] at hslice hstart hstop hlex
    rw [← Text.slice_append_drop hle] at hlex
    -- what comes after the token is empty only if it is the last one
    have hpercent : source.slice t.stop (lastStop t.stop ts) = [] → t.kind ≠ .percent := by
      cases ts with
      | nil => exact fun _ => hlast [] t rfl
      | cons u us =>
        have hu := (atOffset_bounds (hts.1 ▸ (hkinds u (by simp)).1)).1
        rw [← hts.1] at hu
        have hstart := hts.front_bounds.1
        have hus : u.stop ≤ lastStop u.stop us := hts.2.le_lastStop
        refine fun h => absurd h (Text.slice_ne_nil ?_ (Nat.le_of_lt hlt))
        exact Nat.lt_of_lt_of_le (Nat.lt_of_le_of_lt hstart hu) hus
    have hafter :
        source.slice t.stop (lastStop t.stop ts) ++ source.drop (lastStop t.stop ts) ≠ [] := by
      apply List.append_ne_nil_of_right_ne_nil
      exact List.ne_nil_of_length_pos (by rw [List.length_drop]; omega)
    have hfront : stream closes offset _ = _ := stream_gap hblank
      (hlex.cut hafter hpercent).lexeme_eq
    have hsplit : source.slice offset (lastStop t.stop ts) =
        blanks ++ t.text ++ source.slice t.stop (lastStop t.stop ts) := by
      rw [← hslice, Text.slice_append (by omega) hle]
    simp only [hstart, ← hstop, hopen, Bool.false_eq_true, if_false, ih] at hfront
    rw [hsplit, List.append_assoc, List.append_assoc]
    exact hfront

end

end Token

end Stencil
