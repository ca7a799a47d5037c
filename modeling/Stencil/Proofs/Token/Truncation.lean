import Stencil.Proofs.Token.Cut
import Stencil.Proofs.Token.Locality

/-!
# Tokens of the front of a source

A stream that a closing delimiter ends is the same in the front of the source that goes up to that
delimiter. A lexeme that something comes after ends where it does by one or two characters that the
front still has.
-/

namespace Stencil.Token

theorem Stops.front {p : Char → Bool} {s rest : Text} (h : Stops p (s ++ rest)) (hne : s ≠ []) :
    Stops p s := by
  obtain ⟨c, s, rfl⟩ := List.exists_cons_of_ne_nil hne
  exact stops_cons.mpr (stops_cons.mp h)

/-- A lexeme needs no more than two characters of what comes after it. -/
theorem Lexeme.front {w : Word} {s rest : Text} (h : Lexeme w (s ++ rest)) (hs : 2 ≤ s.length) :
    Lexeme w s := by
  have hne : s ≠ [] := List.ne_nil_of_length_pos (by omega)
  generalize ht : s ++ rest = t at h
  cases h with
  | pair hp => exact .pair hp
  | single hk hstops => exact .single hk ((ht ▸ hstops).front hne)
  | dot hstops => exact .dot ((ht ▸ hstops).front hne)
  | closed hq => exact .closed hq
  | unclosed hq => exact absurd (List.append_eq_nil_iff.mp ht).1 hne
  | word hw hstops => exact .word hw ((ht ▸ hstops).front hne)
  | integer hw hdigits hstops hpoint =>
    refine .integer hw hdigits ((ht ▸ hstops).front hne) fun tail htail => ?_
    subst ht htail
    have htail : tail ≠ [] := List.ne_nil_of_length_pos (by rw [List.length_cons] at hs; omega)
    exact (hpoint (tail ++ rest) rfl).front htail
  | decimal hw hstops => exact .decimal hw ((ht ▸ hstops).front hne)

/-- Nothing in a stream is invalid or closes it but what it ends with. -/
theorem stream_closed {closes : Kind → Bool} {offset : Nat} {rest : Text} {t : Token}
    (hinvalid : closes .invalid = false) (ht : t ∈ stream closes offset rest)
    (hk : closes t.kind = true) :
    ∃ init, stream closes offset rest = init ++ [t] ∧
      ∀ u ∈ init, u.kind ≠ .invalid ∧ closes u.kind = false := by
  fun_induction stream closes offset rest with
  | case1 | case2 =>
    rw [List.mem_singleton.mp ht, hinvalid] at hk
    cases hk
  | case3 =>
    rw [List.mem_singleton.mp ht]
    exact ⟨[], rfl, List.forall_mem_nil _⟩
  | case4 offset rest start c body hrest kind text hlex token hc ih =>
    have htail := (List.mem_cons.mp ht).resolve_left (by rintro rfl; exact hc hk)
    obtain ⟨init, hinit, hkinds⟩ := ih htail
    refine ⟨token :: init, congrArg _ hinit, fun u hu => ?_⟩
    rcases List.mem_cons.mp hu with rfl | hu
    · exact ⟨(lexeme_kind hlex).1, eq_false_of_ne_true hc⟩
    · exact hkinds u hu

section
variable {closes : Kind → Bool} {source : Text} {n : Nat}

theorem stream_slice_cons {offset : Nat} {t : Token} (ht : t = atOffset source offset)
    (hvalid : t.kind ≠ .invalid) (hstop : t.stop ≤ n)
    (hlex : Lexeme (t.kind, t.text) (source.slice t.stop n)) :
    stream closes offset (source.slice offset n) =
      if closes t.kind then [t] else t :: stream closes t.stop (source.slice t.stop n) := by
  obtain ⟨blanks, hblank, hslice, hstart, hlength⟩ := slice_token (ht ▸ hvalid)
  simp only [← ht] at hslice hstart hlength
  have hfront : stream closes offset _ = _ := stream_gap hblank hlex.lexeme_eq
  simp only [hstart, ← hlength] at hfront
  have hle : offset ≤ t.stop := by omega
  rw [← Text.slice_append hle hstop, hslice, List.append_assoc]
  exact hfront

variable (hcloses : ∀ k, closes k = true → k = .statementEnd ∨ k = .expressionEnd)
include hcloses

theorem closing_atOffset {offset : Nat} {t : Token} (ht : t = atOffset source offset)
    (hk : closes t.kind = true) :
    ∃ c d, pair? c d = some t.kind ∧ t.text = [c, d] ∧ t.stop = t.start + 2 := by
  have hspelled : t.Spelled := ht ▸ atOffset_spelled source offset
  have hvalid : t.kind ≠ .invalid := fun h => invalid_not_closing hcloses (h ▸ hk)
  have hstop := (drop_start_atOffset (ht ▸ hvalid)).2
  rw [← ht] at hstop
  rcases hcloses _ hk with h | h
  · have htext : t.text = ['%', '}'] := hspelled _ (by rw [h]; rfl)
    exact ⟨'%', '}', by rw [h]; rfl, htext, by rw [hstop, htext]; rfl⟩
  · have htext : t.text = ['}', '}'] := hspelled _ (by rw [h]; rfl)
    exact ⟨'}', '}', by rw [h]; rfl, htext, by rw [hstop, htext]; rfl⟩

/-- Tokens up to a closing one are those of any front of the source that has them. -/
theorem Follows.stream_slice {last : Token} (hlast : closes last.kind = true)
    (hstop : last.stop ≤ n) (hn : n ≤ source.length) :
    ∀ {ts : List Token} {offset : Nat}, Follows source offset (ts ++ [last]) →
      (∀ t ∈ ts, t.kind ≠ .invalid ∧ closes t.kind = false) →
      stream closes offset (source.slice offset n) = ts ++ [last]
  | [], offset, ⟨ht, _⟩, _ => by
    have hvalid : last.kind ≠ .invalid := fun h => invalid_not_closing hcloses (h ▸ hlast)
    obtain ⟨c, d, hpair, htext, -⟩ := closing_atOffset hcloses ht hlast
    have hlex : Lexeme (last.kind, last.text) (source.slice last.stop n) := htext ▸ .pair hpair
    rw [stream_slice_cons ht hvalid hstop hlex, if_pos hlast]
    rfl
  | t :: ts, offset, ⟨ht, hts⟩, hkinds => by
    obtain ⟨hvalid, hopen⟩ := hkinds t List.mem_cons_self
    obtain ⟨o, ho, heq⟩ := hts.exists_offset last (by simp)
    have hlater : t.stop ≤ last.start := Nat.le_trans ho (heq ▸ le_start_atOffset source o)
    obtain ⟨-, -, -, -, hwidth⟩ := closing_atOffset hcloses heq hlast
    -- the closing token alone is as much as the lexer may look at after another one
    have hmore : 2 ≤ (source.slice t.stop n).length := by
      rw [Text.slice, List.length_take, List.length_drop]
      omega
    have hle : t.stop ≤ n := by omega
    have hlex := lexeme_atOffset (ht ▸ hvalid)
    simp only [← ht] at hlex
    rw [← Text.slice_append_drop hle] at hlex
    rw [stream_slice_cons ht hvalid hle (hlex.front hmore), if_neg (by rw [hopen]; decide)]
    exact congrArg (t :: ·)
      (stream_slice hlast hstop hn hts fun u hu => hkinds u (List.mem_cons_of_mem _ hu))

end

end Stencil.Token
