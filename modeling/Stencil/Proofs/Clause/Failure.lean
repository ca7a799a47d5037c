import Stencil.Proofs.Clause.Concatenation
import Stencil.Proofs.Token.Truncation

/-!
# Scans that fail

A scan fails at one clause. What stands in front of that clause is scanned alone to the clauses that
were read before it, and the error is about a place that is neither before the clause nor after the
end of the source.
-/

namespace Stencil

/-! ## Where errors are -/

theorem Token.stop_atOffset_le {source : Text} {offset : Nat} (h : offset ≤ source.length) :
    (atOffset source offset).stop ≤ source.length := by
  by_cases hk : (atOffset source offset).kind = .invalid
  · have hblank := (List.takeWhile_prefix Text.isBlank (l := source.drop offset)).length_le
    rw [List.length_drop] at hblank
    rw [atOffset_eq] at hk ⊢
    split at hk
    · simp only [Text.skipBlank]
      omega
    · next hl => exact absurd hk (lexeme_kind hl).1
  · exact (atOffset_bounds hk).2

theorem Token.Follows.within {source : Text} : ∀ {ts : List Token} {offset : Nat},
    Follows source offset ts → offset ≤ source.length →
    ∀ t ∈ ts, offset ≤ t.start ∧ t.start ≤ t.stop ∧ t.stop ≤ source.length
  | t :: ts, offset, h, hle, u, hu => by
    obtain ⟨hstart, hstop⟩ := h.front_bounds
    have hend : t.stop ≤ source.length := h.1 ▸ stop_atOffset_le hle
    rcases List.mem_cons.mp hu with rfl | hu
    · exact ⟨hstart, hstop, hend⟩
    · obtain ⟨hafter, hrest⟩ := Follows.within h.2 hend u hu
      exact ⟨by omega, hrest⟩

/-- Moves what is outside of a part of the source to the nearer end of that part. -/
def Relocation.into (first last : Nat) : Relocation :=
  ⟨fun n => max first (min n last), fun n => max first (min n last)⟩

section
variable {first last : Nat}

theorem Relocation.into_eq {n : Nat} (h : first ≤ n ∧ n ≤ last) : max first (min n last) = n := by
  omega

theorem Relocation.into_tokens {ts : List Token}
    (h : ∀ t ∈ ts, first ≤ t.start ∧ t.start ≤ t.stop ∧ t.stop ≤ last) :
    (into first last).tokens ts = ts := by
  refine (List.map_congr_left fun t ht => ?_).trans (List.map_id ts)
  obtain ⟨hfirst, hle, hlast⟩ := h t ht
  have hstart : max first (min t.start last) = t.start := into_eq ⟨hfirst, by omega⟩
  have hstop : max first (min t.stop last) = t.stop := into_eq ⟨by omega, hlast⟩
  simp only [token, into, hstart, hstop, id]

/-- What is not moved has its errors where nothing is moved. -/
theorem Relocation.error_within {α : Type} {f : α → α} {x : Except Expr.Refusal α}
    (hx : x = (into first last).outcome f x) (hle : first ≤ last) {kind : ParseKind} {offset : Nat}
    (h : x = .error (.located kind offset)) : first ≤ offset ∧ offset ≤ last := by
  have hplace : (into first last).place kind offset = max first (min offset last) := by
    unfold place
    cases kind.atStart <;> rfl
  rw [h] at hx
  have heq : offset = (into first last).place kind offset :=
    (Expr.Refusal.located.inj (Except.error.inj hx)).2
  omega

end

namespace Clause

open Draft (Opens)
open Stencil.Expr (Refusal)

variable {stack : Stack}

section
variable {source : Text} {offset : Nat}

theorem opens_of_error {r : Refusal} (h : read stack offset (source.drop offset) = .error r) :
    Opens (source.drop offset) := by
  unfold read at h
  split at h
  · next rest heq => exact ⟨'%', rest, heq, .inl rfl⟩
  · next rest heq => exact ⟨'{', rest, heq, .inr rfl⟩
  · cases h

/-- A clause that cannot be read is to blame from its start to the end of the source. -/
theorem error_within {r : Refusal} (h : read stack offset (source.drop offset) = .error r)
    {kind : ParseKind} {e : Nat} (he : blame offset r = .located kind e) :
    offset ≤ e ∧ e ≤ source.length := by
  obtain ⟨d, rest, heq, hd⟩ := opens_of_error h
  have hrest := drop_opening heq
  have hlength : offset + 2 ≤ source.length := by
    have := congrArg List.length heq
    rw [List.length_drop, List.length_cons, List.length_cons] at this
    omega
  cases r with
  | tooDeep =>
    cases he
    omega
  | numeralTooLong => cases he
  | located k n =>
    obtain ⟨rfl, rfl⟩ := ParseFault.located.inj he
    -- all tokens lie in the source, and so does what is computed from their places
    let ρ := Relocation.into offset source.length
    have htokens : ρ.tokens (Token.stream closes (offset + 2) rest) =
        Token.stream closes (offset + 2) rest := by
      apply Relocation.into_tokens
      intro t ht
      have hf := Token.follows_stream closes source (offset + 2)
      obtain ⟨hstart, hmore⟩ := hf.within hlength t (hrest ▸ ht)
      exact ⟨by omega, hmore⟩
    have hstart : ρ.start offset = offset :=
      Relocation.into_eq ⟨Nat.le_refl _, by omega⟩
    rw [heq] at h
    rcases hd with rfl | rfl
    · have hmove := @readStatement_move stack ρ offset _
        (Token.stream_ends closes (offset + 2) rest)
      rw [htokens, hstart] at hmove
      exact Relocation.error_within hmove (by omega) h
    · have hmove := @readOutput_move stack ρ offset (Token.stream closes (offset + 2) rest)
      rw [htokens, hstart] at hmove
      exact Relocation.error_within hmove (by omega) h

/-! ## The front of a source -/

variable {c : Clause} {n : Nat}

theorem textLength_take {t : Text} : ∀ {k : Nat}, k = textLength t ∨ textLength t + 2 ≤ k →
    textLength (t.take k) = textLength t := by
  fun_induction textLength t with
  | case1 => simp [textLength]
  | case2 rest | case3 rest =>
    rintro (_ | _ | k) hk
    · rfl
    · omega
    · rfl
  | case4 a rest hs ho ih =>
    intro k hk
    obtain ⟨k, rfl⟩ : ∃ m, k = m + 1 := ⟨k - 1, by omega⟩
    rw [List.take_succ_cons, textLength_cons, ih (by omega)]
    rintro ⟨d, more, heq, hd⟩
    obtain ⟨rfl, htake⟩ := List.cons.inj heq
    obtain ⟨tail, htail⟩ := List.take_prefix k rest
    rw [htake] at htail
    rcases hd with rfl | rfl
    · exact hs _ rfl htail.symm
    · exact ho _ rfl htail.symm

theorem slice_opens {d : Char} {rest : Text} (h : source.drop offset = '{' :: d :: rest)
    (hn : offset + 2 ≤ n) : source.slice offset n = '{' :: d :: source.slice (offset + 2) n := by
  obtain ⟨k, rfl⟩ := Nat.exists_eq_add_of_le hn
  rw [Text.slice, Text.slice, h, drop_opening h, Nat.add_sub_cancel_left, Nat.add_assoc,
    Nat.add_sub_cancel_left, Nat.add_comm 2 k, List.take_succ_cons, List.take_succ_cons]

theorem tag_stream (hlt : offset < source.length)
    (h : read stack offset (source.drop offset) = .ok c)
    (hc : c.isText = false) (hstop : c.stop ≤ n) :
    offset + 4 ≤ c.stop ∧ (n ≤ source.length →
      Token.stream closes (offset + 2) (source.slice (offset + 2) n) =
        Token.stream closes (offset + 2) (source.drop (offset + 2))) := by
  rcases read_sound hlt h with ⟨rfl, -⟩ | ⟨ts, rest, hts, hr, -⟩
  · cases hc
  obtain ⟨front, last, rfl, hk, hlast⟩ := hr.closing
  have hmem : last ∈ Token.stream closes (offset + 2) (source.drop (offset + 2)) := by
    rw [hts]
    simp
  obtain ⟨init, hinit, hkinds⟩ := Token.stream_closed rfl hmem hk
  have hf := Token.follows_stream closes source (offset + 2)
  rw [hinit] at hf
  obtain ⟨o, ho, heq⟩ := hf.exists_offset last (by simp)
  have hstart := Token.le_start_atOffset source o
  rw [← heq] at hstart
  obtain ⟨-, -, -, -, hwidth⟩ := Token.closing_atOffset (fun _ => closes_eq) heq hk
  refine ⟨by omega, fun hn => ?_⟩
  rw [hinit]
  exact hf.stream_slice (fun _ => closes_eq) hk (hlast ▸ hstop) hn hkinds

theorem read_slice_tag (hlt : offset < source.length) (hn : n ≤ source.length)
    (h : read stack offset (source.drop offset) = .ok c) (hc : c.isText = false)
    (hstop : c.stop ≤ n) :
    read stack offset (source.slice offset n) = .ok c := by
  obtain ⟨hwidth, hstream⟩ := tag_stream hlt h hc hstop
  obtain ⟨d, rest, hopen, hd⟩ : Opens (source.drop offset) := by
    unfold read at h
    split at h
    · next rest heq => exact ⟨'%', rest, heq, .inl rfl⟩
    · next rest heq => exact ⟨'{', rest, heq, .inr rfl⟩
    · cases h
      cases hc
  rw [drop_opening hopen] at hstream
  rw [hopen] at h
  rw [slice_opens hopen (by omega), ← h]
  rcases hd with rfl | rfl
  · exact congrArg (readStatement stack offset) (hstream hn)
  · exact congrArg (readOutput stack offset) (hstream hn)

theorem read_slice_text {s : Span} (hlt : offset < source.length)
    (h : read stack offset (source.drop offset) = .ok (.text s))
    (hstop : s.stop = n ∨ s.stop + 2 ≤ n) :
    read stack offset (source.slice offset n) = .ok (.text s) := by
  rcases read_sound hlt h with ⟨heq, hpos⟩ | ⟨_, _, _, hr, _⟩
  · obtain rfl := Clause.text.inj heq
    have hlength := textLength_take (t := source.drop offset) (k := n - offset) (by
      dsimp only at hstop
      omega)
    rw [Text.slice, read_text (hlength ▸ hpos), hlength]
  · cases hr.isText

end

inductive Scanned (stack : Stack) (source : Text) :
    (offset : Nat) → List Clause → (stop : Nat) → Prop
  | nil {offset} : Scanned stack source offset [] offset
  | cons {offset stop c clauses} : offset < source.length →
      clauseAt stack source offset = .ok c → Scanned stack source c.stop clauses stop →
      Scanned stack source offset (c :: clauses) stop

section
variable {source : Text} {offset stop : Nat} {clauses : List Clause}

theorem Scanned.le (h : Scanned stack source offset clauses stop) : offset ≤ stop := by
  induction h with
  | nil => exact Nat.le_refl _
  | cons hlt hread _ ih =>
    rw [clauseAt_eq_read] at hread
    exact Nat.le_trans (Nat.le_of_lt (lt_stop_of_read hlt hread)) ih

theorem Scanned.le_length (h : Scanned stack source offset clauses stop)
    (hle : offset ≤ source.length) :
    stop ≤ source.length := by
  induction h with
  | nil => exact hle
  | cons hlt hread _ ih =>
    rw [clauseAt_eq_read] at hread
    exact ih (bounds_of_read hlt hread).2.2

theorem Scanned.after_text {s : Span} (hlt : offset < source.length)
    (hread : read stack offset (source.drop offset) = .ok (.text s))
    (h : Scanned stack source s.stop clauses stop) : s.stop = stop ∨ s.stop + 2 ≤ stop := by
  cases h with
  | nil => exact .inl rfl
  | cons hnext hreadNext hmore =>
    rw [clauseAt_eq_read] at hreadNext
    refine .inr ?_
    have hopens : Opens (source.drop s.stop) := by
      refine (run_of_read hlt hread).2.resolve_left fun hend => ?_
      have := List.drop_eq_nil_iff.mp hend
      omega
    have hwidth := (tag_stream hnext hreadNext (isText_of_opens hopens hreadNext) hmore.le).1
    have := hmore.le
    omega

/-- What was read so far is what the front of the source is scanned to. -/
theorem Scanned.scan_take (h : Scanned stack source offset clauses stop)
    (hle : offset ≤ source.length) :
    scanFrom stack offset ((source.take stop).drop offset) = .ok clauses := by
  have hstop := h.le_length hle
  induction h with
  | nil => simp
  | @cons offset stop c clauses hlt hread hmore ih =>
    rw [clauseAt_eq_read] at hread
    obtain ⟨-, hbefore, hend⟩ := bounds_of_read hlt hread
    have hmoreLe := hmore.le
    have hlength : (source.take stop).length = stop := by
      rw [List.length_take]
      omega
    have hfront : read stack offset ((source.take stop).drop offset) = .ok c := by
      rw [List.drop_take]
      cases c with
      | text s => exact read_slice_text hlt hread (hmore.after_text hlt hread)
      | _ => exact read_slice_tag hlt hstop hread rfl hmoreLe
    rw [scanFrom_read (by omega) hfront, ih hend hstop]
    rfl

theorem scanFrom_of_error {rest : Text} {r : Refusal} (hne : rest ≠ [])
    (h : read stack offset rest = .error r) :
    scanFrom stack offset rest = .error (blame offset r) := by
  obtain ⟨c, rest, rfl⟩ := List.exists_cons_of_ne_nil hne
  rw [scanFrom, h]
  rfl

/-- A scan that fails has read some clauses before and fails at one that cannot be read. -/
theorem scanFrom_error {offset : Nat} {fault : ParseFault}
    (h : scanFrom stack offset (source.drop offset) = .error fault) :
    ∃ clauses stop r, Scanned stack source offset clauses stop ∧
      read stack stop (source.drop stop) = .error r ∧
      fault = blame stop r := by
  by_cases hlt : offset < source.length
  · rw [scanFrom_drop hlt] at h
    cases hread : read stack offset (source.drop offset) with
    | error r =>
      rw [hread] at h
      cases h
      exact ⟨[], offset, r, .nil, hread, rfl⟩
    | ok c =>
      have := lt_stop_of_read hlt hread
      rw [← scanFrom_drop hlt, scanFrom_read hlt hread] at h
      cases hmore : scanFrom stack c.stop (source.drop c.stop) with
      | error f =>
        obtain ⟨clauses, stop, r, hscanned, hr, rfl⟩ := scanFrom_error hmore
        rw [hmore] at h
        cases h
        exact
          ⟨c :: clauses, stop, r, .cons hlt ((clauseAt_eq_read _).trans hread) hscanned, hr, rfl⟩
      | ok more =>
        rw [hmore] at h
        cases h
  · rw [List.drop_eq_nil_of_le (Nat.le_of_not_lt hlt), scanFrom_nil] at h
    cases h
termination_by source.length - offset
decreasing_by omega

/-- A scan that gets to a clause that cannot be read fails there. -/
theorem Scanned.scanFrom_error {r : Refusal} (h : Scanned stack source offset clauses stop)
    (hr : read stack stop (source.drop stop) = .error r) :
    scanFrom stack offset (source.drop offset) = .error (blame stop r) := by
  induction h with
  | nil =>
    obtain ⟨d, rest, heq, -⟩ := opens_of_error hr
    exact scanFrom_of_error (heq ▸ List.cons_ne_nil _ _) hr
  | cons hlt hread _ ih =>
    rw [clauseAt_eq_read] at hread
    rw [scanFrom_read hlt hread, ih hr]
    rfl

theorem scan_error_iff {fault : ParseFault} :
    scan stack source = .error fault ↔ ∃ clauses stop r, Scanned stack source 0 clauses stop ∧
      clauseAt stack source stop = .error r ∧ fault = blame stop r := by
  simp only [clauseAt_eq_read]
  rw [scan_eq_scanFrom, ← List.drop_zero (l := source)]
  constructor
  · exact scanFrom_error
  · rintro ⟨clauses, stop, r, hscanned, hr, rfl⟩
    rw [List.drop_zero] at hr
    exact hscanned.scanFrom_error hr

end

end Clause

end Stencil
