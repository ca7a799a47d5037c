import Stencil.Proofs.Token.Lexeme

/-!
# Tokens one after the other

The token at an offset stands at the first character from there on that is not blank. Reading on at
the end of each token gives the stream that clauses are read from, and any part of the stream is
found again by reading on from where the part begins.
-/

namespace Stencil

namespace Text

theorem dropWhile_blank (source : Text) (offset : Nat) :
    (source.drop offset).dropWhile isBlank = source.drop (skipBlank source offset) := by
  let blanks := (source.drop offset).takeWhile isBlank
  calc (source.drop offset).dropWhile isBlank
      = (blanks ++ (source.drop offset).dropWhile isBlank).drop blanks.length :=
        List.drop_left.symm
    _ = source.drop (skipBlank source offset) := by
        rw [List.takeWhile_append_dropWhile, List.drop_drop, skipBlank]

theorem le_skipBlank (source : Text) (offset : Nat) : offset ≤ skipBlank source offset :=
  Nat.le_add_right _ _

@[simp] theorem skipBlank_skipBlank (source : Text) (offset : Nat) :
    skipBlank source (skipBlank source offset) = skipBlank source offset := by
  have h : (source.drop (skipBlank source offset)).takeWhile isBlank = [] := by
    rw [← dropWhile_blank]
    cases hd : (source.drop offset).dropWhile isBlank with
    | nil => rfl
    | cons c rest =>
      have hc := List.head?_dropWhile_not isBlank (source.drop offset)
      rw [hd] at hc
      simp only [List.head?_cons] at hc
      simp [hc]
  rw [skipBlank, h, List.length_nil, Nat.add_zero]

end Text

namespace Token

open Text (skipBlank)

/-! ## The token at an offset -/

theorem atOffset_eq (source : Text) (offset : Nat) :
    atOffset source offset =
      match lexeme? (source.drop (skipBlank source offset)) with
      | none => ⟨.invalid, skipBlank source offset, skipBlank source offset, []⟩
      | some (kind, text) =>
        ⟨kind, skipBlank source offset, skipBlank source offset + text.length, text⟩ := by
  rw [atOffset, next, Text.dropWhile_blank]
  simp only [skipBlank]
  cases lexeme? (source.drop (offset + ((source.drop offset).takeWhile Text.isBlank).length)) <;>
    rfl

@[simp] theorem start_atOffset (source : Text) (offset : Nat) :
    (atOffset source offset).start = skipBlank source offset := by
  rw [atOffset_eq]; split <;> rfl

@[simp] theorem atOffset_start (source : Text) (offset : Nat) :
    atOffset source (atOffset source offset).start = atOffset source offset := by
  rw [start_atOffset, atOffset_eq, atOffset_eq, Text.skipBlank_skipBlank]

theorem atOffset_spelled (source : Text) (offset : Nat) : (atOffset source offset).Spelled := by
  rw [atOffset_eq]
  split
  · intro s hs; cases hs
  · rename_i kind text h
    exact (lexeme_kind h).2

theorem le_start_atOffset (source : Text) (offset : Nat) :
    offset ≤ (atOffset source offset).start := by
  rw [start_atOffset]; exact Text.le_skipBlank _ _

theorem start_le_stop_atOffset (source : Text) (offset : Nat) :
    (atOffset source offset).start ≤ (atOffset source offset).stop := by
  rw [atOffset_eq]; split
  · exact Nat.le_refl _
  · exact Nat.le_add_right _ _

theorem atOffset_bounds {source : Text} {offset : Nat}
    (h : (atOffset source offset).kind ≠ .invalid) :
    (atOffset source offset).start < (atOffset source offset).stop ∧
      (atOffset source offset).stop ≤ source.length := by
  rw [atOffset_eq] at h ⊢
  split at h
  · exact absurd rfl h
  · rename_i kind text hl
    obtain ⟨hp, hne⟩ := lexeme_isPrefix hl
    have hlen := hp.length_le
    have hpos := List.length_pos_iff.mpr hne
    rw [List.length_drop] at hlen
    simp only
    omega

/-- The characters of a token stand in the source from its start to its stop. -/
theorem drop_start_atOffset {source : Text} {offset : Nat}
    (h : (atOffset source offset).kind ≠ .invalid) :
    let t := atOffset source offset
    source.drop t.start = t.text ++ source.drop t.stop ∧ t.stop = t.start + t.text.length := by
  intro t
  have ht : t = _ := atOffset_eq source offset
  replace h : t.kind ≠ .invalid := h
  cases hl : lexeme? (source.drop (skipBlank source offset)) with
  | none =>
    rw [hl] at ht
    exact absurd (congrArg kind ht) h
  | some q =>
    obtain ⟨kind, text⟩ := q
    rw [hl] at ht
    obtain ⟨more, hmore⟩ := (lexeme_isPrefix hl).1
    have hrest : source.drop (skipBlank source offset + text.length) = more := by
      rw [← List.drop_drop, ← hmore, List.drop_left]
    rw [ht]
    exact ⟨by rw [hrest, hmore], rfl⟩

/-- The blanks before a token, its characters, and the source after it. -/
theorem drop_atOffset {source : Text} {offset : Nat}
    (h : (atOffset source offset).kind ≠ .invalid) :
    let t := atOffset source offset
    ∃ blanks, (∀ c ∈ blanks, Text.isBlank c = true) ∧
      source.drop offset = blanks ++ (t.text ++ source.drop t.stop) ∧
      t.stop = offset + (blanks.length + t.text.length) := by
  obtain ⟨hdrop, hstop⟩ := drop_start_atOffset h
  refine ⟨(source.drop offset).takeWhile Text.isBlank, ?_, ?_, ?_⟩
  · exact fun c hc => List.all_eq_true.mp List.all_takeWhile c hc
  · rw [← hdrop, start_atOffset, ← Text.dropWhile_blank, List.takeWhile_append_dropWhile]
  · rw [hstop, start_atOffset]
    exact Nat.add_assoc ..

/-! ## Reading on -/

theorem stream_cons {closes : Kind → Bool} {offset : Nat} {rest body : Text} {c : Char} {k : Kind}
    {w : Text} (hrest : rest.dropWhile Text.isBlank = c :: body)
    (h : lexeme? (c :: body) = some (k, w)) :
    stream closes offset rest =
      let start := offset + (rest.takeWhile Text.isBlank).length
      let token : Token := ⟨k, start, start + w.length, w⟩
      if closes k then [token]
      else token :: stream closes token.stop (body.drop (w.length - 1)) := by
  rw [stream, hrest]
  simp only [h]

/-- The stream is made of the tokens at the offsets where the ones before end. -/
theorem stream_drop (closes : Kind → Bool) (source : Text) (offset : Nat) :
    stream closes offset (source.drop offset) =
      let token := atOffset source offset
      if token.kind = .invalid ∨ closes token.kind then [token]
      else token :: stream closes token.stop (source.drop token.stop) := by
  simp only
  rw [stream, Text.dropWhile_blank, atOffset_eq]
  split
  · rename_i h
    have hl : lexeme? (source.drop (skipBlank source offset)) = none := by rw [h]; rfl
    rw [hl]
    rfl
  · rename_i c body h
    rw [h]
    cases hl : lexeme? (c :: body) with
    | none => simp [skipBlank]
    | some q =>
      obtain ⟨kind, text⟩ := q
      obtain ⟨hp, hne⟩ := lexeme_isPrefix hl
      have hdrop : body.drop (text.length - 1) =
          source.drop (skipBlank source offset + text.length) := by
        rw [← List.drop_drop, h]
        have := List.length_pos_iff.mpr hne
        obtain ⟨n, hn⟩ : ∃ n, text.length = n + 1 := ⟨text.length - 1, by omega⟩
        rw [hn, List.drop_succ_cons, Nat.add_sub_cancel]
      have hk := (lexeme_kind hl).1
      simp only [hk, false_or, hdrop]
      rfl

theorem exists_stream (closes : Kind → Bool) (source : Text) (offset : Nat) :
    ∃ ts, stream closes offset (source.drop offset) = atOffset source offset :: ts := by
  rw [stream_drop]
  simp only
  split
  · exact ⟨[], rfl⟩
  · exact ⟨_, rfl⟩

theorem stream_next {closes : Kind → Bool} {source : Text} {offset : Nat}
    (hk : (atOffset source offset).kind ≠ .invalid)
    (hc : closes (atOffset source offset).kind = false) :
    stream closes offset (source.drop offset) =
      atOffset source offset :: stream closes (atOffset source offset).stop
        (source.drop (atOffset source offset).stop) := by
  rw [stream_drop]
  exact if_neg (by simp [hk, hc])

/-- What comes after a token of a stream is the stream from where the token ends. -/
theorem stream_after {closes : Kind → Bool} {source : Text}
    {before after : List Token} {t : Token} {offset : Nat}
    (h : stream closes offset (source.drop offset) = before ++ t :: after)
    (hk : t.kind ≠ .invalid) (hc : closes t.kind = false) :
    after = stream closes t.stop (source.drop t.stop) := by
  induction before generalizing offset with
  | nil =>
    obtain ⟨more, hmore⟩ := exists_stream closes source offset
    obtain ⟨rfl, rfl⟩ := List.cons.inj (hmore.symm.trans h)
    rw [stream_next hk hc] at hmore
    exact (List.cons.inj hmore).2.symm
  | cons b before ih =>
    rw [stream_drop] at h
    simp only at h
    split at h
    · exact absurd (List.cons.inj h).2 (by simp)
    · exact ih (List.cons.inj h).2

/-- There are no more tokens than characters, and the one that ends the stream. -/
theorem length_stream (closes : Kind → Bool) (source : Text) (offset : Nat) :
    (stream closes offset (source.drop offset)).length ≤ source.length - offset + 1 := by
  rw [stream_drop]
  simp only
  split
  · exact Nat.le_add_left _ _
  · rename_i hk
    have ⟨hlt, hle⟩ := atOffset_bounds fun h => hk (.inl h)
    have := le_start_atOffset source offset
    have := length_stream closes source (atOffset source offset).stop
    rw [List.length_cons]
    omega
termination_by source.length - offset
decreasing_by omega

def onward (source : Text) (offset : Nat) : List Token :=
  stream (fun _ => false) offset (source.drop offset)

theorem onward_eq (source : Text) (offset : Nat) :
    onward source offset =
      let token := atOffset source offset
      if token.kind = .invalid then [token] else token :: onward source token.stop := by
  rw [onward, stream_drop]
  simp only [Bool.false_eq_true, or_false]
  rfl

/-- Each token is the one at the end of the token before it, the first one the one at `offset`. -/
def Follows (source : Text) : Nat → List Token → Prop
  | _, [] => True
  | offset, t :: ts => t = atOffset source offset ∧ Follows source t.stop ts

theorem Follows.front_bounds {source : Text} {t : Token} {ts : List Token} {offset : Nat}
    (h : Follows source offset (t :: ts)) : offset ≤ t.start ∧ t.start ≤ t.stop := by
  rw [h.1]
  exact ⟨le_start_atOffset source offset, start_le_stop_atOffset source offset⟩

theorem follows_stream (closes : Kind → Bool) (source : Text) (offset : Nat) :
    Follows source offset (stream closes offset (source.drop offset)) := by
  rw [stream_drop]
  simp only
  split
  · exact ⟨rfl, trivial⟩
  · rename_i hk
    have ⟨hlt, hle⟩ := atOffset_bounds fun h => hk (.inl h)
    have := le_start_atOffset source offset
    exact ⟨rfl, follows_stream closes source (atOffset source offset).stop⟩
termination_by source.length - offset
decreasing_by omega

def lastStop : Nat → List Token → Nat
  | offset, [] => offset
  | _, t :: ts => lastStop t.stop ts

theorem lastStop_append (offset : Nat) (ts us : List Token) :
    lastStop offset (ts ++ us) = lastStop (lastStop offset ts) us := by
  induction ts generalizing offset with
  | nil => rfl
  | cons t ts ih => exact ih t.stop

theorem follows_append {source : Text} {ts us : List Token} {offset : Nat} :
    Follows source offset (ts ++ us) ↔
      Follows source offset ts ∧ Follows source (lastStop offset ts) us := by
  induction ts generalizing offset with
  | nil => exact ⟨fun h => ⟨trivial, h⟩, And.right⟩
  | cons t ts ih => exact (and_congr_right fun _ => ih).trans and_assoc.symm

theorem Follows.le_lastStop {source : Text} : ∀ {ts : List Token} {offset : Nat},
    Follows source offset ts → offset ≤ lastStop offset ts
  | [], _, _ => Nat.le_refl _
  | _ :: _, _, h =>
    have ⟨hbefore, hle⟩ := h.front_bounds
    Nat.le_trans (Nat.le_trans hbefore hle) (Follows.le_lastStop h.2)

theorem Follows.of_append {source : Text} {ts us : List Token} {offset : Nat}
    (h : Follows source offset (ts ++ us)) : ∃ o, offset ≤ o ∧ Follows source o us :=
  have ⟨hts, hus⟩ := follows_append.mp h
  ⟨_, hts.le_lastStop, hus⟩

theorem Follows.exists_offset {source : Text} : ∀ {ts : List Token} {offset : Nat},
    Follows source offset ts → ∀ t ∈ ts, ∃ o, offset ≤ o ∧ t = atOffset source o
  | u :: us, offset, h, t, ht => by
    rcases List.mem_cons.mp ht with rfl | ht
    · exact ⟨offset, Nat.le_refl _, h.1⟩
    · obtain ⟨o, ho, heq⟩ := Follows.exists_offset h.2 t ht
      obtain ⟨hbefore, hle⟩ := h.front_bounds
      exact ⟨o, by omega, heq⟩

/-- Tokens come one after the other. -/
theorem Follows.stop_le_start {source : Text} : ∀ {ts us : List Token} {offset : Nat},
    Follows source offset (ts ++ us) → ∀ t ∈ ts, ∀ u ∈ us, t.stop ≤ u.start
  | v :: ts, us, offset, ⟨hv, hvs⟩, t, ht, u, hu => by
    rcases List.mem_cons.mp ht with rfl | ht
    · obtain ⟨o, ho, rfl⟩ := hvs.exists_offset u (List.mem_append_right _ hu)
      exact Nat.le_trans ho (le_start_atOffset source o)
    · exact Follows.stop_le_start hvs t ht u hu

theorem Follows.spelled {source : Text} : ∀ {ts : List Token} {offset : Nat},
    Follows source offset ts → ∀ t ∈ ts, t.Spelled
  | _ :: _, _, ⟨ht, hts⟩, u, hu => by
    rcases List.mem_cons.mp hu with rfl | hu
    · exact ht ▸ atOffset_spelled _ _
    · exact Follows.spelled hts u hu

/-- The tokens that begin from `start` on and before `stop`, up to the first one that is
invalid. -/
def covered (source : Text) (start stop : Nat) : List Token :=
  let token := atOffset source start
  if token.kind = .invalid ∨ stop ≤ token.start then [] else token :: covered source token.stop stop
termination_by source.length - start
decreasing_by
  rename_i h
  obtain ⟨hlt, hle⟩ := atOffset_bounds fun hk => h (.inl hk)
  have := le_start_atOffset source start
  omega

theorem covered_start (source : Text) (offset stop : Nat) :
    covered source (atOffset source offset).start stop = covered source offset stop := by
  conv => lhs; rw [covered, atOffset_start]
  conv => rhs; rw [covered]

/-- Tokens of a stream are found again between the offset they begin after and their end. -/
theorem Follows.covered_eq {source : Text} : ∀ {ts us : List Token} {offset : Nat},
    Follows source offset (ts ++ us) → (∀ t ∈ ts, t.kind ≠ .invalid) →
    covered source offset (lastStop offset ts) = ts
  | [], _, offset, _, _ => by
    rw [covered]
    exact if_pos (.inr (le_start_atOffset source offset))
  | t :: ts, us, offset, ⟨ht, hts⟩, hk => by
    have hvalid : t.kind ≠ .invalid := hk t List.mem_cons_self
    have hlt := (atOffset_bounds (ht ▸ hvalid)).1
    have hle : t.stop ≤ lastStop t.stop ts := (follows_append.mp hts).1.le_lastStop
    rw [← ht] at hlt
    rw [covered]
    simp only [← ht, lastStop]
    rw [if_neg (not_or.mpr ⟨hvalid, Nat.not_le.mpr (Nat.lt_of_lt_of_le hlt hle)⟩)]
    exact congrArg _ (Follows.covered_eq hts fun u hu => hk u (List.mem_cons_of_mem _ hu))

end Token

end Stencil
