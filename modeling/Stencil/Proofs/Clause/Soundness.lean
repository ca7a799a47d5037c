import Stencil.Proofs.Clause.Grammar
import Stencil.Proofs.Expr.Soundness

/-!
# What the scan reads

Every clause of a scan is read from the tokens after its opening delimiter, so the trees in it are
read from the tokens of the source that their spans cover.
-/

namespace Stencil.Clause

open Stencil.Expr (Refusal Phrase Short accept? accept_eq_some fail_ne_ok short_cons
  short_of_kind)
open Token (atOffset covered Follows)

variable {stack : Stack}

/-- The clause is read from the tokens, its expression is well-levelled, and both are within the
limits of the parser. -/
structure Phrased (stack : Stack) (start : Nat) (c : Clause) (ts : List Token) : Prop where
  reads : Reads start c ts
  levelled : c.WellLevelled
  fits : c.Fits stack
  short : Short ts

def Takes (stack : Stack) (start : Nat) (tokens : List Token) (c : Clause) : Prop :=
  ∃ ts rest, tokens = ts ++ rest ∧ Phrased stack start c ts

/-! ## Outputs and statements -/

theorem statementEnd_eq_ok {offset stop : Nat} {tokens : List Token}
    (h : statementEnd offset tokens = .ok stop) :
    ∃ c rest, tokens = c :: rest ∧ c.kind = .statementEnd ∧ c.stop = stop := by
  unfold statementEnd at h
  cases hc : accept? .statementEnd tokens with
  | none => rw [hc] at h; exact absurd h fail_ne_ok
  | some q =>
    obtain ⟨c, rest⟩ := q
    rw [hc] at h
    obtain ⟨rfl, hk⟩ := accept_eq_some.mp hc
    exact ⟨c, rest, rfl, hk, pure_eq_ok.mp h⟩

theorem wellLevelled_of_phrase {room : Nat} {c : Clause} {l : Level} {e : Expr} {ts : List Token}
    (hc : c.expression? = some (l, e)) (hp : Phrase room l e ts) : c.WellLevelled := by
  intro m d hd
  obtain ⟨rfl, rfl⟩ := Prod.mk.inj (Option.some.inj (hc.symm.trans hd))
  exact ⟨hp.levelled, hp.le_level⟩

theorem fits_of_phrase {c : Clause} {l : Level} {e : Expr} {ts : List Token}
    (hc : c.expression? = some (l, e)) (hp : Phrase (c.room stack) l e ts) : c.Fits stack := by
  intro m d hd
  obtain ⟨rfl, rfl⟩ := Prod.mk.inj (Option.some.inj (hc.symm.trans hd))
  exact hp.fits

theorem wellLevelled_of_none {c : Clause} (hc : c.expression? = none) : c.WellLevelled := by
  intro m d hd
  rw [hc] at hd
  cases hd

theorem fits_of_none {c : Clause} (hc : c.expression? = none) : c.Fits stack := by
  intro m d hd
  rw [hc] at hd
  cases hd

theorem short_closed {ts : List Token} {c : Token} (h : Short ts) (hc : c.kind ≠ .integer) :
    Short (ts ++ [c]) :=
  Short.append.mpr ⟨h, short_cons hc nofun⟩

theorem readOutput_sound {start : Nat} {tokens : List Token} {c : Clause}
    (h : readOutput stack start tokens = .ok c) : Takes stack start tokens c := by
  obtain ⟨o, ho, hnext⟩ := bind_eq_ok.mp h
  rcases o with _ | ⟨e, after⟩
  · exact absurd hnext fail_ne_ok
  obtain ⟨ts, rfl, hp⟩ := Expr.parse_sound _ ho
  cases hc : accept? .expressionEnd after with
  | none => simp only [hc] at hnext; exact absurd hnext fail_ne_ok
  | some q =>
    obtain ⟨closing, rest⟩ := q
    simp only [hc] at hnext
    obtain rfl := pure_eq_ok.mp hnext
    obtain ⟨rfl, hk⟩ := accept_eq_some.mp hc
    exact ⟨ts ++ [closing], rest, by simp, .output hk hp.reads, wellLevelled_of_phrase rfl hp,
      fits_of_phrase rfl hp, short_closed hp.short (by rw [hk]; decide)⟩

theorem readTest_sound {tokens rest : List Token} {e : Expr}
    (h : readTest stack tokens = .ok (e, rest)) :
    Expr.Takes (Phrase (stack.calls - 4) .piped) tokens e rest := by
  obtain ⟨o, ho, hnext⟩ := bind_eq_ok.mp h
  rcases o with _ | ⟨d, after⟩
  · exact absurd hnext fail_ne_ok
  obtain ⟨rfl, rfl⟩ := Prod.mk.inj (pure_eq_ok.mp hnext)
  exact Expr.parse_sound _ ho

theorem readLoop_sound {start : Nat} {keyword : Token} {tokens : List Token} {c : Clause}
    (hk : keyword.kind = .forWord) (h : readLoop stack start keyword tokens = .ok c) :
    Takes stack start (keyword :: tokens) c := by
  obtain ⟨o, ho, hnext⟩ := bind_eq_ok.mp h
  rcases o with _ | ⟨target, after⟩
  · exact absurd hnext fail_ne_ok
  cases target with
  | symbol s name =>
    obtain ⟨ts, rfl, hp⟩ := Expr.parse_sound _ ho
    obtain ⟨x, rfl, hx, heq⟩ := hp.reads.symbol_eq rfl
    cases heq
    cases hc : accept? .inWord after with
    | none => simp only [hc] at hnext; exact absurd hnext fail_ne_ok
    | some q =>
      obtain ⟨word, rest⟩ := q
      simp only [hc] at hnext
      obtain ⟨rfl, hi⟩ := accept_eq_some.mp hc
      obtain ⟨o, hit, hend⟩ := bind_eq_ok.mp hnext
      rcases o with _ | ⟨iterator, left⟩
      · exact absurd hend fail_ne_ok
      obtain ⟨us, rfl, hpi⟩ := Expr.parsePostfix_sound _ hit
      obtain ⟨stop, hstop, hpure⟩ := bind_eq_ok.mp hend
      obtain rfl := pure_eq_ok.mp hpure
      obtain ⟨closing, more, rfl, hck, rfl⟩ := statementEnd_eq_ok hstop
      refine ⟨keyword :: x :: word :: (us ++ [closing]), more, by simp,
        .forEach hk hx hi hck hpi.reads, wellLevelled_of_phrase rfl hpi, fits_of_phrase rfl hpi, ?_⟩
      apply short_cons (by rw [hk]; decide)
      apply short_cons (by rw [hx]; decide)
      exact short_cons (by rw [hi]; decide) (short_closed hpi.short (by rw [hck]; decide))
  | _ => exact absurd hnext fail_ne_ok

theorem bare_sound {start offset stop : Nat} {keyword : Token} {tokens : List Token}
    {c : Nat → Clause} (hk : keyword.kind ≠ .integer) (hn : ∀ n, (c n).expression? = none)
    (hr : ∀ t, t.kind = .statementEnd → Reads start (c t.stop) [keyword, t])
    (h : statementEnd offset tokens = .ok stop) :
    Takes stack start (keyword :: tokens) (c stop) := by
  obtain ⟨closing, rest, rfl, hck, rfl⟩ := statementEnd_eq_ok h
  exact ⟨[keyword, closing], rest, rfl, hr closing hck, wellLevelled_of_none (hn _),
    fits_of_none (hn _), short_cons hk (short_of_kind hck (by decide))⟩

theorem test_sound {start stop offset : Nat} {keyword : Token} {tokens after : List Token}
    {e : Expr} {c : Nat → Clause} (hk : keyword.kind ≠ .integer)
    (hc : ∀ n, (c n).expression? = some (.piped, e))
    (hroom : ∀ n, (c n).room stack = stack.calls - 4)
    (hr : ∀ t ts, t.kind = .statementEnd → e.Reads ts →
      Reads start (c t.stop) (keyword :: (ts ++ [t])))
    (ht : readTest stack tokens = .ok (e, after)) (hs : statementEnd offset after = .ok stop) :
    Takes stack start (keyword :: tokens) (c stop) := by
  obtain ⟨ts, rfl, hp⟩ := readTest_sound ht
  obtain ⟨closing, rest, rfl, hck, rfl⟩ := statementEnd_eq_ok hs
  exact ⟨keyword :: (ts ++ [closing]), rest, by simp, hr closing ts hck hp.reads,
    wellLevelled_of_phrase (hc _) hp, fits_of_phrase (hc _) ((hroom _).symm ▸ hp),
    short_cons hk (short_closed hp.short (by rw [hck]; decide))⟩

theorem readStatement_sound {start : Nat} {tokens : List Token} {c : Clause}
    (h : readStatement stack start tokens = .ok c) : Takes stack start tokens c := by
  cases tokens with
  | nil => exact absurd h fail_ne_ok
  | cons keyword tokens =>
    simp only [readStatement] at h
    split at h <;> rename_i hk
    · obtain ⟨⟨e, after⟩, ht, hnext⟩ := bind_eq_ok.mp h
      obtain ⟨stop, hs, hpure⟩ := bind_eq_ok.mp hnext
      obtain rfl := pure_eq_ok.mp hpure
      exact test_sound (c := fun n => .ifTest ⟨start, n⟩ e) (by rw [hk]; decide) (fun _ => rfl)
        (fun _ => rfl) (fun t ts hck hr => .ifTest hk hck hr) ht hs
    · obtain ⟨⟨e, after⟩, ht, hnext⟩ := bind_eq_ok.mp h
      obtain ⟨stop, hs, hpure⟩ := bind_eq_ok.mp hnext
      obtain rfl := pure_eq_ok.mp hpure
      exact test_sound (c := fun n => .elifTest ⟨start, n⟩ e) (by rw [hk]; decide) (fun _ => rfl)
        (fun _ => rfl) (fun t ts hck hr => .elifTest hk hck hr) ht hs
    · obtain ⟨stop, hs, hpure⟩ := bind_eq_ok.mp h
      obtain rfl := pure_eq_ok.mp hpure
      exact bare_sound (c := fun n => .otherwise ⟨start, n⟩) (by rw [hk]; decide) (fun _ => rfl)
        (fun t hck => .otherwise hk hck) hs
    · obtain ⟨stop, hs, hpure⟩ := bind_eq_ok.mp h
      obtain rfl := pure_eq_ok.mp hpure
      exact bare_sound (c := fun n => .endIf ⟨start, n⟩) (by rw [hk]; decide) (fun _ => rfl)
        (fun t hck => .endIf hk hck) hs
    · exact readLoop_sound hk h
    · obtain ⟨stop, hs, hpure⟩ := bind_eq_ok.mp h
      obtain rfl := pure_eq_ok.mp hpure
      exact bare_sound (c := fun n => .endFor ⟨start, n⟩) (by rw [hk]; decide) (fun _ => rfl)
        (fun t hck => .endFor hk hck) hs
    · exact absurd h fail_ne_ok

/-! ## The scan -/

theorem textLength_pos {source : Text} (hne : source ≠ [])
    (hs : ∀ rest, source ≠ '{' :: '%' :: rest) (ho : ∀ rest, source ≠ '{' :: '{' :: rest) :
    0 < textLength source := by
  unfold textLength
  split
  · exact absurd rfl hne
  · exact absurd rfl (hs _)
  · exact absurd rfl (ho _)
  · exact Nat.succ_pos _

theorem drop_opening {source rest : Text} {offset : Nat} {a b : Char}
    (h : source.drop offset = a :: b :: rest) : source.drop (offset + 2) = rest := by
  rw [← List.drop_drop, h]
  rfl

/-- A clause is a run of text, or it is read from the tokens two characters further on. -/
theorem read_sound {source : Text} {offset : Nat} {c : Clause} (hlt : offset < source.length)
    (h : read stack offset (source.drop offset) = .ok c) :
    (c = .text ⟨offset, offset + textLength (source.drop offset)⟩ ∧
      0 < textLength (source.drop offset)) ∨
    Takes stack offset (Token.stream closes (offset + 2) (source.drop (offset + 2))) c := by
  unfold read at h
  split at h
  · rename_i rest heq
    rw [drop_opening heq]
    exact .inr (readStatement_sound h)
  · rename_i rest heq
    rw [drop_opening heq]
    exact .inr (readOutput_sound h)
  · rename_i hs ho
    refine .inl ⟨(pure_eq_ok.mp h).symm, textLength_pos ?_ hs ho⟩
    exact List.ne_nil_of_length_pos (by rw [List.length_drop]; omega)

theorem lt_stop_of_read {source : Text} {offset : Nat} {c : Clause} (hlt : offset < source.length)
    (h : read stack offset (source.drop offset) = .ok c) : offset < c.stop := by
  rcases read_sound hlt h with ⟨rfl, hpos⟩ | ⟨ts, rest, hts, hr, _, _, _⟩
  · exact Nat.lt_add_of_pos_right hpos
  · have hf := Token.follows_stream closes source (offset + 2)
    rw [hts] at hf
    have := (Token.follows_append.mp hf).1.le_lastStop
    rw [hr.stop_eq (offset + 2)]
    omega

/-- The scan of the rest of a source: a clause, and the scan of what follows it. -/
theorem scanFrom_drop {source : Text} {offset : Nat} (hlt : offset < source.length) :
    scanFrom stack offset (source.drop offset) = (do
      let clause ← (read stack offset (source.drop offset)).mapError (blame offset)
      let more ← scanFrom stack clause.stop (source.drop clause.stop)
      return clause :: more) := by
  obtain ⟨c, rest, hd⟩ : ∃ c rest, source.drop offset = c :: rest :=
    List.exists_cons_of_length_pos (by rw [List.length_drop]; omega)
  rw [hd, scanFrom]
  cases hr : read stack offset (c :: rest) with
  | error e => rfl
  | ok clause =>
    have hstop := lt_stop_of_read hlt (hd ▸ hr)
    have hrest : rest.drop (clause.stop - offset - 1) = source.drop clause.stop := by
      obtain ⟨n, hn⟩ : ∃ n, clause.stop = offset + (n + 1) := ⟨clause.stop - offset - 1, by omega⟩
      rw [hn, ← List.drop_drop, hd, List.drop_succ_cons]
      congr 1
      omega
    show (do
      let more ← scanFrom stack clause.stop (rest.drop (clause.stop - offset - 1))
      return clause :: more) = _
    rw [hrest]
    rfl

theorem scanFrom_read {source : Text} {offset : Nat} {c : Clause} (hlt : offset < source.length)
    (h : read stack offset (source.drop offset) = .ok c) :
    scanFrom stack offset (source.drop offset) = (do
      let more ← scanFrom stack c.stop (source.drop c.stop)
      return c :: more) := by
  rw [scanFrom_drop hlt, h]
  rfl

theorem scanFrom_append {front rest : Text} {offset : Nat} {c : Clause} (hne : front ≠ [])
    (hread : read stack offset (front ++ rest) = .ok c) (hstop : c.stop = offset + front.length) :
    scanFrom stack offset (front ++ rest) = (do
      let more ← scanFrom stack c.stop rest
      return c :: more) := by
  obtain ⟨a, front, rfl⟩ := List.exists_cons_of_ne_nil hne
  have hrest : (front ++ rest).drop (c.stop - offset - 1) = rest := by
    rw [hstop, List.length_cons,
      show offset + (front.length + 1) - offset - 1 = front.length by omega]
    exact List.drop_left
  rw [List.cons_append] at hread ⊢
  rw [scanFrom, hread]
  show (do
    let more ← scanFrom stack c.stop ((front ++ rest).drop (c.stop - offset - 1))
    return c :: more) = _
  rw [hrest]

@[simp] theorem scanFrom_nil (offset : Nat) : scanFrom stack offset [] = .ok [] := by
  rw [scanFrom]; rfl

/-- Each clause of a scan was read at some place of the source. -/
theorem read_of_mem_scanFrom {source : Text} {offset : Nat} {clauses : List Clause}
    (h : scanFrom stack offset (source.drop offset) = .ok clauses) {c : Clause} (hc : c ∈ clauses) :
    ∃ o, o < source.length ∧ read stack o (source.drop o) = .ok c := by
  by_cases hlt : offset < source.length
  · rw [scanFrom_drop hlt] at h
    obtain ⟨clause, hread, hnext⟩ := bind_eq_ok.mp h
    obtain ⟨more, hmore, hpure⟩ := bind_eq_ok.mp hnext
    obtain rfl := pure_eq_ok.mp hpure
    have hread := mapError_eq_ok.mp hread
    have := lt_stop_of_read hlt hread
    rcases List.mem_cons.mp hc with rfl | hc
    · exact ⟨offset, hlt, hread⟩
    · exact read_of_mem_scanFrom hmore hc
  · rw [List.drop_eq_nil_of_le (Nat.le_of_not_lt hlt), scanFrom_nil] at h
    cases h
    cases hc
termination_by source.length - offset
decreasing_by omega

end Stencil.Clause
