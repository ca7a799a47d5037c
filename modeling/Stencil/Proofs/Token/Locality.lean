import Stencil.Proofs.Expr.Relocation
import Stencil.Proofs.Token.Separable
import Stencil.Proofs.Token.Stream

/-!
# How far the lexer looks

A lexeme with two more characters after it stays the same whatever the text goes on with, and a
stream that a closing delimiter ends does not depend on what comes after that delimiter. Nothing
depends on how many characters stand before the text: the offsets shift and the rest is the same.
-/

namespace Stencil.Token

/-! ## Runs of characters -/

section
variable {α : Type} {p : α → Bool} {t : List α}

theorem takeWhile_append_of_ne (rest : List α) (h : t.takeWhile p ≠ t) :
    (t ++ rest).takeWhile p = t.takeWhile p := by
  rw [List.takeWhile_append, if_neg]
  intro hlen
  exact h ((List.takeWhile_prefix p).eq_of_length hlen)

theorem dropWhile_append_of_ne (rest : List α) (h : t.dropWhile p ≠ []) :
    (t ++ rest).dropWhile p = t.dropWhile p ++ rest := by
  rw [List.dropWhile_append, if_neg (by simpa using h)]

theorem takeWhile_ne_of_dropWhile (h : t.dropWhile p ≠ []) : t.takeWhile p ≠ t := by
  intro heq
  have hsplit := List.takeWhile_append_dropWhile (p := p) (l := t)
  rw [heq, List.append_right_eq_self] at hsplit
  exact h hsplit

end

/-! ## One lexeme -/

/-- A point still belongs to a number if a digit comes after it, so two characters are looked at
beyond the number. -/
theorem Lexeme.append {w : Word} {more : Text} (h : Lexeme w more) (hmore : 2 ≤ more.length)
    (rest : Text) : Lexeme w (more ++ rest) := by
  have hne : more ≠ [] := List.ne_nil_of_length_pos (by omega)
  cases h with
  | pair hp => exact .pair hp
  | single hk hs => exact .single hk (hs.append hne rest)
  | dot hs => exact .dot (hs.append hne rest)
  | closed ht => exact .closed ht
  | unclosed ht => exact absurd rfl hne
  | word hw hs => exact .word hw (hs.append hne rest)
  | integer hw hdigits hs hpoint =>
    refine .integer hw hdigits (hs.append hne rest) fun tail heq => ?_
    obtain ⟨c, d, more, rfl⟩ : ∃ c d ds, more = c :: d :: ds := by
      match more, hmore with
      | c :: d :: ds, _ => exact ⟨c, d, ds, rfl⟩
    obtain ⟨rfl, rfl⟩ := List.cons.inj heq
    exact (hpoint _ rfl).append (List.cons_ne_nil _ _) rest
  | decimal hw hs => exact .decimal hw (hs.append hne rest)

theorem lexeme_append {t w more : Text} {k : Kind} (rest : Text) (h : lexeme? t = some (k, w))
    (ht : t = w ++ more) (hmore : 2 ≤ more.length) : lexeme? (t ++ rest) = some (k, w) := by
  obtain ⟨after, hafter, hl⟩ := exists_lexeme h
  obtain rfl := List.append_cancel_left (ht.symm.trans hafter)
  rw [ht, List.append_assoc]
  exact (hl.append hmore rest).lexeme_eq

/-! ## Streams -/

theorem stream_none {closes : Kind → Bool} {offset : Nat} {rest : Text}
    (h : lexeme? (rest.dropWhile Text.isBlank) = none) :
    stream closes offset rest =
      let start := offset + (rest.takeWhile Text.isBlank).length
      [⟨.invalid, start, start, []⟩] := by
  rw [stream]
  split
  · rfl
  · rename_i hrest
    rw [← hrest, h]

theorem stream_ends (closes : Kind → Bool) (offset : Nat) (rest : Text) :
    ∃ init last, stream closes offset rest = init ++ [last] ∧
      (last.kind = .invalid ∨ closes last.kind = true) := by
  fun_induction stream closes offset rest with
  | case1 | case2 => exact ⟨[], _, rfl, .inl rfl⟩
  | case3 offset rest start c body hrest kind text hlex token hc => exact ⟨[], _, rfl, .inr hc⟩
  | case4 offset rest start c body hrest kind text hlex token hc ih =>
    obtain ⟨init, last, heq, hlast⟩ := ih
    exact ⟨token :: init, last, by rw [heq]; rfl, hlast⟩

theorem stream_shift (closes : Kind → Bool) (n offset : Nat) (rest : Text) :
    stream closes (n + offset) rest = (Relocation.shift n).tokens (stream closes offset rest) := by
  have hadd : ∀ l, n + offset + l = n + (offset + l) := fun l => Nat.add_assoc n offset l
  fun_induction stream closes offset rest with
  | case1 offset rest start hrest =>
    rw [stream_none (by rw [hrest]; rfl)]
    simp [start, Relocation.tokens, Relocation.token, Relocation.shift, hadd]
  | case2 offset rest start c body hrest hlex =>
    rw [stream_none (by rw [hrest, hlex])]
    simp [start, Relocation.tokens, Relocation.token, Relocation.shift, hadd]
  | case3 offset rest start c body hrest kind text hlex token hc =>
    rw [stream_cons hrest hlex, if_pos hc]
    simp [start, token, Relocation.tokens, Relocation.token, Relocation.shift, Nat.add_assoc]
  | case4 offset rest start c body hrest kind text hlex token hc ih =>
    rw [stream_cons hrest hlex, if_neg hc, Relocation.tokens_cons,
      ← ih fun l => Nat.add_assoc n token.stop l]
    simp [start, token, Relocation.token, Relocation.shift, Nat.add_assoc]

theorem drop_lexeme {w : Text} {k : Kind} {c : Char} {body : Text}
    (h : lexeme? (c :: body) = some (k, w)) : c :: body = w ++ body.drop (w.length - 1) := by
  obtain ⟨⟨more, hmore⟩, hne⟩ := lexeme_isPrefix h
  obtain ⟨d, w', rfl⟩ := List.exists_cons_of_ne_nil hne
  obtain ⟨rfl, rfl⟩ := List.cons.inj hmore
  simp

section
variable {closes : Kind → Bool}
  (hcloses : ∀ k, closes k = true → k = .statementEnd ∨ k = .expressionEnd)
include hcloses

theorem closing_pair {t w : Text} {k : Kind} (h : lexeme? t = some (k, w))
    (hk : closes k = true) : ∃ c d, pair? c d = some k ∧ w = [c, d] := by
  rcases hcloses k hk with rfl | rfl
  · exact ⟨'%', '}', rfl, (lexeme_kind h).2 _ rfl⟩
  · exact ⟨'}', '}', rfl, (lexeme_kind h).2 _ rfl⟩

theorem invalid_not_closing : ¬ closes .invalid = true := by
  intro h
  rcases hcloses _ h with h | h <;> cases h

theorem length_of_closing (offset : Nat) (rest : Text)
    (h : ∃ t ∈ stream closes offset rest, closes t.kind = true) : 2 ≤ rest.length := by
  fun_induction stream closes offset rest with
  | case1 | case2 =>
    obtain ⟨t, ht, hk⟩ := h
    rw [List.mem_singleton.mp ht] at hk
    exact absurd hk (invalid_not_closing hcloses)
  | case3 offset rest start c body hrest kind text hlex token hc =>
    obtain ⟨_, _, _, rfl⟩ := closing_pair hcloses hlex hc
    have hbody := (lexeme_isPrefix hlex).1.length_le
    have hle := (List.dropWhile_suffix (l := rest) Text.isBlank).length_le
    rw [hrest] at hle
    exact Nat.le_trans hbody hle
  | case4 offset rest start c body hrest kind text hlex token hc ih =>
    obtain ⟨t, ht, hk⟩ := h
    have htail := (List.mem_cons.mp ht).resolve_left (by rintro rfl; exact hc hk)
    have hbody := ih ⟨t, htail, hk⟩
    have hle := (List.dropWhile_suffix (l := rest) Text.isBlank).length_le
    rw [hrest, List.length_cons] at hle
    rw [List.length_drop] at hbody
    omega

/-- A closed stream does not depend on what the text goes on with. -/
theorem stream_append (more : Text) (offset : Nat) (rest : Text)
    (h : ∃ t ∈ stream closes offset rest, closes t.kind = true) :
    stream closes offset (rest ++ more) = stream closes offset rest := by
  fun_induction stream closes offset rest with
  | case1 | case2 =>
    obtain ⟨t, ht, hk⟩ := h
    rw [List.mem_singleton.mp ht] at hk
    exact absurd hk (invalid_not_closing hcloses)
  | case3 offset rest start c body hrest kind text hlex token hc =>
    have hne : rest.dropWhile Text.isBlank ≠ [] := by rw [hrest]; exact List.cons_ne_nil _ _
    obtain ⟨a, b, hpair, rfl⟩ := closing_pair hcloses hlex hc
    have hlex' : lexeme? (c :: (body ++ more)) = some (kind, [a, b]) := by
      rw [← List.cons_append, drop_lexeme hlex]
      exact lexeme_pair hpair _
    have hrest' := dropWhile_append_of_ne more hne
    rw [hrest] at hrest'
    rw [stream_cons hrest' hlex', if_pos hc,
      takeWhile_append_of_ne more (takeWhile_ne_of_dropWhile hne)]
  | case4 offset rest start c body hrest kind text hlex token hc ih =>
    obtain ⟨t, ht, hk⟩ := h
    have htail := (List.mem_cons.mp ht).resolve_left (by rintro rfl; exact hc hk)
    -- a closing token is still to come, so the lexer does not look beyond the text here
    have hlen := length_of_closing hcloses _ _ ⟨t, htail, hk⟩
    have hne : rest.dropWhile Text.isBlank ≠ [] := by rw [hrest]; exact List.cons_ne_nil _ _
    have hlex' := lexeme_append more hlex (drop_lexeme hlex) hlen
    have hrest' := dropWhile_append_of_ne more hne
    rw [hrest] at hrest'
    rw [List.cons_append] at hlex' hrest'
    have hdrop : (body ++ more).drop (text.length - 1) = body.drop (text.length - 1) ++ more := by
      rw [List.length_drop] at hlen
      exact List.drop_append_of_le_length (by omega)
    rw [stream_cons hrest' hlex', if_neg hc,
      takeWhile_append_of_ne more (takeWhile_ne_of_dropWhile hne), hdrop]
    exact congrArg _ (ih ⟨t, htail, hk⟩)

end

end Stencil.Token
