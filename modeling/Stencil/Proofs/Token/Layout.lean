import Stencil.Proofs.Token.Separable
import Stencil.Proofs.Token.Stream

/-!
# Writing tokens

A layout writes words one after the other with blanks before each. Separable words are read back
where they were written.
-/

namespace Stencil.Token

/-- How trees are written: the blanks after the token, or the delimiter, that ends at an offset,
and the text of floating point numbers. -/
structure Layout where
  gap : Nat → Text
  gap_ne_nil : ∀ o, gap o ≠ []
  gap_blank : ∀ o, ∀ c ∈ gap o, Text.isBlank c = true
  numeral : Float → Text

namespace Layout

def spaced : Layout where
  gap _ := [' ']
  gap_ne_nil _ := List.cons_ne_nil _ _
  gap_blank _ := List.all_eq_true.mp rfl
  numeral _ := "0.5".toList

variable (L : Layout)

def token (o : Nat) (w : Word) : Token :=
  let start := o + (L.gap o).length
  ⟨w.1, start, start + w.2.length, w.2⟩

def tokens : Nat → List Word → List Token
  | _, [] => []
  | o, w :: ws => L.token o w :: tokens (L.token o w).stop ws

def write : Nat → List Word → Text
  | _, [] => []
  | o, w :: ws => L.gap o ++ w.2 ++ write (L.token o w).stop ws

def advance (o : Nat) (ws : List Word) : Nat := lastStop o (L.tokens o ws)

theorem tokens_append (o : Nat) (ws vs : List Word) :
    L.tokens o (ws ++ vs) = L.tokens o ws ++ L.tokens (L.advance o ws) vs := by
  induction ws generalizing o with
  | nil => rfl
  | cons w ws ih => exact congrArg _ (ih _)

theorem advance_append (o : Nat) (ws vs : List Word) :
    L.advance o (ws ++ vs) = L.advance (L.advance o ws) vs := by
  rw [advance, tokens_append, lastStop_append]; rfl

theorem advance_eq (o : Nat) (ws : List Word) : L.advance o ws = o + (L.write o ws).length := by
  induction ws generalizing o with
  | nil => rfl
  | cons w ws ih =>
    show L.advance (L.token o w).stop ws = _
    rw [ih, write, List.length_append, List.length_append, token]
    simp only
    omega

theorem write_begins (o : Nat) {ws : List Word} (h : ws ≠ []) :
    ∃ b t, L.write o ws = b :: t ∧ Text.isBlank b = true := by
  obtain ⟨w, ws, rfl⟩ := List.exists_cons_of_ne_nil h
  obtain ⟨b, t, hgap⟩ := List.exists_cons_of_ne_nil (L.gap_ne_nil o)
  refine ⟨b, t ++ w.2 ++ L.write (L.token o w).stop ws, ?_, ?_⟩
  · rw [write, hgap]; rfl
  · exact L.gap_blank o b (hgap ▸ List.mem_cons_self)

end Layout

/-! ## The stream of what was written -/

theorem stream_gap {closes : Kind → Bool} {o : Nat} {gap t : Text} {w : Word}
    (hgap : ∀ c ∈ gap, Text.isBlank c = true) (h : lexeme? (w.2 ++ t) = some w) :
    stream closes o (gap ++ (w.2 ++ t)) =
      let token : Token := ⟨w.1, o + gap.length, o + gap.length + w.2.length, w.2⟩
      if closes w.1 then [token] else token :: stream closes token.stop t := by
  have htake : (gap ++ (w.2 ++ t)).takeWhile Text.isBlank = gap := by
    rw [List.takeWhile_append_of_pos hgap, takeWhile_of_lexeme h, List.append_nil]
  have hdrop : (gap ++ (w.2 ++ t)).dropWhile Text.isBlank = w.2 ++ t := by
    rw [List.dropWhile_append_of_pos hgap, dropWhile_of_lexeme h]
  obtain ⟨k, text⟩ := w
  obtain ⟨c, text, rfl⟩ := List.exists_cons_of_ne_nil (lexeme_isPrefix h).2
  rw [stream_cons hdrop h, htake]
  simp

namespace Layout

variable (L : Layout)

/-- Words are read back where they were written, up to the one that closes. -/
theorem stream_write {closes : Kind → Bool} {last : Word} {rest : Text}
    (hlast : closes last.1 = true) (hlex : lexeme? (last.2 ++ rest) = some last) :
    ∀ (ws : List Word) (o : Nat), (∀ w ∈ ws, Separable w ∧ closes w.1 = false) →
      stream closes o (L.write o (ws ++ [last]) ++ rest) = L.tokens o (ws ++ [last])
  | [], o, _ => by
    show stream closes o (L.gap o ++ last.2 ++ [] ++ rest) = _
    rw [List.append_nil, List.append_assoc, stream_gap (L.gap_blank o) hlex, if_pos hlast]
    rfl
  | w :: ws, o, hws => by
    obtain ⟨hw, hclose⟩ := hws w List.mem_cons_self
    obtain ⟨b, more, hmore, hb⟩ :
        ∃ b more, L.write (L.token o w).stop (ws ++ [last]) ++ rest = b :: more ∧
          Text.isBlank b = true := by
      obtain ⟨b, more, hmore, hb⟩ := L.write_begins (L.token o w).stop
        (List.append_ne_nil_of_right_ne_nil ws (List.cons_ne_nil last []))
      exact ⟨b, more ++ rest, congrArg (· ++ rest) hmore, hb⟩
    show stream closes o (L.gap o ++ w.2 ++ L.write (L.token o w).stop (ws ++ [last]) ++ rest) = _
    rw [List.append_assoc, List.append_assoc, stream_gap (L.gap_blank o) (hmore ▸ hw b more hb),
      if_neg (by rw [hclose]; decide)]
    exact congrArg _
      (stream_write hlast hlex ws _ fun v hv => hws v (List.mem_cons_of_mem _ hv))

end Layout

end Stencil.Token
