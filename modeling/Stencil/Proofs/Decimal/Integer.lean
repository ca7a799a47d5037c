import Mathlib.Data.List.TakeWhile
import Stencil.Proofs.Except
import Stencil.Value

/-!
# Integers as text

Digits, their value, and the one way to write a number without leading zeros. What is read from a
text is the integer that it shows, as long as the text is not too long.
-/

namespace Stencil

/-! ## Blanks around a text -/

namespace Text

def AllBlank (t : Text) : Prop := ∀ c ∈ t, isBlank c = true

instance (t : Text) : Decidable (AllBlank t) :=
  inferInstanceAs (Decidable (∀ c ∈ t, isBlank c = true))

structure Trimmed (t : Text) : Prop where
  head : ∀ c ∈ t.head?, isBlank c = false
  last : ∀ c ∈ t.getLast?, isBlank c = false

theorem allBlank_takeWhile (t : Text) : AllBlank (t.takeWhile isBlank) := fun c hc =>
  List.all_eq_true.mp List.all_takeWhile c hc

theorem dropWhile_padded {before t : Text} (hb : AllBlank before)
    (h : ∀ c ∈ t.head?, isBlank c = false) : (before ++ t).dropWhile isBlank = t := by
  rw [List.dropWhile_append_of_pos hb]
  cases t with
  | nil => rfl
  | cons c t => simp [h c rfl]

theorem trim_padded {before t after : Text} (hb : AllBlank before) (ha : AllBlank after)
    (h : Trimmed t) : trim (before ++ t ++ after) = t := by
  have hafter : AllBlank after.reverse := fun c hc => ha c (List.mem_reverse.mp hc)
  have hlast : ∀ c ∈ t.reverse.head?, isBlank c = false := by simpa using h.last
  unfold trim
  rw [List.append_assoc]
  cases t with
  | nil =>
    have hall : (before ++ after).dropWhile isBlank = [] :=
      List.dropWhile_eq_nil_iff.mpr fun c hc => (List.mem_append.mp hc).elim (hb c) (ha c)
    simp [hall]
  | cons c t =>
    rw [dropWhile_padded hb (by simpa using h.head), List.reverse_append,
      dropWhile_padded hafter hlast, List.reverse_reverse]

theorem exists_padding (t : Text) :
    ∃ before after, AllBlank before ∧ AllBlank after ∧ t = before ++ trim t ++ after := by
  let rest := t.dropWhile isBlank
  refine
    ⟨t.takeWhile isBlank, (rest.reverse.takeWhile isBlank).reverse, allBlank_takeWhile t, ?_, ?_⟩
  · intro c hc
    exact allBlank_takeWhile _ c (List.mem_reverse.mp hc)
  · have hrest : trim t ++ (rest.reverse.takeWhile isBlank).reverse = rest := by
      rw [trim, ← List.reverse_append, List.takeWhile_append_dropWhile, List.reverse_reverse]
    rw [List.append_assoc, hrest, List.takeWhile_append_dropWhile]

theorem trim_eq_nil_iff {t : Text} : trim t = [] ↔ AllBlank t := by
  constructor
  · intro h c hc
    obtain ⟨before, after, hb, ha, heq⟩ := exists_padding t
    rw [h, List.append_nil] at heq
    rw [heq] at hc
    exact (List.mem_append.mp hc).elim (hb c) (ha c)
  · intro h
    have htrim := @trim_padded t [] [] h nofun ⟨nofun, nofun⟩
    rwa [List.append_nil, List.append_nil] at htrim

end Text

namespace Decimal

open Text (AllBlank Trimmed)

/-! ## Digits and their value -/

theorem isDigits_iff {d : Text} : isDigits d = true ↔ d ≠ [] ∧ ∀ c ∈ d, c.isDigit = true := by
  simp [isDigits]

theorem isDigit_range {c : Char} (h : c.isDigit = true) : 48 ≤ c.toNat ∧ c.toNat ≤ 57 := by
  simpa [Char.isDigit, UInt32.le_iff_toNat_le] using h

theorem not_blank_of_isDigit {c : Char} (h : c.isDigit = true) : Text.isBlank c = false := by
  have := isDigit_range h
  simp only [Text.isBlank, Bool.or_eq_false_iff, Bool.and_eq_false_iff, decide_eq_false_iff_not,
    beq_eq_false_iff_ne]
  omega

theorem toNat_cons (c : Char) (d : Text) :
    toNat (c :: d) = (c.toNat - 48) * Nat.pow 10 d.length + toNat d := by
  rw [toNat, Nat.ofDigitChars_cons, Nat.ofDigitChars_eq_ofDigitChars_zero, toNat]
  simp [Nat.mul_comm]

theorem toNat_dropWhile (d : Text) : toNat (d.dropWhile (· == '0')) = toNat d := by
  induction d with
  | nil => rfl
  | cons c d ih =>
    by_cases hc : c = '0'
    · simp [hc, toNat_cons, ih]
    · simp [hc]

theorem toNat_zeros (k : Nat) (d : Text) : toNat (List.replicate k '0' ++ d) = toNat d := by
  simp [toNat, Nat.ofDigitChars_append]

theorem pow_le_toNat {c : Char} {d : Text} (hc : c.isDigit = true) (hzero : c ≠ '0') :
    Nat.pow 10 d.length ≤ toNat (c :: d) := by
  have hone : 1 ≤ c.toNat - 48 := by
    have hne : c.toNat ≠ 48 := fun h => hzero (Char.toNat_inj.mp h)
    have := isDigit_range hc
    omega
  rw [toNat_cons]
  calc Nat.pow 10 d.length = 1 * Nat.pow 10 d.length := (Nat.one_mul _).symm
    _ ≤ (c.toNat - 48) * Nat.pow 10 d.length := Nat.mul_le_mul_right _ hone
    _ ≤ _ := Nat.le_add_right _ _

/-- A number below a power of ten has no more significant digits than its exponent. -/
theorem length_significant_le {d : Text} (hd : ∀ c ∈ d, c.isDigit = true) {k : Nat}
    (h : toNat d < Nat.pow 10 k) : (d.dropWhile (· == '0')).length ≤ k := by
  rw [← toNat_dropWhile] at h
  cases hs : d.dropWhile (· == '0') with
  | nil => simp
  | cons c s =>
    have hmem : c ∈ d := (List.dropWhile_suffix _).subset (hs ▸ List.mem_cons_self)
    have hzero : c ≠ '0' := by
      have := List.head?_dropWhile_not (· == '0') d
      simpa [hs] using this
    have hpow := pow_le_toNat (d := s) (hd c hmem) hzero
    rw [hs] at h
    exact (Nat.pow_lt_pow_iff_right (by decide)).mp (Nat.lt_of_le_of_lt hpow h)

/-! ## Canonical text -/

structure Canonical (t : Text) (n : Nat) : Prop where
  digits : isDigits t = true
  value : toNat t = n
  leading : t.head? = some '0' → t = ['0']

theorem leading_ofNat (n : Nat) : (ofNat n).head? = some '0' → ofNat n = ['0'] := by
  induction n using Nat.strongRecOn with
  | ind n ih =>
    unfold ofNat at ih ⊢
    by_cases hn : n < 10
    · rw [Nat.toDigits_of_lt_base hn]
      simp
    · have hle : 10 ≤ n := Nat.le_of_not_lt hn
      rw [Nat.toDigits_of_base_le (by decide) hle]
      intro hzero
      obtain ⟨c, d, hd⟩ := List.exists_cons_of_ne_nil (Nat.toDigits_ne_nil (n := n / 10) (b := 10))
      have htenth : (Nat.toDigits 10 (n / 10)).head? = some '0' := by
        rw [hd] at hzero ⊢
        exact hzero
      -- the digits of the tenth part would be a single zero, but it is not zero
      have hvalue := congrArg (Nat.ofDigitChars 10 · 0) (ih (n / 10) (by omega) htenth)
      simp only [Nat.ofDigitChars_ten_toDigits] at hvalue
      change n / 10 = 0 at hvalue
      omega

theorem canonical_ofNat (n : Nat) : Canonical (ofNat n) n where
  digits := isDigits_iff.mpr ⟨Nat.toDigits_ne_nil, fun _ hc =>
    Nat.isDigit_of_mem_toDigits (by decide) (by decide) hc⟩
  value := Nat.ofDigitChars_ten_toDigits
  leading := leading_ofNat n

/-! ## What a text shows -/

inductive Shows : Text → Int → Prop
  | bare {d} : isDigits d = true → Shows d (toNat d)
  | plus {d} : isDigits d = true → Shows ('+' :: d) (toNat d)
  | minus {d} : isDigits d = true → Shows ('-' :: d) (-toNat d)

theorem unsign_digits {d : Text} (h : isDigits d = true) : unsign d = (false, d) := by
  obtain ⟨hne, hd⟩ := isDigits_iff.mp h
  obtain ⟨c, d, rfl⟩ := List.exists_cons_of_ne_nil hne
  have hc := hd c List.mem_cons_self
  unfold unsign
  split
  · next heq => cases heq; cases hc
  · next heq => cases heq; cases hc
  · rfl

theorem shows_iff {t : Text} {n : Int} :
    Shows t n ↔ isDigits (unsign t).2 = true ∧
      n = if (unsign t).1 then -(toNat (unsign t).2 : Int) else toNat (unsign t).2 := by
  constructor
  · rintro (h | h | h)
    · simp [unsign_digits h, h]
    · exact ⟨h, rfl⟩
    · exact ⟨h, rfl⟩
  · rintro ⟨h, rfl⟩
    unfold unsign at h ⊢
    split at h
    · exact .minus h
    · exact .plus h
    · exact .bare h

theorem trimmed_digits {d : Text} (h : isDigits d = true) : Trimmed d := by
  obtain ⟨-, hd⟩ := isDigits_iff.mp h
  exact ⟨fun c hc => not_blank_of_isDigit (hd c (List.mem_of_mem_head? hc)),
    fun c hc => not_blank_of_isDigit (hd c (List.mem_of_mem_getLast? hc))⟩

theorem Shows.trimmed {t : Text} {n : Int} (h : Shows t n) : Trimmed t := by
  have hsigned {c : Char} {d : Text} (hc : Text.isBlank c = false) (hd : isDigits d = true) :
      Trimmed (c :: d) := by
    obtain ⟨b, d, rfl⟩ := List.exists_cons_of_ne_nil (isDigits_iff.mp hd).1
    exact ⟨by simpa using hc, by simpa using (trimmed_digits hd).last⟩
  cases h with
  | bare h => exact trimmed_digits h
  | plus h => exact hsigned (by decide) h
  | minus h => exact hsigned (by decide) h

theorem shows_ofInt (n : Int) : Shows (ofInt n) n := by
  cases n with
  | ofNat n =>
    have h := canonical_ofNat n
    have hshows := Shows.bare h.digits
    rwa [h.value] at hshows
  | negSucc n =>
    have h := canonical_ofNat (n + 1)
    have hshows := Shows.minus h.digits
    rwa [h.value] at hshows

theorem length_ofInt_le {n : Int} (hle : least ≤ n) (hge : n ≤ greatest) :
    (ofInt n).length ≤ longestRead := by
  have hshort {m : Nat} (hm : m ≤ Nat.pow 2 63) : (ofNat m).length ≤ 19 :=
    (Nat.length_toDigits_le_iff (by decide) (by decide)).mpr (Nat.lt_of_le_of_lt hm (by decide))
  unfold least at hle
  unfold greatest at hge
  cases n with
  | ofNat n =>
    have hn : n ≤ Nat.pow 2 63 := by
      have : ((n : Nat) : Int) ≤ Nat.pow 2 63 - 1 := hge
      omega
    exact Nat.le_trans (hshort hn) (by decide)
  | negSucc n =>
    have hn : n + 1 ≤ Nat.pow 2 63 := by omega
    exact Nat.succ_le_succ (Nat.le_trans (hshort hn) (by decide))

/-! ## The 64-bit range -/

theorem wrap_of_range {n : Int} (hleast : least ≤ n) (hgreatest : n ≤ greatest) : wrap n = n :=
  if_pos ⟨hleast, hgreatest⟩

theorem wrap_range (n : Int) : least ≤ wrap n ∧ wrap n ≤ greatest := by
  unfold wrap
  split
  · assumption
  · have hpower : ((Nat.pow 2 64 : Nat) : Int) = greatest - least + 1 := by decide
    have hle : 0 ≤ (n - least) % Nat.pow 2 64 := Int.emod_nonneg _ (by decide)
    have hlt : (n - least) % Nat.pow 2 64 < Nat.pow 2 64 := Int.emod_lt_of_pos _ (by decide)
    omega

@[simp] theorem wrap_wrap (n : Int) : wrap (wrap n) = wrap n :=
  wrap_of_range (wrap_range n).1 (wrap_range n).2

theorem bmod_of_range {n : Int} (hleast : least ≤ n) (hgreatest : n ≤ greatest) :
    n.bmod (Nat.pow 2 64) = n := by
  have hleast' : least * 2 = -Nat.pow 2 64 := by decide
  have hgreatest' : (greatest + 1) * 2 = Nat.pow 2 64 := by decide
  exact Int.bmod_eq_of_le_mul_two (by omega) (by omega)

/-- Wrapping keeps the remainder by `2 ^ 64`, and the range holds one number for each of them. -/
theorem wrap_eq_bmod (n : Int) : wrap n = n.bmod (Nat.pow 2 64) := by
  rw [← bmod_of_range (wrap_range n).1 (wrap_range n).2]
  unfold wrap
  split
  · rfl
  · rw [Int.emod_add_bmod, Int.sub_add_cancel]

theorem readInteger_range (t : Text) : least ≤ readInteger t ∧ readInteger t ≤ greatest := by
  have hzero : least ≤ 0 ∧ (0 : Int) ≤ greatest := by decide
  have hwithin (n : Int) : least ≤ (if least ≤ n ∧ n ≤ greatest then n else 0) ∧
      (if least ≤ n ∧ n ≤ greatest then n else 0) ≤ greatest := by
    split
    · assumption
    · exact hzero
  unfold readInteger
  simp only
  split
  · exact hwithin _
  · exact hzero

/-! ## Reading -/

structure Readable (t : Text) (n : Int) : Prop where
  shown : Shows t n
  least_le : least ≤ n
  le_greatest : n ≤ greatest
  short : t.length ≤ longestRead

theorem readInteger_trim {text : Text} {n : Int} (h : Readable (Text.trim text) n) :
    readInteger text = n := by
  obtain ⟨hdigits, hvalue⟩ := shows_iff.mp h.shown
  have hn : (if (unsign (Text.trim text)).1 then -(toNat (unsign (Text.trim text)).2 : Int)
      else toNat (unsign (Text.trim text)).2) = n := hvalue.symm
  simp only [readInteger, hdigits, h.short, decide_true, Bool.and_self, if_true, hn, h.least_le,
    h.le_greatest, and_self]

theorem readInteger_padded (before after : Text) {t : Text} {n : Int} (hb : AllBlank before)
    (ha : AllBlank after) (h : Readable t n) : readInteger (before ++ t ++ after) = n :=
  readInteger_trim ((Text.trim_padded hb ha h.shown.trimmed).symm ▸ h)

theorem readInteger_ofInt {n : Int} (hle : least ≤ n) (hge : n ≤ greatest) :
    readInteger (ofInt n) = n := by
  have h : Readable (ofInt n) n := ⟨shows_ofInt n, hle, hge, length_ofInt_le hle hge⟩
  simpa using readInteger_padded [] [] nofun nofun h

theorem readInteger_eq_zero {text : Text} (h : ∀ n, ¬ Readable (Text.trim text) n) :
    readInteger text = 0 := by
  unfold readInteger
  simp only
  by_cases hread : (Text.trim text).length ≤ longestRead ∧
      isDigits (unsign (Text.trim text)).2 = true
  · have hrange := fun hrange : _ ∧ _ =>
      h _ ⟨shows_iff.mpr ⟨hread.2, rfl⟩, hrange.1, hrange.2, hread.1⟩
    simp only [hread.1, hread.2, decide_true, Bool.and_self, if_true, if_neg hrange]
  · simp [hread]

theorem integer_ofObject {calls : Nat} {h : Host} {v : Value}
    (hv : Value.ofObject calls h = .ok v) : v.integer = readInteger v.text := by
  unfold Value.ofObject at hv
  split at hv
  · cases hv
    rfl
  · obtain ⟨t, -, hv⟩ := bind_eq_ok.mp hv
    cases hv
    rfl

/-- **Reading an integer.** A text that shows an integer of 64 bits, with blanks around it or none,
is read as that integer if it has no more than forty characters; any other text is read as zero. -/
theorem readInteger_exact (text : Text) :
    (∀ before t after n, text = before ++ t ++ after → AllBlank before → AllBlank after →
      Readable t n → readInteger text = n) ∧
    ((¬ ∃ before t after n, text = before ++ t ++ after ∧ AllBlank before ∧ AllBlank after ∧
      Readable t n) → readInteger text = 0) ∧
    ∀ n : Int, let v := Value.ofInteger n
      readInteger v.text = v.integer ∧ (Value.ofText v.text).integer = v.integer ∧
      ∀ calls h w, Value.ofObject calls h = .ok w → w.text = v.text → w.integer = v.integer := by
  refine ⟨?_, fun hnone => ?_, fun n => ?_⟩
  · rintro before t after n rfl hb ha h
    exact readInteger_padded before after hb ha h
  · obtain ⟨before, after, hb, ha, heq⟩ := Text.exists_padding text
    exact readInteger_eq_zero fun n h => hnone ⟨before, _, after, n, heq, hb, ha, h⟩
  · intro v
    have hread : readInteger v.text = v.integer :=
      readInteger_ofInt (wrap_range n).1 (wrap_range n).2
    refine ⟨hread, hread, fun calls h w hw htext => ?_⟩
    rw [integer_ofObject hw, htext, hread]

theorem readInteger_exact_padded :
    let t := "-000000000000000000009223372036854775808".toList
    let text := "\t -000000000000000000009223372036854775808\n".toList
    (text = ['\t', ' '] ++ t ++ ['\n'] ∧ AllBlank ['\t', ' '] ∧ AllBlank ['\n'] ∧
      Readable t (-9223372036854775808)) ∧ readInteger text = -9223372036854775808 := by
  intro t text
  have hshown : Shows t (-9223372036854775808) := .minus (by decide)
  have h : Readable t (-9223372036854775808) := ⟨hshown, by decide, by decide, by decide⟩
  have hb : AllBlank ['\t', ' '] := by simp [AllBlank, Text.isBlank]
  have ha : AllBlank ['\n'] := by simp [AllBlank, Text.isBlank]
  exact ⟨⟨rfl, hb, ha, h⟩, (readInteger_exact text).1 _ _ _ _ rfl hb ha h⟩

/-- Forty leading zeros make an integer too long to be read. -/
theorem readInteger_not_exact :
    let t := List.replicate 40 '0' ++ ['7']
    Shows t 7 ∧ least ≤ 7 ∧ 7 ≤ greatest ∧ readInteger t = 0 := by
  intro t
  have hshown : Shows t (toNat t) := .bare (by decide)
  rw [toNat_zeros 40 ['7']] at hshown
  exact ⟨hshown, by decide, by decide, by decide⟩

end Decimal

end Stencil
