import Mathlib.Data.List.Infix
import Stencil.Proofs.Diagnostic.Caret

/-!
# What the removal of escape sequences leaves

The removal goes over a text once. A sequence that is torn, with others between its parts, comes
together when those are removed, and is left as one that was not in the text before. A text without
a torn sequence is clean after one go. Any other is clean after as many goes as it has escape
characters, and no smaller number of goes is enough for all.
-/

namespace Stencil

namespace Ansi

open Token (Stops stops_cons mem_takeWhile dropWhile_of_stops)

inductive IsSequence : Text → Prop
  | sign {c : Char} (h : between '@' '_' c = true) (hc : c ≠ '[') : IsSequence ['\x1b', c]
  | control {parameters intermediates : Text} {final : Char}
      (hparameters : ∀ c ∈ parameters, between '0' '?' c = true)
      (hintermediates : ∀ c ∈ intermediates, between ' ' '/' c = true)
      (hfinal : between '@' '~' final = true) :
      IsSequence ('\x1b' :: '[' :: (parameters ++ intermediates ++ [final]))

def Clean (t : Text) : Prop := ∀ m, IsSequence m → ¬m <:+: t

/-- The second text is the first one with escape sequences put in. -/
inductive Filled : Text → Text → Prop
  | nil : Filled [] []
  | char (c : Char) {t filled : Text} (h : Filled t filled) : Filled (c :: t) (c :: filled)
  | sequence {m t filled : Text} (hm : IsSequence m) (h : Filled t filled) : Filled t (m ++ filled)

/-- A sequence that is cut in two by another one; the second part can have more of them in it. -/
inductive Torn : Text → Prop
  | mk {front m back filled : Text} (hfront : front ≠ []) (hback : back ≠ [])
      (h : IsSequence (front ++ back)) (hm : IsSequence m) (hfilled : Filled back filled) :
      Torn (front ++ m ++ filled)

def Settled (t : Text) : Prop := ∀ s, Torn s → ¬s <:+: t

/-! ## One sequence -/

theorem between_disjoint {low high low' high' c : Char} (h : between low high c = true)
    (hapart : high < low' ∨ high' < low) : between low' high' c = false := by
  simp only [between, Bool.and_eq_true, decide_eq_true_eq] at h
  refine Bool.eq_false_iff.mpr fun h' => ?_
  simp only [between, Bool.and_eq_true, decide_eq_true_eq] at h'
  rcases hapart with hapart | hapart
  · exact Char.not_lt.mpr (Char.le_trans h'.1 h.2) hapart
  · exact Char.not_lt.mpr (Char.le_trans h.1 h'.2) hapart

theorem afterEscape_sequence {m : Text} (h : IsSequence m) (rest : Text) :
    afterEscape? (m ++ rest) = some rest := by
  cases h with
  | sign h hc => exact (afterEscape_sign hc rest).trans (if_pos h)
  | @control parameters intermediates final hparameters hintermediates hfinal =>
    have hend : Stops (between ' ' '/') (final :: rest) :=
      stops_cons.mpr (between_disjoint hfinal (.inr (by decide)))
    have hmiddle : Stops (between '0' '?') (intermediates ++ final :: rest) := by
      cases intermediates with
      | nil => exact stops_cons.mpr (between_disjoint hfinal (.inr (by decide)))
      | cons c intermediates =>
        exact stops_cons.mpr
          (between_disjoint (hintermediates c List.mem_cons_self) (.inl (by decide)))
    have hbody : parameters ++ intermediates ++ [final] ++ rest =
        parameters ++ (intermediates ++ final :: rest) := by
      simp only [List.append_assoc, List.singleton_append]
    show afterEscape? ('\x1b' :: '[' :: (parameters ++ intermediates ++ [final] ++ rest)) = _
    simp only [hbody, afterEscape?, dropWhile_of_stops hparameters hmiddle,
      dropWhile_of_stops hintermediates hend, hfinal, if_true]

theorem exists_sequence {t rest : Text} (h : afterEscape? t = some rest) :
    ∃ m, IsSequence m ∧ t = m ++ rest := by
  unfold afterEscape? at h
  split at h
  · rename_i body
    split at h
    · rename_i final rest' hrest
      split at h
      · rename_i hfinal
        obtain rfl := Option.some.inj h
        have hbody : body = body.takeWhile (between '0' '?') ++
            (body.dropWhile (between '0' '?')).takeWhile (between ' ' '/') ++ [final] ++ rest' := by
          rw [List.append_assoc, List.append_assoc, List.singleton_append, ← hrest,
            List.takeWhile_append_dropWhile, List.takeWhile_append_dropWhile]
        exact ⟨_, .control (fun _ => mem_takeWhile) (fun _ => mem_takeWhile) hfinal,
          congrArg ('\x1b' :: '[' :: ·) hbody⟩
      · cases h
    · cases h
  · rename_i c rest' hc
    split at h
    · rename_i hsign
      obtain rfl := Option.some.inj h
      exact ⟨_, .sign hsign hc, rfl⟩
    · cases h
  · cases h

theorem isSequence_iff {m : Text} : IsSequence m ↔ afterEscape? m = some [] := by
  constructor
  · intro h
    simpa using afterEscape_sequence h []
  · intro h
    obtain ⟨m', hm', rfl⟩ := exists_sequence h
    rwa [List.append_nil]

instance (m : Text) : Decidable (IsSequence m) := decidable_of_iff' _ isSequence_iff

theorem IsSequence.exists_cons {m : Text} (h : IsSequence m) :
    ∃ rest, m = '\x1b' :: rest ∧ '\x1b' ∉ rest := by
  cases h with
  | @sign c hc _ =>
    refine ⟨[c], rfl, ?_⟩
    rintro (_ | ⟨_, ⟨⟩⟩)
    cases hc
  | @control parameters intermediates final hparameters hintermediates hfinal =>
    refine ⟨_, rfl, fun hmem => ?_⟩
    simp only [List.mem_cons, List.mem_append, List.not_mem_nil, or_false] at hmem
    rcases hmem with hmem | (hmem | hmem) | rfl
    · cases hmem
    · cases hparameters _ hmem
    · cases hintermediates _ hmem
    · cases hfinal

/-- Only the first character of a sequence is an escape character. -/
theorem IsSequence.exists_split {front back : Text} (hfront : front ≠ [])
    (h : IsSequence (front ++ back)) :
    ∃ more, front = '\x1b' :: more ∧ '\x1b' ∉ more ∧ '\x1b' ∉ back := by
  obtain ⟨rest, hrest, hplain⟩ := h.exists_cons
  obtain ⟨c, more, rfl⟩ := List.exists_cons_of_ne_nil hfront
  obtain ⟨rfl, rfl⟩ := List.cons.inj hrest
  exact ⟨more, rfl, fun hmem => hplain (List.mem_append_left _ hmem),
    fun hmem => hplain (List.mem_append_right _ hmem)⟩

theorem IsSequence.stops {m : Text} (h : IsSequence m) (more : Text) :
    Stops isPrintable (m ++ more) := by
  obtain ⟨rest, rfl, -⟩ := h.exists_cons
  exact stops_cons.mpr (by decide)

/-! ## Clean texts -/

theorem Clean.tail {c : Char} {t : Text} (h : Clean (c :: t)) : Clean t :=
  fun m hm hin => h m hm (hin.trans (List.suffix_cons c t).isInfix)

theorem Clean.afterEscape_eq_none {t : Text} (h : Clean t) : afterEscape? t = none := by
  cases hafter : afterEscape? t with
  | none => rfl
  | some rest =>
    obtain ⟨m, hm, rfl⟩ := exists_sequence hafter
    exact absurd (List.prefix_append m rest).isInfix (h m hm)

theorem Clean.cons {c : Char} {t : Text} (hnone : afterEscape? (c :: t) = none) (h : Clean t) :
    Clean (c :: t) := by
  intro m hm hin
  rcases List.infix_cons_iff.mp hin with ⟨rest, hrest⟩ | hin
  · rw [← hrest, afterEscape_sequence hm] at hnone
    cases hnone
  · exact h m hm hin

theorem clean_of_plain {t : Text} (h : '\x1b' ∉ t) : Clean t := by
  intro m hm hin
  obtain ⟨rest, rfl, -⟩ := hm.exists_cons
  exact h (hin.subset List.mem_cons_self)

theorem length_strip_le (t : Text) : (strip t).length ≤ t.length := by
  fun_induction strip t with
  | case1 t rest h _ ih => exact Nat.le_trans ih (Nat.le_of_lt (length_afterEscape h))
  | case2 _ => exact Nat.le_refl 0
  | case3 c t h ih => exact Nat.succ_le_succ ih

/-- The texts that stay as they are are the clean ones. -/
theorem strip_eq_self_iff (t : Text) : strip t = t ↔ Clean t := by
  constructor
  · intro h
    fun_induction strip t with
    | case1 t rest hrest _ _ =>
      have hle := length_strip_le rest
      have hlt := length_afterEscape hrest
      rw [h] at hle
      exact absurd hlt (Nat.not_lt.mpr hle)
    | case2 _ => exact clean_of_plain List.not_mem_nil
    | case3 c t hnone ih => exact .cons hnone (ih (List.cons.inj h).2)
  · intro h
    induction t with
    | nil => exact strip_nil
    | cons c t ih => rw [strip_of_none h.afterEscape_eq_none, ih h.tail]

instance (t : Text) : Decidable (Clean t) := decidable_of_iff _ (strip_eq_self_iff t)

/-! ## Settled texts -/

theorem Settled.part {s t : Text} (h : Settled t) (hs : s <:+: t) : Settled s :=
  fun torn htorn hin => h torn htorn (hin.trans hs)

/-- The sequences that were put in are removed again. -/
theorem strip_filled {t filled : Text} (h : Filled t filled) (ht : '\x1b' ∉ t) (more : Text) :
    strip (filled ++ more) = t ++ strip more := by
  induction h with
  | nil => rfl
  | char c h ih =>
    simp only [List.mem_cons, not_or] at ht
    rw [List.cons_append, strip_cons (Ne.symm ht.1), ih ht.2, List.cons_append]
  | sequence hm h ih => rw [List.append_assoc, strip_of_some (afterEscape_sequence hm _), ih ht]

theorem exists_filled {t front : Text} (h : front <+: strip t) :
    ∃ filled, Filled front filled ∧ filled <+: t := by
  fun_induction strip t generalizing front with
  | case1 t rest hrest _ ih =>
    obtain ⟨m, hm, rfl⟩ := exists_sequence hrest
    obtain ⟨filled, hfilled, hin⟩ := ih h
    exact ⟨m ++ filled, .sequence hm hfilled, (List.prefix_append_right_inj m).mpr hin⟩
  | case2 _ =>
    obtain rfl := List.prefix_nil.mp h
    exact ⟨[], .nil, List.nil_prefix⟩
  | case3 c t _ ih =>
    rcases List.prefix_cons_iff.mp h with rfl | ⟨front, rfl, hfront⟩
    · exact ⟨[], .nil, List.nil_prefix⟩
    · obtain ⟨filled, hfilled, hin⟩ := ih hfront
      exact ⟨c :: filled, .char c hfilled, (List.prefix_cons_inj c).mpr hin⟩

/-- The beginning of a sequence stays as it is. -/
theorem strip_unfinished {front back : Text} (hfront : front ≠ []) (hback : back ≠ [])
    (h : IsSequence (front ++ back)) : strip front = front := by
  obtain ⟨more, rfl, hmore, -⟩ := h.exists_split hfront
  have hnone : afterEscape? ('\x1b' :: more) = none := by
    cases hafter : afterEscape? ('\x1b' :: more) with
    | none => rfl
    | some after =>
      obtain ⟨m, hm, hsplit⟩ := exists_sequence hafter
      rw [hsplit, List.append_assoc, isSequence_iff, afterEscape_sequence hm] at h
      exact absurd (List.append_eq_nil_iff.mp (Option.some.inj h)).2 hback
  rw [strip_of_none hnone, strip_eq_self hmore]

/-- A torn sequence comes together. -/
theorem Torn.exists_sequence {s t : Text} (h : Torn s) (hin : s <:+: t) :
    ∃ m, IsSequence m ∧ m <:+: strip t := by
  obtain @⟨front, m, back, filled, hfront, hback, hwhole, hm, hfilled⟩ := h
  obtain ⟨before, after, rfl⟩ := hin
  obtain ⟨more, hescape, -, hplain⟩ := hwhole.exists_split hfront
  have hstops (behind : Text) : Stops isPrintable (front ++ behind) := by
    rw [hescape]
    exact stops_cons.mpr (by decide)
  refine ⟨front ++ back, hwhole, strip before, strip after, ?_⟩
  calc strip before ++ (front ++ back) ++ strip after
      = strip before ++ (strip front ++ strip (m ++ (filled ++ after))) := by
        rw [strip_unfinished hfront hback hwhole, strip_of_some (afterEscape_sequence hm _),
          strip_filled hfilled hplain, List.append_assoc, List.append_assoc]
    _ = strip (before ++ (front ++ m ++ filled) ++ after) := by
        rw [← strip_append (hm.stops _), ← strip_append (hstops _)]
        simp only [List.append_assoc]

/-- A text begins with what is kept up to the first sequence in it. -/
theorem exists_kept (t : Text) :
    ∃ kept rest, t = kept ++ rest ∧ strip t = kept ++ strip rest ∧
      (rest = [] ∨ ∃ m, IsSequence m ∧ m <+: rest) := by
  induction t with
  | nil => exact ⟨[], [], rfl, rfl, .inl rfl⟩
  | cons c t ih =>
    cases hafter : afterEscape? (c :: t) with
    | some after =>
      obtain ⟨m, hm, ht⟩ := exists_sequence hafter
      exact ⟨[], c :: t, rfl, rfl, .inr ⟨m, hm, after, ht.symm⟩⟩
    | none =>
      obtain ⟨kept, rest, rfl, hstrip, hrest⟩ := ih
      refine ⟨c :: kept, rest, rfl, ?_, hrest⟩
      rw [strip_of_none hafter, hstrip, List.cons_append]

/-- A sequence that comes up where none was is a torn one. -/
theorem exists_torn {t m : Text} (hnone : afterEscape? t = none) (hm : IsSequence m)
    (hin : m <+: strip t) : ∃ s, Torn s ∧ s <+: t := by
  obtain ⟨kept, rest, rfl, hstrip, hrest⟩ := exists_kept t
  rw [hstrip] at hin
  have hkept : ¬m <+: kept := by
    rintro ⟨more, rfl⟩
    rw [List.append_assoc, afterEscape_sequence hm] at hnone
    cases hnone
  -- the sequence begins in what was kept and goes on behind what was removed
  have hsplit : kept <+: m ∨ m <+: kept :=
    List.prefix_or_prefix_of_prefix (List.prefix_append kept (strip rest)) hin
  obtain ⟨back, rfl⟩ := hsplit.resolve_right hkept
  have hback : back ≠ [] := by
    rintro rfl
    exact hkept (by rw [List.append_nil])
  rcases hrest with rfl | ⟨m', hm', after, rfl⟩
  · rw [strip_nil, List.append_nil] at hin
    exact absurd hin hkept
  · have hne : kept ≠ [] := by
      rintro rfl
      rw [List.nil_append, afterEscape_sequence hm'] at hnone
      cases hnone
    rw [strip_of_some (afterEscape_sequence hm' after), List.prefix_append_right_inj] at hin
    obtain ⟨filled, hfilled, hafter⟩ := exists_filled hin
    refine ⟨kept ++ m' ++ filled, .mk hne hback hm hm' hfilled, ?_⟩
    rw [← List.append_assoc]
    exact (List.prefix_append_right_inj _).mpr hafter

theorem Settled.clean_strip {t : Text} (h : Settled t) : Clean (strip t) := by
  fun_induction strip t with
  | case1 t rest hrest _ ih =>
    obtain ⟨m, -, rfl⟩ := exists_sequence hrest
    exact ih (h.part (List.suffix_append m rest).isInfix)
  | case2 _ => exact clean_of_plain List.not_mem_nil
  | case3 c t hnone ih =>
    intro m hm hin
    rcases List.infix_cons_iff.mp hin with hin | hin
    · rw [← strip_of_none hnone] at hin
      obtain ⟨s, hs, hin⟩ := exists_torn hnone hm hin
      exact h s hs hin.isInfix
    · exact ih (h.part (List.suffix_cons c t).isInfix) m hm hin

/-- The texts that are clean after one go are those without a torn sequence. -/
theorem clean_strip_iff {t : Text} : Clean (strip t) ↔ Settled t := by
  constructor
  · intro h s hs hin
    obtain ⟨m, hm, hin⟩ := hs.exists_sequence hin
    exact h m hm hin
  · exact Settled.clean_strip

instance (t : Text) : Decidable (Settled t) := decidable_of_iff _ clean_strip_iff

/-! ## Going over a text again -/

theorem count_strip_le (t : Text) : (strip t).count '\x1b' ≤ t.count '\x1b' := by
  fun_induction strip t with
  | case1 t rest h _ ih =>
    obtain ⟨m, -, rfl⟩ := exists_sequence h
    rw [List.count_append]
    exact Nat.le_add_left_of_le ih
  | case2 _ => exact Nat.le_refl 0
  | case3 c t h ih =>
    rw [List.count_cons, List.count_cons]
    exact Nat.add_le_add_right ih _

theorem count_strip_lt {t : Text} (h : ¬Clean t) : (strip t).count '\x1b' < t.count '\x1b' := by
  fun_induction strip t with
  | case1 t rest hrest _ _ =>
    obtain ⟨m, hm, rfl⟩ := exists_sequence hrest
    obtain ⟨more, rfl, -⟩ := hm.exists_cons
    have hle := count_strip_le rest
    rw [List.count_append, List.count_cons_self]
    omega
  | case2 _ => exact absurd (clean_of_plain List.not_mem_nil) h
  | case3 c t hnone ih =>
    rw [List.count_cons, List.count_cons]
    exact Nat.add_lt_add_right (ih fun ht => h (.cons hnone ht)) _

/-- Each go takes away an escape character, as long as there is a sequence. -/
theorem clean_iterate {n : Nat} {t : Text} (h : t.count '\x1b' ≤ n) : Clean (strip^[n] t) := by
  induction n generalizing t with
  | zero => exact clean_of_plain (List.count_eq_zero.mp (Nat.le_zero.mp h))
  | succ n ih =>
    by_cases ht : Clean t
    · rwa [Function.iterate_fixed ((strip_eq_self_iff t).mpr ht)]
    · rw [Function.iterate_succ_apply]
      exact ih (Nat.le_of_lt_succ (Nat.lt_of_lt_of_le (count_strip_lt ht) h))

def nested (n : Nat) : Text :=
  List.replicate n '\x1b' ++ (List.replicate n "[0m".toList).flatten

theorem strip_escapes (n : Nat) (t : Text) :
    strip (List.replicate n '\x1b' ++ '\x1b' :: t) =
      List.replicate n '\x1b' ++ strip ('\x1b' :: t) := by
  induction n with
  | zero => rfl
  | succ n ih =>
    have hnone : afterEscape? ('\x1b' :: (List.replicate n '\x1b' ++ '\x1b' :: t)) = none := by
      cases n <;> rfl
    rw [List.replicate_succ, List.cons_append, strip_of_none hnone, ih, List.cons_append]

theorem escape_not_mem_ends (n : Nat) : '\x1b' ∉ (List.replicate n "[0m".toList).flatten := by
  intro h
  obtain ⟨ending, hending, hmem⟩ := List.mem_flatten.mp h
  rw [List.eq_of_mem_replicate hending] at hmem
  exact absurd hmem (by decide)

/-- Only the innermost sequence is removed. -/
theorem strip_nested (n : Nat) : strip (nested (n + 1)) = nested n := by
  have hinner (more : Text) : strip ('\x1b' :: ("[0m".toList ++ more)) = strip more :=
    strip_of_some rfl
  rw [nested, List.replicate_succ', List.append_assoc, List.singleton_append, strip_escapes,
    List.replicate_succ, List.flatten_cons, hinner, strip_eq_self (escape_not_mem_ends n), nested]

theorem count_nested (n : Nat) : (nested n).count '\x1b' = n := by
  rw [nested, List.count_append, List.count_replicate_self,
    List.count_eq_zero.mpr (escape_not_mem_ends n), Nat.add_zero]

theorem not_clean_iterate (n : Nat) : ¬Clean (strip^[n] (nested (n + 1))) := by
  induction n with
  | zero =>
    have hreset : IsSequence (nested 1) := by decide
    exact fun h => h _ hreset List.infix_rfl
  | succ n ih => rwa [Function.iterate_succ_apply, strip_nested]

/-- One go less than there are escape characters can be too few. -/
theorem exists_not_clean (n : Nat) :
    ∃ t : Text, t.count '\x1b' = n + 1 ∧ ¬Clean (strip^[n] t) :=
  ⟨nested (n + 1), count_nested (n + 1), not_clean_iterate n⟩

end Ansi

/-! ## The snippet of a message -/

open Ansi

theorem Text.infix_join {sep t : Text} {ts : List Text} (h : t ∈ ts) : t <:+: Text.join sep ts := by
  fun_induction Text.join sep ts with
  | case1 => cases h
  | case2 u =>
    obtain rfl := List.mem_singleton.mp h
    exact List.infix_rfl
  | case3 u ts hne ih =>
    rcases List.mem_cons.mp h with rfl | h
    · rw [List.append_assoc]
      exact (List.prefix_append _ _).isInfix
    · exact (ih h).trans (List.suffix_append _ _).isInfix

theorem Snippet.infix_format {s : Snippet} {number : Nat} {line : Text}
    (h : (number, line) ∈ s.lines) : line <:+: s.format false := by
  obtain ⟨marked, hrow⟩ :
      ∃ isMarked, numbered false number line isMarked ∈ s.rows false (number, line) := by
    refine ⟨(number : Int) == s.marked, ?_⟩
    simp only [rows]
    split
    · split <;> exact List.mem_cons_self
    · exact List.mem_cons_self
  have hline : line <:+: numbered false number line marked := by
    rw [numbered_plain]
    exact (List.suffix_append _ _).isInfix
  refine hline.trans (Text.infix_join (List.mem_append_left _ (List.mem_cons_of_mem _ ?_)))
  exact List.mem_flatMap.mpr ⟨_, h, hrow⟩

theorem Snippet.stripped_stripped {s : Snippet} (h : ∀ p ∈ s.lines, Clean (strip p.2)) :
    s.stripped.stripped = s.stripped := by
  have hlines : s.stripped.stripped.lines = s.stripped.lines := by
    simp only [stripped, List.map_map]
    refine List.map_congr_left fun p hp => congrArg (Prod.mk p.1) ?_
    exact (strip_eq_self_iff _).mpr (h p hp)
  exact congrArg (fun lines => { s with lines }) hlines

theorem Snippet.clean_iff {s : Snippet} (color : Bool) :
    Clean (strip (s.format color)) ↔ ∀ p ∈ s.lines, Clean (strip p.2) := by
  constructor
  · intro h p hp m hm hin
    rw [strip_format] at h
    have hline : (p.1, strip p.2) ∈ s.stripped.lines := List.mem_map.mpr ⟨p, hp, rfl⟩
    exact h m hm (hin.trans (infix_format hline))
  · intro h
    rw [← strip_eq_self_iff, strip_format, strip_format, stripped_stripped h]

/-- **Stripping leaves no escape behind where no sequence is torn.** A text is clean after one go if
and only if no part of it is a torn sequence, and after as many goes as it has escape characters. -/
theorem Ansi.residue_clean (t : Text) (d : Diagnostic) (color : Bool) :
    (strip t = t ↔ Clean t) ∧
    (Clean (strip t) ↔ Settled t) ∧
    Clean (strip^[t.count '\x1b'] t) ∧
    (∃ heading, d.message color = heading ++ strip (d.snippet.format color) ++ d.causeLine) ∧
    (Clean (strip (d.snippet.format color)) ↔ ∀ n ∈ d.shownNumbers, Settled (d.shownLine n)) ∧
    (Settled d.source → Clean (strip (d.snippet.format color))) := by
  have hsnippet : Clean (strip (d.snippet.format color)) ↔
      ∀ n ∈ d.shownNumbers, Settled (d.shownLine n) := by
    rw [Snippet.clean_iff, d.snippet_lines]
    simp only [List.forall_mem_map, clean_strip_iff]
  refine ⟨strip_eq_self_iff t, clean_strip_iff, clean_iterate (Nat.le_refl _), ?_, hsnippet, ?_⟩
  · refine ⟨d.position ++ ": ".toList ++ d.kind.name ++
      "\n  --> ".toList ++ d.location ++ ['\n'], ?_⟩
    simp only [Diagnostic.message, List.append_assoc, List.cons_append, List.nil_append]
  · exact fun h => hsnippet.mpr fun n _ => h.part (d.shownLine_within n)

/-- A source with a sequence that is cut off at the end of its line, before a whole one. -/
theorem Ansi.residue_clean_cut :
    let source := "\x1b[31mred\x1b[0\n\x1b[1m\x7b% if %\x7d\x1b".toList
    let d : Diagnostic := ⟨.parse .missingTestExpression, 23, source, none, none⟩
    Settled source ∧ ¬Clean source ∧
      strip source = "red\x1b[0\n\x7b% if %\x7d\x1b".toList ∧ Clean (strip source) ∧
      Clean (strip (d.snippet.format true)) := by
  intro source d
  have hsettled : Settled source := by decide +kernel
  obtain ⟨-, hclean, -, -, -, hsnippet⟩ := residue_clean source d true
  exact ⟨hsettled, by decide +kernel, by decide +kernel, hclean.mpr hsettled, hsnippet hsettled⟩

/-- The end of the inner sequence is followed by that of the outer one. -/
theorem Ansi.residue_not_clean :
    let source := "\x1b\x1b[0m[0m".toList
    let d : Diagnostic :=
      ⟨.parse .incompletedExpressionBlock, 8, source ++ "\x7b\x7b".toList, none, none⟩
    strip source = "\x1b[0m".toList ∧ ¬Clean (strip source) ∧ strip (strip source) = [] ∧
      ¬Clean (strip (d.snippet.format false)) := by
  decide +kernel

end Stencil
