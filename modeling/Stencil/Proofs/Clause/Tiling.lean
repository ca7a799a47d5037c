import Stencil.Proofs.Clause.Printing
import Stencil.Proofs.Expr.Nodes

/-!
# Clauses tile the source

The clauses of a scan follow each other without gaps from the front of the source to its end. A run
of text goes as far as it can: no clause begins in it, and no other run comes next.
-/

namespace Stencil

/-! ## Tilings -/

def Span.Tile : Nat → Nat → List Span → Prop
  | start, stop, [] => start = stop
  | start, stop, s :: ss => s.start = start ∧ s.start < s.stop ∧ Tile s.stop stop ss

theorem Span.Tile.append {m n : Nat} {ss : List Span} (rest : List Span) :
    Tile m n (ss ++ rest) ↔ ∃ k, Tile m k ss ∧ Tile k n rest := by
  induction ss generalizing m with
  | nil => exact ⟨fun h => ⟨m, rfl, h⟩, fun ⟨_, hm, h⟩ => hm ▸ h⟩
  | cons s ss ih =>
    simp only [List.cons_append, Tile, ih]
    constructor
    · rintro ⟨hs, hlt, k, hk, hrest⟩; exact ⟨k, ⟨hs, hlt, hk⟩, hrest⟩
    · rintro ⟨k, ⟨hs, hlt, hk⟩, hrest⟩; exact ⟨hs, hlt, k, hk, hrest⟩

theorem Span.Tile.le {m n : Nat} {ss : List Span} (h : Tile m n ss) : m ≤ n := by
  induction ss generalizing m with
  | nil => exact Nat.le_of_eq h
  | cons s ss ih =>
    obtain ⟨rfl, hlt, h⟩ := h
    exact Nat.le_trans (Nat.le_of_lt hlt) (ih h)

theorem Text.slice_eq {source t u : Text} {start stop : Nat} (h : source.drop start = t ++ u)
    (hstop : stop = start + t.length) : source.slice start stop = t := by
  rw [Text.slice, h, hstop, Nat.add_sub_cancel_left, List.take_left]

namespace Clause

open Draft (IsRun Opens)
open Stencil.Expr (accept? accept_eq_some fail_ne_ok)
open Token (atOffset)

def isText : Clause → Bool
  | text _ => true
  | _ => false

/-! ## Runs of text -/

theorem textLength_le (t : Text) : textLength t ≤ t.length := by
  fun_induction textLength t with
  | case1 | case2 | case3 => exact Nat.zero_le _
  | case4 c rest _ _ ih => exact Nat.succ_le_succ ih

theorem opens_textLength (t : Text) :
    t.drop (textLength t) = [] ∨ Opens (t.drop (textLength t)) := by
  fun_induction textLength t with
  | case1 => exact .inl rfl
  | case2 rest => exact .inr ⟨'%', rest, rfl, .inl rfl⟩
  | case3 rest => exact .inr ⟨'{', rest, rfl, .inr rfl⟩
  | case4 c rest _ _ ih => exact ih

theorem no_delimiter_take {d : Char} (hd : d = '%' ∨ d = '{') (t : Text) :
    ¬ ['{', d] <:+: t.take (textLength t) := by
  fun_induction textLength t with
  | case1 | case2 | case3 => exact fun h => absurd h.length_le (by simp)
  | case4 c rest hs ho ih =>
    rw [List.take_succ_cons, List.infix_cons_iff]
    rintro (h | h)
    · obtain ⟨rfl, more, hmore⟩ := List.cons_prefix_cons.mp h
      have hrest := List.take_append_drop (textLength rest) rest
      rw [← hmore] at hrest
      rcases hd with rfl | rfl
      · exact hs _ rfl hrest.symm
      · exact ho _ rfl hrest.symm
    · exact ih h

theorem isRun_take {t : Text} (hpos : 0 < textLength t) : IsRun (t.take (textLength t)) := by
  refine ⟨?_, no_delimiter_take (.inl rfl) t, no_delimiter_take (.inr rfl) t⟩
  apply List.ne_nil_of_length_pos
  rw [List.length_take, Nat.min_eq_left (textLength_le t)]
  exact hpos

/-! ## What is read at an offset -/

theorem Reads.isText {start : Nat} {c : Clause} {ts : List Token} (h : Reads start c ts) :
    c.isText = false := by
  cases h <;> rfl

theorem Reads.start_eq {start : Nat} {c : Clause} {ts : List Token} (h : Reads start c ts) :
    c.start = start := by
  cases h <;> rfl

theorem Reads.closing {start : Nat} {c : Clause} {ts : List Token} (h : Reads start c ts) :
    ∃ init last, ts = init ++ [last] ∧ closes last.kind = true ∧ c.stop = last.stop := by
  cases h with
  | @output c e ts hc => exact ⟨ts, c, rfl, by rw [hc]; rfl, rfl⟩
  | @ifTest k c e ts _ hc | @elifTest k c e ts _ hc => exact ⟨k :: ts, c, rfl, by rw [hc]; rfl, rfl⟩
  | @otherwise k c _ hc | @endIf k c _ hc | @endFor k c _ hc =>
    exact ⟨[k], c, rfl, by rw [hc]; rfl, rfl⟩
  | @forEach k x i c e ts _ _ _ hc => exact ⟨k :: x :: i :: ts, c, rfl, by rw [hc]; rfl, rfl⟩

theorem closes_eq {k : Token.Kind} (h : closes k = true) :
    k = .statementEnd ∨ k = .expressionEnd := by
  cases k with
  | statementEnd => exact .inl rfl
  | expressionEnd => exact .inr rfl
  | _ => cases h

theorem valid_of_closes {k : Token.Kind} (h : closes k = true) : k ≠ .invalid := by
  rcases closes_eq h with rfl | rfl <;> decide

theorem stop_of_closes {source : Text} {offset : Nat}
    (h : closes (atOffset source offset).kind = true) :
    (atOffset source offset).stop = (atOffset source offset).start + 2 := by
  have hstop := (Token.drop_start_atOffset (valid_of_closes h)).2
  have hspelled := Token.atOffset_spelled source offset
  rcases closes_eq h with hk | hk
  · rw [hspelled ['%', '}'] (by rw [hk]; rfl)] at hstop
    exact hstop
  · rw [hspelled ['}', '}'] (by rw [hk]; rfl)] at hstop
    exact hstop

theorem Reads.expression_closing {start : Nat} {c : Clause} {ts : List Token} (h : Reads start c ts)
    {l : Level} {e : Expr} (he : c.expression? = some (l, e)) :
    ∃ before es last, ts = before ++ es ++ [last] ∧ e.Reads es ∧ closes last.kind = true ∧
      c.stop = last.stop := by
  cases h with
  | @output c e ts hc hr => cases he; exact ⟨[], ts, c, rfl, hr, by rw [hc]; rfl, rfl⟩
  | @ifTest k c e ts _ hc hr | @elifTest k c e ts _ hc hr =>
    cases he
    exact ⟨[k], ts, c, rfl, hr, by rw [hc]; rfl, rfl⟩
  | @forEach k x i c e ts _ _ _ hc hr =>
    cases he
    exact ⟨[k, x, i], ts, c, rfl, hr, by rw [hc]; rfl, rfl⟩
  | _ => cases he

section
variable {stack : Stack} {source : Text} {offset : Nat} {c : Clause}

theorem bounds_of_read (hlt : offset < source.length)
    (h : read stack offset (source.drop offset) = .ok c) :
    c.start = offset ∧ offset < c.stop ∧ c.stop ≤ source.length := by
  rcases read_sound hlt h with ⟨rfl, hpos⟩ | ⟨ts, rest, hts, hr, -⟩
  · have hle := textLength_le (source.drop offset)
    rw [List.length_drop] at hle
    have hstop : offset + textLength (source.drop offset) ≤ source.length := by omega
    exact ⟨rfl, Nat.lt_add_of_pos_right hpos, hstop⟩
  · obtain ⟨init, last, rfl, hk, hstop⟩ := hr.closing
    have hf := Token.follows_stream closes source (offset + 2)
    rw [hts] at hf
    obtain ⟨o, ho, rfl⟩ := hf.exists_offset last (by simp)
    obtain ⟨hlast, hle⟩ := Token.atOffset_bounds (valid_of_closes hk)
    have := Token.le_start_atOffset source o
    exact ⟨hr.start_eq, by omega, hstop ▸ hle⟩

/-- Every node of the expression of a clause begins between the delimiters of the clause. -/
theorem inside_of_read (hlt : offset < source.length)
    (h : read stack offset (source.drop offset) = .ok c) {l : Level} {e : Expr}
    (he : c.expression? = some (l, e)) :
    e.WellLevelled ∧ ∀ n ∈ e.nodes, offset + 2 ≤ n.start ∧ n.start + 2 < c.stop := by
  rcases read_sound hlt h with ⟨rfl, -⟩ | ⟨ts, rest, hts, hr, hw⟩
  · cases he
  refine ⟨(hw l e he).1, fun n hn => ?_⟩
  obtain ⟨before, es, last, rfl, hes, hk, hstop⟩ := hr.expression_closing he
  obtain ⟨t, ht, hvalid, hstart⟩ : ∃ t ∈ es, t.kind ≠ .invalid ∧ n.start = t.start :=
    (hes.meets n hn).start
  have hf := Token.follows_stream closes source (offset + 2)
  rw [hts, List.append_assoc] at hf
  have hle : t.stop ≤ last.start :=
    hf.stop_le_start t (List.mem_append_right _ ht) last List.mem_cons_self
  obtain ⟨o, ho, rfl⟩ := hf.exists_offset t (by simp [ht])
  obtain ⟨o', -, rfl⟩ := hf.exists_offset last (by simp)
  have hfirst := Token.le_start_atOffset source o
  have hlast := stop_of_closes hk
  obtain ⟨hpos, -⟩ := Token.atOffset_bounds hvalid
  omega

theorem lt_length_of_opens (h : Opens (source.drop offset)) :
    offset < source.length := by
  obtain ⟨d, rest, heq, -⟩ := h
  have := congrArg List.length heq
  rw [List.length_drop, List.length_cons] at this
  omega

theorem isText_of_opens (h : Opens (source.drop offset))
    (hread : read stack offset (source.drop offset) = .ok c) : c.isText = false := by
  rcases read_sound (lt_length_of_opens h) hread with ⟨-, hpos⟩ | ⟨_, _, _, hr, _⟩
  · rw [textLength_opens h] at hpos
    cases hpos
  · exact hr.isText

/-- A run of text stretches to the end of the source or to the next opening delimiter. -/
theorem run_of_read {s : Span} (hlt : offset < source.length)
    (h : read stack offset (source.drop offset) = .ok (.text s)) :
    IsRun (source.slice s.start s.stop) ∧
      (source.drop s.stop = [] ∨ Opens (source.drop s.stop)) := by
  rcases read_sound hlt h with ⟨heq, hpos⟩ | ⟨_, _, _, hr, _⟩
  · obtain rfl := Clause.text.inj heq
    have hstop := opens_textLength (source.drop offset)
    rw [List.drop_drop] at hstop
    have hslice : source.slice offset (offset + textLength (source.drop offset)) =
        (source.drop offset).take (textLength (source.drop offset)) := by
      rw [Text.slice, Nat.add_sub_cancel_left]
    exact ⟨hslice ▸ isRun_take hpos, hstop⟩
  · cases hr.isText

end

/-! ## The scan -/

section
variable {stack : Stack} {source : Text}

theorem scanFrom_eq_ok {offset : Nat} {clauses : List Clause} (hlt : offset < source.length)
    (h : scanFrom stack offset (source.drop offset) = .ok clauses) :
    ∃ c more, clauses = c :: more ∧ read stack offset (source.drop offset) = .ok c ∧
      scanFrom stack c.stop (source.drop c.stop) = .ok more := by
  rw [scanFrom_drop hlt] at h
  obtain ⟨c, hread, hnext⟩ := bind_eq_ok.mp h
  obtain ⟨more, hmore, hpure⟩ := bind_eq_ok.mp hnext
  exact ⟨c, more, (pure_eq_ok.mp hpure).symm, mapError_eq_ok.mp hread, hmore⟩

theorem scanFrom_cons {front rest : Text} {offset : Nat} {c : Clause} {more : List Clause}
    (hne : front ≠ []) (hread : read stack offset (front ++ rest) = .ok c)
    (hstop : c.stop = offset + front.length) (hmore : scanFrom stack c.stop rest = .ok more) :
    scanFrom stack offset (front ++ rest) = .ok (c :: more) := by
  rw [scanFrom_append hne hread hstop, hmore]
  rfl

/-- What holds at the end of the source, and from a clause on if it holds after it, holds of every
scan. -/
theorem scanFrom_induction {P : Nat → List Clause → Prop} (nil : P source.length [])
    (cons : ∀ offset c more, offset < source.length →
      read stack offset (source.drop offset) = .ok c →
      scanFrom stack c.stop (source.drop c.stop) = .ok more → P c.stop more → P offset (c :: more))
    {offset : Nat} {clauses : List Clause} (hle : offset ≤ source.length)
    (h : scanFrom stack offset (source.drop offset) = .ok clauses) : P offset clauses := by
  by_cases hlt : offset < source.length
  · obtain ⟨c, more, rfl, hread, hmore⟩ := scanFrom_eq_ok hlt h
    have ⟨_, hstop, hend⟩ := bounds_of_read hlt hread
    exact cons offset c more hlt hread hmore (scanFrom_induction nil cons hend hmore)
  · obtain rfl : offset = source.length := by omega
    rw [List.drop_length, scanFrom_nil] at h
    cases h
    exact nil
termination_by source.length - offset
decreasing_by omega

section
variable {offset : Nat} {clauses : List Clause} (hle : offset ≤ source.length)
  (h : scanFrom stack offset (source.drop offset) = .ok clauses)
include hle h

theorem tile_scanFrom : Span.Tile offset source.length (clauses.map span) := by
  refine scanFrom_induction (P := fun o cs => Span.Tile o source.length (cs.map span)) rfl ?_ hle h
  intro offset c more hlt hread _ ih
  obtain ⟨hstart, hstop, _⟩ := bounds_of_read hlt hread
  exact ⟨hstart, by rw [show c.span.start = offset from hstart]; exact hstop, ih⟩

theorem alternate_scanFrom : clauses.IsChain fun c d => ¬ (c.isText = true ∧ d.isText = true) := by
  refine scanFrom_induction
    (P := fun _ cs => cs.IsChain fun c d => ¬ (c.isText = true ∧ d.isText = true)) .nil ?_ hle h
  intro offset c more hlt hread hmore ih
  rw [List.isChain_cons]
  refine ⟨fun d hd ⟨hc, hdtext⟩ => ?_, ih⟩
  cases c with
  | text s =>
    replace hmore : scanFrom stack s.stop (source.drop s.stop) = .ok more := hmore
    rcases (run_of_read hlt hread).2 with hend | hopens
    · rw [hend, scanFrom_nil] at hmore
      cases hmore
      cases hd
    · obtain ⟨e, others, rfl, hnext, _⟩ := scanFrom_eq_ok (lt_length_of_opens hopens) hmore
      obtain rfl := Option.some.inj hd
      rw [isText_of_opens hopens hnext] at hdtext
      cases hdtext
  | _ => cases hc

end

/-! ## Statements of one word -/

def IsTag (word t : Text) : Prop :=
  ∃ before after, t = ['{', '%'] ++ before ++ word ++ after ++ ['%', '}'] ∧
    (∀ c ∈ before, Text.isBlank c = true) ∧ ∀ c ∈ after, Text.isBlank c = true

theorem opening_readOutput {start : Nat} {tokens : List Token} {c : Clause}
    (h : readOutput stack start tokens = .ok c) : c.opening = ['{', '{'] := by
  obtain ⟨o, _, hnext⟩ := bind_eq_ok.mp h
  rcases o with _ | ⟨e, after⟩
  · exact absurd hnext fail_ne_ok
  cases hc : accept? .expressionEnd after with
  | none => simp only [hc] at hnext; exact absurd hnext fail_ne_ok
  | some q =>
    simp only [hc] at hnext
    obtain rfl := pure_eq_ok.mp hnext
    rfl

theorem drop_of_statement {offset : Nat} {c : Clause} (hc : c.opening = ['{', '%'])
    (h : read stack offset (source.drop offset) = .ok c) :
    source.drop offset = '{' :: '%' :: source.drop (offset + 2) := by
  unfold read at h
  split at h
  · rename_i rest heq
    have hrest : source.drop (offset + 2) = rest := by rw [← List.drop_drop, heq]; rfl
    rw [heq, hrest]
  · rw [opening_readOutput h] at hc
    cases hc
  · obtain rfl := pure_eq_ok.mp h
    cases hc

/-- A statement that is read from two tokens only is the word of the first one. -/
theorem tag_of_read {offset : Nat} {c : Clause} {word : Text} (hlt : offset < source.length)
    (h : read stack offset (source.drop offset) = .ok c) (hc : c.opening = ['{', '%'])
    (htag : ∀ ts, Reads offset c ts → ∃ k d, ts = [k, d] ∧ k.kind.spelling? = some word ∧
      d.kind = .statementEnd) : IsTag word (source.slice c.start c.stop) := by
  have hopen := drop_of_statement hc h
  rcases read_sound hlt h with ⟨rfl, -⟩ | ⟨ts, rest, hts, hr, -⟩
  · cases hc
  obtain ⟨k, d, rfl, hk, hd⟩ := htag ts hr
  have hf := Token.follows_stream closes source (offset + 2)
  rw [hts] at hf
  obtain ⟨hka, hda, -⟩ := hf
  have hkspelled := hka ▸ Token.atOffset_spelled source (offset + 2)
  have hdspelled := hda ▸ Token.atOffset_spelled source k.stop
  have hkvalid : k.kind ≠ .invalid := (Token.kind_of_spelling hk).1
  have hdvalid : d.kind ≠ .invalid := by rw [hd]; decide
  obtain ⟨before, hbefore, hfront, hkstop⟩ := Token.drop_atOffset (hka ▸ hkvalid)
  obtain ⟨after, hafter, hback, hdstop⟩ := Token.drop_atOffset (hda ▸ hdvalid)
  rw [← hka, hkspelled word hk] at hfront hkstop
  rw [← hda, hdspelled ['%', '}'] (by rw [hd]; rfl)] at hback hdstop
  refine ⟨before, after, ?_, hbefore, hafter⟩
  have hstop : c.stop = d.stop := hr.stop_eq offset
  rw [hr.start_eq]
  apply Text.slice_eq (u := source.drop d.stop)
  · rw [hopen, hfront, hback]
    simp only [List.append_assoc, List.cons_append, List.nil_append]
  · rw [hstop, hdstop, hkstop]
    simp only [List.length_append, List.length_cons, List.length_nil]
    omega

end

end Clause

end Stencil
