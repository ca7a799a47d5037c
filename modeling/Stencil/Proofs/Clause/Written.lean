import Stencil.Proofs.Clause.Tiling
import Stencil.Proofs.Expr.Depth
import Stencil.Proofs.Token.Truncation

/-!
# Clauses as they are written

What clauses a source is written in does not depend on how deep the parser can go. The scan finds
these clauses if their expressions are within its limits, and no others.
-/

namespace Stencil.Clause

open Stencil.Expr (Short fail_ne_ok)

variable {stack : Stack}

/-- From an offset on, the source is written in these clauses: each output or statement is the one
that its tokens read as, and between them are runs of text. -/
inductive Written (source : Text) : Nat → List Clause → Prop
  | nil : Written source source.length []
  | text {o clauses} : 0 < textLength (source.drop o) →
      Written source (o + textLength (source.drop o)) clauses →
      Written source o (.text ⟨o, o + textLength (source.drop o)⟩ :: clauses)
  | tag {o c ts clauses} : source.drop o = c.opening ++ source.drop (o + 2) →
      Token.stream closes (o + 2) (source.drop (o + 2)) = ts → Reads o c ts → c.WellLevelled →
      Short ts → Written source c.stop clauses → Written source o (c :: clauses)

def DepthAtMost (n : Nat) (c : Clause) : Prop :=
  ∀ l e, c.expression? = some (l, e) → e.depth ≤ n

theorem DepthAtMost.fits {stack : Stack} {n : Nat} {c : Clause} (h : c.DepthAtMost n)
    (hw : c.WellLevelled) (hn : 15 * n + 20 ≤ stack.calls) : c.Fits stack := by
  intro l e he
  have hdepth := h l e he
  have hnesting := Expr.nesting_le_of_depth (hw l e he).1
  cases c with
  | output | ifTest | elifTest | forEach =>
    simp only [room]
    omega
  | _ => cases he

section
variable {source : Text} {offset : Nat} {clauses : List Clause}

theorem Written.wellLevelled (h : Written source offset clauses) :
    ∀ c ∈ clauses, c.WellLevelled := by
  induction h with
  | nil => exact List.forall_mem_nil _
  | text _ _ ih => exact List.forall_mem_cons.mpr ⟨nofun, ih⟩
  | tag _ _ _ hw _ _ ih => exact List.forall_mem_cons.mpr ⟨hw, ih⟩

theorem Written.scan (h : Written source offset clauses) (hf : ∀ c ∈ clauses, c.Fits stack) :
    scanFrom stack offset (source.drop offset) = .ok clauses := by
  induction h with
  | nil => rw [List.drop_length, scanFrom_nil]
  | @text o clauses hpos _ ih =>
    have hlt : o < source.length := by
      have := textLength_le (source.drop o)
      rw [List.length_drop] at this
      omega
    rw [scanFrom_read hlt (read_text hpos),
      show (Clause.text _).stop = o + textLength (source.drop o) from rfl,
      ih (List.forall_mem_cons.mp hf).2]
    rfl
  | @tag o c ts clauses hopen hts hr hw hs _ ih =>
    obtain ⟨hc, hmore⟩ := List.forall_mem_cons.mp hf
    have hlt : o < source.length := by
      have hlength := congrArg List.length hopen
      have hwidth : c.opening.length = 2 := by cases hr <;> rfl
      rw [List.length_append, hwidth, List.length_drop, List.length_drop] at hlength
      omega
    have hread : read stack o (source.drop o) = .ok c := hopen ▸ read_complete hr hw hc hs hts
    rw [scanFrom_read hlt hread, ih hmore]
    rfl

end

/-! ## What is scanned is written -/

theorem opening_readLoop {start : Nat} {keyword : Token} {tokens : List Token} {c : Clause}
    (h : readLoop stack start keyword tokens = .ok c) : c.opening = ['{', '%'] := by
  obtain ⟨parsed, -, h⟩ := bind_eq_ok.mp h
  split at h
  · split at h
    · exact absurd h fail_ne_ok
    obtain ⟨parsed, -, h⟩ := bind_eq_ok.mp h
    split at h
    · exact absurd h fail_ne_ok
    obtain ⟨stop, -, h⟩ := bind_eq_ok.mp h
    obtain rfl := pure_eq_ok.mp h
    rfl
  · exact absurd h fail_ne_ok

theorem opening_readStatement {start : Nat} {tokens : List Token} {c : Clause}
    (h : readStatement stack start tokens = .ok c) : c.opening = ['{', '%'] := by
  have htest : ∀ {d : Nat → Expr → Clause} {rest : List Token},
      (∀ n e, (d n e).opening = ['{', '%']) → (do
        let test ← readTest stack rest
        return d (← statementEnd test.1.stop test.2) test.1) = .ok c →
      c.opening = ['{', '%'] := by
    intro d rest hd h
    obtain ⟨_, -, h⟩ := bind_eq_ok.mp h
    obtain ⟨_, -, h⟩ := bind_eq_ok.mp h
    exact pure_eq_ok.mp h ▸ hd _ _
  have hbare : ∀ {d : Nat → Clause} {offset : Nat} {rest : List Token},
      (∀ n, (d n).opening = ['{', '%']) →
      (do return d (← statementEnd offset rest)) = .ok c → c.opening = ['{', '%'] := by
    intro d offset rest hd h
    obtain ⟨_, -, h⟩ := bind_eq_ok.mp h
    exact pure_eq_ok.mp h ▸ hd _
  cases tokens with
  | nil => exact absurd h fail_ne_ok
  | cons keyword rest =>
    simp only [readStatement] at h
    split at h
    · exact htest (d := fun n e => .ifTest ⟨start, n⟩ e) (fun _ _ => rfl) h
    · exact htest (d := fun n e => .elifTest ⟨start, n⟩ e) (fun _ _ => rfl) h
    · exact hbare (d := fun n => .otherwise ⟨start, n⟩) (fun _ => rfl) h
    · exact hbare (d := fun n => .endIf ⟨start, n⟩) (fun _ => rfl) h
    · exact opening_readLoop h
    · exact hbare (d := fun n => .endFor ⟨start, n⟩) (fun _ => rfl) h
    · exact absurd h fail_ne_ok

section
variable {source : Text} {offset : Nat} {c : Clause}

theorem written_of_read (hlt : offset < source.length)
    (h : read stack offset (source.drop offset) = .ok c) {clauses : List Clause}
    (hmore : Written source c.stop clauses) : Written source offset (c :: clauses) := by
  rcases read_sound hlt h with ⟨rfl, hpos⟩ | ⟨ts, rest, hts, hp⟩
  · exact .text hpos hmore
  obtain ⟨front, last, rfl, hk, -⟩ := hp.reads.closing
  have hmem : last ∈ Token.stream closes (offset + 2) (source.drop (offset + 2)) := by
    rw [hts]
    simp
  -- only the last token of a stream closes it, so nothing comes after those that were read
  obtain ⟨init, hinit, hkinds⟩ := Token.stream_closed rfl hmem hk
  obtain rfl : rest = [] := by
    rcases rest.eq_nil_or_concat with rfl | ⟨rest, t, rfl⟩
    · rfl
    rw [hinit, List.concat_eq_append, ← List.append_assoc] at hts
    obtain ⟨rfl, -⟩ := List.append_inj' hts rfl
    have hopen := (hkinds last (by simp)).2
    rw [hk] at hopen
    cases hopen
  rw [List.append_nil] at hts
  refine .tag ?_ hts hp.reads hp.levelled hp.short hmore
  unfold read at h
  split at h
  · next more heq => rw [heq, drop_opening heq, opening_readStatement h]; rfl
  · next more heq => rw [heq, drop_opening heq, opening_readOutput h]; rfl
  · obtain rfl := pure_eq_ok.mp h
    cases hp.reads

theorem fits_of_read (hlt : offset < source.length)
    (h : read stack offset (source.drop offset) = .ok c) : c.Fits stack := by
  rcases read_sound hlt h with ⟨rfl, -⟩ | ⟨_, _, _, hp⟩
  · exact nofun
  · exact hp.fits

end

/-- The scan finds the clauses that the source is written in, if their expressions are within the
limits of the parser, and it finds no others. -/
theorem scan_eq_ok_iff {source : Text} {clauses : List Clause} :
    scan stack source = .ok clauses ↔ Written source 0 clauses ∧ ∀ c ∈ clauses, c.Fits stack := by
  constructor
  · intro h
    rw [scan_eq_scanFrom, ← List.drop_zero (l := source)] at h
    refine scanFrom_induction
      (P := fun o cs => Written source o cs ∧ ∀ c ∈ cs, c.Fits stack)
      ⟨.nil, List.forall_mem_nil _⟩ ?_ (Nat.zero_le _) h
    rintro o c more hlt hread - ⟨hmore, hfits⟩
    exact ⟨written_of_read hlt hread hmore,
      List.forall_mem_cons.mpr ⟨fits_of_read hlt hread, hfits⟩⟩
  · rintro ⟨hw, hf⟩
    rw [scan_eq_scanFrom, ← hw.scan hf, List.drop_zero]

end Stencil.Clause
