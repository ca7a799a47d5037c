import Stencil.Proofs.Clause.Printing
import Stencil.Proofs.Render.Constants

/-!
# What comes out verbatim

A template is made of pieces of text and of strings in quotes. No string is mistaken for the end of
its output, and no piece of text for the beginning of one, so the characters of all pieces come out
as they are.
-/

namespace Stencil

open Token (Layout)

inductive Piece
  | raw (content : Text)
  /-- A string in the quotes of an output. -/
  | quoted (content : Text)

namespace Piece

def content : Piece → Text
  | raw t => t
  | quoted t => t

def source : Piece → Text
  | raw t => t
  | quoted t => outputOf ('\'' :: t ++ ['\''])

def draft : Piece → Draft
  | raw t => .text t
  | quoted t => .output (.literal default (.ofText t))

/-- No clause begins in a piece of text, and no quote ends a string early. -/
def Valid : Piece → Prop
  | raw t => Draft.IsRun t
  | quoted t => '\'' ∉ t

/-- A piece of text is not followed by another one, and does not make up a delimiter with the
output that follows it. -/
def Meets : Piece → Piece → Prop
  | raw t, quoted _ => t.getLast? ≠ some '{'
  | raw _, raw _ => False
  | quoted _, _ => True

theorem printable_draft (stack : Stack) {p : Piece} (h : p.Valid) :
    p.draft.Printable stack Layout.spaced.numeral := by
  cases p with
  | raw t => exact h
  | quoted t =>
    have hprintable : (Expr.literal default (.ofText t)).Printable Layout.spaced.numeral := ⟨rfl, h⟩
    exact ⟨hprintable, trivial, Level.piped_le _, Clause.le_room stack (.output default default)⟩

theorem Meets.draft {p q : Piece} (h : p.Meets q) : Draft.Meets p.draft q.draft := by
  intro content heq
  cases p with
  | raw t =>
    obtain rfl := Draft.text.inj heq
    cases q with
    | raw t => exact h.elim
    | quoted t => exact ⟨rfl, h⟩
  | quoted t => cases heq

theorem print_draft (o : Nat) (p : Piece) : p.draft.print .spaced o = p.source := by
  cases p with
  | raw t => rfl
  | quoted t =>
    show '{' :: '{' :: ([' '] ++ ('\'' :: t ++ ['\'']) ++ ([' '] ++ ['}', '}'] ++ [])) = _
    simp [source, outputOf]

/-! ## The source of all pieces -/

def sourceOf (ps : List Piece) : Text := (ps.map source).flatten

theorem printAll_drafts (ps : List Piece) (o : Nat) :
    Draft.printAll .spaced o (ps.map draft) = sourceOf ps := by
  induction ps generalizing o with
  | nil => rfl
  | cons p ps ih =>
    rw [List.map_cons, Draft.printAll, print_draft, ih]
    rfl

theorem scan_pieces {stack : Stack} {ps : List Piece} (hv : ∀ p ∈ ps, p.Valid)
    (hm : ps.IsChain Meets) :
    Clause.scan stack (sourceOf ps) = .ok (Draft.placeAll .spaced 0 (ps.map draft)) := by
  have hprint : ∀ d ∈ ps.map draft, d.Printable stack Layout.spaced.numeral := by
    intro d hd
    obtain ⟨p, hp, rfl⟩ := List.mem_map.mp hd
    exact printable_draft stack (hv p hp)
  have hchain : (ps.map draft).IsChain Draft.Meets :=
    List.isChain_map_of_isChain draft (fun _ _ h => h.draft) hm
  rw [Clause.scan_eq_scanFrom, ← printAll_drafts ps 0]
  exact Draft.scanFrom_print .spaced _ 0 hprint hchain

/-- The block of a piece is the text that the source has at its place, or its string. -/
theorem nests_pieces {all : Text} {n : Nat} : ∀ (ps : List Piece) (o : Nat),
    all.drop o = sourceOf ps →
    ∃ blocks, Block.Nests all n (Draft.placeAll .spaced o (ps.map draft)) blocks ∧
      List.Forall₂ Block.Writes blocks (ps.map content)
  | [], o, _ => ⟨[], .nil, .nil⟩
  | p :: ps, o, hall => by
    have hall' : all.drop o = p.source ++ sourceOf ps := hall
    have hstop : p.draft.stop .spaced o = o + p.source.length := by
      rw [Draft.stop, print_draft]
    have hnext : all.drop (p.draft.stop .spaced o) = sourceOf ps := by
      rw [hstop, ← List.drop_drop, hall', List.drop_left]
    obtain ⟨blocks, hnests, hwrites⟩ := nests_pieces ps _ hnext
    cases p with
    | raw t =>
      have hslice : all.slice o (o + t.length) = t := by
        rw [Text.slice, hall', Nat.add_sub_cancel_left]
        exact List.take_left
      refine ⟨.text ⟨o, o + t.length⟩ (all.slice o (o + t.length)) :: blocks, .text hnests, ?_⟩
      rw [hslice]
      exact .cons .text hwrites
    | quoted t => exact ⟨_, .output hnests, .cons .output hwrites⟩

end Piece

open Piece (Meets sourceOf content)

theorem parse_pieces (stack : Stack) {ps : List Piece} (hv : ∀ p ∈ ps, p.Valid)
    (hm : ps.IsChain Meets) :
    ∃ blocks ts, parse stack (sourceOf ps) = .ok blocks ∧ List.Forall₂ Block.Writes blocks ts ∧
      ts.flatten = if Text.AllBlank (sourceOf ps) then [] else (ps.map content).flatten := by
  by_cases hblank : Text.AllBlank (sourceOf ps)
  · refine ⟨[], [], ?_, .nil, by rw [if_pos hblank]; rfl⟩
    rw [parse, Text.trim_eq_nil_iff.mpr hblank]
    rfl
  · obtain ⟨n, hn⟩ := stack.calls_eq
    obtain ⟨blocks, hnests, hwrites⟩ := Piece.nests_pieces (n := n + 16) ps 0 List.drop_zero
    refine ⟨blocks, ps.map content, ?_, hwrites, by rw [if_neg hblank]⟩
    have hne : (Text.trim (sourceOf ps)).isEmpty = false :=
      List.isEmpty_eq_false_iff.mpr fun h => hblank (Text.trim_eq_nil_iff.mp h)
    rw [parse, hne, if_neg (by decide), Piece.scan_pieces hv hm]
    exact Block.build_eq_ok_iff.mpr ⟨n + 16, by rw [hn]; rfl, hnests⟩

/-- **Text and strings come out verbatim.** A source made of pieces of text and of strings in quotes
is rendered as these one after the other, or as nothing if it is blank. -/
theorem render_verbatim (stack : Stack) (ps : List Piece) (hv : ∀ p ∈ ps, p.Valid)
    (hm : ps.IsChain Meets) (name : Option Text) :
    ∃ t, Template.ofText stack (sourceOf ps) name = .ok t ∧ ∀ later data keywords progress,
      t.render later data keywords progress = ((Template.merge data keywords).map fun _ =>
        if Text.AllBlank (sourceOf ps) then [] else (ps.map content).flatten, progress) := by
  obtain ⟨blocks, ts, hparse, hwrites, htext⟩ := parse_pieces stack hv hm
  refine ⟨⟨sourceOf ps, name, blocks⟩, by rw [Template.ofText, hparse], ?_⟩
  intro later data keywords progress
  rw [Template.render_writes hwrites, htext]

/-- Lone braces in a text, delimiters in a string, and an empty string. -/
theorem render_verbatim_delimiters :
    let ps := [Piece.raw ['}', '{', '\''], .quoted ['}', '}', '{', '%', '\n'], .quoted []]
    (∀ p ∈ ps, p.Valid) ∧ ps.IsChain Meets ∧
    ∃ t, Template.ofText .least (sourceOf ps) none = .ok t ∧ ∀ later data progress,
      t.render later data [] progress =
        (.ok ['}', '{', '\'', '}', '}', '{', '%', '\n'], progress) := by
  intro ps
  have hraw : Draft.IsRun ['}', '{', '\''] := ⟨by decide, by decide, by decide⟩
  have hv : ∀ p ∈ ps, p.Valid := by simp [ps, Piece.Valid, hraw]
  have hm : ps.IsChain Meets := by simp [ps, Meets]
  have hblank : ¬ Text.AllBlank (sourceOf ps) := fun h =>
    absurd (h '}' List.mem_cons_self) (by decide)
  obtain ⟨t, ht, hrender⟩ := render_verbatim .least ps hv hm none
  refine ⟨hv, hm, t, ht, fun later data progress => ?_⟩
  rw [hrender, if_neg hblank]
  rfl

end Stencil
