import Mathlib.Data.Nat.Digits.Lemmas
import Stencil.Diagnostic
import Stencil.Proofs.Ansi.Strip

/-!
# Colors of diagnostics

Colors add to a diagnostic nothing but escape sequences. When all sequences are removed, those that
stand in the source and in the name of the template go as they go from the same text by itself,
wherever they are cut off.
-/

namespace Stencil

open Ansi

/-! ## Numbers and names -/

theorem Decimal.escape_not_mem_ofNat (n : Nat) : '\x1b' ∉ Decimal.ofNat n := fun h =>
  absurd (Nat.isDigit_of_mem_toDigits (by decide) (by decide) h) (by decide)

theorem Decimal.escape_not_mem_ofInt (n : Int) : '\x1b' ∉ Decimal.ofInt n := by
  cases n with
  | ofNat n => exact Decimal.escape_not_mem_ofNat n
  | negSucc n => simpa [Decimal.ofInt] using Decimal.escape_not_mem_ofNat (n + 1)

theorem ErrorKind.name_plain (kind : ErrorKind) : kind.name ≠ [] ∧ '\x1b' ∉ kind.name := by
  rcases kind with kind | kind <;> cases kind <;> decide +kernel

/-! ## Snippets -/

namespace Snippet

def stripped (s : Snippet) : Snippet :=
  { s with lines := s.lines.map fun (number, line) => (number, strip line) }

theorem strip_gutter (color : Bool) (more : Text) :
    strip (gutter color ++ more) = gutter false ++ strip more :=
  strip_paint_plain color _ (by decide) more

theorem strip_numbered (color : Bool) (number : Int) (line : Text) (isMarked : Bool) :
    strip (numbered color number line isMarked) = numbered false number (strip line) isMarked := by
  let front := (if isMarked then '>' else ' ') :: Text.padLeft 3 (Decimal.ofInt number)
  have hfront : '\x1b' ∉ front := by
    cases isMarked <;> simp [front, Text.padLeft, Decimal.escape_not_mem_ofInt]
  have hline (part : Part) : strip (part.paint color line) = strip line := by
    simpa [Part.paint] using strip_paint color part.styles line Token.stops_nil
  calc strip (numbered color number line isMarked)
      = front ++ (" | ".toList ++ strip line) := by
        rw [numbered, List.append_assoc, Part.paint, strip_paint_plain color _ hfront,
          strip_plain (by decide), hline]
    _ = numbered false number (strip line) isMarked := by
        rw [← List.append_assoc]
        cases isMarked <;> rfl

theorem strip_caret (color : Bool) (column : Int) :
    strip (caret color column) = caret false column := by
  have hcaret : '\x1b' ∉ List.replicate (column - 1).toNat ' ' ++ ['^'] := by simp
  have h := strip_paint_plain color Part.markedLine.styles hcaret []
  rw [List.append_nil, strip_nil, List.append_nil] at h
  rw [caret, strip_gutter, strip_cons (by decide), Part.paint, h]
  rfl

theorem strip_rows (color : Bool) (s : Snippet) (number : Nat) (line : Text) :
    (s.rows color (number, line)).map strip = s.stripped.rows false (number, strip line) := by
  obtain ⟨lines, marked, column⟩ := s
  cases column with
  | none => simp [rows, stripped, strip_numbered]
  | some column =>
    cases hmarked : (number : Int) == marked <;>
      simp [rows, stripped, hmarked, strip_numbered, strip_caret]

/-- Only the sequences of the lines are removed together with the colors. -/
theorem strip_format (color : Bool) (s : Snippet) :
    strip (s.format color) = s.stripped.format false := by
  have hgutter : strip (gutter color) = gutter false := by simpa using strip_gutter color []
  have hrows : (s.lines.flatMap (s.rows color)).map strip =
      s.stripped.lines.flatMap (s.stripped.rows false) := by
    rw [stripped, List.map_flatMap, List.flatMap_map]
    exact congrArg (s.lines.flatMap ·) (funext fun (number, line) => strip_rows color s number line)
  rw [format, strip_join, List.map_append, List.map_cons, List.map_singleton, hgutter, hrows]
  rfl

end Snippet

namespace Diagnostic

theorem escape_not_mem_position (d : Diagnostic) : '\x1b' ∉ d.position := by
  simp [position, Decimal.escape_not_mem_ofNat, Decimal.escape_not_mem_ofInt]

theorem strip_compact (color : Bool) (d : Diagnostic) :
    strip (d.compact color) = Text.join ['\n'] [d.kind.name ++ ": ".toList ++ d.position,
      "  --> ".toList ++ strip d.location, d.snippet.stripped.format false] := by
  have hkind : strip (Part.kind.paint color d.kind.name ++ ": ".toList ++ d.position) =
      d.kind.name ++ ": ".toList ++ d.position := by
    rw [List.append_assoc, Part.paint, strip_paint_plain color _ d.kind.name_plain.2,
      strip_plain (by decide), strip_eq_self d.escape_not_mem_position, ← List.append_assoc]
  have hlocation : strip ("  --> ".toList ++ Part.location.paint color d.location) =
      "  --> ".toList ++ strip d.location := by
    have h := strip_paint color Part.location.styles d.location Token.stops_nil
    rw [List.append_nil, strip_nil, List.append_nil] at h
    rw [strip_plain (by decide), Part.paint, h]
  rw [compact, strip_join, List.map_cons, List.map_cons, List.map_singleton, hkind, hlocation,
    Snippet.strip_format]

theorem compact_colored (d : Diagnostic) : d.compact true ≠ d.compact false := by
  obtain ⟨hne, hescape⟩ := d.kind.name_plain
  obtain ⟨c, rest, hname⟩ := List.exists_cons_of_ne_nil hne
  have hplain : ∃ more, d.compact false = c :: more := by
    have hpaint : Part.kind.paint false d.kind.name = c :: rest := hname
    rw [compact, hpaint]
    exact ⟨_, rfl⟩
  have hcolored : ∃ more, d.compact true = '\x1b' :: more := ⟨_, rfl⟩
  obtain ⟨more, hplain⟩ := hplain
  obtain ⟨more', hcolored⟩ := hcolored
  intro h
  rw [hcolored, hplain] at h
  refine hescape ?_
  rw [hname, ← (List.cons.inj h).1]
  exact List.mem_cons_self

/-- **Colors never change the text** of a message, nor that of a compact report once all escape
sequences are removed from it, though they do show there. -/
theorem colors_vanish (d : Diagnostic) :
    d.message true = d.message false ∧ strip (d.compact true) = strip (d.compact false) ∧
      d.compact true ≠ d.compact false := by
  refine ⟨?_, ?_, ?_⟩
  · rw [message, message, Snippet.strip_format, Snippet.strip_format]
  · rw [strip_compact, strip_compact]
  · exact d.compact_colored

end Diagnostic

end Stencil
