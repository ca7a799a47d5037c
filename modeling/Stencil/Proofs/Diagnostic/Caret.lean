import Stencil.Proofs.Diagnostic.Colors
import Stencil.Proofs.Text.Lines

/-!
# The caret under an error

The message shows the lines around an error with their numbers, and a caret under the marked one.
Numbers of up to three digits take the same room, and the caret stands under the character at the
error. Longer numbers push their line to the right, but not the caret.
-/

namespace Stencil

namespace Snippet

def numberedLine (marker : Char) (number : Nat) (line : Text) : Text :=
  marker :: Text.padLeft 3 (Decimal.ofNat number) ++ " | ".toList ++ line

/-- The caret under a column; three characters of the margin stand for a number of three digits. -/
def caretLine (column : Nat) : Text :=
  "     | ".toList ++ List.replicate (column - 1) ' ' ++ ['^']

/-! ## What a snippet shows -/

theorem numbered_plain (number : Nat) (line : Text) (isMarked : Bool) :
    numbered false number line isMarked =
      numberedLine (if isMarked then '>' else ' ') number line := by
  cases isMarked <;> rfl

theorem caret_plain (column : Nat) : caret false column = caretLine column := by
  have hcolumn : ((column : Int) - 1).toNat = column - 1 := by omega
  rw [caret, hcolumn]
  rfl

def rowsAt (marked column number : Nat) (line : Text) : List Text :=
  if number = marked then [numberedLine '>' number line, caretLine column]
  else [numberedLine ' ' number line]

theorem rows_plain (lines : List (Nat × Text)) (marked column number : Nat) (line : Text) :
    rows false ⟨lines, marked, some (column : Int)⟩ (number, line) =
      rowsAt marked column number line := by
  unfold rows rowsAt
  by_cases h : number = marked
  · have hmarked : ((number : Int) == (marked : Int)) = true := by simp [h]
    simp only [hmarked, if_pos h, if_true, numbered_plain, caret_plain]
  · have hmarked : ((number : Int) == (marked : Int)) = false := by simp [h]
    simp only [hmarked, if_neg h, numbered_plain]
    rfl

/-- The numbered lines are those of the numbers from `first + 1` to `past`. -/
theorem numbered_range {all : List Text} {past : Nat} (h : past ≤ all.length) (first : Nat) :
    ((all.zipIdx.take past).drop first).map (fun (line, i) => (i + 1, line)) =
      (List.range' (first + 1) (past - first)).map fun n => (n, all[n - 1]?.getD []) := by
  refine List.ext_getElem? fun i => ?_
  simp only [List.getElem?_map, List.getElem?_drop, List.getElem?_take, List.getElem?_zipIdx]
  by_cases hi : first + i < past
  · have hnumber : first + 1 + 1 * i = first + i + 1 := by omega
    have hlt : first + i < all.length := Nat.lt_of_lt_of_le hi h
    rw [if_pos hi, List.getElem?_range' (by omega), hnumber, List.getElem?_eq_getElem hlt]
    simp only [Option.map_some, Nat.zero_add, Nat.add_sub_cancel, List.getElem?_eq_getElem hlt]
    rfl
  · rw [if_neg hi, List.getElem?_eq_none (by rw [List.length_range']; omega)]
    rfl

end Snippet

/-! ## The snippet of a diagnostic -/

namespace Diagnostic

open Snippet

def shownNumbers (d : Diagnostic) : List Nat :=
  let first := max 1 (d.row - 2)
  let last := min (Text.lines d.source).length (d.row + 2)
  List.range' first (last + 1 - first)

def shownLine (d : Diagnostic) (number : Nat) : Text :=
  (Text.lines d.source)[number - 1]?.getD []

theorem row_pos (d : Diagnostic) : 1 ≤ d.row := by
  rw [row, Text.position_eq_place]
  exact Nat.succ_pos _

theorem row_le (d : Diagnostic) : d.row ≤ (Text.lines d.source).length := by
  obtain ⟨_, hrow, -⟩ := Text.exists_shown (Nat.min_le_right d.offset.toNat d.source.length)
  rw [row, Text.position_eq_place]
  exact (List.getElem?_eq_some_iff.mp hrow).1

theorem mem_shownNumbers {d : Diagnostic} {n : Nat} :
    n ∈ d.shownNumbers ↔
      1 ≤ n ∧ n ≤ (Text.lines d.source).length ∧ d.row ≤ n + 2 ∧ n ≤ d.row + 2 := by
  rw [shownNumbers, List.mem_range'_1]
  omega

theorem snippet_lines (d : Diagnostic) :
    d.snippet.lines = d.shownNumbers.map fun n => (n, d.shownLine n) := by
  have hpos := d.row_pos
  have hfirst : ((d.row : Int) - 1 - 2).toNat = d.row - 3 := by omega
  have hpast : (min ((Text.lines d.source).length : Int) ((d.row : Int) + 2)).toNat =
      min (Text.lines d.source).length (d.row + 2) := by omega
  have hlines := numbered_range (Nat.min_le_left (Text.lines d.source).length (d.row + 2))
    (d.row - 3)
  rw [snippet, around]
  simp only [hfirst, hpast, hlines, shownNumbers, shownLine]
  congr 2 <;> omega

theorem format_plain (d : Diagnostic) :
    d.snippet.format false = Text.join ['\n'] ("     |".toList ::
      d.shownNumbers.flatMap (fun n => rowsAt d.row d.column n (d.shownLine n)) ++
        ["     |".toList]) := by
  have hsnippet : d.snippet = ⟨d.snippet.lines, (d.row : Int), some (d.column : Int)⟩ := rfl
  have hrows : d.snippet.lines.flatMap (d.snippet.rows false) =
      d.shownNumbers.flatMap fun n => rowsAt d.row d.column n (d.shownLine n) := by
    rw [snippet_lines, List.flatMap_map]
    refine congrArg (d.shownNumbers.flatMap ·) (funext fun n => ?_)
    rw [hsnippet]
    exact rows_plain _ _ _ _ _
  rw [format, hrows]
  rfl

theorem shownLine_within (d : Diagnostic) (n : Nat) : d.shownLine n <:+: d.source := by
  unfold shownLine
  cases hget : (Text.lines d.source)[n - 1]? with
  | none => exact List.nil_infix
  | some line => exact Text.infix_of_mem_lines (List.mem_of_getElem? hget)

theorem stripped_plain {d : Diagnostic} (h : '\x1b' ∉ d.source) :
    d.snippet.stripped = d.snippet := by
  have hlines : d.snippet.stripped.lines = d.snippet.lines := by
    simp only [stripped, snippet_lines, List.map_map]
    refine List.map_congr_left fun n _ => congrArg (Prod.mk n) (Ansi.strip_eq_self fun hmem => ?_)
    exact h ((d.shownLine_within n).subset hmem)
  exact congrArg (fun lines => { d.snippet with lines }) hlines

/-! ## The place of the caret -/

/-- Where the error is in the source, which for the line feed of a line break of two characters is
at the carriage return. -/
def anchor (d : Diagnostic) : Nat :=
  let offset := min d.offset.toNat d.source.length
  if 0 < offset ∧ Text.Joined d.source (offset - 1) then offset - 1 else offset

/-- The index is that of the character at the error in the marked line as it is shown. Where a line
or the source ends, it is that behind the last character. -/
structure Pointed (d : Diagnostic) (line : Text) (index : Nat) : Prop where
  row : (Text.lines d.source)[d.row - 1]? = some line
  place : ∃ front rest, d.source = front ++ line ++ rest ∧ front.length ≤ d.anchor ∧
    d.anchor ≤ front.length + line.length ∧
    index = (numberedLine '>' d.row []).length + (d.anchor - front.length)
  char : ∀ c, d.source[min d.offset.toNat d.source.length]? = some c → Text.isBreak c = false →
    (numberedLine '>' d.row line)[index]? = some c
  ending : (∀ c, d.source[min d.offset.toNat d.source.length]? = some c → Text.isBreak c = true) →
    index = (numberedLine '>' d.row line).length

theorem anchor_not_joined (d : Diagnostic) : ∀ n, d.anchor = n + 1 → ¬Text.Joined d.source n := by
  intro n hn hjoined
  unfold anchor at hn
  simp only at hn
  split at hn
  · rename_i h
    have hprevious : min d.offset.toNat d.source.length - 1 = n + 1 := hn
    rw [hprevious] at h
    exact hjoined.not_succ h.2
  · rename_i h
    rw [hn] at h
    exact h ⟨Nat.succ_pos n, hjoined⟩

theorem place_anchor (d : Diagnostic) :
    Text.place d.anchor d.source =
      Text.place (min d.offset.toNat d.source.length) d.source := by
  unfold anchor
  simp only
  split
  · rename_i h
    have hstep := Text.place_step (t := d.source)
      (n := min d.offset.toNat d.source.length - 1) (by omega)
    rw [if_pos h.2, Nat.sub_add_cancel h.1] at hstep
    exact hstep
  · rfl

theorem anchor_le (d : Diagnostic) : d.anchor ≤ d.source.length := by
  unfold anchor
  simp only
  split <;> omega

theorem getElem?_numberedLine (number : Nat) (shown : Text) (column : Nat) :
    (numberedLine '>' number shown)[(numberedLine '>' number []).length + column]? =
      shown[column]? := by
  have hsplit : numberedLine '>' number shown = numberedLine '>' number [] ++ shown := by
    simp [numberedLine]
  rw [hsplit, List.getElem?_append_right (Nat.le_add_right _ _), Nat.add_sub_cancel_left]

theorem pointed (d : Diagnostic) :
    d.Pointed (d.shownLine d.row) ((numberedLine '>' d.row []).length + (d.column - 1)) := by
  have hrow : (Text.place (min d.offset.toNat d.source.length) d.source).1 = d.row - 1 := by
    rw [row, Text.position_eq_place]
    rfl
  have hcolumn : (Text.place (min d.offset.toNat d.source.length) d.source).2 = d.column - 1 := by
    rw [column, Text.position_eq_place]
    rfl
  obtain ⟨line, hline, hle, hchar, hending, -⟩ :=
    Text.exists_shown (Nat.min_le_right d.offset.toNat d.source.length)
  -- the anchor does not part a line break, and so it stands in a line
  obtain ⟨front, line', hstands⟩ := Text.exists_stands d.anchor_le d.anchor_not_joined
  rw [place_anchor] at hstands
  obtain ⟨hline', ⟨rest, hsource⟩, hanchor, -⟩ := hstands
  obtain rfl : line = line' := Option.some.inj (hline.symm.trans hline')
  rw [hcolumn] at hle hchar hending hanchor
  rw [hrow] at hline
  have hshown : d.shownLine d.row = line := by rw [shownLine, hline]; rfl
  rw [hshown]
  refine ⟨hline, ⟨front, rest, hsource.symm, by omega, by omega, ?_⟩, ?_, ?_⟩
  · rw [← hanchor, Nat.add_sub_cancel_left]
  · intro c hc hbreak
    rw [getElem?_numberedLine]
    exact hchar c hc hbreak
  · intro hbreak
    rw [hending hbreak]
    simp only [numberedLine, List.length_append, List.length_nil, Nat.add_zero]

theorem idxOf_caretLine (column : Nat) : (caretLine column).idxOf '^' = 7 + (column - 1) := by
  have hfront : '^' ∉ "     | ".toList ++ List.replicate (column - 1) ' ' := by
    rw [List.mem_append, not_or]
    exact ⟨by decide, fun h => absurd (List.eq_of_mem_replicate h) (by decide)⟩
  have hmargin : "     | ".toList.length = 7 := by decide
  unfold caretLine
  rw [List.idxOf_append_of_notMem hfront, List.length_append, List.length_replicate,
    List.idxOf_cons_self, hmargin, Nat.add_zero]

theorem length_numberedLine (number : Nat) :
    (numberedLine '>' number []).length = 7 + ((Decimal.ofNat number).length - 3) := by
  simp [numberedLine, Text.padLeft]
  omega

/-- **The caret points at the error.** A message shows the rows around the error and marks its row
alone; the caret is under the character at the error if the row has at most three digits. -/
theorem caret_points (color : Bool) {d : Diagnostic} (h : '\x1b' ∉ d.source) :
    d.message color = d.position ++ ": ".toList ++ d.kind.name ++ "\n  --> ".toList ++ d.location ++
      '\n' :: Text.join ['\n'] ("     |".toList ::
        d.shownNumbers.flatMap (fun n => rowsAt d.row d.column n (d.shownLine n)) ++
          ["     |".toList]) ++ d.causeLine ∧
    d.shownNumbers.count d.row = 1 ∧
    (∀ n ∈ d.shownNumbers, 1 ≤ n ∧ (Text.lines d.source)[n - 1]? = some (d.shownLine n)) ∧
    ∃ index, d.Pointed (d.shownLine d.row) index ∧
      (caretLine d.column).idxOf '^' + ((Decimal.ofNat d.row).length - 3) = index ∧
      ((caretLine d.column).idxOf '^' = index ↔ d.row < 1000) := by
  refine ⟨?_, ?_, ?_, _, d.pointed, ?_, ?_⟩
  · rw [message, strip_format, stripped_plain h, format_plain]
  · refine List.count_eq_one_of_mem List.nodup_range' (mem_shownNumbers.mpr ?_)
    exact ⟨d.row_pos, d.row_le, by omega, by omega⟩
  · intro n hn
    obtain ⟨hpos, hle, -⟩ := mem_shownNumbers.mp hn
    have hlt : n - 1 < (Text.lines d.source).length := by omega
    refine ⟨hpos, ?_⟩
    rw [shownLine, List.getElem?_eq_getElem hlt]
    rfl
  · rw [idxOf_caretLine, length_numberedLine]
    omega
  · -- a number is padded to three digits, and longer from the thousandth row on
    have hdigits : (Decimal.ofNat d.row).length ≤ 3 ↔ d.row < 10 ^ 3 :=
      Nat.length_toDigits_le_iff (by decide) (by decide)
    rw [idxOf_caretLine, length_numberedLine]
    omega

/-- An error in the second line, which ends with a line break of two characters. -/
theorem caret_points_pair :
    let source := "one\x0d\n\x7b% if %\x7d\x0d\n\nfour\nfive".toList
    let d : Diagnostic := ⟨.parse .missingTestExpression, 11, source, none, none⟩
    '\x1b' ∉ d.source ∧ (d.row, d.column) = (2, 7) ∧ d.shownNumbers = [1, 2, 3, 4] ∧
      d.message true = "[2,7](@11): MissingTestExpression\n  --> <template>:2:7\n".toList ++
        "     |\n   1 | one\n>  2 | \x7b% if %\x7d\n     |       ^\n".toList ++
        "   3 | \n   4 | four\n     |".toList ∧
      (caretLine d.column).idxOf '^' = 13 ∧
      (numberedLine '>' 2 (d.shownLine 2))[13]? = some '%' := by
  intro source d
  have hplain : '\x1b' ∉ d.source := by decide
  have hposition : (d.row, d.column) = (2, 7) := by decide
  have hnumbers : d.shownNumbers = [1, 2, 3, 4] := by decide
  obtain ⟨hmessage, -, -, index, hpointed, -, hcaret⟩ := caret_points true hplain
  have hindex := hcaret.mpr (by decide)
  have hcolumn : (caretLine d.column).idxOf '^' = 13 := by decide
  refine ⟨hplain, hposition, hnumbers, ?_, hcolumn, ?_⟩
  · rw [hmessage, hnumbers]
    decide +kernel
  · have hchar := hpointed.char '%' (by decide) (by decide)
    rw [← hindex, hcolumn] at hchar
    exact hchar

/-- In row 1000 the caret is under the character in front of the one at the error. -/
theorem caret_points_not_aligned :
    let source := List.replicate 999 '\n' ++ "\x7b% if %\x7d".toList
    let d : Diagnostic := ⟨.parse .missingTestExpression, 1005, source, none, none⟩
    d.message false = "[1000,7](@1005): MissingTestExpression\n  --> <template>:1000:7\n".toList ++
      "     |\n 998 | \n 999 | \n>1000 | \x7b% if %\x7d\n     |       ^\n     |".toList ∧
    d.source[1005]? = some '%' ∧ ">1000 | \x7b% if %\x7d".toList[14]? = some '%' ∧
    "     |       ^".toList[13]? = some '^' := by
  intro source d
  exact ⟨by decide +kernel, by decide +kernel, by decide, by decide⟩

end Diagnostic

end Stencil
