import Stencil.Proofs.Clause.Grammar
import Stencil.Proofs.Expr.Completeness

/-!
# What the scan does not miss

An output or a statement is read back from its tokens if its expression is well-levelled and the
stack has room for it.
-/

namespace Stencil.Clause

open Stencil.Expr (Refusal Short Ends accept? accept_eq_some required_eq_ok ends_of_none)
open Token (Kind)

/-! ## Whole expressions -/

theorem parse_complete {room : Nat} {e : Expr} {ts more : List Token} (hr : e.Reads ts)
    (hw : e.WellLevelled) (hn : e.nesting ≤ room) (hs : Short ts) (he : Ends .piped more) :
    Expr.parse room (ts ++ more) = .ok (some (e, more)) :=
  (hr.recovers hn (Nat.le_refl room) hs).inner hw he

theorem parsePostfix_complete {room : Nat} {e : Expr} {ts more : List Token} (hr : e.Reads ts)
    (hw : e.WellLevelled) (hl : .postfixed ≤ e.level) (hn : e.nesting ≤ room) (hs : Short ts)
    (he : Ends .postfixed more) : Expr.parsePostfix room (ts ++ more) = .ok (some (e, more)) :=
  ((hr.recovers hn (Nat.le_refl room) hs).tree hw .postfixed hl).parses he

/-! ## Outputs and statements -/

section
variable {stack : Stack}

def opening : Clause → Text
  | output .. => ['{', '{']
  | text _ | other .. => []
  | _ => ['{', '%']

theorem statementEnd_complete {c : Token} (hc : c.kind = .statementEnd) (offset : Nat) :
    statementEnd offset [c] = .ok c.stop := by
  simp only [statementEnd, accept_eq_some.mpr ⟨rfl, hc⟩]
  rfl

theorem ends_closing {c : Token} {l : Level} (hc : closes c.kind = true) : Ends l [c] := by
  refine ends_of_none ?_ ?_
  · cases hk : c.kind <;> rw [hk] at hc <;> first | rfl | cases hc
  · intro hk; rw [hk] at hc; cases hc

theorem readTest_complete {e : Expr} {ts : List Token} {c : Token} (hr : e.Reads ts)
    (hw : e.WellLevelled) (hn : e.nesting ≤ stack.calls - 4) (hs : Short ts)
    (hc : c.kind = .statementEnd) : readTest stack (ts ++ [c]) = .ok (e, [c]) := by
  simp only [readTest, parse_complete hr hw hn hs (ends_closing (by rw [hc]; rfl)), ok_bind]
  rfl

theorem readOutput_complete {start : Nat} {e : Expr} {ts : List Token} {c : Token}
    (hr : e.Reads ts) (hw : e.WellLevelled) (hn : e.nesting ≤ stack.calls - 3) (hs : Short ts)
    (hc : c.kind = .expressionEnd) :
    readOutput stack start (ts ++ [c]) = .ok (.output ⟨start, c.stop⟩ e) := by
  simp only [readOutput, parse_complete hr hw hn hs (ends_closing (by rw [hc]; rfl)), ok_bind,
    accept_eq_some.mpr ⟨rfl, hc⟩]
  rfl

theorem parse_name {x i : Token} (hx : x.kind = .symbol) (hi : i.kind = .inWord)
    (more : List Token) :
    Expr.parse (stack.calls - 4) (x :: i :: more) =
      .ok (some (.symbol x.span x.text, i :: more)) := by
  have hshort : Short [x] := List.forall_mem_singleton.mpr fun hk => by
    rw [hx] at hk
    cases hk
  exact parse_complete (.symbol hx) trivial (Nat.le_sub_of_add_le stack.enough) hshort
    (ends_of_none (by rw [hi]; rfl) (by rw [hi]; decide))

theorem readLoop_complete {start : Nat} {k x i c : Token} {e : Expr} {ts : List Token}
    (hx : x.kind = .symbol) (hi : i.kind = .inWord) (hc : c.kind = .statementEnd)
    (hr : e.Reads ts) (hw : e.WellLevelled) (hl : .postfixed ≤ e.level)
    (hn : e.nesting ≤ stack.calls + 8) (hs : Short ts) :
    readLoop stack start k (x :: i :: (ts ++ [c])) =
      .ok (.forEach ⟨start, c.stop⟩ ⟨x.span, x.text⟩ e) := by
  have hname := @parse_name stack _ _ hx hi (ts ++ [c])
  have hiter := parsePostfix_complete hr hw hl hn hs (ends_closing (c := c) (by rw [hc]; rfl))
  simp only [readLoop, hname, ok_bind, accept_eq_some.mpr ⟨rfl, hi⟩, hiter,
    statementEnd_complete hc]
  rfl

theorem read_complete {offset : Nat} {c : Clause} {ts : List Token} {source : Text}
    (h : Reads offset c ts) (hw : c.WellLevelled) (hf : c.Fits stack) (hs : Short ts)
    (hts : Token.stream closes (offset + 2) source = ts) :
    read stack offset (c.opening ++ source) = .ok c := by
  cases h with
  | output hc hr =>
    show readOutput stack offset (Token.stream closes (offset + 2) source) = _
    rw [hts]
    exact readOutput_complete hr (hw _ _ rfl).1 (hf _ _ rfl) (Short.append.mp hs).1 hc
  | ifTest hk hc hr | elifTest hk hc hr =>
    show readStatement stack offset (Token.stream closes (offset + 2) source) = _
    rw [hts]
    simp only [readStatement, hk, statementEnd_complete hc, ok_bind,
      readTest_complete hr (hw _ _ rfl).1 (hf _ _ rfl) (Short.append.mp hs.cons).1 hc]
    rfl
  | otherwise hk hc | endIf hk hc | endFor hk hc =>
    show readStatement stack offset (Token.stream closes (offset + 2) source) = _
    rw [hts]
    simp only [readStatement, hk, statementEnd_complete hc, ok_bind]
    rfl
  | forEach hk hx hi hc hr =>
    show readStatement stack offset (Token.stream closes (offset + 2) source) = _
    rw [hts]
    simp only [readStatement, hk]
    obtain ⟨hwe, hle⟩ := hw _ _ rfl
    exact readLoop_complete hx hi hc hr hwe hle (hf _ _ rfl) (Short.append.mp hs.cons.cons.cons).1

end

end Stencil.Clause
