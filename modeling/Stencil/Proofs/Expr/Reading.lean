import Stencil.Proofs.Expr.Grammar
import Stencil.Proofs.Token.Stream

/-!
# The tokens of a tree

A tree that is read from tokens begins where the first of them begins and ends where the last one
ends. None of them is the invalid one or a delimiter, and the last one is not an operator.
-/

namespace Stencil.Expr

open Token (lastStop lastStop_append)

theorem Reads.first : ∀ {e : Expr} {ts : List Token}, Reads e ts →
    ∃ t us, ts = t :: us ∧ e.start = t.start
  | _, _, .literal _ => ⟨_, [], rfl, rfl⟩
  | _, _, .symbol _ => ⟨_, [], rfl, rfl⟩
  | _, _, .unary _ _ => ⟨_, _, rfl, rfl⟩
  | _, _, .binary _ hl _ | _, _, .subscript _ _ hl _ | _, _, .call hl _ =>
    let ⟨t, us, hts, hs⟩ := hl.first
    ⟨t, us ++ _, congrArg (· ++ _) hts, hs⟩
  | _, _, .arguments _ _ _ => ⟨_, _, rfl, rfl⟩
  | _, _, .group _ _ _ => ⟨_, _, rfl, rfl⟩

theorem Reads.stop_eq : ∀ {e : Expr} {ts : List Token} (offset : Nat), Reads e ts →
    e.stop = lastStop offset ts
  | _, _, _, .literal _ => rfl
  | _, _, _, .symbol _ => rfl
  | _, _, _, .unary _ he => he.stop_eq _
  | _, _, _, .binary _ _ hr => (hr.stop_eq _).trans (lastStop_append _ _ (_ :: _)).symm
  | _, _, _, .subscript _ _ _ _ =>
    ((lastStop_append _ _ (_ :: _)).trans (lastStop_append _ (_ :: _) [_])).symm
  | _, _, _, .call _ ha => (ha.stop_eq _).trans (lastStop_append ..).symm
  | _, _, _, .arguments _ _ _ => (lastStop_append _ (_ :: _) [_]).symm
  | _, _, _, .group _ _ _ => (lastStop_append _ (_ :: _) [_]).symm

theorem Reads.symbol_eq {e : Expr} {ts : List Token} (h : Reads e ts) (he : e.isSymbol = true) :
    ∃ t, ts = [t] ∧ t.kind = .symbol ∧ e = .symbol t.span t.text := by
  cases h with
  | symbol hk => exact ⟨_, rfl, hk, rfl⟩
  | _ => cases he

/-! ## The kinds of the tokens -/

def InTree (t : Token) : Prop :=
  match t.kind with
  | .invalid | .statementBegin | .statementEnd | .expressionBegin | .expressionEnd | .ifWord
  | .elifWord | .elseWord | .endifWord | .forWord | .inWord | .endforWord => False
  | _ => True

theorem inTree_of_kind {t : Token} {k : Token.Kind} (h : t.kind = k)
    (hk : InTree ⟨k, 0, 0, []⟩) : InTree t := by
  unfold InTree at hk ⊢
  rw [h]
  exact hk

theorem inTree_of_denotes {t : Token} {f : Forms} (h : t.Denotes f) : InTree t := by
  unfold Token.Denotes at h
  split at h <;> rename_i hk <;> first | exact inTree_of_kind hk trivial | cases h

theorem inTree_of_operator {t : Token} {op : BinaryOp} (h : op.kind? = some t.kind) : InTree t := by
  generalize hk : t.kind = k at h
  refine inTree_of_kind hk ?_
  rcases op with _ | _ | _ | _ | _ | _ | op | op <;> first
    | (cases h; done)
    | (cases h; trivial)
    | (cases op <;> cases h <;> trivial)

mutual

theorem Reads.inTree : ∀ {e : Expr} {ts : List Token}, Reads e ts → ∀ t ∈ ts, InTree t
  | _, _, .literal (t := t) h, u, hu => by
    obtain rfl := List.mem_singleton.mp hu
    exact inTree_of_denotes h
  | _, _, .symbol h, u, hu => by
    obtain rfl := List.mem_singleton.mp hu
    exact inTree_of_kind h trivial
  | _, _, @Reads.unary _ op _ _ hk he, u, hu => by
    rcases List.mem_cons.mp hu with rfl | hu
    · exact inTree_of_kind hk (by cases op <;> trivial)
    · exact he.inTree u hu
  | _, _, .binary hk hl hr, u, hu => by
    rcases List.mem_append.mp hu with hu | hu
    · exact hl.inTree u hu
    rcases List.mem_cons.mp hu with rfl | hu
    · exact inTree_of_operator hk
    · exact hr.inTree u hu
  | _, _, .subscript ho hc hl hk, u, hu => by
    simp only [List.mem_append, List.mem_cons, List.not_mem_nil, or_false] at hu
    rcases hu with hu | rfl | hu | rfl
    · exact hl.inTree u hu
    · exact inTree_of_kind ho trivial
    · exact hk.inTree u hu
    · exact inTree_of_kind hc trivial
  | _, _, .call hf ha, u, hu => by
    rcases List.mem_append.mp hu with hu | hu
    · exact hf.inTree u hu
    · exact ha.inTree u hu
  | _, _, .arguments ho hc hes, u, hu => by
    simp only [List.mem_append, List.mem_cons, List.not_mem_nil, or_false] at hu
    rcases hu with rfl | hu | rfl
    · exact inTree_of_kind ho trivial
    · exact hes.inTree u hu
    · exact inTree_of_kind hc trivial
  | _, _, .group ho hc he, u, hu => by
    simp only [List.mem_append, List.mem_cons, List.not_mem_nil, or_false] at hu
    rcases hu with rfl | hu | rfl
    · exact inTree_of_kind ho trivial
    · exact he.inTree u hu
    · exact inTree_of_kind hc trivial

theorem ReadsAll.inTree : ∀ {es : List Expr} {ts : List Token}, ReadsAll es ts →
    ∀ t ∈ ts, InTree t
  | _, _, .nil, _, hu => nomatch hu
  | _, _, .one he, u, hu => he.inTree u hu
  | _, _, .cons hs he hes, u, hu => by
    rcases List.mem_append.mp hu with hu | hu
    · exact he.inTree u hu
    rcases List.mem_cons.mp hu with rfl | hu
    · exact inTree_of_kind hs trivial
    · exact hes.inTree u hu

end

theorem Reads.valid {e : Expr} {ts : List Token} (h : Reads e ts) :
    ∀ t ∈ ts, t.kind ≠ .invalid := by
  intro t ht hk
  have := h.inTree t ht
  rw [InTree, hk] at this
  exact this

/-- A remainder has an operand to its right. -/
theorem Reads.last : ∀ {e : Expr} {ts : List Token}, Reads e ts →
    ∃ init last, ts = init ++ [last] ∧ last.kind ≠ .percent
  | _, _, .literal (t := t) h => ⟨[], t, rfl, fun hk => by simp [Token.Denotes, hk] at h⟩
  | _, _, .symbol (t := t) h => ⟨[], t, rfl, by rw [h]; decide⟩
  | _, _, .unary (t := t) _ he =>
    let ⟨init, last, hts, hlast⟩ := he.last
    ⟨t :: init, last, congrArg (t :: ·) hts, hlast⟩
  | _, _, @Reads.binary t _ _ _ ls _ _ _ hr =>
    let ⟨init, last, hts, hlast⟩ := hr.last
    ⟨ls ++ t :: init, last, by rw [hts, List.append_assoc]; rfl, hlast⟩
  | _, _, @Reads.subscript o c _ _ ls ks _ hc _ _ =>
    ⟨ls ++ o :: ks, c, by rw [List.append_assoc]; rfl, by rw [hc]; decide⟩
  | _, _, @Reads.call _ _ fs _ _ ha =>
    let ⟨init, last, hts, hlast⟩ := ha.last
    ⟨fs ++ init, last, by rw [hts, List.append_assoc], hlast⟩
  | _, _, @Reads.arguments o c _ ts _ hc _ => ⟨o :: ts, c, rfl, by rw [hc]; decide⟩
  | _, _, @Reads.group o c _ ts _ hc _ => ⟨o :: ts, c, rfl, by rw [hc]; decide⟩

end Stencil.Expr
