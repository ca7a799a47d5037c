import Stencil.Proofs.Except
import Stencil.Value

/-!
# Display within calls

A value that is displayed by some calls is displayed in the same way by more of them.
-/

namespace Stencil

namespace Host

mutual

theorem inner_extends : ∀ (h : Host) {m n : Nat}, m ≤ n →
    Extends .tooDeep (inner h m) (inner h n)
  | h, 0, _, _ => by cases h <;> exact extends_out
  | h, m + 1, n + 1, hle => by
    have hless : m ≤ n := Nat.le_of_succ_le_succ hle
    cases h with
    | list i items | tuple i items =>
      exact (inners_extends items hless).bind fun _ => extends_refl _
    | set i items =>
      exact (inners_extends items (Nat.sub_le_sub_right hless 1)).bind fun _ => extends_refl _
    | dict i entries => exact (innerEntries_extends entries hless).bind fun _ => extends_refl _
    | range i start stop step =>
      cases m with
      | zero => exact extends_out
      | succ m =>
        obtain ⟨n, rfl⟩ := Nat.exists_eq_add_of_le' (Nat.le_trans (Nat.succ_pos m) hless)
        exact extends_refl _
    | _ => exact extends_refl _

theorem inners_extends : ∀ (hs : List Host) {m n : Nat}, m ≤ n →
    Extends .tooDeep (inners hs m) (inners hs n)
  | [], _, _, _ => extends_refl _
  | h :: hs, _, _, hle => (inner_extends h hle).bind fun _ =>
    (inners_extends hs hle).bind fun _ => extends_refl _

theorem innerEntries_extends : ∀ (es : List (Host × Host)) {m n : Nat}, m ≤ n →
    Extends .tooDeep (innerEntries es m) (innerEntries es n)
  | [], _, _, _ => extends_refl _
  | (k, v) :: es, _, _, hle => (inner_extends k hle).bind fun _ =>
    (inner_extends v hle).bind fun _ =>
      (innerEntries_extends es hle).bind fun _ => extends_refl _

end

theorem display_extends (h : Host) {m n : Nat} (hle : m ≤ n) :
    Extends .tooDeep (h.display m) (h.display n) := by
  cases h with
  | text t => exact extends_refl _
  | _ => exact inner_extends _ hle

end Host

namespace Value

/-- The object of a value is the host value itself, unless that is an integer, which wraps. -/
theorem object_ofHost {calls : Nat} {h : Host} {v : Value} (hv : ofHost calls h = .ok v) :
    v.object = h ∨ ∃ n, v.object = .integer n := by
  have hobject (hv' : ofObject (calls - 2) h = .ok v) : v.object = h := by
    unfold ofObject at hv'
    split at hv'
    · cases hv'
      rfl
    · obtain ⟨_, -, hv'⟩ := bind_eq_ok.mp hv'
      cases hv'
      rfl
  cases h with
  | text | boolean | float => cases hv; exact .inl rfl
  | integer n => cases hv; exact .inr ⟨_, rfl⟩
  | _ => exact .inl (hobject hv)

variable {m n : Nat} (hle : m ≤ n)
include hle

theorem ofObject_extends (h : Host) : Extends .tooDeep (ofObject m h) (ofObject n h) := by
  cases h with
  | null => exact extends_refl _
  | _ => exact (Host.display_extends _ hle).bind fun _ => extends_refl _

theorem ofHost_extends (h : Host) : Extends .tooDeep (ofHost m h) (ofHost n h) := by
  have hobject := ofObject_extends (Nat.sub_le_sub_right hle 2) h
  cases h with
  | text | boolean | integer | float => exact extends_refl _
  | _ => exact hobject

theorem ofHost?_extends (h : Option Host) : Extends .tooDeep (ofHost? m h) (ofHost? n h) := by
  cases h with
  | none => exact extends_refl _
  | some h => exact ofHost_extends hle h

end Value

end Stencil
