/-!
# Association lists

A list of keys with one value each. What counts is the value under a key (`get?`); the order of the
entries shows nowhere.
-/

namespace Stencil

structure Assoc (κ β : Type) where
  entries : List (κ × β)

namespace Assoc

variable {κ β : Type} [DecidableEq κ]

def empty : Assoc κ β := ⟨[]⟩

def get? (a : Assoc κ β) (k : κ) : Option β := a.entries.lookup k

def erase (a : Assoc κ β) (k : κ) : Assoc κ β := ⟨a.entries.filter (·.1 ≠ k)⟩

def set (a : Assoc κ β) (k : κ) (v : β) : Assoc κ β := ⟨(k, v) :: (a.erase k).entries⟩

def restore (a : Assoc κ β) (k : κ) : Option β → Assoc κ β
  | some v => a.set k v
  | none => a.erase k

/-! ## The value under a key after each operation -/

@[simp] theorem get?_empty (k : κ) : (empty : Assoc κ β).get? k = none := rfl

theorem lookup_filter_ne (entries : List (κ × β)) (k j : κ) :
    (entries.filter (·.1 ≠ k)).lookup j = if j = k then none else entries.lookup j := by
  induction entries with
  | nil => simp
  | cons e es ih =>
    obtain ⟨i, v⟩ := e
    by_cases hi : i = k <;> by_cases hj : j = i <;> grind

@[simp] theorem get?_erase (a : Assoc κ β) (k j : κ) :
    (a.erase k).get? j = if j = k then none else a.get? j :=
  lookup_filter_ne a.entries k j

@[simp] theorem get?_set (a : Assoc κ β) (k j : κ) (v : β) :
    (a.set k v).get? j = if j = k then some v else a.get? j := by
  by_cases h : j = k
  · subst h; simp [set, get?]
  · have hb : (j == k) = false := by simp [h]
    have := get?_erase a k j
    simp only [set, get?, List.lookup_cons, hb, h, if_false] at this ⊢
    exact this

@[simp] theorem get?_restore (a : Assoc κ β) (k j : κ) (v : Option β) :
    (a.restore k v).get? j = if j = k then v else a.get? j := by
  cases v <;> simp [restore]

end Assoc

end Stencil
