import Stencil.Host.Access

/-!
# Entries under names

What is found under a name when entries are put after one another: the last value that was put
there.
-/

namespace Stencil.Host

def Distinct (entries : List (Host × Host)) : Prop :=
  entries.Pairwise fun a b => a.1.sameKey b.1 = false

inductive HasEntries : Host → List (Host × Host) → Prop
  | dict {i entries} : HasEntries (.dict i entries) entries
  | object {i o entries} : o.content = .mapping entries false → HasEntries (.object i o) entries

theorem HasEntries.entries_eq {data : Host} {entries : List (Host × Host)}
    (h : data.HasEntries entries) : data.entries? = some entries := by
  cases h with
  | dict => rfl
  | object hc => rw [entries?, hc]; rfl

theorem HasEntries.member_eq {data : Host} {entries : List (Host × Host)}
    (h : data.HasEntries entries) (rendering : Rendering) (name : Text) :
    data.member? rendering name =
      (lookup? (.text name) entries).or (data.attribute? rendering name) := by
  rw [member?, h.entries_eq, Option.bind_some]
  cases lookup? (.text name) entries <;> rfl

section
variable {name : Text} {key value : Host} {entries : List (Host × Host)}

theorem text_sameKey : (text name).sameKey key = true ↔ key = .text name := by
  cases key with
  | text t =>
    show (name == t) = true ↔ _
    rw [beq_iff_eq, text.injEq]
    exact eq_comm
  | _ => exact iff_of_false Bool.false_ne_true nofun

theorem sameKey_text : key.sameKey (.text name) = true ↔ key = .text name := by
  cases key with
  | text t => simp [sameKey]
  | _ => exact iff_of_false Bool.false_ne_true nofun

theorem text_sameKey_congr {old : Host} (h : key.sameKey old = true) :
    (text name).sameKey old = (text name).sameKey key := by
  refine Bool.eq_iff_iff.mpr ⟨fun hold => ?_, fun hkey => ?_⟩
  · rw [text_sameKey.mp hold, sameKey_text] at h
    exact text_sameKey.mpr h
  · rwa [text_sameKey.mp hkey] at h

@[simp] theorem lookup_nil : lookup? (.text name) [] = none := rfl

theorem lookup_cons : lookup? (.text name) ((key, value) :: entries) =
    if (text name).sameKey key then some value else lookup? (.text name) entries := by
  simp only [lookup?, show (text name).isKey = true from rfl, if_true, List.find?_cons]
  cases (text name).sameKey key <;> rfl

/-- Only what is put under the name itself is found under it from then on. -/
theorem lookup_insert : lookup? (.text name) (insert key value entries) =
    if (text name).sameKey key then some value else lookup? (.text name) entries := by
  induction entries with
  | nil => exact lookup_cons
  | cons e entries ih =>
    obtain ⟨old, before⟩ := e
    rw [insert]
    cases hsame : key.sameKey old with
    | true =>
      rw [if_pos rfl, lookup_cons, lookup_cons, text_sameKey_congr hsame]
      cases (text name).sameKey key <;> rfl
    | false =>
      rw [if_neg Bool.false_ne_true, lookup_cons, lookup_cons, ih]
      cases hkey : (text name).sameKey key with
      | false => rfl
      | true =>
        rw [text_sameKey.mp hkey] at hsame
        rw [hsame]
        rfl

/-- Entries with distinct keys that are put after one another go before those that were there. -/
theorem lookup_foldl_insert {added : List (Host × Host)} (h : Distinct added) :
    lookup? (.text name) (added.foldl (fun es e => insert e.1 e.2 es) entries) =
      (lookup? (.text name) added).or (lookup? (.text name) entries) := by
  induction added generalizing entries with
  | nil => rfl
  | cons e added ih =>
    obtain ⟨key, value⟩ := e
    obtain ⟨hkey, hadded⟩ := List.pairwise_cons.mp h
    rw [List.foldl_cons, ih hadded, lookup_insert, lookup_cons]
    cases hname : (text name).sameKey key with
    | false => rfl
    | true =>
      have hnone : lookup? (.text name) added = none := by
        rw [lookup?, if_pos (show (text name).isKey = true from rfl), Option.map_eq_none_iff,
          List.find?_eq_none]
        intro e he hsame
        have := hkey e he
        rw [text_sameKey.mp hname, hsame] at this
        cases this
      rw [hnone]
      rfl

theorem lookup_ofEntries {added : List (Host × Host)} (h : Distinct entries)
    (ha : Distinct added) : lookup? (.text name) (ofEntries (entries ++ added)) =
      (lookup? (.text name) added).or (lookup? (.text name) entries) := by
  rw [ofEntries, List.foldl_append, lookup_foldl_insert ha, lookup_foldl_insert h, lookup_nil,
    Option.or_none]

end

end Stencil.Host
