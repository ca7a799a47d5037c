import Stencil.Host.Key

/-!
# Access to host values

Members by name, items by index or key, and the items that a loop goes through. What cannot be had
is absent. Only a sequence with more items than can be counted has no answer for an index.
-/

namespace Stencil

inductive Rendering
  | idle
  | active (template : Option Text)
  deriving DecidableEq, Repr, Inhabited

def Rendering.watched : Rendering → Text
  | idle => "none".toList
  | active none => "None".toList
  | active (some name) => name

namespace Host

/-! ## Members -/

def isPublic : Text → Bool
  | [] => false
  | c :: _ => c != '_'

def integerMember? (n : Int) (name : Text) : Option Host :=
  if name = "real".toList ∨ name = "numerator".toList then some (.integer n)
  else if name = "imag".toList then some (.integer 0)
  else if name = "denominator".toList then some (.integer 1)
  else none

/-- The data attribute of a value. Methods do not count, nor do attributes whose getter fails. -/
def attribute? (rendering : Rendering) (h : Host) (name : Text) : Option Host :=
  if !isPublic name then none
  else
    match h with
    | boolean b => integerMember? (if b then 1 else 0) name
    | integer n => integerMember? n name
    | float _ _ =>
      if name = "real".toList then some h
      else if name = "imag".toList then some (.float .fresh 0)
      else none
    | range _ start stop step =>
      if name = "start".toList then some (.integer start)
      else if name = "stop".toList then some (.integer stop)
      else if name = "step".toList then some (.integer step)
      else none
    | object _ o =>
      if o.raises.contains name then none
      else if o.watches.contains name then some (.text rendering.watched)
      else if o.methods.contains name then none
      else o.attributes.lookup name
    | _ => none

def entries? : Host → Option (List (Host × Host))
  | dict _ entries => some entries
  | object _ o =>
    match o.content with
    | .mapping entries broken => some (if broken then [] else entries)
    | _ => none
  | _ => none

def isMapping (h : Host) : Bool := h.entries?.isSome

/-- The member of a mapping under a key, or else the attribute of that name. -/
def member? (rendering : Rendering) (h : Host) (name : Text) : Option Host :=
  match h.entries?.bind (lookup? (.text name)) with
  | some value => some value
  | none => h.attribute? rendering name

/-! ## Items -/

structure Items where
  size : Nat
  item : Nat → Option Host

def sequence? : Host → Option Items
  | list _ items | tuple _ items => some ⟨items.length, fun i => items[i]?⟩
  | range _ start stop step =>
    some ⟨rangeLength start stop step, fun i => some (.integer (rangeItem start step i))⟩
  | object _ o =>
    match o.content with
    | .sequence items => some ⟨items.length, fun i => items[i]?⟩
    | _ => none
  | _ => none

def isSequence (h : Host) : Bool := h.sequence?.isSome

def countLimit : Nat := Nat.pow 2 63 - 1

def overlong (h : Host) (index : Int) : Bool :=
  decide (0 ≤ index) && h.sequence?.any (countLimit < ·.size)

/-- A sequence that is not overlong is subscripted by index, from zero on, and a mapping by key. -/
def item? (h : Host) (key : Host) (index : Int) : Option Host :=
  match h.sequence? with
  | some items => if 0 ≤ index ∧ index < items.size then items.item index.toNat else none
  | none => h.entries?.bind (lookup? key)

/-! ## Loops -/

/-- What a loop goes through: items that are there each time anew, or items that are delivered
once in all. -/
inductive Iteration
  | always (items : List Host)
  | once (identity : Identity) (items : List Host)

def iteration? : Host → Option Iteration
  | list _ items | tuple _ items | set _ items => some (.always items)
  | dict _ entries => some (.always (entries.map Prod.fst))
  | range _ start stop step =>
    some (.always ((List.range (rangeLength start stop step)).map fun i =>
      .integer (rangeItem start step i)))
  | object i o =>
    match o.content with
    | .plain => none
    | .iterable items | .sequence items => some (.always items)
    | .iterator items => some (.once i items)
    | .mapping entries _ => some (.always (entries.map Prod.fst))
  | _ => none

end Host

end Stencil
