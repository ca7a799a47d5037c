import Stencil.Decimal.Binary
import Stencil.Host

/-!
# Keys

Which host values can be keys, and when two keys are the same one. Numbers are compared by their
exact value across their types; an object is always the same key as itself.
-/

namespace Stencil.Host

/-! ## Ranges -/

def rangeLength (start stop step : Int) : Nat :=
  if 0 < step then ((stop - start + step - 1) / step).toNat
  else if step < 0 then ((start - stop - step - 1) / -step).toNat
  else 0

def rangeItem (start step : Int) (index : Nat) : Int := start + step * index

def sameRange (a b : Int × Int × Int) : Bool :=
  let n := rangeLength a.1 a.2.1 a.2.2
  n == rangeLength b.1 b.2.1 b.2.2 &&
    (n == 0 || (a.1 == b.1 && (n == 1 || a.2.2 == b.2.2)))

/-! ## Keys -/

def wholeNumber? : Host → Option Int
  | boolean b => some (if b then 1 else 0)
  | integer n => some n
  | _ => none

def equalsFloat (n : Int) (x : Float) : Bool :=
  let b := Decimal.Binary.ofFloat x
  b.isWhole && b.truncate == n

mutual

def isKey : Host → Bool
  | list .. | set .. | dict .. => false
  | tuple _ items => areKeys items
  | object _ o =>
    match o.content with
    | .mapping .. => false
    | _ => true
  | _ => true

def areKeys : List Host → Bool
  | [] => true
  | h :: hs => isKey h && areKeys hs

end

mutual

def sameKey : Host → Host → Bool
  | text s, other =>
    match other with
    | text t => s == t
    | _ => false
  | tuple i xs, other =>
    match other with
    | tuple j ys => i.same j || sameKeys xs ys
    | _ => false
  | bytes i xs, other =>
    match other with
    | bytes j ys => i.same j || xs == ys
    | _ => false
  | range i a b c, other =>
    match other with
    | range j d e f => i.same j || sameRange (a, b, c) (d, e, f)
    | _ => false
  | float i x, other =>
    match other with
    | float j y => i.same j || x == y
    | _ => other.wholeNumber?.any fun n => equalsFloat n x
  | boolean a, other =>
    match other with
    | float _ x => equalsFloat (if a then 1 else 0) x
    | _ => other.wholeNumber? == some (if a then 1 else 0)
  | integer m, other =>
    match other with
    | float _ x => equalsFloat m x
    | _ => other.wholeNumber? == some m
  | h, other => h.identical other

def sameKeys : List Host → List Host → Bool
  | [], [] => true
  | x :: xs, y :: ys => sameKey x y && sameKeys xs ys
  | _, _ => false

end

/-! ## Entries by key -/

def lookup? (key : Host) (entries : List (Host × Host)) : Option Host :=
  if key.isKey then (entries.find? fun e => key.sameKey e.1).map Prod.snd else none

/-- Puts a value under a key. A key that is already there keeps its place and its form. -/
def insert (key value : Host) : List (Host × Host) → List (Host × Host)
  | [] => [(key, value)]
  | e :: es => if key.sameKey e.1 then (e.1, value) :: es else e :: insert key value es

def ofEntries (entries : List (Host × Host)) : List (Host × Host) :=
  entries.foldl (fun es e => insert e.1 e.2 es) []

end Stencil.Host
