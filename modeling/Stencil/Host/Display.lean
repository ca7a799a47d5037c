import Stencil.Decimal.Layout
import Stencil.Host
import Stencil.Text.Quoted

/-!
# Display of host values

The text of a host value. Inside containers texts stand in quotes, and everywhere the items keep
their order. A value has no text if it nests deeper than there are calls for, one for each value
inside another one, or if an integer in it has too many digits.
-/

namespace Stencil.Host

inductive DisplayFault
  | tooDeep
  | numeralTooLong
  deriving DecidableEq, Repr

def showBoolean (b : Bool) : Text := if b then "True".toList else "False".toList

def showInteger (n : Int) : Except DisplayFault Text :=
  if (Decimal.ofNat n.natAbs).length ≤ Decimal.longestNumeral then .ok (Decimal.ofInt n)
  else .error .numeralTooLong

def showRange (start stop step : Int) : (calls : Nat) → Except DisplayFault Text
  | 0 => .error .tooDeep
  | _ + 1 => do
    let bounds := "range(".toList ++ (← showInteger start) ++ ", ".toList ++ (← showInteger stop)
    if step = 1 then return bounds ++ [')']
    else return bounds ++ ", ".toList ++ (← showInteger step) ++ [')']

def comma : Text := ", ".toList

mutual

def inner : Host → (calls : Nat) → Except DisplayFault Text
  | _, 0 => .error .tooDeep
  | null, _ + 1 => .ok "None".toList
  | boolean b, _ + 1 => .ok (showBoolean b)
  | integer n, _ + 1 => showInteger n
  | float _ x, _ + 1 => .ok (Decimal.Layout.display.text x)
  | text t, _ + 1 => .ok (Text.quoted t)
  | list _ items, calls + 1 => do return '[' :: Text.join comma (← inners items calls) ++ [']']
  | tuple _ items, calls + 1 => do
    match ← inners items calls with
    | [t] => return '(' :: t ++ ",)".toList
    | ts => return '(' :: Text.join comma ts ++ [')']
  -- the items of a set are put in a list first
  | set _ items, calls + 1 => do
    match ← inners items (calls - 1) with
    | [] => return "set()".toList
    | ts => return '{' :: Text.join comma ts ++ ['}']
  | dict _ entries, calls + 1 => do
    return '{' :: Text.join comma (← innerEntries entries calls) ++ ['}']
  | bytes _ content, _ + 1 => .ok (Text.quotedBytes content)
  | range _ start stop step, calls + 1 => showRange start stop step calls
  | object _ o, _ + 1 => .ok o.display

def inners : List Host → (calls : Nat) → Except DisplayFault (List Text)
  | [], _ => .ok []
  | h :: hs, calls => do return (← inner h calls) :: (← inners hs calls)

def innerEntries : List (Host × Host) → (calls : Nat) → Except DisplayFault (List Text)
  | [], _ => .ok []
  | (k, v) :: es, calls => do
    let entry := (← inner k calls) ++ ": ".toList ++ (← inner v calls)
    return entry :: (← innerEntries es calls)

end

/-- The display of a value on its own. A text is itself, and no call is needed for it. -/
def display (calls : Nat) : Host → Except DisplayFault Text
  | text t => .ok t
  | h => inner h calls

end Stencil.Host
