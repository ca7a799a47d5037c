import Stencil.Text.Printable

/-!
# Quoted text

Texts and bytes as they appear inside the display of other values: in quotes, with escapes for the
quote, the backslash and what is not printable.
-/

namespace Stencil.Text

def hex (width n : Nat) : Text :=
  let digits := Nat.toDigits 16 n
  List.replicate (width - digits.length) '0' ++ digits

/-- Double quotes only for a text that holds a single quote and no double quote. -/
def quoteFor (codes : List Nat) : Char :=
  if codes.contains '\''.toNat && !codes.contains '"'.toNat then '"' else '\''

def commonEscape? (quote : Char) (c : Char) : Option Text :=
  if c = quote ∨ c = '\\' then some ['\\', c]
  else if c = '\n' then some ['\\', 'n']
  else if c = '\r' then some ['\\', 'r']
  else if c = '\t' then some ['\\', 't']
  else none

def escape (quote : Char) (c : Char) : Text :=
  match commonEscape? quote c with
  | some t => t
  | none =>
    if isPrintable c then [c]
    else
      let n := c.toNat
      if n < 0x100 then '\\' :: 'x' :: hex 2 n
      else if n < 0x10000 then '\\' :: 'u' :: hex 4 n
      else '\\' :: 'U' :: hex 8 n

def quoted (t : Text) : Text :=
  let quote := quoteFor (t.map Char.toNat)
  quote :: t.flatMap (escape quote) ++ [quote]

def escapeByte (quote : Char) (b : UInt8) : Text :=
  let c := Char.ofNat b.toNat
  match commonEscape? quote c with
  | some t => t
  | none => if 0x20 ≤ b.toNat ∧ b.toNat < 0x7f then [c] else '\\' :: 'x' :: hex 2 b.toNat

def quotedBytes (bytes : List UInt8) : Text :=
  let quote := quoteFor (bytes.map UInt8.toNat)
  'b' :: quote :: bytes.flatMap (escapeByte quote) ++ [quote]

end Stencil.Text
