import Stencil.Text

/-!
# Terminal styles

Escape sequences that colour text on a terminal, and their removal from any text.
-/

namespace Stencil.Ansi

inductive Style
  | reset | bold | dim | red | yellow | cyan | brightRed
  deriving DecidableEq, Repr, Inhabited

namespace Style

def name : Style → Text
  | reset => "reset".toList
  | bold => "bold".toList
  | dim => "dim".toList
  | red => "red".toList
  | yellow => "yellow".toList
  | cyan => "cyan".toList
  | brightRed => "bright_red".toList

def all : List Style := [reset, bold, dim, red, yellow, cyan, brightRed]

def ofName? (name : Text) : Option Style := all.find? (·.name == name)

def code : Style → Text
  | reset => "\x1b[0m".toList
  | bold => "\x1b[1m".toList
  | dim => "\x1b[2m".toList
  | red => "\x1b[31m".toList
  | yellow => "\x1b[33m".toList
  | cyan => "\x1b[36m".toList
  | brightRed => "\x1b[91m".toList

end Style

def paint (color : Bool) (styles : List Style) (t : Text) : Text :=
  if !color || styles.isEmpty then t else styles.flatMap Style.code ++ t ++ Style.reset.code

inductive Part
  | kind | location | lineNumber | markedLine | margin
  deriving DecidableEq, Repr, Inhabited

def Part.styles : Part → List Style
  | kind => [.brightRed, .bold]
  | location => [.cyan]
  | lineNumber => [.yellow]
  | markedLine => [.brightRed]
  | margin => [.dim]

def Part.paint (part : Part) (color : Bool) (t : Text) : Text := Ansi.paint color part.styles t

/-- Puts a text into styles that are named; the first name that is none is handed back. While
colours are off no name is looked at. -/
def paintNamed (color : Bool) (names : List Text) (t : Text) : Except Text Text :=
  if !color then .ok t
  else
    match names.find? fun n => (Style.ofName? n).isNone with
    | some unknown => .error unknown
    | none => .ok (paint color (names.filterMap Style.ofName?) t)

/-- Whether colours are wanted: a variable that forces them counts first, one that forbids them
second, and the terminal last. Empty variables do not count. -/
def wanted (force forbid : Text) (terminal : Bool) : Bool :=
  if !force.isEmpty then true else if !forbid.isEmpty then false else terminal

/-! ## Removal -/

def between (low high : Char) (c : Char) : Bool := low ≤ c && c ≤ high

/-- The text after the escape sequence at the front, if there is one: a letter or sign after the
escape character, or a bracket, parameters, intermediates and a final character. -/
def afterEscape? : Text → Option Text
  | '\x1b' :: '[' :: rest =>
    match (rest.dropWhile (between '0' '?')).dropWhile (between ' ' '/') with
    | c :: rest => if between '@' '~' c then some rest else none
    | [] => none
  | '\x1b' :: c :: rest => if between '@' '_' c then some rest else none
  | _ => none

theorem length_afterEscape {t rest : Text} (h : afterEscape? t = some rest) :
    rest.length < t.length := by
  unfold afterEscape? at h
  split at h
  · rename_i body
    have h1 := (List.dropWhile_suffix (l := body) (between '0' '?')).length_le
    have h2 := (List.dropWhile_suffix (l := body.dropWhile (between '0' '?'))
      (between ' ' '/')).length_le
    split at h
    · rename_i heq
      rw [heq] at h2
      split at h
      · cases h; simp only [List.length_cons] at *; omega
      · cases h
    · cases h
  · split at h
    · cases h; simp only [List.length_cons]; omega
    · cases h
  · cases h

/-- Removes the escape sequences, from front to back and in one go. -/
def strip (t : Text) : Text :=
  match h : afterEscape? t with
  | some rest =>
    have := length_afterEscape h
    strip rest
  | none =>
    match t with
    | [] => []
    | c :: rest => c :: strip rest
termination_by t.length

end Stencil.Ansi
