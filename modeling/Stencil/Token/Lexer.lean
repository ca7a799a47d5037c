import Stencil.Text.Blank
import Stencil.Token

/-!
# Lexer

`lexeme?` reads the token at the very front of a text, `next` skips blank characters first, and
`stream` repeats `next`. What a token is depends on the text from its start on, never on what
stands before it.
-/

namespace Stencil.Token

/-! ## Character classes -/

def isWordStart (c : Char) : Bool := c.isAlpha || c == '_'

def isWordPart (c : Char) : Bool := c.isAlphanum || c == '_'

def beginsWithDigit : Text → Bool
  | c :: _ => c.isDigit
  | [] => false

/-! ## Kinds by spelling -/

def keyword? (word : Text) : Option Kind :=
  if word = "if".toList then some .ifWord
  else if word = "elif".toList then some .elifWord
  else if word = "else".toList then some .elseWord
  else if word = "endif".toList then some .endifWord
  else if word = "for".toList then some .forWord
  else if word = "in".toList then some .inWord
  else if word = "endfor".toList then some .endforWord
  else if word = "not".toList then some .notWord
  else if word = "or".toList then some .orWord
  else if word = "and".toList then some .andWord
  else if word = "true".toList then some .trueWord
  else if word = "false".toList then some .falseWord
  else none

def pair? : Char → Char → Option Kind
  | '{', '%' => some .statementBegin
  | '{', '{' => some .expressionBegin
  | '%', '}' => some .statementEnd
  | '}', '}' => some .expressionEnd
  | '/', '/' => some .doubleSlash
  | '<', '=' => some .lessEqual
  | '>', '=' => some .greaterEqual
  | '=', '=' => some .doubleEqual
  | '!', '=' => some .notEqual
  | _, _ => none

def single? : Char → Option Kind
  | '+' => some .plus
  | '-' => some .minus
  | '*' => some .star
  | '|' => some .pipe
  | '(' => some .leftParen
  | ')' => some .rightParen
  | '[' => some .leftBracket
  | ']' => some .rightBracket
  | ',' => some .comma
  | '%' => some .percent
  | '/' => some .slash
  | '<' => some .less
  | '>' => some .greater
  | _ => none

/-! ## One lexeme -/

/-- A number that starts with a digit; it has a fraction only if a digit follows the dot. -/
def number (t : Text) : Kind × Text :=
  let whole := t.takeWhile Char.isDigit
  match t.dropWhile Char.isDigit with
  | '.' :: rest =>
    if beginsWithDigit rest then (.float, whole ++ '.' :: rest.takeWhile Char.isDigit)
    else (.integer, whole)
  | _ => (.integer, whole)

/-- A quoted string: up to the next quote, or the whole rest if there is none. There are no
escapes. -/
def quoted (body : Text) : Text :=
  let content := body.takeWhile (· != '\'')
  if content.length < body.length then '\'' :: content ++ ['\''] else '\'' :: content

def word (t : Text) : Kind × Text :=
  let w := t.takeWhile isWordPart
  ((keyword? w).getD .symbol, w)

def lexeme? : Text → Option (Kind × Text)
  | [] => none
  | c :: rest =>
    -- pairs come first, since some of them begin with a sign of their own
    match rest.head?.bind (pair? c) with
    | some kind => some (kind, c :: rest.take 1)
    | none =>
      match single? c with
      | some kind => some (kind, [c])
      | none =>
        if c = '.' then
          if beginsWithDigit rest then some (.float, '.' :: rest.takeWhile Char.isDigit)
          else some (.dot, ['.'])
        else if c = '\'' then some (.string, quoted rest)
        else if isWordStart c then some (word (c :: rest))
        else if c.isDigit then some (number (c :: rest))
        else none

/-! ## Tokens of a source -/

/-- The token at or after `offset`, where `rest` is the source from there on, and what follows the
token. Where none starts, the invalid token stands at the first character that is not blank. -/
def next (offset : Nat) (rest : Text) : Token × Text :=
  let start := offset + (rest.takeWhile Text.isBlank).length
  let body := rest.dropWhile Text.isBlank
  match lexeme? body with
  | none => (⟨.invalid, start, start, []⟩, body)
  | some (kind, text) => (⟨kind, start, start + text.length, text⟩, body.drop text.length)

def atOffset (source : Text) (offset : Nat) : Token :=
  (next offset (source.drop offset)).1

/-- The tokens from `offset` on, up to and with the first one that is invalid or of a kind that
`closes`. -/
def stream (closes : Kind → Bool) (offset : Nat) (rest : Text) : List Token :=
  let start := offset + (rest.takeWhile Text.isBlank).length
  match _h : rest.dropWhile Text.isBlank with
  | [] => [⟨.invalid, start, start, []⟩]
  | c :: body =>
    match lexeme? (c :: body) with
    | none => [⟨.invalid, start, start, []⟩]
    | some (kind, text) =>
      let token : Token := ⟨kind, start, start + text.length, text⟩
      if closes kind then [token]
      else token :: stream closes token.stop (body.drop (text.length - 1))
termination_by rest.length
decreasing_by
  have := congrArg List.length _h
  have := (List.dropWhile_suffix (l := rest) Text.isBlank).length_le
  simp only [List.length_cons, List.length_drop] at *
  omega

def all (source : Text) : List Token :=
  stream (fun _ => false) 0 source

end Stencil.Token
