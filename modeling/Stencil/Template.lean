import Stencil.Block.Build
import Stencil.Clause.Scan
import Stencil.Diagnostic
import Stencil.Render
import Stencil.Stack

/-!
# Templates

A template is parsed once and rendered any number of times, each time with data and keywords of
its own. The log that is written along the way is left out.
-/

namespace Stencil

inductive Failure
  | diagnostic (d : Diagnostic)
  | sourceNotText (type : Text)
  | keywordsNeedMapping
  /-- Keywords cannot be merged into a mapping whose lookups fail. -/
  | brokenMapping
  | malformed (m : Malformed)
  /-- The items of a sequence cannot be counted. -/
  | overlong
  /-- A numeral in the source has too many digits to be converted. -/
  | numeralTooLong (digits : Nat)
  /-- An integer in the data has too many digits to be displayed. -/
  | integerTooLong
  /-- There are no calls left to render a block. -/
  | exhausted
  deriving DecidableEq, Repr

namespace Failure

def ofParse (source : Text) (name : Option Text) : ParseFault → Failure
  | .located kind offset => .diagnostic ⟨.parse kind, offset, source, name, none⟩
  | .numeralTooLong digits => .numeralTooLong digits

def ofRender (source : Text) (name : Option Text) : RenderFault → Failure
  | .located kind offset => .diagnostic ⟨.render kind, offset, source, name, none⟩
  | .filterFailed offset cause =>
    .diagnostic ⟨.render .filterCallFailed, offset, source, name, some cause.cause⟩
  | .malformed m => .malformed m
  | .overlong => .overlong
  | .numeralTooLong => .integerTooLong
  | .exhausted => .exhausted

def message (color : Bool) : Failure → Text
  | diagnostic d => d.message color
  | sourceNotText type => "Template source must be a string, got ".toList ++ type
  | keywordsNeedMapping => "Keyword arguments can only be merged into mapping data".toList
  | brokenMapping => "broken".toList
  | malformed m => m.message
  | overlong => "Python int too large to convert to C ssize_t".toList
  | numeralTooLong digits =>
    exceeds ++ ": value has ".toList ++ Decimal.ofNat digits ++ " digits".toList ++ remedy
  | integerTooLong => exceeds ++ remedy
  | exhausted => "maximum recursion depth exceeded".toList
where
  exceeds := "Exceeds the limit (".toList ++ Decimal.ofNat Decimal.longestNumeral ++
    " digits) for integer string conversion".toList
  remedy := "; use sys.set_int_max_str_digits() to increase the limit".toList

end Failure

/-- The blocks of a source; blank sources have none. -/
def parse (stack : Stack) (source : Text) : Except ParseFault (List Block) :=
  if (Text.trim source).isEmpty then .ok []
  else do
    let clauses ← Clause.scan stack source
    Block.build source (stack.calls - 1) clauses

structure Template where
  source : Text
  name : Option Text
  blocks : List Block

namespace Template

def ofText (stack : Stack) (source : Text) (name : Option Text) : Except Failure Template :=
  match parse stack source with
  | .ok blocks => .ok ⟨source, name, blocks⟩
  | .error fault => .error (.ofParse source name fault)

def ofHost (stack : Stack) (source : Host) (name : Option Text) : Except Failure Template :=
  match source with
  | .text t => ofText stack t name
  | h => .error (.sourceNotText h.typeName)

def describe (t : Template) : Text :=
  let name :=
    match t.name with
    | none | some [] => "(inline)".toList
    | some name => name
  "<Template ".toList ++ name ++ ['>']

/-- The data root with keywords, which go before the entries of a mapping. -/
def merge (data : Host) (keywords : List (Text × Host)) : Except Failure Host :=
  let added := keywords.map fun (name, value) => (Host.text name, value)
  if keywords.isEmpty then .ok data
  else
    match data with
    | .null => .ok (.dict .fresh (Host.ofEntries added))
    | .dict _ entries => .ok (.dict .fresh (Host.ofEntries (entries ++ added)))
    -- only the entries of a mapping go on, its attributes stay behind
    | .object _ o =>
      match o.content with
      | .mapping entries broken =>
        if broken && !entries.isEmpty then .error .brokenMapping
        else .ok (.dict .fresh (Host.ofEntries (entries ++ added)))
      | _ => .error .keywordsNeedMapping
    | _ => .error .keywordsNeedMapping

/-- The text of a template for some data, and how far the iterators in it have got. -/
def render (stack : Stack) (t : Template) (data : Host) (keywords : List (Text × Host))
    (progress : Progress) : Except Failure Text × Progress :=
  match merge data keywords with
  | .error failure => (.error failure, progress)
  | .ok data =>
    let page : Page := ⟨data, .active t.name⟩
    let (outcome, progress) := Stencil.render page stack.calls t.blocks progress
    (outcome.mapError (Failure.ofRender t.source t.name), progress)

end Template

end Stencil
