import Stencil.Expr

/-!
# Blocks

The nested form of a template.
-/

namespace Stencil

mutual

inductive Block
  | text (span : Span) (content : Text)
  | output (span : Span) (expression : Expr)
  | loop (span : Span) (binder : Symbol) (iterator : Expr) (body : List Block)
  | choice (span : Span) (arms : List Arm)
  /-- A node of another sort, which cannot be rendered. -/
  | other (span : Span) (sort : Text)

/-- An arm of a choice; one without a test is always taken. -/
inductive Arm
  | mk (span : Span) (test : Option Expr) (body : List Block)

end

instance : Inhabited Block := ⟨.text default []⟩

instance : Inhabited Arm := ⟨.mk default none []⟩

namespace Arm

def span : Arm → Span
  | mk s .. => s

def test : Arm → Option Expr
  | mk _ t _ => t

def body : Arm → List Block
  | mk _ _ b => b

end Arm

namespace Block

def span : Block → Span
  | text s _ | output s _ | loop s .. | choice s _ | other s _ => s

def start (b : Block) : Nat := b.span.start

def stop (b : Block) : Nat := b.span.stop

end Block

end Stencil
