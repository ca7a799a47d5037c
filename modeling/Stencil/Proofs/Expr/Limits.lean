import Stencil.Proofs.Expr.Grammar

/-!
# Limits of the parser

How many calls a tree is read with, and how long its integers are. The parser takes trees within its
limits and no others.
-/

namespace Stencil.Expr

open Token (Kind)

/-! ## Nesting -/

def unaryNesting : UnaryOp → Nat
  | .not => 1
  | .positive | .negative => 0

/-- What an operator takes of the room for its right operand: a call for a filter, and for a key
those from the operand before the bracket to the expression in it. -/
def binaryNesting : BinaryOp → Nat
  | .pipe => 1
  | .subscript => 13
  | _ => 0

mutual

/-- How many calls an expression is read with, from its own down to the last one of an atom. -/
def nesting : Expr → Nat
  | unary _ op e => e.nesting + unaryNesting op
  | binary _ op l r => max l.nesting (r.nesting + binaryNesting op)
  | arguments _ es => mostNesting es + 1
  | group _ e => e.nesting + 15
  | literal .. | symbol .. | other .. => 14

/-- A list of arguments is read with an attempt at one even if there are none. -/
def mostNesting : List Expr → Nat
  | [] => 14
  | e :: es => max e.nesting (mostNesting es)

end

theorem le_mostNesting : ∀ es, 14 ≤ mostNesting es
  | [] => Nat.le_refl _
  | _ :: es => Nat.le_trans (le_mostNesting es) (Nat.le_max_right _ _)

theorem le_nesting : ∀ e : Expr, 14 ≤ e.nesting
  | unary _ _ e | group _ e => Nat.le_trans (le_nesting e) (Nat.le_add_right _ _)
  | binary _ _ l _ => Nat.le_trans (le_nesting l) (Nat.le_max_left _ _)
  | arguments _ es => Nat.le_succ_of_le (le_mostNesting es)
  | literal .. | symbol .. | other .. => Nat.le_refl _

theorem nesting_binary_le {room : Nat} {s : Span} {op : BinaryOp} {l r : Expr} :
    (binary s op l r).nesting ≤ room ↔ l.nesting ≤ room ∧ r.nesting + binaryNesting op ≤ room := by
  rw [nesting, Nat.max_le]

theorem ne_subscript_of_kind {op : BinaryOp} {k : Kind} (h : op.kind? = some k) :
    op ≠ .subscript := by
  rintro rfl; cases h

/-! ## Integers -/

/-- No integer has more digits after its leading zeros than the greatest one, nor more digits in
all than are converted. -/
def Short (ts : List Token) : Prop :=
  ∀ t ∈ ts, t.kind = .integer →
    (t.text.dropWhile (· == '0')).length ≤ 10 ∧ t.text.length ≤ Decimal.longestNumeral

theorem Short.append {ts us : List Token} : Short (ts ++ us) ↔ Short ts ∧ Short us :=
  List.forall_mem_append

theorem Short.cons {t : Token} {ts : List Token} (h : Short (t :: ts)) : Short ts :=
  fun u hu => h u (List.mem_cons_of_mem _ hu)

theorem short_cons {t : Token} {ts : List Token} (ht : t.kind ≠ .integer) (h : Short ts) :
    Short (t :: ts) :=
  List.forall_mem_cons.mpr ⟨fun hk => absurd hk ht, h⟩

end Stencil.Expr
