import Stencil.Proofs.Clause.Productions
import Stencil.Proofs.Expr.Limits
import Stencil.Proofs.Expr.Reading

/-!
# The grammar of clauses

`Reads start c ts` relates an output or a statement that begins at `start` to the tokens that
stand between its opening delimiter and the end of its closing one.
-/

namespace Stencil.Clause

open Token (lastStop lastStop_append)

def expression? : Clause → Option (Level × Expr)
  | output _ e | ifTest _ e | elifTest _ e => some (.piped, e)
  | forEach _ _ e => some (.postfixed, e)
  | _ => none

def WellLevelled (c : Clause) : Prop :=
  ∀ l e, c.expression? = some (l, e) → e.WellLevelled ∧ l ≤ e.level

/-- The calls that are left for the expression of a clause. The iterator of a loop is read without
the calls of the levels above its own. -/
def room (stack : Stack) : Clause → Nat
  | output .. => stack.calls - 3
  | forEach .. => stack.calls + 8
  | _ => stack.calls - 4

theorem le_room (stack : Stack) (c : Clause) : 14 ≤ c.room stack := by
  obtain ⟨n, hn⟩ := stack.calls_eq
  unfold leastCalls at hn
  cases c <;> simp only [room] <;> omega

def Fits (stack : Stack) (c : Clause) : Prop :=
  ∀ l e, c.expression? = some (l, e) → e.nesting ≤ c.room stack

inductive Reads (start : Nat) : Clause → List Token → Prop
  | output {c e ts} : c.kind = .expressionEnd → Expr.Reads e ts →
      Reads start (.output ⟨start, c.stop⟩ e) (ts ++ [c])
  | ifTest {k c e ts} : k.kind = .ifWord → c.kind = .statementEnd → Expr.Reads e ts →
      Reads start (.ifTest ⟨start, c.stop⟩ e) (k :: (ts ++ [c]))
  | elifTest {k c e ts} : k.kind = .elifWord → c.kind = .statementEnd → Expr.Reads e ts →
      Reads start (.elifTest ⟨start, c.stop⟩ e) (k :: (ts ++ [c]))
  | otherwise {k c} : k.kind = .elseWord → c.kind = .statementEnd →
      Reads start (.otherwise ⟨start, c.stop⟩) [k, c]
  | endIf {k c} : k.kind = .endifWord → c.kind = .statementEnd →
      Reads start (.endIf ⟨start, c.stop⟩) [k, c]
  | forEach {k x i c e ts} : k.kind = .forWord → x.kind = .symbol → i.kind = .inWord →
      c.kind = .statementEnd → Expr.Reads e ts →
      Reads start (.forEach ⟨start, c.stop⟩ ⟨x.span, x.text⟩ e) (k :: x :: i :: (ts ++ [c]))
  | endFor {k c} : k.kind = .endforWord → c.kind = .statementEnd →
      Reads start (.endFor ⟨start, c.stop⟩) [k, c]

theorem Reads.stop_eq {start : Nat} {c : Clause} {ts : List Token} (offset : Nat)
    (h : Reads start c ts) : c.stop = lastStop offset ts := by
  cases h <;> simp only [lastStop, lastStop_append] <;> rfl

theorem Reads.expression {start : Nat} {c : Clause} {ts : List Token} (h : Reads start c ts)
    {l : Level} {e : Expr} (he : c.expression? = some (l, e)) :
    ∃ before es after, ts = before ++ (es ++ after) ∧ e.Reads es := by
  cases h with
  | output _ hr => cases he; exact ⟨[], _, _, rfl, hr⟩
  | ifTest _ _ hr | elifTest _ _ hr => cases he; exact ⟨[_], _, _, rfl, hr⟩
  | forEach _ _ _ _ hr => cases he; exact ⟨[_, _, _], _, _, rfl, hr⟩
  | _ => cases he

end Stencil.Clause
