import Mathlib.Algebra.Ring.Int.Defs
import Stencil.Proofs.Expr.Coherence
import Stencil.Proofs.Expr.Environment
import Stencil.Proofs.Expr.Recursion

/-!
# Integers wrap once

Sums, differences, products and signs of integers wrap at every step. The outcome is the same as if
the exact integers were computed and wrapped once, at the end.
-/

namespace Stencil

/-! ## Wrapping -/

namespace Decimal

/-- Wrapping keeps the remainder by `2 ^ 64`. -/
theorem wrap_emod (n : Int) : wrap n % 2 ^ 64 = n % 2 ^ 64 := by
  rw [wrap_eq_bmod]
  exact Int.bmod_emod

end Decimal

def Arithmetic.exact? : Arithmetic → Option (Int → Int → Int)
  | .add => some (· + ·)
  | .subtract => some (· - ·)
  | .multiply => some (· * ·)
  | .divide | .quotient | .remainder => none

def UnaryOp.exact? : UnaryOp → Option (Int → Int)
  | .not => none
  | .positive => some id
  | .negative => some (- ·)

theorem Arithmetic.wrap_exact {op : Arithmetic} {f : Int → Int → Int} (h : op.exact? = some f)
    (a b : Int) : Decimal.wrap (f (Decimal.wrap a) (Decimal.wrap b)) = Decimal.wrap (f a b) := by
  simp only [Decimal.wrap_eq_bmod]
  cases op <;> cases h
  · exact (Int.add_bmod a b _).symm
  · exact (Int.sub_bmod a b _).symm
  · exact (Int.mul_bmod a b _).symm

theorem UnaryOp.wrap_exact {op : UnaryOp} {f : Int → Int} (h : op.exact? = some f) (a : Int) :
    Decimal.wrap (f (Decimal.wrap a)) = Decimal.wrap (f a) := by
  simp only [Decimal.wrap_eq_bmod]
  cases op <;> cases h
  · exact Int.bmod_bmod ..
  · exact Int.bmod_neg_bmod

/-! ## Values that are integers -/

/-- The value is the integer `n`, wrapped to 64 bits, and shows it. -/
structure Value.IsInteger (v : Value) (n : Int) : Prop where
  kind : v.kind = .integer
  integer : v.integer = Decimal.wrap n
  text : v.text = Decimal.ofInt (Decimal.wrap n)

theorem Value.isInteger_ofInteger (n : Int) : (ofInteger n).IsInteger n := ⟨rfl, rfl, rfl⟩

theorem Value.IsInteger.congr {v : Value} {m n : Int} (h : v.IsInteger m)
    (heq : Decimal.wrap m = Decimal.wrap n) : v.IsInteger n :=
  ⟨h.kind, h.integer.trans heq, heq ▸ h.text⟩

namespace Expr

theorem applyUnary_exact {op : UnaryOp} {f : Int → Int} (hop : op.exact? = some f) {v : Value}
    (hv : v.kind = .integer) (offset : Nat) :
    applyUnary op offset v = .ok (.ofInteger (f v.integer)) := by
  cases op <;> cases hop <;> simp only [applyUnary, hv, id]

theorem applyArithmetic_exact {op : Arithmetic} {f : Int → Int → Int} (hop : op.exact? = some f)
    {v w : Value} (hv : v.kind = .integer) (hw : w.kind = .integer) (offset : Nat) :
    applyArithmetic op offset v w = .ok (.ofInteger (f v.integer w.integer)) := by
  cases op <;> cases hop <;> simp [applyArithmetic, onNumbers, both, hv, hw, ValueKind.isNumeric]

theorem applyUnary_integer {op : UnaryOp} {f : Int → Int} (hop : op.exact? = some f) {v : Value}
    {n : Int} (h : v.IsInteger n) (offset : Nat) :
    ∃ w, applyUnary op offset v = .ok w ∧ w.IsInteger (f n) := by
  refine ⟨_, applyUnary_exact hop h.kind offset, (Value.isInteger_ofInteger _).congr ?_⟩
  rw [h.integer, UnaryOp.wrap_exact hop]

theorem applyArithmetic_integer {op : Arithmetic} {f : Int → Int → Int} (hop : op.exact? = some f)
    {v w : Value} {m n : Int} (hv : v.IsInteger m) (hw : w.IsInteger n) (offset : Nat) :
    ∃ u, applyArithmetic op offset v w = .ok u ∧ u.IsInteger (f m n) := by
  refine ⟨_, applyArithmetic_exact hop hv.kind hw.kind offset,
    (Value.isInteger_ofInteger _).congr ?_⟩
  rw [hv.integer, hw.integer, Arithmetic.wrap_exact hop]

/-! ## Expressions of integers -/

/-- The expression is made of integers by signs, sums, differences and products, and comes to `n`
when nothing wraps. Integers in the data may be of any size; literals are within 64 bits. -/
inductive Integral (env : Env) : Expr → Int → Prop
  | literal (s f) : f.kind = .integer → Decimal.least ≤ f.integer → f.integer ≤ Decimal.greatest →
      f.text = Decimal.ofInt f.integer → Integral env (literal s f) f.integer
  | symbol (s) {name n} : env.host? name = some (.integer n) → Integral env (symbol s name) n
  | group (s) {e n} : Integral env e n → Integral env (group s e) n
  | unary (s) {op f e n} : op.exact? = some f → Integral env e n →
      Integral env (unary s op e) (f n)
  | binary (s) {op f left right m n} : op.exact? = some f → Integral env left m →
      Integral env right n → Integral env (binary s (.arithmetic op) left right) (f m n)

section
variable {env : Env} {e : Expr} {n : Int}

/-- A literal that the parser makes of an integer. -/
theorem integral_ofInteger (s : Span) (hleast : Decimal.least ≤ n)
    (hgreatest : n ≤ Decimal.greatest) :
    Integral env (literal s (.ofInteger n)) n := by
  have h : Integral env (literal s (.ofInteger n)) (Forms.ofInteger n).integer :=
    .literal s _ rfl (Decimal.wrap_range n).1 (Decimal.wrap_range n).2 rfl
  rwa [show (Forms.ofInteger n).integer = n from Decimal.wrap_of_range hleast hgreatest] at h

/-- Nothing is displayed, so there may be any room for displays. -/
theorem Integral.denotes (h : Integral env e n) :
    ∃ v : Value, v.IsInteger n ∧ ∀ room, denote env room e = .ok v := by
  induction h with
  | literal s f hkind hleast hgreatest htext =>
    have hwrap := Decimal.wrap_of_range hleast hgreatest
    have hvalue : f.value = ⟨f, .integer f.integer⟩ := by simp only [Forms.value, hkind]
    refine ⟨f.value, ?_, fun room => by rw [denote]⟩
    rw [hvalue]
    exact ⟨hkind, hwrap.symm, hwrap.symm ▸ htext⟩
  | @symbol s name n hname =>
    refine ⟨.ofInteger n, Value.isInteger_ofInteger n, fun room => ?_⟩
    rw [denote, env.resolve_eq, hname]
    rfl
  | @group s e n h ih =>
    obtain ⟨v, hinteger, hv⟩ := ih
    exact ⟨v, hinteger, fun room => by rw [denote, hv]⟩
  | @unary s op f e n hop h ih =>
    obtain ⟨v, hinteger, hv⟩ := ih
    obtain ⟨u, hu, huinteger⟩ := applyUnary_integer hop hinteger e.start
    refine ⟨u, huinteger, fun room => ?_⟩
    rw [denote, hv]
    exact hu
  | @binary s op f left right m n hop hl hr ihl ihr =>
    obtain ⟨v, hvinteger, hv⟩ := ihl
    obtain ⟨w, hwinteger, hw⟩ := ihr
    obtain ⟨u, hu, huinteger⟩ := applyArithmetic_integer hop hvinteger hwinteger left.start
    refine ⟨u, huinteger, fun room => ?_⟩
    rw [denote, hv, hw]
    exact hu

/-- Evaluation comes to what recursion comes to, or the calls run out. -/
theorem value_of_denote {v : Value} (h : ∀ room, denote env room e = .ok v) (calls : Nat) :
    e.value env (calls + 1) = .ok v ∨
      e.value env (calls + 1) = .error (.located .evaluationTooDeep e.start) := by
  rw [value_succ]
  by_cases hdeep : evaluate env calls e = .error .tooDeep
  · rw [hdeep]
    exact .inr rfl
  · rw [← evaluate_extends_denote (Nat.le_refl calls) e hdeep, h]
    exact .inl rfl

end

/-- **Wrapping at every step is wrapping once.** The value is within 64 bits and differs from the
exact outcome by a multiple of `2 ^ 64`. It is found unless the expression nests too deep. -/
theorem value_integral {env : Env} {e : Expr} {n : Int} (h : Integral env e n) :
    ∃ v : Value,
      (v.kind = .integer ∧
        (Decimal.least ≤ v.integer ∧ v.integer ≤ Decimal.greatest ∧
          v.integer % 2 ^ 64 = n % 2 ^ 64) ∧
        v.text = Decimal.ofInt v.integer) ∧
      (∀ calls, e.value env (calls + 1) = .ok v ∨
        e.value env (calls + 1) = .error (.located .evaluationTooDeep e.start)) ∧
      ∀ calls, 5 * e.depth + 4 ≤ calls → e.value env (calls + 1) = .ok v := by
  obtain ⟨v, ⟨hkind, hinteger, htext⟩, hv⟩ := h.denotes
  refine ⟨v, ⟨hkind, ?_, by rw [htext, hinteger]⟩, value_of_denote hv, fun calls hcalls => ?_⟩
  · rw [hinteger]
    exact ⟨(Decimal.wrap_range n).1, (Decimal.wrap_range n).2, Decimal.wrap_emod n⟩
  · rw [value_succ, (denote_extends_evaluate (.inl (by omega))).ok (hv 0)]
    rfl

/-- The sum of the greatest integer, twice, and a host integer past the range. -/
theorem value_integral_overflow :
    let env : Env := ⟨.empty, .dict .fresh [(.text ['x'], .integer (2 ^ 64 + 5))], .active none⟩
    let most : Expr := .literal ⟨0, 19⟩ (.ofInteger Decimal.greatest)
    let e : Expr := .binary ⟨0, 48⟩ (.arithmetic .add)
      (.binary ⟨0, 41⟩ (.arithmetic .add) most most)
      (.unary ⟨44, 46⟩ .negative (.symbol ⟨45, 46⟩ ['x']))
    let exact := Decimal.greatest + Decimal.greatest + -(2 ^ 64 + 5)
    Integral env e exact ∧ 5 * e.depth + 4 ≤ 14 ∧
      ∃ v, e.value env 15 = .ok v ∧ v.kind = .integer ∧ v.text = Decimal.ofInt v.integer ∧
        v.integer % 2 ^ 64 = exact % 2 ^ 64 := by
  intro env most e exact
  have hmost : Integral env most Decimal.greatest :=
    integral_ofInteger ⟨0, 19⟩ (by decide) (by decide)
  have hx : Integral env (.symbol ⟨45, 46⟩ ['x']) (2 ^ 64 + 5) := .symbol _ rfl
  have hadd : Arithmetic.add.exact? = some (· + ·) := rfl
  have hminus : UnaryOp.negative.exact? = some (- ·) := rfl
  have he : Integral env e exact :=
    .binary _ hadd (.binary _ hadd hmost hmost) (.unary _ hminus hx)
  have hdepth : 5 * e.depth + 4 ≤ 14 := by decide
  obtain ⟨v, ⟨hkind, ⟨-, -, hmod⟩, htext⟩, -, hv⟩ := value_integral he
  exact ⟨he, hdepth, v, hv 14 hdepth, hkind, htext, hmod⟩

/-! ## Trees that do not wrap -/

def nestedSum : Nat → Expr
  | 0 => .literal ⟨0, 1⟩ (.ofInteger 1)
  | k + 1 => .binary ⟨0, 1⟩ (.arithmetic .add) (.literal ⟨0, 1⟩ (.ofInteger 1)) (nestedSum k)

/-- Each sum takes at least one call. -/
theorem evaluate_nestedSum (env : Env) : ∀ {k calls : Nat}, calls ≤ k →
    evaluate env calls (nestedSum k) = .error .tooDeep
  | _, 0, _ => rfl
  | k + 1, calls + 1, hle => by
    have hone : alongSpine env (calls - 1) (further env (calls - 1))
        (literal ⟨0, 1⟩ (.ofInteger 1)) = evaluate env (calls - 1) _ := rfl
    rw [evaluate_succ, nestedSum, handle_binary, alongSpine_binary, hone]
    cases hcalls : calls - 1 with
    | zero => rfl
    | succ n =>
      have hright : further env (n + 1) (0 + 1) (nestedSum k) = .error .tooDeep :=
        evaluate_nestedSum env (by omega)
      rw [evaluate_succ, handle, ok_bind]
      simp only [apply, hright]
      rfl

/-- A tree made by hand can hold a literal past the range, which stays as it is, and it can nest too
deep for there to be a value. -/
theorem value_integral_fails :
    let env : Env := ⟨.empty, .null, .active none⟩
    let past : Int := Decimal.greatest + 1
    let forms : Forms := ⟨.integer, Decimal.ofInt past, past, 9223372036854775808, true⟩
    (∃ v, (literal ⟨0, 19⟩ forms).value env 988 = .ok v ∧ v.kind = .integer ∧ v.integer = past ∧
      ¬ v.integer ≤ Decimal.greatest) ∧
    (nestedSum 1000).value env 988 = .error (.located .evaluationTooDeep 0) := by
  intro env past forms
  refine ⟨⟨forms.value, rfl, rfl, rfl, by decide⟩, ?_⟩
  rw [value_succ, evaluate_nestedSum env (by decide)]
  rfl

end Expr

end Stencil
