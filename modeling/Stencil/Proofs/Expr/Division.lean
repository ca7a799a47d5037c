import Mathlib.Data.Rat.Floor
import Stencil.Proofs.Expr.Wrapping

/-!
# Division of integers

Quotients are rounded toward zero and remainders have the sign of the dividend. Together they give
back the dividend, also where the quotient is past the 64-bit range.
-/

namespace Stencil

/-! ## Rounding toward zero -/

namespace Decimal

def towardZero (x : ℚ) : ℤ := if 0 ≤ x then ⌊x⌋ else ⌈x⌉

theorem towardZero_neg (x : ℚ) : towardZero (-x) = -towardZero x := by
  unfold towardZero
  rcases lt_trichotomy x 0 with h | rfl | h
  · rw [if_pos (by linarith), if_neg (by linarith), Int.floor_neg]
  · simp
  · rw [if_neg (by linarith), if_pos h.le, Int.ceil_neg]

/-- The quotient of the absolute values, negated where the signs differ, is rounded toward zero. -/
theorem truncatedDivmod_eq (a b : Int) : truncatedDivmod a b = (a.tdiv b, a.tmod b) := by
  have hquotient : (truncatedDivmod a b).1 = a.tdiv b := by
    cases a with
    | ofNat m =>
      cases b with
      | ofNat n => rfl
      | negSucc n => simp [truncatedDivmod, Int.tdiv]
    | negSucc m =>
      cases b with
      | ofNat n => simp [truncatedDivmod, Int.tdiv]
      | negSucc n => simp [truncatedDivmod, Int.tdiv]
  refine Prod.ext hquotient ?_
  rw [Int.tmod_def, ← hquotient, Int.mul_comm]
  rfl

theorem tdiv_eq_towardZero (a b : Int) : a.tdiv b = towardZero (a / b) := by
  -- both sides change sign with each operand, so natural numbers are enough
  have hnat (m n : Nat) : (m : Int).tdiv n = towardZero (m / n) := by
    rw [towardZero, if_pos (by positivity), Int.tdiv_eq_ediv_of_nonneg (by positivity)]
    exact (Rat.floor_intCast_div_natCast m n).symm
  obtain ⟨m, rfl | rfl⟩ := a.eq_nat_or_neg <;> obtain ⟨n, rfl | rfl⟩ := b.eq_nat_or_neg
  · rw [hnat]
    push_cast
    rfl
  · rw [Int.tdiv_neg, hnat]
    push_cast
    rw [div_neg, towardZero_neg]
  · rw [Int.neg_tdiv, hnat]
    push_cast
    rw [neg_div, towardZero_neg]
  · rw [Int.tdiv_neg, Int.neg_tdiv, hnat]
    push_cast
    rw [neg_div_neg_eq, neg_neg]

section
variable {a b : Int}

theorem tmod_eq (a b : Int) : a.tmod b = a - b * towardZero (a / b) := by
  rw [Int.tmod_def, tdiv_eq_towardZero]

theorem abs_tmod_lt (a : Int) (hb : b ≠ 0) : |a.tmod b| < |b| := by
  have hnat := Int.natAbs_tmod a b
  have hlt := Nat.mod_lt a.natAbs (Int.natAbs_pos.mpr hb)
  rw [Int.abs_eq_natAbs, Int.abs_eq_natAbs]
  omega

theorem sign_tmod (a b : Int) : a.tmod b = 0 ∨ (a.tmod b).sign = a.sign := by
  by_cases h : b ∣ a
  · exact .inl (Int.tmod_eq_zero_of_dvd h)
  · exact .inr (by rw [Int.sign_tmod, if_neg h])

/-- Only one quotient is past the range. -/
theorem wrap_tdiv (ha : least ≤ a ∧ a ≤ greatest) (hb : b ≠ 0) :
    wrap (a.tdiv b) = if a = least ∧ b = -1 then least else a.tdiv b := by
  split
  · rename_i h
    rw [h.1, h.2]
    decide
  · rename_i h
    have hrange : least ≤ a.tdiv b ∧ a.tdiv b ≤ greatest := by
      by_cases hone : b.natAbs = 1
      · obtain rfl | rfl : b = 1 ∨ b = -1 := by omega
        · rwa [Int.tdiv_one]
        · rw [Int.tdiv_neg, Int.tdiv_one]
          unfold least greatest at *
          omega
      · have hnat : (a.tdiv b).natAbs = a.natAbs / b.natAbs := Int.natAbs_tdiv a b
        have hhalf : a.natAbs / b.natAbs ≤ a.natAbs / 2 :=
          Nat.div_le_div_left (by omega) (by decide)
        have hpositive : 0 < Nat.pow 2 63 := by decide
        unfold least greatest at *
        omega
    exact wrap_of_range hrange.1 hrange.2

theorem wrap_tmod (a : Int) (hb : b ≠ 0) (hrange : least ≤ b ∧ b ≤ greatest) :
    wrap (a.tmod b) = a.tmod b := by
  have hlt := abs_tmod_lt a hb
  unfold least greatest at hrange
  rw [Int.abs_eq_natAbs, Int.abs_eq_natAbs] at hlt
  refine wrap_of_range ?_ ?_
  · unfold least; omega
  · unfold greatest; omega

end

end Decimal

/-- Dividing and putting together again, with a wrap after each step. -/
theorem wrap_recombined (a b : Int) :
    Decimal.wrap (Decimal.wrap (Decimal.wrap (a.tdiv b) * b) + Decimal.wrap (a.tmod b)) =
      Decimal.wrap a := by
  have hproduct : Decimal.wrap (Decimal.wrap (a.tdiv b) * b) = Decimal.wrap (a.tdiv b * b) :=
    by simp only [Decimal.wrap_eq_bmod, Int.bmod_mul_bmod]
  have hadd : Arithmetic.add.exact? = some (· + ·) := rfl
  rw [hproduct, Arithmetic.wrap_exact hadd, Int.tdiv_mul_add_tmod]

def Arithmetic.division? : Arithmetic → Option (Int → Int → Int)
  | .quotient => some Int.tdiv
  | .remainder => some Int.tmod
  | .add | .subtract | .multiply | .divide => none

namespace Expr

/-! ## Operators -/

section
variable {op : Arithmetic} {f : Int → Int → Int} (hop : op.division? = some f) {v w : Value}
  {offset : Nat}
include hop

theorem applyArithmetic_unsupported (h : ¬ (v.kind = .integer ∧ w.kind = .integer)) :
    applyArithmetic op offset v w = failAt .unsupportedOperation offset := by
  have hboth : both (· == .integer) v w = false := by
    rw [both, Bool.and_eq_false_iff, beq_eq_false_iff_ne, beq_eq_false_iff_ne]
    exact not_and_or.mp h
  cases op <;> cases hop <;> simp [applyArithmetic, onIntegers, hboth]

theorem applyArithmetic_division (hv : v.kind = .integer) (hw : w.kind = .integer) :
    applyArithmetic op offset v w = if w.integer = 0 then failAt .dividedByZero offset
      else .ok (.ofInteger (f v.integer w.integer)) := by
  cases op <;> cases hop <;>
    simp [applyArithmetic, onIntegers, both, hv, hw, Decimal.truncatedDivmod_eq]

end

/-! ## Expressions -/

def recombined (sum product inner quotient remainder : Span) (a b : Expr) : Expr :=
  .binary sum (.arithmetic .add)
    (.binary product (.arithmetic .multiply)
      (.group inner (.binary quotient (.arithmetic .quotient) a b)) b)
    (.binary remainder (.arithmetic .remainder) a b)

section
variable {env : Env} {left right : Expr} {v w : Value} {n : Nat}

variable {m : Nat}

/-- The operator takes three calls more than its operands. -/
theorem evaluate_arithmetic (hleft : evaluate env n left = .ok v)
    (hright : evaluate env n right = .ok w) (hm : n + 3 ≤ m) (s : Span) (op : Arithmetic) :
    evaluate env m (binary s (.arithmetic op) left right) =
      applyArithmetic op left.start v w := by
  obtain ⟨k, rfl⟩ := Nat.exists_eq_add_of_le' (Nat.le_trans (Nat.le_add_left 3 n) hm)
  have hfirst : alongSpine env (k + 1) (further env (k + 1)) left = .ok v :=
    (evaluate_extends_alongSpine (by omega) left).ok hleft
  have hsecond : evaluate env k right = .ok w := (evaluate_extends (by omega) right).ok hright
  rw [evaluate_succ, handle_binary, alongSpine_binary, show k + 2 - 1 = k + 1 from rfl, hfirst,
    ok_bind]
  simp only [apply, further, Nat.add_sub_cancel, hsecond]
  rfl

theorem evaluate_group (h : evaluate env n left = .ok v) (hm : n + 2 ≤ m) (s : Span) :
    evaluate env m (group s left) = .ok v := by
  obtain ⟨k, rfl⟩ := Nat.exists_eq_add_of_le' (Nat.le_trans (Nat.le_add_left 2 n) hm)
  exact (evaluate_extends (by omega : n ≤ k) left).ok h

/-- The dividend comes back even where the quotient has wrapped. -/
theorem evaluate_recombined (hleft : evaluate env n left = .ok v)
    (hright : evaluate env n right = .ok w) (hv : v.kind = .integer) (hw : w.kind = .integer)
    (hne : w.integer ≠ 0) (hm : n + 11 ≤ m) (sum product inner quotient remainder : Span) :
    ∃ u, evaluate env m (recombined sum product inner quotient remainder left right) = .ok u ∧
      u.IsInteger v.integer := by
  have hdivision (op : Arithmetic) {f : Int → Int → Int} (hop : op.division? = some f) (s : Span)
      {k : Nat} (hk : n + 3 ≤ k) : evaluate env k (binary s (.arithmetic op) left right) =
        .ok (.ofInteger (f v.integer w.integer)) := by
    rw [evaluate_arithmetic hleft hright hk, applyArithmetic_division hop hv hw, if_neg hne]
  have hgroup := evaluate_group (hdivision .quotient rfl quotient (Nat.le_refl _))
    (Nat.le_refl _) inner
  have hfactor : evaluate env (n + 3 + 2) right = .ok w :=
    (evaluate_extends (by omega) right).ok hright
  have hproduct := evaluate_arithmetic hgroup hfactor (Nat.le_refl _) product .multiply
  have hmultiply : Arithmetic.multiply.exact? = some (· * ·) := rfl
  rw [applyArithmetic_exact hmultiply rfl hw] at hproduct
  have hremainder := hdivision .remainder rfl remainder (by omega : n + 3 ≤ n + 3 + 2 + 3)
  have hsum := evaluate_arithmetic hproduct hremainder hm sum .add
  have hadd : Arithmetic.add.exact? = some (· + ·) := rfl
  rw [applyArithmetic_exact hadd rfl rfl] at hsum
  exact ⟨_, hsum, (Value.isInteger_ofInteger _).congr (wrap_recombined _ _)⟩

/-- **Integers divide toward zero**, with a remainder of the sign of the dividend. The quotient
wraps for one pair only, and `(a // b) * b + a % b` is `a` also there. -/
theorem division_truncates (hleft : evaluate env n left = .ok v)
    (hright : evaluate env n right = .ok w) (m : Nat) (hm : n + 3 ≤ m) (s : Span) :
    let quotient := evaluate env m (binary s (.arithmetic .quotient) left right)
    let remainder := evaluate env m (binary s (.arithmetic .remainder) left right)
    (¬ (v.kind = .integer ∧ w.kind = .integer) →
      quotient = failAt .unsupportedOperation left.start ∧
      remainder = failAt .unsupportedOperation left.start) ∧
    (v.kind = .integer → w.kind = .integer →
      Decimal.least ≤ v.integer ∧ v.integer ≤ Decimal.greatest →
      Decimal.least ≤ w.integer ∧ w.integer ≤ Decimal.greatest →
      (w.integer = 0 → quotient = failAt .dividedByZero left.start ∧
        remainder = failAt .dividedByZero left.start) ∧
      (w.integer ≠ 0 →
        (∃ q, quotient = .ok q ∧ q.kind = .integer ∧
          q.integer = if v.integer = Decimal.least ∧ w.integer = -1 then Decimal.least
            else Decimal.towardZero (v.integer / w.integer)) ∧
        (∃ r, remainder = .ok r ∧ r.kind = .integer ∧
          r.integer = v.integer - w.integer * Decimal.towardZero (v.integer / w.integer) ∧
          |r.integer| < |w.integer| ∧ (r.integer = 0 ∨ r.integer.sign = v.integer.sign)) ∧
        ∀ sum product inner quotient remainder : Span, n + 11 ≤ m →
          ∃ u, evaluate env m (recombined sum product inner quotient remainder left right) = .ok u ∧
            u.kind = .integer ∧ u.integer = v.integer ∧ u.text = Decimal.ofInt v.integer)) := by
  intro quotient remainder
  have hquotient : quotient = applyArithmetic .quotient left.start v w :=
    evaluate_arithmetic hleft hright hm s .quotient
  have hremainder : remainder = applyArithmetic .remainder left.start v w :=
    evaluate_arithmetic hleft hright hm s .remainder
  constructor
  · intro h
    exact ⟨hquotient.trans (applyArithmetic_unsupported rfl h),
      hremainder.trans (applyArithmetic_unsupported rfl h)⟩
  intro hv hw hvrange hwrange
  rw [applyArithmetic_division rfl hv hw] at hquotient hremainder
  constructor
  · intro hzero
    rw [if_pos hzero] at hquotient hremainder
    exact ⟨hquotient, hremainder⟩
  intro hne
  rw [if_neg hne] at hquotient hremainder
  -- the least integer by -1 is the only quotient that wraps
  refine ⟨⟨_, hquotient, rfl, ?_⟩, ⟨_, hremainder, rfl, ?_⟩, ?_⟩
  · rw [← Decimal.tdiv_eq_towardZero]
    exact Decimal.wrap_tdiv hvrange hne
  · rw [show (Value.ofInteger (v.integer.tmod w.integer)).integer = v.integer.tmod w.integer from
      Decimal.wrap_tmod _ hne hwrange]
    exact ⟨Decimal.tmod_eq _ _, Decimal.abs_tmod_lt _ hne, Decimal.sign_tmod _ _⟩
  · intro sum product inner quotient remainder hcalls
    obtain ⟨u, hu, hkind, hinteger, htext⟩ :=
      evaluate_recombined hleft hright hv hw hne hcalls sum product inner quotient remainder
    have hwrap := Decimal.wrap_of_range hvrange.1 hvrange.2
    rw [hwrap] at hinteger htext
    exact ⟨u, hu, hkind, hinteger, htext⟩

end

/-- The least integer divided by -1 wraps, and yet the dividend comes back. -/
theorem division_truncates_overflow :
    let env : Env := ⟨.empty, .dict .fresh [(.text ['x'], .integer Decimal.least),
      (.text ['y'], .integer (-1))], .active none⟩
    let x : Expr := .symbol ⟨0, 1⟩ ['x']
    let y : Expr := .symbol ⟨5, 6⟩ ['y']
    let s : Span := ⟨0, 6⟩
    (∃ q, evaluate env 13 (binary s (.arithmetic .quotient) x y) = .ok q ∧
      q.integer = Decimal.least) ∧
    (∃ r, evaluate env 13 (binary s (.arithmetic .remainder) x y) = .ok r ∧ r.integer = 0) ∧
    ∃ u, evaluate env 13 (recombined s s s s s x y) = .ok u ∧ u.integer = Decimal.least := by
  intro env x y s
  have hx : evaluate env 2 x = .ok (.ofInteger Decimal.least) := rfl
  have hy : evaluate env 2 y = .ok (.ofInteger (-1)) := rfl
  obtain ⟨-, hboth⟩ := division_truncates hx hy 13 (by decide) s
  obtain ⟨-, hnonzero⟩ := hboth rfl rfl (by decide) (by decide)
  obtain ⟨⟨q, hq, -, hquotient⟩, ⟨r, hr, -, -, habs, -⟩, hback⟩ := hnonzero (by decide)
  obtain ⟨u, hu, -, hdividend, -⟩ := hback s s s s s (by decide)
  refine ⟨⟨q, hq, ?_⟩, ⟨r, hr, ?_⟩, u, hu, hdividend⟩
  · rw [hquotient, if_pos (by decide)]
  · exact Int.abs_lt_one_iff.mp habs

end Expr

end Stencil
