/-!
# Computations that may fail

What a successful computation says about its parts, when two computations come to the same, and what
stays the same when there is more room for a computation.
-/

namespace Stencil

variable {ε δ α β : Type}

theorem bind_eq_ok {x : Except ε α} {f : α → Except ε β} {b : β} :
    (x >>= f) = .ok b ↔ ∃ a, x = .ok a ∧ f a = .ok b := by
  cases x with
  | error e => simp [bind, Except.bind]
  | ok a => simp [bind, Except.bind]

theorem bind_eq_error {x : Except ε α} {f : α → Except ε β} {e : ε} :
    (x >>= f) = .error e ↔ x = .error e ∨ ∃ a, x = .ok a ∧ f a = .error e := by
  cases x with
  | error d => simp [bind, Except.bind]
  | ok a => simp [bind, Except.bind]

@[simp] theorem ok_bind (a : α) (f : α → Except ε β) : (Except.ok a >>= f) = f a := rfl

theorem pure_eq_ok {a b : α} : (pure a : Except ε α) = .ok b ↔ a = b := by
  simp [pure, Except.pure]

theorem pure_ne_error {a : α} {e : ε} : (pure a : Except ε α) ≠ .error e := nofun

theorem map_eq_error {x : Except ε α} {f : α → β} {e : ε} : x.map f = .error e ↔ x = .error e := by
  cases x with
  | error d =>
    exact ⟨fun h => congrArg _ (Except.error.inj h), fun h => congrArg _ (Except.error.inj h)⟩
  | ok a => exact ⟨nofun, nofun⟩

theorem mapError_eq_ok {x : Except ε α} {f : ε → δ} {a : α} :
    x.mapError f = .ok a ↔ x = .ok a := by
  cases x with
  | error e => exact ⟨nofun, nofun⟩
  | ok b => exact ⟨fun h => congrArg _ (Except.ok.inj h), fun h => congrArg _ (Except.ok.inj h)⟩

/-! ## Computations in pairs -/

/-- Two computations come to related results, or to the same failure. -/
inductive Paired {ε α β : Type} (R : α → β → Prop) : Except ε α → Except ε β → Prop
  | ok {a b} : R a b → Paired R (.ok a) (.ok b)
  | error (e) : Paired R (.error e) (.error e)

section
variable {α' β' : Type} {R : α → α' → Prop} {S : β → β' → Prop}

theorem Paired.bind {x : Except ε α} {x' : Except ε α'} {f : α → Except ε β}
    {f' : α' → Except ε β'} (h : Paired R x x') (hf : ∀ a a', R a a' → Paired S (f a) (f' a')) :
    Paired S (x >>= f) (x' >>= f') := by
  cases h with
  | ok h => exact hf _ _ h
  | error e => exact .error e

theorem paired_pure {a : α} {a' : α'} (h : R a a') :
    Paired R (pure a : Except ε α) (pure a') := .ok h

theorem Paired.mapError {x : Except ε α} {x' : Except ε α'} (h : Paired R x x') (f : ε → δ) :
    Paired R (x.mapError f) (x'.mapError f) := by
  cases h with
  | ok h => exact .ok h
  | error e => exact .error (f e)

theorem Paired.error_iff {x : Except ε α} {x' : Except ε α'} (h : Paired R x x') {e : ε} :
    x = .error e ↔ x' = .error e := by
  cases h with
  | ok h => exact Iff.intro nofun nofun
  | error d =>
    exact ⟨fun h => congrArg _ (Except.error.inj h), fun h => congrArg _ (Except.error.inj h)⟩

theorem Paired.eq {x y : Except ε α} (h : Paired Eq x y) : x = y := by
  cases h with
  | ok h => exact congrArg _ h
  | error e => rfl

theorem Paired.refl : ∀ x : Except ε α, Paired Eq x x
  | .ok _ => .ok rfl
  | .error e => .error e

theorem Paired.some {x : Except ε α} {x' : Except ε α'} (h : Paired R x x') :
    Paired (Option.Rel R) (do return some (← x)) (do return some (← x')) :=
  h.bind fun _ _ hr => .ok (.some hr)

theorem Paired.none_iff {x : Except ε (Option α)} {x' : Except ε (Option α')}
    (h : Paired (Option.Rel R) x x') : x = .ok none ↔ x' = .ok none := by
  cases h with
  | error e => exact Iff.intro nofun nofun
  | ok hr =>
    cases hr with
    | none => exact iff_of_true rfl rfl
    | some hr => exact Iff.intro nofun nofun

theorem Paired.exists_some {x : Except ε (Option α)} {x' : Except ε (Option α')}
    (h : Paired (Option.Rel R) x x') {a : α} (hx : x = .ok (Option.some a)) :
    ∃ a', x' = .ok (Option.some a') ∧ R a a' := by
  subst hx
  cases h with
  | ok hr =>
    cases hr with
    | some hr => exact ⟨_, rfl, hr⟩

end

/-! ## Computations that run out -/

/-- The second computation comes to what the first one comes to, unless the first one runs out. -/
def Extends (out : ε) (x y : Except ε α) : Prop := x ≠ .error out → y = x

section
variable {out : ε} {x y : Except ε α}

theorem extends_refl (x : Except ε α) : Extends out x x := fun _ => rfl

theorem extends_out : Extends out (.error out) y := fun h => absurd rfl h

theorem Extends.ok {a : α} (h : Extends out x y) (hx : x = .ok a) : y = .ok a := by
  subst hx
  exact h nofun

theorem ne_out_of_bind {f : α → Except ε β} (h : (x >>= f) ≠ .error out) : x ≠ .error out := by
  rintro rfl
  exact h rfl

theorem Extends.bind {f g : α → Except ε β} (h : Extends out x y)
    (hf : ∀ a, Extends out (f a) (g a)) : Extends out (x >>= f) (y >>= g) := by
  intro hne
  rw [h (ne_out_of_bind hne)]
  cases x with
  | error e => rfl
  | ok a => exact hf a hne

end

end Stencil
