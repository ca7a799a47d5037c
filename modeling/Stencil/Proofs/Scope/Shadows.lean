import Stencil.Scope

/-!
# Shadows restore layer by layer

A shadow remembers what its name was bound to when it was opened. Putting back what the open shadows
remember, from the innermost one outward, gives the bindings from before they were opened, as long
as bindings change under shadows only.
-/

namespace Stencil

namespace Session

def after (s : Session) (steps : List Step) : Session := steps.foldl step s

/-- The names of the shadows that are open after some steps, the innermost first, if `names` were
open before. No step closes a shadow when none is open. -/
def openNames (names : List Text) : List Step → Option (List Text)
  | [] => some names
  | .enter name :: steps => openNames (name :: names) steps
  | .exit :: steps =>
    match names with
    | [] => none
    | _ :: more => openNames more steps
  | _ :: steps => openNames names steps

def Nested (steps : List Step) : Prop := openNames [] steps = some []

instance (steps : List Step) : Decidable (Nested steps) := inferInstanceAs (Decidable (_ = _))

/-- Names are bound and unbound under shadows of theirs only; those of `names` are open before. -/
def Guarded (names : List Text) : List Step → Prop
  | [] => True
  | .bind name _ :: steps | .unbind name :: steps => name ∈ names ∧ Guarded names steps
  | .enter name :: steps => Guarded (name :: names) steps
  | .exit :: steps => Guarded names.tail steps
  | _ :: steps => Guarded names steps

def Step.chunk? : Step → Option Text
  | .write t => some t
  | _ => none

/-! ## One step -/

section
variable (s : Session) (name : Text) (saved : Option Host) (more : List (Text × Option Host))

theorem step_exit (h : s.shadows = (name, saved) :: more) :
    s.step .exit = { s with scope := s.scope.restore name saved, shadows := more } := by
  simp only [step, h]

theorem written_step (x : Step) :
    (s.step x).scope.written.reverse = s.scope.written.reverse ++ x.chunk?.toList := by
  cases x with
  | write t => exact List.reverse_cons
  | exit | writeActive =>
    simp only [step]
    split <;> exact (List.append_nil _).symm
  | _ => exact (List.append_nil _).symm

end

/-! ## Open shadows -/

def unwind (locals : Bindings) (shadows : List (Text × Option Host)) : Bindings :=
  shadows.foldl (fun l shadow => l.restore shadow.1 shadow.2) locals

/-- It does not matter what the names of the shadows are bound to. -/
theorem unwind_congr {a b : Bindings} {shadows : List (Text × Option Host)}
    (h : ∀ n, n ∉ shadows.map Prod.fst → a.get? n = b.get? n) (n : Text) :
    (unwind a shadows).get? n = (unwind b shadows).get? n := by
  induction shadows generalizing a b with
  | nil => exact h n List.not_mem_nil
  | cons shadow shadows ih =>
    refine ih fun m hm => ?_
    rw [Assoc.get?_restore, Assoc.get?_restore]
    split
    · rfl
    · rename_i hne
      exact h m fun hmem => (List.mem_cons.mp hmem).elim hne hm

/-- The own shadows of a run are open above those that were open before it, and closing them would
give the bindings from before the run. -/
structure Unwinds (start s : Session) (own : List (Text × Option Host)) : Prop where
  shadows : s.shadows = own ++ start.shadows
  locals : ∀ n, (unwind s.scope.locals own).get? n = start.scope.locals.get? n

theorem Unwinds.refl (s : Session) : Unwinds s s [] := ⟨rfl, fun _ => rfl⟩

section
variable {start s : Session} {own : List (Text × Option Host)}

/-- Names of open shadows may be bound anew. -/
theorem Unwinds.rebound (h : Unwinds start s own) {t : Session} (hshadows : t.shadows = s.shadows)
    (hlocals : ∀ n, n ∉ own.map Prod.fst → t.scope.locals.get? n = s.scope.locals.get? n) :
    Unwinds start t own :=
  ⟨hshadows.trans h.shadows, fun n => (unwind_congr hlocals n).trans (h.locals n)⟩

theorem Unwinds.enter (h : Unwinds start s own) (name : Text) :
    Unwinds start (s.step (.enter name)) ((name, s.scope.locals.get? name) :: own) := by
  have hsame (n : Text) : (s.scope.locals.restore name (s.scope.locals.get? name)).get? n =
      s.scope.locals.get? n := by
    rw [Assoc.get?_restore]
    split
    · rename_i hn
      rw [hn]
    · rfl
  exact ⟨congrArg (_ :: ·) h.shadows, fun n =>
    (unwind_congr (fun m _ => hsame m) n).trans (h.locals n)⟩

theorem Unwinds.exit {name : Text} {saved : Option Host}
    (h : Unwinds start s ((name, saved) :: own)) : Unwinds start (s.step .exit) own := by
  rw [step_exit s name saved (own ++ start.shadows) h.shadows]
  exact ⟨rfl, h.locals⟩

end

/-! ## Runs -/

/-- The shadows that a run opens stand above those from before, whatever else it does. -/
theorem shadows_after {steps : List Step} {rest : List (Text × Option Host)} :
    ∀ {s : Session} {own : List (Text × Option Host)} {names : List Text},
      s.shadows = own ++ rest → openNames (own.map Prod.fst) steps = some names →
      ∃ own', (s.after steps).shadows = own' ++ rest ∧ own'.map Prod.fst = names := by
  induction steps with
  | nil =>
    intro s own names hs h
    exact ⟨own, hs, Option.some.inj h⟩
  | cons x steps ih =>
    intro s own names hs h
    cases x with
    | enter name =>
      have hs' : (s.step (.enter name)).shadows =
          ((name, s.scope.locals.get? name) :: own) ++ rest := congrArg (_ :: ·) hs
      exact ih hs' h
    | exit =>
      cases own with
      | nil => cases h
      | cons shadow own =>
        refine ih ?_ h
        rw [step_exit s shadow.1 shadow.2 (own ++ rest) hs]
    | writeActive t =>
      refine ih ?_ h
      simp only [step]
      split <;> exact hs
    | _ => exact ih hs h

theorem shadows_after_nested {steps : List Step} (h : Nested steps) (s : Session) :
    (s.after steps).shadows = s.shadows := by
  have hstart : s.shadows = [] ++ s.shadows := (List.nil_append _).symm
  obtain ⟨own, hs, hown⟩ := shadows_after hstart h
  rw [hs, List.map_eq_nil_iff.mp hown, List.nil_append]

theorem unwinds_after {start : Session} {steps : List Step} :
    ∀ {s : Session} {own : List (Text × Option Host)} {names : List Text},
      Unwinds start s own → Guarded (own.map Prod.fst) steps →
      openNames (own.map Prod.fst) steps = some names →
      ∃ own', Unwinds start (s.after steps) own' ∧ own'.map Prod.fst = names := by
  induction steps with
  | nil =>
    intro s own names hs _ h
    exact ⟨own, hs, Option.some.inj h⟩
  | cons x steps ih =>
    intro s own names hs hguarded h
    cases x with
    | bind name value =>
      refine ih (hs.rebound rfl fun n hn => ?_) hguarded.2 h
      -- a guarded run binds names of open shadows only
      have hne : n ≠ name := fun heq => hn (heq ▸ hguarded.1)
      exact (Assoc.get?_set ..).trans (if_neg hne)
    | unbind name =>
      refine ih (hs.rebound rfl fun n hn => ?_) hguarded.2 h
      have hne : n ≠ name := fun heq => hn (heq ▸ hguarded.1)
      exact (Assoc.get?_erase ..).trans (if_neg hne)
    | enter name => exact ih (hs.enter name) hguarded h
    | exit =>
      cases own with
      | nil => cases h
      | cons shadow own => exact ih hs.exit hguarded h
    | writeActive t =>
      refine ih (hs.rebound ?_ fun n _ => ?_) hguarded h
      · simp only [step]
        split <;> rfl
      · simp only [step]
        split <;> rfl
    | write | push | pop => exact ih (hs.rebound rfl fun _ _ => rfl) hguarded h

theorem written_after (s : Session) (steps : List Step) :
    (s.after steps).scope.written.reverse =
      s.scope.written.reverse ++ steps.filterMap Step.chunk? := by
  induction steps generalizing s with
  | nil => exact (List.append_nil _).symm
  | cons x steps ih =>
    refine (ih (s.step x)).trans ?_
    rw [written_step, List.append_assoc, List.filterMap_cons]
    cases x.chunk? <;> rfl

theorem getElem?_run (s : Session) {steps : List Step} {i : Nat} (h : i < steps.length) :
    (s.run steps)[i]? = some (s.after (steps.take (i + 1))) := by
  induction steps generalizing s i with
  | nil => cases h
  | cons x steps ih =>
    cases i with
    | zero => rfl
    | succ i => exact ih (s.step x) (Nat.lt_of_succ_lt_succ h)

/-- **Shadows restore layer by layer.** Whatever steps come in between, closing a shadow gives its
name back what it was bound to when the shadow was opened, and changes no other name. -/
theorem shadows_restore (s : Session) (steps : List Step) :
    (∀ i < steps.length, (s.run steps)[i]? = some (s.after (steps.take (i + 1)))) ∧
    (∀ before name inner, Nested inner →
      let opened := s.after before
      let inside := s.after (before ++ .enter name :: inner)
      let closed := s.after (before ++ .enter name :: inner ++ [.exit])
      closed.scope.locals.get? name = opened.scope.locals.get? name ∧
      (∀ other, other ≠ name →
        closed.scope.locals.get? other = inside.scope.locals.get? other) ∧
      closed.shadows = opened.shadows ∧ closed.scope.written = inside.scope.written) ∧
    (s.after steps).scope.written.reverse =
      s.scope.written.reverse ++ steps.filterMap Step.chunk? ∧
    (Nested steps → Guarded [] steps →
      ∀ name, (s.after steps).scope.locals.get? name = s.scope.locals.get? name) := by
  refine ⟨fun i hi => getElem?_run s hi, ?_, written_after s steps, ?_⟩
  · intro before name inner hinner opened inside closed
    have hinside : inside = (opened.step (.enter name)).after inner := List.foldl_append
    have hclosed : closed = inside.step .exit := List.foldl_append
    -- a nested run leaves the shadow on top that was opened before it
    have hshadows : inside.shadows = (name, opened.scope.locals.get? name) :: opened.shadows := by
      rw [hinside, shadows_after_nested hinner]
      rfl
    rw [hclosed, step_exit inside name _ _ hshadows]
    refine ⟨?_, fun other hne => ?_, rfl, rfl⟩
    · exact (Assoc.get?_restore ..).trans (if_pos rfl)
    · exact (Assoc.get?_restore ..).trans (if_neg hne)
  · intro hnested hguarded
    obtain ⟨own, hunwinds, hown⟩ := unwinds_after (Unwinds.refl s) hguarded hnested
    obtain rfl := List.map_eq_nil_iff.mp hown
    exact hunwinds.locals

/-- Two shadows of one name, which is bound to null in between. The outer one gives the name back,
the inner one takes it away again. -/
theorem shadows_restore_null :
    let x : Text := ['x']
    let inner : List Step :=
      [.unbind x, .enter x, .bind x .null, .write ['a'], .exit, .write ['b'], .bind x (.integer 2)]
    let s : Session := Session.empty.step (.bind x (.integer 1))
    let steps : List Step := .enter x :: inner ++ [.exit]
    (Nested inner ∧ Nested steps ∧ Guarded [] steps) ∧
      (s.after (steps.take 4)).scope.locals.get? x = some .null ∧
      (s.after (steps.take 6)).scope.locals.get? x = none ∧
      (s.after steps).scope.locals.get? x = some (.integer 1) ∧
      (s.after steps).scope.written.reverse = [['a'], ['b']] := by
  intro x inner s steps
  have hinner : Nested inner := by decide
  have hguarded : Guarded [] steps := by simp [steps, inner, Guarded]
  obtain ⟨-, hrestores, hwritten, hkept⟩ := s.shadows_restore steps
  obtain ⟨hname, -⟩ := hrestores [.enter x, .unbind x] x [.bind x .null, .write ['a']] (by decide)
  refine ⟨⟨hinner, by decide, hguarded⟩, rfl, hname, ?_, hwritten⟩
  exact hkept (by decide) hguarded x

end Session

end Stencil
