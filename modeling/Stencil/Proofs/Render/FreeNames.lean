import Stencil.Proofs.Clause.Tiling
import Stencil.Proofs.Render.Simulation

/-!
# Free names

Nothing of the data is read but what the free names of a template stand for.
-/

namespace Stencil

theorem related_eq {α : Type} (o : Option α) : Option.Rel Eq o o := by
  cases o with
  | none => exact .none
  | some a => exact .some rfl

/-- Equal hosts are not told apart. -/
theorem simulation_eq : Host.Simulation Eq id where
  injective := Function.injective_id
  text _ := rfl
  integer _ := rfl
  float _ := rfl
  boolean _ := rfl
  ofHost {h h'} calls heq := by
    subst heq
    cases Value.ofHost calls h with
    | ok v => exact .ok ⟨rfl, rfl⟩
    | error fault => exact .error fault
  identical ha hb := by rw [ha, hb]
  member _ _ h := h ▸ related_eq _
  item _ h hk := h ▸ hk ▸ related_eq _
  overlong _ h := h ▸ rfl
  iteration {h h'} heq := by
    subst heq
    cases h.iteration? with
    | none => exact .none
    | some items =>
      cases items with
      | always items => exact .some (.always (List.forall₂_refl items))
      | once i items => exact .some (.once (List.forall₂_refl items))
  replace {v v' o o' n n'} hv ho hn := by
    subst hv ho hn
    cases Filter.replaceIn v o n with
    | ok h => exact .ok rfl
    | error e => exact .error e

/-- **Only free names read the data.** Renderings on data in which each free name of the template
has the same member, or none, end alike, and with the iterators as far. -/
theorem Template.render_free_names (stack : Stack) (t : Template) {data data' : Host}
    (h : ∀ name ∈ Block.allFreeNames t.blocks,
      data.member? (.active t.name) name = data'.member? (.active t.name) name)
    (progress : Progress) :
    (t.render stack data [] progress).1 = (t.render stack data' [] progress).1 ∧
      ∀ i, (t.render stack data [] progress).2.taken i =
        (t.render stack data' [] progress).2.taken i :=
  paired_render simulation_eq stack t (fun name hname => h name hname ▸ related_eq _) fun _ => rfl

theorem Template.render_free_names_shadowed :
    let source := "\x7b% for x in y %\x7d\x7b\x7b x \x7d\x7d\x7b% endfor %\x7d".toList
    let t : Template := ⟨source, none, [.loop ⟨0, 35⟩ ⟨⟨7, 8⟩, ['x']⟩ (.symbol ⟨12, 13⟩ ['y'])
      [.output ⟨16, 23⟩ (.symbol ⟨19, 20⟩ ['x'])]]⟩
    let data (n : Int) : Host := .dict .fresh
      [(.text ['x'], .integer n), (.text ['y'], .list .fresh [.integer 5])]
    Template.ofText .least source none = .ok t ∧ Block.allFreeNames t.blocks = [['y']] ∧
      (∀ name ∈ Block.allFreeNames t.blocks,
        (data 1).member? (.active none) name = (data 2).member? (.active none) name) ∧
      (data 1).member? (.active none) ['x'] ≠ (data 2).member? (.active none) ['x'] ∧
      (t.render .least (data 1) [] .empty).1 = (t.render .least (data 2) [] .empty).1 := by
  intro source t data
  have hparse : parse .least source = .ok t.blocks := by
    subst source t
    with_unfolding_all rfl
  have htemplate : Template.ofText .least source none = .ok t := by rw [Template.ofText, hparse]
  have hnames : Block.allFreeNames t.blocks = [['y']] := by decide
  have hmembers : ∀ name ∈ Block.allFreeNames t.blocks,
      (data 1).member? (.active none) name = (data 2).member? (.active none) name := by
    rw [hnames]
    intro name hname
    rw [List.mem_singleton.mp hname]
    rfl
  have hx (n : Int) : (data n).member? (.active none) ['x'] = some (.integer n) := rfl
  refine ⟨htemplate, hnames, hmembers, ?_, (Template.render_free_names .least t hmembers .empty).1⟩
  rw [hx, hx]
  nofun

end Stencil
