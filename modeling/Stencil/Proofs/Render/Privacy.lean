import Stencil.Proofs.Block.Reading
import Stencil.Proofs.Host.Twin
import Stencil.Proofs.Render.Simulation

/-!
# Private state

What is private to the objects in the data shows nowhere in a rendering.
-/

namespace Stencil

/-- **Templates do not see private state.** Renderings on data that are twins end alike, with the
same text or the same failure, and with the iterators as far. -/
theorem Template.render_private (stack : Stack) (t : Template) {ρ : Nat → Nat}
    (hρ : Function.Injective ρ)
    {data data' : Host} (h : Host.Twin ρ data data') {p p' : Progress}
    (hp : Progress.Paired (Identity.map ρ) p p') :
    (t.render stack data [] p).1 = (t.render stack data' [] p').1 ∧
      Progress.Paired (Identity.map ρ) (t.render stack data [] p).2
        (t.render stack data' [] p').2 :=
  paired_render (Host.simulation_twin hρ) stack t (fun name _ => h.member hρ _ name) hp

theorem Template.render_private_attribute :
    let source := "\x7b\x7b u._s \x7d\x7d".toList
    let t : Template := ⟨source, none,
      [.output ⟨0, 10⟩ (.binary ⟨3, 7⟩ .member (.symbol ⟨3, 4⟩ ['u']) (.symbol ⟨5, 7⟩ ['_', 's']))]⟩
    let user (number : Nat) (secret : Host) (methods : List Text) : Host :=
      .dict .fresh [(.text ['u'],
        .object (.known number) ⟨.plain, ['U'], [(['_', 's'], secret)], methods, [], []⟩)]
    let data := user 0 (.integer 7) []
    let data' := user 1 .null [['m']]
    Template.ofText .least source none = .ok t ∧ Function.Injective Nat.succ ∧
      Host.Twin Nat.succ data data' ∧
      Progress.Paired (Identity.map Nat.succ) .empty .empty ∧
      (t.render .least data [] .empty).1 = (t.render .least data' [] .empty).1 ∧
      Progress.Paired (Identity.map Nat.succ) (t.render .least data [] .empty).2
        (t.render .least data' [] .empty).2 := by
  intro source t user data data'
  have hparse : parse .least source = .ok t.blocks := by
    subst source t
    with_unfolding_all rfl
  have htemplate : Template.ofText .least source none = .ok t := by rw [Template.ofText, hparse]
  have hpublic (name : Text) (secret : Host) (hname : Host.isPublic name = true) :
      List.lookup name [(['_', 's'], secret)] = none := by
    have hne : (name == ['_', 's']) = false := by
      rw [beq_eq_false_iff_ne]
      rintro rfl
      cases hname
    rw [List.lookup_cons, hne]
    rfl
  have htwin : Host.Twin Nat.succ data data' := by
    refine .dict .fresh (.cons (.text _) (.object (.known 0) ?_ .plain ?_) .nil)
    · refine ⟨rfl, fun name hname => ?_, fun _ _ => rfl, fun _ _ => rfl, fun name hname h => ?_⟩
      · simp only [hpublic name _ hname]
      · simp only [hpublic name _ hname] at h
        obtain rfl := h.resolve_left Bool.false_ne_true
        rfl
    · intro name x y hname hx _
      rw [hpublic name _ hname] at hx
      cases hx
  have hprogress : Progress.Paired (Identity.map Nat.succ) .empty .empty := fun _ => rfl
  exact ⟨htemplate, Nat.succ_injective, htwin, hprogress,
    Template.render_private .least t Nat.succ_injective htwin hprogress⟩

end Stencil
