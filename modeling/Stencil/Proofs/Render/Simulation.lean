import Stencil.Proofs.Expr.Simulation
import Stencil.Proofs.Render.Scoping
import Stencil.Template

/-!
# Two renderings

Blocks come to the same text, or to the same failure, on two pages that relate what the free names
of the blocks stand for. A name is free where no loop around it binds it.
-/

namespace Stencil

/-! ## Free names -/

namespace Block

mutual

/-- The names in a block that stand for values and that no loop in the block binds. -/
def freeNames : Block → List Text
  | text .. | other .. => []
  | output _ e => e.names
  | loop _ binder iterator body =>
    iterator.names ++ (allFreeNames body).filter (· ≠ binder.name)
  | choice _ arms => armFreeNames arms

def allFreeNames : List Block → List Text
  | [] => []
  | b :: bs => b.freeNames ++ allFreeNames bs

def armFreeNames : List Arm → List Text
  | [] => []
  | .mk _ test body :: arms =>
    (test.map Expr.names).getD [] ++ (allFreeNames body ++ armFreeNames arms)

end

end Block

/-! ## Outcomes in pairs -/

def Progress.Paired (ι : Identity → Identity) (p p' : Progress) : Prop :=
  ∀ i, p.taken i = p'.taken (ι i)

theorem Progress.taken_set (p : Progress) (i j : Identity) (n : Nat) :
    Progress.taken (p.set i n) j = if j = i then n else p.taken j := by
  simp only [taken, Assoc.get?_set]
  split <;> rfl

theorem Progress.Paired.set {ι : Identity → Identity} (hι : Function.Injective ι) {p p' : Progress}
    (h : Progress.Paired ι p p') (i : Identity) (n : Nat) :
    Progress.Paired ι (p.set i n) (p'.set (ι i) n) := by
  intro j
  simp only [Progress.taken_set, h j, hι.eq_iff]

structure Outcome.Paired (ι : Identity → Identity) (a a' : Outcome) : Prop where
  result : a.result = a'.result
  chunks : a.chunks = a'.chunks
  progress : Progress.Paired ι a.progress a'.progress

def Meaning.Paired (ι : Identity → Identity) (m m' : Meaning) : Prop :=
  ∀ p p', Progress.Paired ι p p' → Outcome.Paired ι (m p) (m' p')

namespace Meaning

section
variable {ι : Identity → Identity}

theorem paired_done : Paired ι done done := fun _ _ hp => ⟨rfl, rfl, hp⟩

theorem paired_fail (f : RenderFault) : Paired ι (fail f) (fail f) := fun _ _ hp => ⟨rfl, rfl, hp⟩

theorem paired_write (t : Text) : Paired ι (write t) (write t) := fun _ _ hp => ⟨rfl, rfl, hp⟩

theorem Paired.andThen {m m' n n' : Meaning} (hm : Paired ι m m') (hn : Paired ι n n') :
    Paired ι (m.andThen n) (m'.andThen n') := by
  intro p p' hp
  obtain ⟨hresult, hchunks, hprogress⟩ := hm p p' hp
  cases hr : (m p).result with
  | error f =>
    rw [andThen_error hr, andThen_error (hresult ▸ hr)]
    exact ⟨hresult, hchunks, hprogress⟩
  | ok u =>
    rw [andThen_ok hr, andThen_ok (hresult ▸ hr)]
    have hnext := hn _ _ hprogress
    exact ⟨hnext.result, by rw [hchunks, hnext.chunks], hnext.progress⟩

theorem paired_given {R : Host → Host → Prop} {v v' : Except RenderFault Value}
    {next next' : Value → Meaning} (hv : Stencil.Paired (Value.Paired R) v v')
    (h : ∀ w w', w.Paired R w' → Paired ι (next w) (next' w')) :
    Paired ι (given v next) (given v' next') := by
  cases hv with
  | ok hv => exact h _ _ hv
  | error f => exact paired_fail f

end

/-! ## Loops -/

section
variable {R : Host → Host → Prop} {ι : Identity → Identity} (hι : Function.Injective ι)
variable {body body' : Host → Meaning} (h : ∀ item item', R item item' →
  Paired ι (body item) (body' item'))
include h

theorem paired_forAll {items items' : List Host} (hitems : List.Forall₂ R items items') :
    Paired ι (forAll body items) (forAll body' items') := by
  induction hitems with
  | nil => exact paired_done
  | cons hitem _ ih => exact (h _ _ hitem).andThen ih

include hι

theorem paired_forRest (i : Identity) {items items' : List Host}
    (hitems : List.Forall₂ R items items') (rounds : Nat) :
    Paired ι (forRest body i items rounds) (forRest body' (ι i) items' rounds) := by
  induction rounds with
  | zero => exact paired_done
  | succ rounds ih =>
    intro p p' hp
    have hitem : Option.Rel R items[p.taken i]? items'[p'.taken (ι i)]? := by
      rw [hp i]
      exact related_getElem? hitems _
    unfold forRest
    simp only
    generalize items[p.taken i]? = o at hitem
    generalize items'[p'.taken (ι i)]? = o' at hitem
    cases hitem with
    | none => exact paired_done p p' hp
    | some hitem =>
      rw [hp i]
      exact (h _ _ hitem).andThen ih _ _ (hp.set hι i _)

theorem paired_forEach {items items' : Host.Iteration}
    (hitems : Host.Iteration.Paired R ι items items') :
    Paired ι (forEach body items) (forEach body' items') := by
  cases hitems with
  | always hitems => exact paired_forAll h hitems
  | once hitems =>
    simp only [forEach, hitems.length_eq]
    exact paired_forRest hι h _ hitems _

end

end Meaning

/-! ## Blocks -/

section
variable {R : Host → Host → Prop} {ι : Identity → Identity} {page page' : Page}

section
variable (hR : Host.Simulation R ι)
include hR

theorem paired_iteration {v v' : Value} (hv : v.Paired R v') :
    Option.Rel (Host.Iteration.Paired R ι) v.iteration? v'.iteration? := by
  unfold Value.iteration?
  rw [show v.kind = v'.kind from congrArg Forms.kind hv.forms]
  split
  · exact hR.iteration hv.object
  · exact .none

/-- In the body of a loop the variable stands for the item, and other names for what they stand for
around the loop. -/
theorem paired_within_set {names : List Text} {env env' : Bindings} {name : Text}
    {item item' : Host} (hitem : R item item')
    (h : Env.Paired R (names.filter (· ≠ name)) (page.within env) (page'.within env')) :
    Env.Paired R names (page.within (env.set name item)) (page'.within (env'.set name item')) := by
  refine ⟨h.rendering, fun n hn => ?_⟩
  intro calls
  rw [resolve_within_set, resolve_within_set]
  by_cases hname : n = name
  · rw [if_pos hname, if_pos hname]
    exact hR.ofHost calls hitem
  · rw [if_neg hname, if_neg hname]
    exact h.resolve n (List.mem_filter.mpr ⟨hn, by simpa using hname⟩) calls

end

open Meaning in
mutual

theorem paired_block (hR : Host.Simulation R ι) (calls : Nat) : ∀ (b : Block) {env env' : Bindings},
    Env.Paired R b.freeNames (page.within env) (page'.within env') →
    Meaning.Paired ι (Lexical.block page calls b env) (Lexical.block page' calls b env')
  | .text _ content, _, _, _ => paired_write content
  | .output _ e, _, _, h => by
    refine paired_given (Expr.paired_value hR _ h) fun v v' hv => ?_
    rw [show v.text = v'.text from congrArg Forms.text hv.forms]
    exact paired_write _
  | .loop _ binder iterator body, _, _, h => by
    have hiterator := Expr.paired_value hR (calls - 1) (h.mono (List.subset_append_left _ _))
    refine paired_given hiterator fun v v' hv => ?_
    have hitems := paired_iteration hR hv
    generalize v.iteration? = o at hitems
    generalize v'.iteration? = o' at hitems
    cases hitems with
    | none => exact paired_done
    | some hitems =>
      refine paired_forEach hR.injective (fun item item' hitem => ?_) hitems
      apply paired_blocks hR _ body
      exact paired_within_set hR hitem (h.mono (List.subset_append_right _ _))
  | .choice _ arms, _, _, h => paired_firstArm hR _ arms h
  | .other _ sort, _, _, _ => paired_fail _

theorem paired_blocks (hR : Host.Simulation R ι) (calls : Nat) :
    ∀ (bs : List Block) {env env' : Bindings},
    Env.Paired R (Block.allFreeNames bs) (page.within env) (page'.within env') →
    Meaning.Paired ι (Lexical.blocks page calls bs env) (Lexical.blocks page' calls bs env')
  | [], _, _, _ => paired_done
  | b :: bs, _, _, h =>
    (paired_block hR calls b (h.mono (List.subset_append_left _ _))).andThen
      (paired_blocks hR calls bs (h.mono (List.subset_append_right _ _)))

theorem paired_firstArm (hR : Host.Simulation R ι) (calls : Nat) :
    ∀ (arms : List Arm) {env env' : Bindings},
    Env.Paired R (Block.armFreeNames arms) (page.within env) (page'.within env') →
    Meaning.Paired ι (Lexical.firstArm page calls arms env)
      (Lexical.firstArm page' calls arms env')
  | [], _, _, _ => paired_done
  | .mk _ none body :: arms, _, _, h =>
    paired_blocks hR _ body (h.mono (List.subset_append_left _ _))
  | .mk _ (some test) body :: arms, _, _, h => by
    have hmore := h.mono (List.subset_append_right _ _)
    have htest := Expr.paired_value hR calls (h.mono (List.subset_append_left _ _))
    refine paired_given htest fun v v' hv => ?_
    rw [show v.boolean = v'.boolean from congrArg Forms.boolean hv.forms]
    split
    · exact paired_blocks hR _ body (hmore.mono (List.subset_append_left _ _))
    · exact paired_firstArm hR _ arms (hmore.mono (List.subset_append_right _ _))

end

/-! ## Templates -/

/-- The text of blocks is that of their meaning in no bindings. -/
theorem render_lexical (page : Page) (calls : Nat) (blocks : List Block) (p : Progress) :
    let meaning := Lexical.blocks page calls blocks .empty p
    render page calls blocks p =
      (meaning.result.map fun _ => meaning.chunks.flatten, meaning.progress) := by
  obtain ⟨hresult, hprogress, hwritten, -⟩ :=
    follows_blocks page calls blocks .empty ⟨.empty, p⟩ (Bindings.Same.refl _)
  simp only at hresult hprogress hwritten
  have hrun : renderBlocks page calls blocks ⟨.empty, p⟩ =
      ((Lexical.blocks page calls blocks .empty p).result,
        (renderBlocks page calls blocks ⟨.empty, p⟩).2) :=
    Prod.ext hresult rfl
  have houtput : (renderBlocks page calls blocks ⟨.empty, p⟩).2.scope.output =
      (Lexical.blocks page calls blocks .empty p).chunks.flatten := by
    rw [Scope.output, hwritten]
    simp [Scope.empty]
  unfold render
  rw [hrun]
  cases hr : (Lexical.blocks page calls blocks .empty p).result with
  | ok u => simp only [houtput, hprogress, hr]; rfl
  | error f => simp only [hprogress, hr]; rfl

theorem paired_render (hR : Host.Simulation R ι) (stack : Stack) (t : Template) {data data' : Host}
    (h : ∀ name ∈ Block.allFreeNames t.blocks,
      Option.Rel R (data.member? (.active t.name) name) (data'.member? (.active t.name) name))
    {p p' : Progress} (hp : Progress.Paired ι p p') :
    (t.render stack data [] p).1 = (t.render stack data' [] p').1 ∧
      Progress.Paired ι (t.render stack data [] p).2 (t.render stack data' [] p').2 := by
  have henv : Env.Paired R (Block.allFreeNames t.blocks)
      (Page.within ⟨data, .active t.name⟩ .empty) (Page.within ⟨data', .active t.name⟩ .empty) :=
    ⟨rfl, fun name hname calls => Expr.paired_ofHost? hR calls (h name hname)⟩
  obtain ⟨hresult, hchunks, hprogress⟩ := paired_blocks hR stack.calls t.blocks henv p p' hp
  have hrender (data : Host) (p : Progress) : t.render stack data [] p =
      ((render ⟨data, .active t.name⟩ stack.calls t.blocks p).1.mapError
          (Failure.ofRender t.source t.name),
        (render ⟨data, .active t.name⟩ stack.calls t.blocks p).2) := rfl
  rw [hrender, hrender, render_lexical, render_lexical]
  exact ⟨by simp only [hresult, hchunks], hprogress⟩

end

end Stencil
