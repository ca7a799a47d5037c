import Stencil.Proofs.Expr.Environment
import Stencil.Proofs.Render.Lexical

/-!
# Loop variables are lexical

Rendering changes one list of bindings and puts it back after each loop. It does the same as the
meaning of the blocks in an environment that never changes, and leaves the bindings as they were,
whether it fails or not.
-/

namespace Stencil

open Stencil.Action

/-! ## Actions that follow a meaning -/

/-- The action ends as the meaning does, with the pieces of text added to what was written, and
with bindings that are as they should be. -/
structure Follows (kept : Bindings → Prop) (a : Action) (m : Meaning) (s : RenderState) : Prop where
  result : (a s).1 = (m s.progress).result
  progress : (a s).2.progress = (m s.progress).progress
  written : (a s).2.scope.written = (m s.progress).chunks.reverse ++ s.scope.written
  locals : kept (a s).2.scope.locals

section
variable {P Q : Bindings → Prop} {a b : Action} {m n : Meaning} {s : RenderState}

theorem Follows.weaken (h : ∀ l, P l → Q l) (ha : Follows P a m s) : Follows Q a m s :=
  ⟨ha.result, ha.progress, ha.written, h _ ha.locals⟩

theorem follows_done (h : P s.scope.locals) : Follows P done .done s := ⟨rfl, rfl, rfl, h⟩

theorem follows_fail (f : RenderFault) (h : P s.scope.locals) : Follows P (fail f) (.fail f) s :=
  ⟨rfl, rfl, rfl, h⟩

theorem follows_write (t : Text) (h : P s.scope.locals) :
    Follows P (onScope (·.write t)) (.write t) s :=
  ⟨rfl, rfl, rfl, h⟩

theorem Follows.andThen (ha : Follows P a m s)
    (hb : ∀ s', P s'.scope.locals → Follows P b n s') :
    Follows P (a.andThen b) (m.andThen n) s := by
  obtain ⟨hr, hp, hw, hl⟩ := ha
  have hrun : a s = ((m s.progress).result, (a s).2) := Prod.ext hr rfl
  cases hm : (m s.progress).result with
  | error f =>
    have hstop : a.andThen b s = a s := by
      unfold Action.andThen
      rw [hrun, hm]
    refine ⟨?_, ?_, ?_, ?_⟩ <;> rw [hstop]
    · rw [Meaning.andThen_error hm]; exact hr
    · rw [Meaning.andThen_error hm]; exact hp
    · rw [Meaning.andThen_error hm]; exact hw
    · exact hl
  | ok u =>
    have hgo : a.andThen b s = b (a s).2 := by
      unfold Action.andThen
      rw [hrun, hm]
    obtain ⟨hr', hp', hw', hl'⟩ := hb _ hl
    rw [hp] at hr' hp' hw'
    refine ⟨?_, ?_, ?_, ?_⟩ <;> rw [hgo]
    · rw [Meaning.andThen_ok hm]; exact hr'
    · rw [Meaning.andThen_ok hm]; exact hp'
    · rw [Meaning.andThen_ok hm, hw', hw, List.reverse_append, List.append_assoc]
    · exact hl'

theorem follows_evaluating {page : Page} {calls : Nat} {env : Bindings} {e : Expr}
    {next : Value → Action} {next' : Value → Meaning} (hs : s.scope.locals.Same env)
    (hP : P s.scope.locals)
    (h : ∀ v, Follows P (next v) (next' v) s) :
    Follows P (evaluating page calls e next)
      (.given (e.value (page.within env) calls) next') s := by
  have hv : e.value (page.env s) calls = e.value (page.within env) calls :=
    Expr.value_congr hs calls e
  cases hval : e.value (page.within env) calls with
  | ok v =>
    have hact : evaluating page calls e next s = next v s := by simp only [evaluating, hv, hval]
    obtain ⟨hr, hp, hw, hl⟩ := h v
    exact ⟨hact ▸ hr, hact ▸ hp, hact ▸ hw, hact ▸ hl⟩
  | error f =>
    have hact : evaluating page calls e next s = (.error f, s) := by
      simp only [evaluating, hv, hval]
    obtain ⟨hr, hp, hw, hl⟩ := follows_fail (P := P) f hP
    exact ⟨hact ▸ hr, hact ▸ hp, hact ▸ hw, hact ▸ hl⟩

end

/-! ## Loops

Between the rounds of a loop the bindings are those of the environment around it, except for what
its own variable is bound to. -/

def Bindings.SameBut (name : Text) (env a : Bindings) : Prop :=
  ∀ n, n ≠ name → a.get? n = env.get? n

open Bindings (SameBut)

theorem same_set {name : Text} {item : Host} {env a : Bindings} (h : SameBut name env a) :
    Bindings.Same (a.set name item) (env.set name item) := by
  intro n
  simp only [Assoc.get?_set]
  split
  · rfl
  · rename_i hn; exact h n hn

theorem sameBut_of_set {name : Text} {item : Host} {env a : Bindings}
    (h : a.Same (env.set name item)) : SameBut name env a := by
  intro n hn
  rw [h n, Assoc.get?_set, if_neg hn]

theorem same_restore {name : Text} {env a : Bindings} (h : SameBut name env a) :
    Bindings.Same (a.restore name (env.get? name)) env := by
  intro n
  rw [Assoc.get?_restore]
  split
  · rename_i hn; rw [hn]
  · rename_i hn; exact h n hn

section
variable {name : Text} {env : Bindings} {body : Action} {m : Host → Meaning}
variable (hbody : ∀ item s, s.scope.locals.Same (env.set name item) →
  Follows (·.Same (env.set name item)) body (m item) s)
include hbody

theorem follows_withItem (item : Host) {s : RenderState} (hs : SameBut name env s.scope.locals) :
    Follows (SameBut name env) (withItem name body item) (m item) s := by
  have h := hbody item { s with scope := s.scope.bind name item } (same_set hs)
  obtain ⟨hr, hp, hw, hl⟩ := h.weaken fun _ => sameBut_of_set
  exact ⟨hr, hp, hw, hl⟩

theorem follows_forAll : ∀ (items : List Host) (s : RenderState),
    SameBut name env s.scope.locals →
    Follows (SameBut name env) (forAll name body items) (.forAll m items) s
  | [], _, hs => follows_done hs
  | item :: items, _, hs =>
    (follows_withItem hbody item hs).andThen fun s => follows_forAll items s

theorem follows_forRest (i : Identity) (items : List Host) : ∀ (rounds : Nat) (s : RenderState),
    SameBut name env s.scope.locals →
    Follows (SameBut name env) (forRest name body i items rounds) (.forRest m i items rounds) s
  | 0, _, hs => follows_done hs
  | rounds + 1, s, hs => by
    cases hitem : items[s.progress.taken i]? with
    | none =>
      refine ⟨?_, ?_, ?_, ?_⟩ <;> simp only [forRest, Meaning.forRest, hitem] <;>
        first | rfl | exact hs
    | some item =>
      have h := (follows_withItem hbody item
        (s := { s with progress := s.progress.set i (s.progress.taken i + 1) }) hs).andThen
        fun s => follows_forRest i items rounds s
      obtain ⟨hr, hp, hw, hl⟩ := h
      refine ⟨?_, ?_, ?_, ?_⟩ <;> simp only [forRest, Meaning.forRest, hitem]
      · exact hr
      · exact hp
      · exact hw
      · exact hl

theorem follows_forEach (items : Host.Iteration) (s : RenderState)
    (hs : SameBut name env s.scope.locals) :
    Follows (SameBut name env) (forEach name body items) (.forEach m items) s := by
  cases items with
  | always items => exact follows_forAll hbody items s hs
  | once i items => exact follows_forRest hbody i items items.length s hs

end

theorem follows_shadowing {name : Text} {env : Bindings} {loop : Action} {m : Meaning}
    {s : RenderState} (hs : s.scope.locals.Same env) (h : Follows (SameBut name env) loop m s) :
    Follows (·.Same env) (shadowing name loop) m s := by
  obtain ⟨hr, hp, hw, hl⟩ := h
  refine ⟨hr, hp, hw, ?_⟩
  show Bindings.Same ((loop s).2.scope.locals.restore name (s.scope.locals.get? name)) env
  rw [hs name]
  exact same_restore hl

/-! ## Blocks -/

mutual

theorem follows_block (page : Page) (calls : Nat) : ∀ (b : Block) (env : Bindings)
    (s : RenderState), s.scope.locals.Same env →
    Follows (·.Same env) (renderBlock page calls b) (Lexical.block page calls b env) s
  | .text _ content, _, _ => fun hs => follows_write content hs
  | .output _ e, _, _ => fun hs => follows_evaluating hs hs fun v => follows_write v.text hs
  | .loop _ binder iterator body, env, s => fun hs => by
    refine follows_evaluating hs hs fun v => ?_
    cases v.iteration? with
    | none => exact follows_done hs
    | some items =>
      refine follows_shadowing hs (follows_forEach (fun item s => ?_) items s fun n _ => hs n)
      exact follows_blocks page (calls - 2) body (env.set binder.name item) s
  | .choice _ arms, env, s => follows_firstArm page (calls - 1) arms env s
  | .other _ sort, _, _ => fun hs => follows_fail _ hs

theorem follows_blocks (page : Page) (calls : Nat) : ∀ (bs : List Block) (env : Bindings)
    (s : RenderState), s.scope.locals.Same env →
    Follows (·.Same env) (renderBlocks page calls bs) (Lexical.blocks page calls bs env) s
  | [], _, _ => fun hs => follows_done hs
  | b :: bs, env, s => fun hs =>
    (follows_block page calls b env s hs).andThen fun s => follows_blocks page calls bs env s

theorem follows_firstArm (page : Page) (calls : Nat) : ∀ (arms : List Arm) (env : Bindings)
    (s : RenderState), s.scope.locals.Same env →
    Follows (·.Same env) (renderArms page calls arms) (Lexical.firstArm page calls arms env) s
  | [], _, _ => fun hs => follows_done hs
  | .mk _ none body :: _, env, s => fun hs => follows_blocks page (calls - 1) body env s hs
  | .mk _ (some _) body :: arms, env, s => fun hs => by
    refine follows_evaluating hs hs fun v => ?_
    cases v.boolean with
    | true => exact follows_blocks page (calls - 1) body env s hs
    | false => exact follows_firstArm page calls arms env s hs

end

/-- **Loop variables are lexical.** Rendering ends as the meaning of the blocks does in an
environment that never changes, and whether it fails or not, every name is bound as before. -/
theorem renderBlocks_lexical (page : Page) (calls : Nat) (blocks : List Block) (s : RenderState) :
    let (result, after) := renderBlocks page calls blocks s
    let meaning := Lexical.blocks page calls blocks s.scope.locals s.progress
    result = meaning.result ∧ after.progress = meaning.progress ∧
      after.scope.written.reverse = s.scope.written.reverse ++ meaning.chunks ∧
      ∀ name, after.scope.locals.get? name = s.scope.locals.get? name := by
  obtain ⟨hr, hp, hw, hl⟩ := follows_blocks page calls blocks _ s (Bindings.Same.refl _)
  exact ⟨hr, hp, by rw [hw, List.reverse_append, List.reverse_reverse], hl⟩

end Stencil
