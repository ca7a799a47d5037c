import Mathlib.Logic.Function.Basic
import Stencil.Proofs.Expr.Renaming
import Stencil.Proofs.Render.Simulation

/-!
# Other names for loop variables

What the variable of a loop is called shows nowhere. Its body may call it by any other name that it
has no use for itself.
-/

namespace Stencil

namespace Block

mutual

def binders : Block → List Text
  | text .. | output .. | other .. => []
  | loop _ binder _ body => binder.name :: allBinders body
  | choice _ arms => armBinders arms

def allBinders : List Block → List Text
  | [] => []
  | b :: bs => b.binders ++ allBinders bs

def armBinders : List Arm → List Text
  | [] => []
  | .mk _ _ body :: arms => allBinders body ++ armBinders arms

end

mutual

def rename (σ : Text → Text) : Block → Block
  | output s e => output s (e.rename σ)
  | loop s binder iterator body =>
    loop s binder (iterator.rename σ) (renameAll (Function.update σ binder.name binder.name) body)
  | choice s arms => choice s (renameArms σ arms)
  | b => b

def renameAll (σ : Text → Text) : List Block → List Block
  | [] => []
  | b :: bs => b.rename σ :: renameAll σ bs

def renameArms (σ : Text → Text) : List Arm → List Arm
  | [] => []
  | .mk s test body :: arms =>
    .mk s (test.map (Expr.rename σ)) (renameAll σ body) :: renameArms σ arms

end

end Block

/-! ## The meaning of a renamed block -/

/-- A loop that binds one of the names does not catch what another name is changed to. -/
def Spares (σ : Text → Text) (binders : List Text) : Prop :=
  ∀ name, σ name = name ∨ σ name ∉ binders

theorem Spares.mono {σ : Text → Text} {few many : List Text} (h : Spares σ many)
    (hsub : few ⊆ many) : Spares σ few :=
  fun name => (h name).imp_right fun hname hfew => hname (hsub hfew)

theorem Spares.update {σ : Text → Text} {binders : List Text} (h : Spares σ binders) (z : Text) :
    Spares (Function.update σ z z) binders := by
  intro name
  rw [Function.update_apply]
  split
  · rename_i hname; exact .inl hname.symm
  · exact h name

section
variable {page : Page}

theorem along_set {σ : Text → Text} {names : List Text} {binder : Text} {env env' : Bindings}
    (hσ : Spares σ [binder])
    (h : Env.Along σ (names.filter (· ≠ binder)) (page.within env) (page.within env'))
    (item : Host) :
    Env.Along (Function.update σ binder binder) names (page.within (env.set binder item))
      (page.within (env'.set binder item)) := by
  refine ⟨rfl, fun name hname calls => ?_⟩
  rw [resolve_within_set, resolve_within_set, Function.update_apply]
  by_cases heq : name = binder
  · rw [if_pos heq, if_pos rfl, if_pos heq]
  · have hother : σ name ≠ binder := by
      rcases hσ name with hsame | hfree
      · rw [hsame]; exact heq
      · exact List.ne_of_not_mem_cons hfree
    rw [if_neg heq, if_neg heq, if_neg hother]
    exact h.resolve name (List.mem_filter.mpr ⟨hname, by simpa using heq⟩) calls

end

mutual

theorem block_rename (page : Page) (calls : Nat) :
    ∀ (b : Block) {σ : Text → Text} {env env' : Bindings},
    Spares σ b.binders → Env.Along σ b.freeNames (page.within env) (page.within env') →
    Lexical.block page calls (b.rename σ) env' = Lexical.block page calls b env
  | .text .., _, _, _, _, _ => rfl
  | .output _ e, _, _, _, _, h => by
    simp only [Block.rename, Lexical.block, Expr.value_rename _ h]
  | .loop _ binder iterator body, σ, env, env', hσ, h => by
    have hiterator := Expr.value_rename (calls - 1) (h.mono (List.subset_append_left _ _))
    have hbody (item : Host) := blocks_rename page (calls - 2) body
      (Spares.update (hσ.mono (List.subset_cons_self _ _)) binder.name)
      (along_set (hσ.mono (by simp [Block.binders])) (h.mono (List.subset_append_right _ _)) item)
    simp only [Block.rename, Lexical.block, hiterator, hbody]
  | .choice _ arms, _, _, _, hσ, h => firstArm_rename page (calls - 1) arms hσ h
  | .other .., _, _, _, _, _ => rfl

theorem blocks_rename (page : Page) (calls : Nat) :
    ∀ (bs : List Block) {σ : Text → Text} {env env' : Bindings},
    Spares σ (Block.allBinders bs) →
    Env.Along σ (Block.allFreeNames bs) (page.within env) (page.within env') →
    Lexical.blocks page calls (Block.renameAll σ bs) env' = Lexical.blocks page calls bs env
  | [], _, _, _, _, _ => rfl
  | b :: bs, _, _, _, hσ, h => by
    have hb := block_rename page calls b (hσ.mono (List.subset_append_left _ _))
      (h.mono (List.subset_append_left _ _))
    have hbs := blocks_rename page calls bs (hσ.mono (List.subset_append_right _ _))
      (h.mono (List.subset_append_right _ _))
    simp only [Block.renameAll, Lexical.blocks, hb, hbs]

theorem firstArm_rename (page : Page) (calls : Nat) : ∀ (arms : List Arm) {σ : Text → Text}
    {env env' : Bindings}, Spares σ (Block.armBinders arms) →
    Env.Along σ (Block.armFreeNames arms) (page.within env) (page.within env') →
    Lexical.firstArm page calls (Block.renameArms σ arms) env' =
      Lexical.firstArm page calls arms env
  | [], _, _, _, _, _ => rfl
  | .mk _ none body :: _, _, _, _, hσ, h =>
    blocks_rename page (calls - 1) body (hσ.mono (List.subset_append_left _ _))
      (h.mono (List.subset_append_left _ _))
  | .mk _ (some test) body :: arms, _, _, _, hσ, h => by
    have hrest := h.mono (List.subset_append_right _ _)
    have htest := Expr.value_rename calls (h.mono (List.subset_append_left _ _))
    have hbody := blocks_rename page (calls - 1) body (hσ.mono (List.subset_append_left _ _))
      (hrest.mono (List.subset_append_left _ _))
    have harms := firstArm_rename page calls arms (hσ.mono (List.subset_append_right _ _))
      (hrest.mono (List.subset_append_right _ _))
    simp only [Block.renameArms, Lexical.firstArm, Option.map_some, htest, hbody, harms]

end

/-! ## One loop with another variable -/

mutual

/-- In the one block some loop calls its variable `x` what the other calls it `y`, and so does its
body wherever it means this variable. The name `y` is neither free nor bound in the body. -/
inductive Block.Renamed : Block → Block → Prop
  | loop {s span x y iterator body} : y ∉ Block.allFreeNames body → y ∉ Block.allBinders body →
      Renamed (.loop s ⟨span, x⟩ iterator body)
        (.loop s ⟨span, y⟩ iterator (Block.renameAll (Function.update id x y) body))
  | body {s binder iterator body body'} : Block.AllRenamed body body' →
      Renamed (.loop s binder iterator body) (.loop s binder iterator body')
  | choice {s arms arms'} : Block.ArmsRenamed arms arms' →
      Renamed (.choice s arms) (.choice s arms')

inductive Block.AllRenamed : List Block → List Block → Prop
  | head {b b' bs} : Block.Renamed b b' → AllRenamed (b :: bs) (b' :: bs)
  | tail {b bs bs'} : AllRenamed bs bs' → AllRenamed (b :: bs) (b :: bs')

inductive Block.ArmsRenamed : List Arm → List Arm → Prop
  | head {s test body body' arms} : Block.AllRenamed body body' →
      ArmsRenamed (.mk s test body :: arms) (.mk s test body' :: arms)
  | tail {arm arms arms'} : ArmsRenamed arms arms' → ArmsRenamed (arm :: arms) (arm :: arms')

end

theorem loop_renamed (page : Page) (calls : Nat) {x y : Text} {body : List Block}
    (hfree : y ∉ Block.allFreeNames body) (hbound : y ∉ Block.allBinders body) (env : Bindings)
    (item : Host) :
    Lexical.blocks page calls (Block.renameAll (Function.update id x y) body) (env.set y item) =
      Lexical.blocks page calls body (env.set x item) := by
  apply blocks_rename
  · intro name
    rw [Function.update_apply]
    split
    · exact .inr hbound
    · exact .inl rfl
  · refine ⟨rfl, fun name hname calls => ?_⟩
    have hy : name ≠ y := fun heq => hfree (heq ▸ hname)
    rw [resolve_within_set, resolve_within_set, Function.update_apply]
    by_cases hx : name = x
    · rw [if_pos hx, if_pos rfl, if_pos hx]
    · rw [if_neg hx, if_neg hx]
      exact if_neg hy

mutual

theorem block_renamed (page : Page) (calls : Nat) : ∀ {b b' : Block}, b.Renamed b' →
    Lexical.block page calls b' = Lexical.block page calls b
  | _, _, .loop hfree hbound => by
    funext env
    simp only [Lexical.block, loop_renamed page (calls - 2) hfree hbound]
  | _, _, .body h => by
    funext env
    simp only [Lexical.block, blocks_renamed page (calls - 2) h]
  | _, _, .choice h => by
    funext env
    simp only [Lexical.block, firstArm_renamed page (calls - 1) h]

theorem blocks_renamed (page : Page) (calls : Nat) :
    ∀ {bs bs' : List Block}, Block.AllRenamed bs bs' →
    Lexical.blocks page calls bs' = Lexical.blocks page calls bs
  | _, _, .head h => by
    funext env
    simp only [Lexical.blocks, block_renamed page calls h]
  | _, _, .tail h => by
    funext env
    simp only [Lexical.blocks, blocks_renamed page calls h]

theorem firstArm_renamed (page : Page) (calls : Nat) :
    ∀ {arms arms' : List Arm}, Block.ArmsRenamed arms arms' →
    Lexical.firstArm page calls arms' = Lexical.firstArm page calls arms
  | .mk _ test _ :: _, _, .head h => by
    funext env
    cases test <;> simp only [Lexical.firstArm, blocks_renamed page (calls - 1) h]
  | .mk _ test _ :: _, _, .tail h => by
    funext env
    cases test <;> simp only [Lexical.firstArm, firstArm_renamed page calls h]

end

/-- **Loop variables can be renamed.** Blocks in which one loop has another variable are rendered
alike: the same failure or text, the iterators as far, and every name bound to the same. -/
theorem renderBlocks_renamed {bs bs' : List Block} (h : Block.AllRenamed bs bs') :
    (∀ (page : Page) (calls : Nat) (s : RenderState),
      let (result, after) := renderBlocks page calls bs s
      let (result', after') := renderBlocks page calls bs' s
      result' = result ∧ after'.progress = after.progress ∧
        after'.scope.written = after.scope.written ∧
        ∀ name, after'.scope.locals.get? name = after.scope.locals.get? name) ∧
      ∀ stack source name data keywords progress,
        Template.render stack ⟨source, name, bs'⟩ data keywords progress =
          Template.render stack ⟨source, name, bs⟩ data keywords progress := by
  constructor
  · intro page calls s
    obtain ⟨hr, hp, hw, hl⟩ := follows_blocks page calls bs _ s (Bindings.Same.refl _)
    obtain ⟨hr', hp', hw', hl'⟩ := follows_blocks page calls bs' _ s (Bindings.Same.refl _)
    rw [blocks_renamed page calls h] at hr' hp' hw'
    exact ⟨hr'.trans hr.symm, hp'.trans hp.symm, hw'.trans hw.symm,
      fun name => (hl' name).trans (hl name).symm⟩
  · intro stack source name data keywords progress
    have hrender (page : Page) :
        render page stack.calls bs' progress = render page stack.calls bs progress := by
      rw [render_lexical, render_lexical, blocks_renamed page _ h]
    unfold Template.render
    cases Template.merge data keywords with
    | error failure => rfl
    | ok root => simp only [hrender]

/-- The loop inside keeps its own `x` and goes over what is now `y`, the name of the data that the
loop outside goes over. -/
theorem renderBlocks_renamed_nested :
    let sum : Expr := .binary ⟨42, 47⟩ (.arithmetic .add) (.symbol ⟨42, 43⟩ ['x'])
      (.symbol ⟨46, 47⟩ ['x'])
    let inside (v : Char) : Block := .loop ⟨23, 62⟩ ⟨⟨30, 31⟩, ['x']⟩ (.symbol ⟨35, 36⟩ [v])
      [.output ⟨39, 50⟩ sum]
    let outside (v : Char) : Block := .loop ⟨0, 74⟩ ⟨⟨7, 8⟩, [v]⟩ (.symbol ⟨12, 13⟩ ['y'])
      [.output ⟨16, 23⟩ (.symbol ⟨19, 20⟩ [v]), inside v]
    let last : Block := .output ⟨74, 81⟩ (.symbol ⟨77, 78⟩ ['y'])
    let source := "\x7b% for x in y %\x7d\x7b\x7b x \x7d\x7d\x7b% for x in x %\x7d".toList ++
      "\x7b\x7b x + x \x7d\x7d\x7b% endfor %\x7d\x7b% endfor %\x7d\x7b\x7b y \x7d\x7d".toList
    let data : Host := .dict .fresh [(.text ['x'], .integer 8),
      (.text ['y'], .list .fresh [.list .fresh [.integer 1, .integer 2]])]
    Block.AllRenamed [outside 'x', last] [outside 'y', last] ∧
      (Template.render .least ⟨source, none, [outside 'x', last]⟩ data [] .empty).1 =
        .ok "[1, 2]24[[1, 2]]".toList ∧
      Template.render .least ⟨source, none, [outside 'y', last]⟩ data [] .empty =
        Template.render .least ⟨source, none, [outside 'x', last]⟩ data [] .empty := by
  intro sum inside outside last source data
  have h : Block.AllRenamed [outside 'x', last] [outside 'y', last] :=
    .head (.loop (by decide) (by decide))
  exact ⟨h, by decide +kernel, (renderBlocks_renamed h).2 _ _ _ _ _ _⟩

end Stencil
