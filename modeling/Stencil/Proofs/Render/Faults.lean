import Stencil.Proofs.Block.Tiling
import Stencil.Proofs.Expr.Data
import Stencil.Proofs.Render.Simulation

/-!
# Where rendering fails

A template that was parsed is rendered to text, or to an error at the start of a node of one of its
expressions, between the delimiters of the clause that the expression stands in.
-/

namespace Stencil

/-! ## The expressions of blocks -/

namespace Block

mutual

def expressions : Block → List Expr
  | text .. | other .. => []
  | output _ e => [e]
  | loop _ _ iterator body => iterator :: allExpressions body
  | choice _ arms => armExpressions arms

def allExpressions : List Block → List Expr
  | [] => []
  | b :: bs => b.expressions ++ allExpressions bs

def armExpressions : List Arm → List Expr
  | [] => []
  | .mk _ test body :: arms => test.toList ++ (allExpressions body ++ armExpressions arms)

end

section
variable {source : Text}

mutual

theorem Nests.expressions_eq : ∀ {n cs bs}, Nests source n cs bs →
    allExpressions bs = (cs.filterMap Clause.expression?).map Prod.snd
  | _, _, _, .nil => rfl
  | _, _, _, .text h => h.expressions_eq
  | _, _, _, .output h => congrArg (_ :: ·) h.expressions_eq
  | _, _, _, .choice h ha hs => by
    simp [allExpressions, expressions, armExpressions, h.expressions_eq, ha.expressions_eq,
      hs.expressions_eq, Clause.expression?, List.filterMap_cons]
  | _, _, _, .loop h hs => by
    simp [allExpressions, expressions, h.expressions_eq, hs.expressions_eq, Clause.expression?,
      List.filterMap_cons]

theorem NestsArms.expressions_eq : ∀ {n cs arms}, NestsArms source n cs arms →
    armExpressions arms = (cs.filterMap Clause.expression?).map Prod.snd
  | _, _, _, .nil => rfl
  | _, _, _, .otherwise h => by
    simp [armExpressions, h.expressions_eq, Clause.expression?, List.filterMap_cons]
  | _, _, _, .elifTest h ha => by
    simp [armExpressions, h.expressions_eq, ha.expressions_eq, Clause.expression?]

end

theorem FirstFormed.arms {span : Span} {arms : List Arm} {n : Nat}
    (h : FirstFormed source span arms n) : ArmsFormed source arms n := by
  cases arms with
  | nil => exact h.elim
  | cons a arms =>
    obtain ⟨s, test, body⟩ := a
    cases test with
    | none => exact h.elim
    | some t => exact h.2

end

end Block

/-! ## Meanings that fail in certain ways only -/

namespace Meaning

/-- However far the iterators have got, the meaning fails, if at all, in a way that `P` allows. -/
def FailsOnly (P : RenderFault → Prop) (m : Meaning) : Prop := ∀ p f, (m p).result = .error f → P f

section
variable {P : RenderFault → Prop}

theorem failsOnly_done : FailsOnly P done := nofun

theorem failsOnly_write (t : Text) : FailsOnly P (write t) := nofun

theorem FailsOnly.andThen {a b : Meaning} (ha : FailsOnly P a) (hb : FailsOnly P b) :
    FailsOnly P (a.andThen b) := by
  intro p f h
  cases hr : (a p).result with
  | ok u =>
    rw [andThen_ok hr] at h
    exact hb _ f h
  | error g =>
    rw [andThen_error hr] at h
    exact ha p f h

theorem failsOnly_given {v : Except RenderFault Value} {next : Value → Meaning}
    (hv : ∀ f, v = .error f → P f) (hnext : ∀ w, v = .ok w → FailsOnly P (next w)) :
    FailsOnly P (given v next) := by
  cases v with
  | ok w => exact hnext w rfl
  | error g =>
    intro p f h
    obtain rfl := Except.error.inj h
    exact hv g rfl

section
variable {body : Host → Meaning} {items : List Host}
  (hbody : ∀ item ∈ items, FailsOnly P (body item))
include hbody

theorem failsOnly_forAll : FailsOnly P (forAll body items) := by
  induction items with
  | nil => exact failsOnly_done
  | cons item items ih =>
    obtain ⟨hitem, hitems⟩ := List.forall_mem_cons.mp hbody
    exact hitem.andThen (ih hitems)

theorem failsOnly_forRest (i : Identity) (rounds : Nat) :
    FailsOnly P (forRest body i items rounds) := by
  induction rounds with
  | zero => exact failsOnly_done
  | succ rounds ih =>
    intro p f h
    unfold forRest at h
    simp only at h
    split at h
    · cases h
    · rename_i item hitem
      exact ((hbody item (List.mem_of_getElem? hitem)).andThen ih) _ f h

end

theorem failsOnly_forEach {body : Host → Meaning} {items : Host.Iteration}
    (hbody : ∀ item ∈ items.items, FailsOnly P (body item)) :
    FailsOnly P (forEach body items) := by
  cases items with
  | always items => exact failsOnly_forAll hbody
  | once i items => exact failsOnly_forRest hbody i items.length

end

end Meaning

/-! ## Blocks -/

def Expr.FailsOnly (K : Host → Prop) (least : Nat) (P : RenderFault → Prop) (e : Expr) : Prop :=
  ∀ env : Env, env.Each K → ∀ calls, least ≤ calls → ∀ f, e.value env calls = .error f → P f

section
variable {source : Text} {P : RenderFault → Prop} {K : Host → Prop} {page : Page} {least : Nat}

open Meaning in
mutual

/-- A property that passes from values to what is inside holds of all that the names stand for. To
render a body takes no more calls than to build it. -/
theorem failsOnly_block (hK : Host.Closed K) {calls : Nat} : ∀ {b : Block} {n : Nat},
    b.Formed source n → least ≤ calls - (n + 1) →
    (∀ e ∈ b.expressions, e.FailsOnly K least P) →
    ∀ {env : Bindings}, (page.within env).Each K → FailsOnly P (Lexical.block page calls b env)
  | .text _ content, _, _, _, _, _, _ => failsOnly_write content
  | .output _ e, _, _, hleast, he, _, henv =>
    failsOnly_given (he e List.mem_cons_self _ henv _ (by omega)) fun v _ => failsOnly_write v.text
  | .loop _ binder iterator body, n, ⟨hn, hb⟩, hleast, he, _, henv => by
    refine failsOnly_given (he iterator List.mem_cons_self _ henv _ (by omega)) fun v hv => ?_
    cases hitems : v.iteration? with
    | none => exact failsOnly_done
    | some items =>
      refine failsOnly_forEach fun item hitem => ?_
      have hkept := hK.iteration (Expr.closed_value hK henv hv) (iteration_object hitems) item hitem
      exact failsOnly_blocks hK hb (by omega) (fun e h => he e (List.mem_cons_of_mem _ h))
        (henv.set hkept binder.name)
  | .choice _ arms, n, ⟨hn, hb⟩, hleast, he, _, henv =>
    failsOnly_arms hK hb.arms (by omega) he henv

theorem failsOnly_blocks (hK : Host.Closed K) {calls : Nat} : ∀ {bs : List Block} {n : Nat},
    Block.AllFormed source bs n → least ≤ calls - (n + 1) →
    (∀ e ∈ Block.allExpressions bs, e.FailsOnly K least P) →
    ∀ {env : Bindings}, (page.within env).Each K → FailsOnly P (Lexical.blocks page calls bs env)
  | [], _, _, _, _, _, _ => failsOnly_done
  | _ :: _, _, ⟨hb, hbs⟩, hleast, he, _, henv =>
    (failsOnly_block hK hb hleast (fun e h => he e (List.mem_append_left _ h)) henv).andThen
      (failsOnly_blocks hK hbs hleast (fun e h => he e (List.mem_append_right _ h)) henv)

theorem failsOnly_arms (hK : Host.Closed K) {calls : Nat} : ∀ {arms : List Arm} {n : Nat},
    Block.ArmsFormed source arms n → least ≤ calls - (n + 2) →
    (∀ e ∈ Block.armExpressions arms, e.FailsOnly K least P) →
    ∀ {env : Bindings}, (page.within env).Each K →
      FailsOnly P (Lexical.firstArm page calls arms env)
  | [], _, _, _, _, _, _ => failsOnly_done
  | .mk _ none _ :: _, _, ⟨_, hbody, _⟩, hleast, he, _, henv =>
    failsOnly_blocks hK hbody (by omega)
      (fun e h => he e (List.mem_append_right _ (List.mem_append_left _ h))) henv
  | .mk _ (some test) body :: arms, _, ⟨_, hbody, harms⟩, hleast, he, _, henv => by
    refine failsOnly_given (he test List.mem_cons_self _ henv _ (by omega)) fun v _ => ?_
    split
    · exact failsOnly_blocks hK hbody (by omega)
        (fun e h => he e (List.mem_append_right _ (List.mem_append_left _ h))) henv
    · exact failsOnly_arms hK harms hleast
        (fun e h => he e (List.mem_append_right _ (List.mem_append_right _ h))) henv

end

end

/-! ## Templates -/

/-- An error of rendering is where a node begins that is to blame for it, or where a whole
expression begins that nests too deep, between the delimiters of the clause of that expression. -/
structure Anchored (stack : Stack) (source : Text) (blocks : List Block) (e : Expr)
    (kind : RenderKind) (offset : Nat) : Prop where
  expression : e ∈ Block.allExpressions blocks
  node : ∃ n ∈ e.nodes, offset = n.start
  blamed : e.Blames kind offset ∨ kind = .evaluationTooDeep ∧ offset = e.start
  inside : ∃ clauses, Clause.scan stack source = .ok clauses ∧ ∃ c ∈ clauses,
    (∃ l, c.expression? = some (l, e)) ∧ c.start + 2 ≤ offset ∧ offset + 2 < c.stop
  bound : offset < source.length

theorem exists_clause {stack : Stack} {source : Text} {calls : Nat} {clauses : List Clause}
    {blocks : List Block} {e : Expr} (hscan : Clause.scan stack source = .ok clauses)
    (hbuild : Block.build source calls clauses = .ok blocks)
    (he : e ∈ Block.allExpressions blocks) :
    ∃ c ∈ clauses, (∃ l, c.expression? = some (l, e)) ∧ e.WellLevelled ∧ c.stop ≤ source.length ∧
      ∀ n ∈ e.nodes, c.start + 2 ≤ n.start ∧ n.start + 2 < c.stop := by
  obtain ⟨_, -, hn⟩ := Block.build_eq_ok_iff.mp hbuild
  rw [hn.expressions_eq] at he
  obtain ⟨⟨l, e⟩, hpair, rfl⟩ := List.mem_map.mp he
  obtain ⟨c, hc, hexpr⟩ := List.mem_filterMap.mp hpair
  obtain ⟨o, hlt, hread⟩ := Clause.read_of_mem_scan hscan hc
  obtain ⟨hstart, -, hstop⟩ := Clause.bounds_of_read hlt hread
  obtain ⟨hw, hinside⟩ := Clause.inside_of_read hlt hread hexpr
  exact ⟨c, hc, ⟨l, hexpr⟩, hw, hstop, hstart ▸ hinside⟩

theorem value_anchored {stack : Stack} {source : Text} {blocks : List Block}
    (h : parse stack source = .ok blocks) {e : Expr} (he : e ∈ Block.allExpressions blocks)
    {env : Env} {calls : Nat} {f : RenderFault} (hf : e.value env calls = .error f) :
    (∃ kind offset, f.place? = some (kind, offset) ∧ Anchored stack source blocks e kind offset) ∨
      f = .overlong ∨ f = .numeralTooLong ∨ calls = 0 ∧ f = .exhausted := by
  unfold parse at h
  split at h
  · cases h
    cases he
  obtain ⟨clauses, hscan, hbuild⟩ := bind_eq_ok.mp h
  obtain ⟨c, hc, hexpr, hw, hstop, hinside⟩ := exists_clause hscan hbuild he
  have hplaced {kind : RenderKind} {offset : Nat} (hn : ∃ n ∈ e.nodes, offset = n.start)
      (hb : e.Blames kind offset ∨ kind = .evaluationTooDeep ∧ offset = e.start) :
      Anchored stack source blocks e kind offset := by
    obtain ⟨n, hmem, hoffset⟩ := hn
    obtain ⟨hafter, hbefore⟩ := hinside n hmem
    rw [← hoffset] at hafter hbefore
    exact ⟨he, ⟨n, hmem, hoffset⟩, hb, ⟨clauses, hscan, c, hc, hexpr, hafter, hbefore⟩, by omega⟩
  rcases Expr.value_fails hw hf with (⟨kind, offset, hplace, hb⟩ | hdata) | rfl | hzero
  · exact .inl ⟨kind, offset, hplace, hplaced hb.exists_start (.inl hb)⟩
  · exact .inr (hdata.imp_right .inl)
  · exact .inl ⟨_, _, rfl, hplaced ⟨e, e.self_mem_nodes, rfl⟩ (.inr ⟨rfl, rfl⟩)⟩
  · exact .inr (.inr (.inr hzero))

theorem ofRender_eq (source : Text) (name : Option Text) {f : RenderFault} {kind : RenderKind}
    {offset : Nat} (h : f.place? = some (kind, offset)) :
    ∃ cause, Failure.ofRender source name f =
      .diagnostic ⟨.render kind, offset, source, name, cause⟩ := by
  cases f with
  | located k o => cases h; exact ⟨none, rfl⟩
  | filterFailed o cause => cases h; exact ⟨some cause.cause, rfl⟩
  | malformed | overlong | numeralTooLong | exhausted => cases h

/-- The calls that are left for a value where the template around it was parsed by one stack and is
rendered by another one. -/
def leftOver (stack later : Stack) : Nat := later.calls + 1 - stack.calls

theorem failsOnly_parsed {stack : Stack} {source : Text} {blocks : List Block}
    (h : parse stack source = .ok blocks) (later : Stack) (page : Page) {P : RenderFault → Prop}
    (he : ∀ e ∈ Block.allExpressions blocks,
      e.FailsOnly page.data.Passes (leftOver stack later) P) :
    Meaning.FailsOnly P (Lexical.blocks page later.calls blocks .empty) := by
  unfold parse at h
  split at h
  · cases h
    exact Meaning.failsOnly_done
  · obtain ⟨clauses, -, hbuild⟩ := bind_eq_ok.mp h
    obtain ⟨n, hcalls, hn⟩ := Block.build_eq_ok_iff.mp hbuild
    have hleast : leftOver stack later ≤ later.calls - (n + 1) := by
      unfold leftOver
      omega
    exact failsOnly_blocks page.data.closed_passes hn.formed hleast he
      ⟨page.data.passes_self, fun _ _ hbound => by cases hbound⟩

/-- Rendering fails because the keywords cannot be merged, or with a failure of the blocks. -/
theorem Template.exists_fault {stack : Stack} {t : Template} {data : Host}
    {keywords : List (Text × Host)} {progress : Progress} {failure : Failure}
    (h : (t.render stack data keywords progress).1 = .error failure) :
    merge data keywords = .error failure ∨
    ∃ root f, merge data keywords = .ok root ∧
      (Lexical.blocks ⟨root, .active t.name⟩ stack.calls t.blocks .empty progress).result =
        .error f ∧
      failure = .ofRender t.source t.name f := by
  unfold Template.render at h
  cases hmerge : merge data keywords with
  | error failure' =>
    rw [hmerge] at h
    obtain rfl := Except.error.inj h
    exact .inl rfl
  | ok root =>
    rw [hmerge] at h
    simp only [render_lexical] at h
    cases hresult :
        (Lexical.blocks ⟨root, .active t.name⟩ stack.calls t.blocks .empty progress).result with
    | ok u =>
      rw [hresult] at h
      cases h
    | error f =>
      rw [hresult] at h
      exact .inr ⟨root, f, rfl, hresult, (Except.error.inj h).symm⟩

theorem Template.exists_blocks {stack : Stack} {source : Text} {name : Option Text} {t : Template}
    (h : Template.ofText stack source name = .ok t) :
    ∃ blocks, parse stack source = .ok blocks ∧ t = ⟨source, name, blocks⟩ := by
  unfold Template.ofText at h
  split at h
  · rename_i blocks hparse
    exact ⟨blocks, hparse, (Except.ok.inj h).symm⟩
  · cases h

/-- A parsed template is rendered to text, or fails as one of its expressions does. -/
theorem Template.render_fails {stack : Stack} {source : Text} {name : Option Text} {t : Template}
    (h : Template.ofText stack source name = .ok t) {later : Stack} {data : Host}
    {P : RenderFault → Prop}
    (he : ∀ e ∈ Block.allExpressions t.blocks, e.FailsOnly data.Passes (leftOver stack later) P)
    (progress : Progress) :
    (∃ text, (t.render later data [] progress).1 = .ok text) ∨
    ∃ f, P f ∧ (t.render later data [] progress).1 = .error (.ofRender source name f) := by
  obtain ⟨blocks, hparse, rfl⟩ := exists_blocks h
  cases hrender : (Template.render later ⟨source, name, blocks⟩ data [] progress).1 with
  | ok text => exact .inl ⟨text, rfl⟩
  | error failure =>
    obtain hmerge | ⟨root, f, hroot, hresult, rfl⟩ := exists_fault hrender
    · cases hmerge
    obtain rfl : data = root := Except.ok.inj hroot
    exact .inr ⟨f, failsOnly_parsed hparse later ⟨data, .active name⟩ he progress f hresult, rfl⟩

/-- Failures without a place: a sequence or an integer in the data is too long, or there are fewer
calls to render the template by than it was parsed by. -/
inductive Placeless (stack later : Stack) (data : Host) : RenderFault → Prop
  | overlong : ¬data.Counted → Placeless stack later data .overlong
  | numeralTooLong : (∀ room, ¬data.Shown room) → Placeless stack later data .numeralTooLong
  | exhausted : later.calls < stack.calls → Placeless stack later data .exhausted

theorem placeless_of_value {stack later : Stack} {data : Host} {env : Env}
    (henv : env.Each data.Passes) {e : Expr} {calls : Nat} (hcalls : leftOver stack later ≤ calls)
    {f : RenderFault} (hf : e.value env calls = .error f)
    (h : f = .overlong ∨ f = .numeralTooLong ∨ calls = 0 ∧ f = .exhausted) :
    Placeless stack later data f := by
  rcases h with rfl | rfl | ⟨rfl, rfl⟩
  · refine .overlong fun hdata => Expr.counted_value (henv.imp fun _ hh => ?_) hf
    exact hh Host.closed_counted hdata
  · refine .numeralTooLong fun room hdata => ?_
    refine Expr.shown_value (henv.imp fun _ hh => hh (Host.closed_shown room) ?_) hf
    exact hdata.mono (Nat.le_add_right _ _)
  · refine .exhausted ?_
    unfold leftOver at hcalls
    omega

end Stencil
