import Mathlib.Logic.Function.Basic
import Stencil.Proofs.Host.Supply
import Stencil.Proofs.Render.Keywords
import Stencil.Proofs.Render.Trace

/-!
# Iterators deliver once

A machine that only knows how far each iterator has got allows every event of a trace, when it
starts where the iterators are. Each of its steps delivers the next item of one iterator, or none.
-/

namespace Stencil

namespace Event

/-! ## Positions of iterators -/

/-- What an event does to the positions of the iterators. A loop over an iterator binds the next
item of the supply, and it ends where no item is left; all other events leave the positions. -/
inductive Step (supply : Identity → List Host) (p : Identity → Nat) :
    Event → (Identity → Nat) → Prop
  | next {iterable i item} : iterable.iterator? = some i → (supply i)[p i]? = some item →
      Step supply p (.bound iterable item) (Function.update p i (p i + 1))
  | last {iterable i} : iterable.iterator? = some i → (supply i).length ≤ p i →
      Step supply p (.finished iterable) p
  | aside {e : Event} : e.iterable.iterator? = none → Step supply p e p

inductive Run (supply : Identity → List Host) :
    (Identity → Nat) → List Event → (Identity → Nat) → Prop
  | done (p) : Run supply p [] p
  | step {p e q es r} : Step supply p e q → Run supply q es r → Run supply p (e :: es) r

def item? (i : Identity) : Event → Option Host
  | bound iterable item => if iterable.iterator? = some i then some item else none
  | finished _ => none

/-- The items that loops over an iterator bind, in order. -/
def delivered (i : Identity) (events : List Event) : List Host := events.filterMap (·.item? i)

section
variable {supply : Identity → List Host} {p q r : Identity → Nat} {e : Event} {es fs : List Event}

theorem delivered_cons (i : Identity) :
    delivered i (e :: es) = (e.item? i).toList ++ delivered i es := by
  unfold delivered
  cases h : e.item? i <;> simp [h]

theorem Step.delivers (h : Step supply p e q) (i : Identity) :
    (supply i).drop (p i) = (e.item? i).toList ++ (supply i).drop (q i) ∧
      q i = p i + (e.item? i).toList.length := by
  cases h with
  | @next iterable j item hiterable hitem =>
    by_cases hij : j = i
    · subst hij
      obtain ⟨hlt, rfl⟩ := List.getElem?_eq_some_iff.mp hitem
      rw [item?, if_pos hiterable, Function.update_self, List.drop_eq_getElem_cons hlt]
      exact ⟨rfl, rfl⟩
    · have hother : iterable.iterator? ≠ some i := by
        rw [hiterable]
        exact fun h => hij (Option.some.inj h)
      rw [item?, if_neg hother, Function.update_of_ne (Ne.symm hij)]
      exact ⟨rfl, rfl⟩
  | last => exact ⟨rfl, rfl⟩
  | aside hiterable =>
    have hnone : e.item? i = none := by
      cases e with
      | bound iterable item =>
        have hiterable : iterable.iterator? = none := hiterable
        rw [item?, hiterable]
        rfl
      | finished iterable => rfl
    rw [hnone]
    exact ⟨rfl, rfl⟩

/-- What is left of an iterator is what a run delivers of it and what is left after the run. -/
theorem Run.delivers (h : Run supply p es q) (i : Identity) :
    (supply i).drop (p i) = delivered i es ++ (supply i).drop (q i) ∧
      q i = p i + (delivered i es).length := by
  induction h with
  | done => exact ⟨rfl, rfl⟩
  | step hstep _ ih =>
    obtain ⟨hdrop, hposition⟩ := hstep.delivers i
    rw [delivered_cons, hdrop, ih.1, ih.2, hposition, List.append_assoc, List.length_append,
      Nat.add_assoc]
    exact ⟨rfl, rfl⟩

theorem Run.mono (h : Run supply p es q) (i : Identity) : p i ≤ q i := by
  rw [(h.delivers i).2]
  exact Nat.le_add_right _ _

theorem Run.append (h : Run supply p es q) (h' : Run supply q fs r) :
    Run supply p (es ++ fs) r := by
  induction h with
  | done => exact h'
  | step hstep _ ih => exact .step hstep (ih h')

theorem Run.split (h : Run supply p (es ++ fs) r) :
    ∃ q, Run supply p es q ∧ Run supply q fs r := by
  induction es generalizing p with
  | nil => exact ⟨p, .done p, h⟩
  | cons e es ih =>
    cases h with
    | step hstep hrest =>
      obtain ⟨q, hes, hfs⟩ := ih hrest
      exact ⟨q, .step hstep hes, hfs⟩

/-- Where a loop over an iterator ends, all that was left of the iterator has been delivered. -/
theorem Run.finished {iterable : Host} {i : Identity}
    (h : Run supply p (es ++ .finished iterable :: fs) r)
    (hiterable : iterable.iterator? = some i) :
    delivered i es = (supply i).drop (p i) := by
  obtain ⟨q, hes, hrest⟩ := h.split
  rw [(hes.delivers i).1]
  cases hrest with
  | step hstep _ =>
    cases hstep with
    | @last iterable j hj hlength =>
      obtain rfl : j = i := Option.some.inj (hj.symm.trans hiterable)
      rw [List.drop_eq_nil_of_le hlength, List.append_nil]
    | aside hnone =>
      have hnone : iterable.iterator? = none := hnone
      rw [hnone] at hiterable
      cases hiterable

end

end Event

open Event

/-! ## Traces are runs -/

def Trace.RunsFrom (supply : Identity → List Host) (t : Trace) (p : Progress) : Prop :=
  Run supply p.taken (t p).events (t p).outcome.progress.taken

namespace Trace

section
variable {supply : Identity → List Host} {a b : Trace} {p : Progress}

theorem runs_silent {m : Meaning} (h : (m p).progress = p) : (silent m).RunsFrom supply p := by
  show Run supply p.taken [] (m p).progress.taken
  rw [h]
  exact .done _

theorem RunsFrom.andThen (ha : a.RunsFrom supply p)
    (hb : b.RunsFrom supply (a p).outcome.progress) : (a.andThen b).RunsFrom supply p := by
  unfold RunsFrom at *
  cases hr : (a p).outcome.result with
  | error f =>
    have hplain := Meaning.andThen_error (a := a.plain) (b := b.plain) hr
    rw [events_andThen_error hr, show ((a.andThen b) p).outcome = (a p).outcome from hplain]
    exact ha
  | ok u =>
    have hplain := Meaning.andThen_ok (a := a.plain) (b := b.plain) hr
    rw [events_andThen_ok hr, show ((a.andThen b) p).outcome = _ from hplain]
    exact ha.append hb

theorem runs_given {v : Except RenderFault Value} {next : Value → Trace}
    (h : ∀ w, v = .ok w → (next w).RunsFrom supply p) : (given v next).RunsFrom supply p := by
  cases v with
  | ok w => exact h w rfl
  | error f => exact runs_silent rfl

end

/-! ## Loops -/

section
variable {supply : Identity → List Host} {iterable : Host} {body : Host → Trace}

theorem runs_forAll (hiterable : iterable.iterator? = none) {items : List Host}
    (hbody : ∀ item ∈ items, ∀ p, (body item).RunsFrom supply p) (p : Progress) :
    (forAll iterable body items).RunsFrom supply p := by
  induction items generalizing p with
  | nil => exact .step (.aside hiterable) (.done _)
  | cons item items ih =>
    obtain ⟨hitem, hitems⟩ := List.forall_mem_cons.mp hbody
    exact .step (.aside hiterable) ((hitem p).andThen (ih hitems _))

/-- The rounds suffice, as the body never puts the iterator back. -/
theorem runs_forRest {i : Identity} (hiterable : iterable.iterator? = some i)
    (hbody : ∀ item ∈ supply i, ∀ p, (body item).RunsFrom supply p) (rounds : Nat) (p : Progress)
    (hrounds : (supply i).length ≤ p.taken i + rounds) :
    (forRest iterable body i (supply i) rounds).RunsFrom supply p := by
  induction rounds generalizing p with
  | zero => exact .step (.last hiterable hrounds) (.done _)
  | succ rounds ih =>
    unfold RunsFrom
    cases hitem : (supply i)[p.taken i]? with
    | none =>
      rw [forRest_none iterable body rounds hitem]
      exact .step (.last hiterable (List.getElem?_eq_none_iff.mp hitem)) (.done _)
    | some item =>
      rw [forRest_some iterable body rounds hitem]
      have hset : Progress.taken (p.set i (p.taken i + 1)) =
          Function.update p.taken i (p.taken i + 1) := by
        funext j
        rw [Progress.taken_set, Function.update_apply]
      refine .step (.next hiterable hitem) ?_
      rw [← hset]
      have hround := hbody item (List.mem_of_getElem? hitem) (p.set i (p.taken i + 1))
      refine hround.andThen (ih _ ?_)
      have hmono := hround.mono i
      rw [Progress.taken_set, if_pos rfl] at hmono
      omega

/-- The items of a loop over a supplied value are supplied, and the loop makes a run. -/
theorem runs_forEach (hsupplied : iterable.Supplied supply) {items : Host.Iteration}
    (hitems : iterable.iteration? = some items)
    (hbody : ∀ item : Host, item.Supplied supply → ∀ p, (body item).RunsFrom supply p)
    (p : Progress) : (forEach iterable body items).RunsFrom supply p := by
  have hitem := (Host.closed_supplied supply).iteration hsupplied hitems
  cases items with
  | always items =>
    have hiterable : iterable.iterator? = none := by rw [Host.iterator?, hitems]
    exact runs_forAll hiterable (fun item h => hbody item (hitem item h)) p
  | once i items =>
    obtain rfl := hsupplied.items hitems
    exact runs_forRest (Host.iterator_of_once hitems) (fun item h => hbody item (hitem item h)) _ p
      (Nat.le_add_left _ _)

end

/-! ## Blocks -/

section
variable {supply : Identity → List Host} {page : Page}

mutual

theorem runs_block (calls : Nat) : ∀ (b : Block) {env : Bindings},
    (page.within env).Each (Host.Supplied supply) → ∀ p : Progress,
      (block page calls b env).RunsFrom supply p
  | .text _ _, _, _, _ => runs_silent rfl
  | .output _ e, _, _, _ => runs_given fun _ _ => runs_silent rfl
  | .loop _ binder iterator body, env, henv, p => by
    refine runs_given fun v hv => ?_
    cases hitems : v.iteration? with
    | none => exact runs_silent rfl
    | some items =>
      have hsupplied := Expr.closed_value (Host.closed_supplied supply) henv hv
      refine runs_forEach hsupplied (iteration_object hitems) (fun item hitem => ?_) p
      exact runs_blocks _ body (henv.set hitem binder.name)
  | .choice _ arms, _, henv, p => runs_firstArm _ arms henv p
  | .other _ _, _, _, _ => runs_silent rfl

theorem runs_blocks (calls : Nat) : ∀ (bs : List Block) {env : Bindings},
    (page.within env).Each (Host.Supplied supply) → ∀ p : Progress,
      (blocks page calls bs env).RunsFrom supply p
  | [], _, _, _ => runs_silent rfl
  | b :: bs, _, henv, p => (runs_block calls b henv p).andThen (runs_blocks calls bs henv _)

theorem runs_firstArm (calls : Nat) : ∀ (arms : List Arm) {env : Bindings},
    (page.within env).Each (Host.Supplied supply) →
    ∀ p : Progress, (firstArm page calls arms env).RunsFrom supply p
  | [], _, _, _ => runs_silent rfl
  | .mk _ none body :: _, _, henv, p => runs_blocks _ body henv p
  | .mk _ (some test) body :: arms, _, henv, p => by
    refine runs_given fun v _ => ?_
    split
    · exact runs_blocks _ body henv p
    · exact runs_firstArm _ arms henv p

end

end

end Trace

/-! ## Templates -/

namespace Template

section
variable {supply : Identity → List Host} {data root : Host} {keywords : List (Text × Host)}
  (stack : Stack)

theorem supplied_merge (hdata : data.Supplied supply)
    (hkeywords : ∀ k ∈ keywords, k.2.Supplied supply) (hmerge : merge data keywords = .ok root) :
    root.Supplied supply := by
  -- a new dictionary is supplied if its entries are, and those of the keywords are
  have hadded : ∀ e ∈ keywordEntries keywords, e.1.Supplied supply ∧ e.2.Supplied supply := by
    intro e he
    obtain ⟨k, hk, rfl⟩ := List.mem_map.mp he
    exact ⟨Host.supplied_of_atomic ⟨rfl, rfl, rfl⟩, hkeywords k hk⟩
  have hmerged {entries : List (Host × Host)}
      (h : ∀ e ∈ entries, e.1.Supplied supply ∧ e.2.Supplied supply) :
      (Host.dict .fresh (Host.ofEntries (entries ++ keywordEntries keywords))).Supplied supply :=
    Host.supplied_dict _ (Host.forall_ofEntries (List.forall_mem_append.mpr ⟨h, hadded⟩))
  unfold merge at hmerge
  simp only at hmerge
  split at hmerge
  · cases hmerge
    exact hdata
  cases data with
  | null =>
    cases hmerge
    exact Host.supplied_dict _ (Host.forall_ofEntries hadded)
  | dict i entries =>
    cases hmerge
    exact hmerged fun e he => ⟨hdata.child (Host.mem_flatten_entries he).1,
      hdata.child (Host.mem_flatten_entries he).2⟩
  | object i o =>
    obtain ⟨content, _, attributes, _, _, _⟩ := o
    cases content with
    | mapping entries broken =>
      simp only at hmerge
      split at hmerge
      · cases hmerge
      · cases hmerge
        exact hmerged fun e he =>
          ⟨hdata.child (List.mem_append_left _ (Host.mem_flatten_entries he).1),
            hdata.child (List.mem_append_left _ (Host.mem_flatten_entries he).2)⟩
    | _ => cases hmerge
  | _ => cases hmerge

theorem run_courseOf (t : Template) (hdata : data.Supplied supply)
    (hkeywords : ∀ k ∈ keywords, k.2.Supplied supply) (p : Progress) :
    Run supply p.taken (t.courseOf stack data keywords p).events
      (t.courseOf stack data keywords p).progress.taken := by
  unfold courseOf
  cases hmerge : merge data keywords with
  | error failure => exact .done _
  | ok root =>
    have henv : (Page.within ⟨root, .active t.name⟩ .empty).Each (Host.Supplied supply) :=
      ⟨supplied_merge hdata hkeywords hmerge, fun _ _ hbound => by cases hbound⟩
    exact Trace.runs_blocks _ t.blocks henv p

theorem run_course (t : Template) (hdata : data.Supplied supply)
    (keywords : List (List (Text × Host)))
    (hkeywords : ∀ ks ∈ keywords, ∀ k ∈ ks, k.2.Supplied supply) (p : Progress) :
    Run supply p.taken (t.course stack data keywords p).events
      (t.course stack data keywords p).progress.taken := by
  induction keywords generalizing p with
  | nil => exact .done _
  | cons ks keywords ih =>
    obtain ⟨hks, hmore⟩ := List.forall_mem_cons.mp hkeywords
    exact (t.run_courseOf stack hdata hks p).append (ih hmore _)

/-- Only the positions of the iterators matter. -/
theorem render_positions (t : Template) (data : Host) (keywords : List (Text × Host))
    {p p' : Progress} (hp : p.taken = p'.taken) :
    (t.render stack data keywords p).1 = (t.render stack data keywords p').1 := by
  cases hmerge : merge data keywords with
  | error failure => simp only [render, hmerge]
  | ok root =>
    rw [render_merge hmerge stack, render_merge hmerge stack]
    exact (paired_render simulation_eq stack t (fun _ _ => related_eq _) (congrFun hp)).1

theorem renders_without_iterators (t : Template) (hdata : data.Supplied fun _ => [])
    (keywords : List (List (Text × Host)))
    (hkeywords : ∀ ks ∈ keywords, ∀ k ∈ ks, k.2.Supplied fun _ => []) (p : Progress) :
    (t.renders stack data keywords p).1 = keywords.map fun ks => (t.render stack data ks p).1 := by
  -- no iterator ever moves, so each render finds them as the first one did
  have hrenders : ∀ p', p'.taken = p.taken →
      (t.renders stack data keywords p').1 =
        keywords.map fun ks => (t.render stack data ks p).1 := by
    induction keywords with
    | nil => exact fun _ _ => rfl
    | cons ks keywords ih =>
      obtain ⟨hks, hmore⟩ := List.forall_mem_cons.mp hkeywords
      intro p' hp
      have hstill : Progress.taken (t.render stack data ks p').2 = p'.taken := by
        have hrun := t.run_courseOf stack hdata hks p'
        rw [(t.courseOf_render stack data ks p').2] at hrun
        funext i
        obtain ⟨hleft, hposition⟩ := hrun.delivers i
        rw [hposition, (List.append_eq_nil_iff.mp (hleft.symm.trans List.drop_nil)).1]
        rfl
      rw [List.map_cons, ← ih hmore _ (hstill.trans hp), ← t.render_positions stack data ks hp]
      rfl
  exact hrenders p rfl

end

/-- **Iterators deliver each item once.** Over any number of renders, the loops over an iterator
bind what was left of it before, in order, up to what is left after. -/
theorem renders_deliver_once (stack : Stack) (t : Template) {supply : Identity → List Host}
    {data : Host}
    (hdata : data.Supplied supply) (keywords : List (List (Text × Host)))
    (hkeywords : ∀ ks ∈ keywords, ∀ k ∈ ks, k.2.Supplied supply) (p : Progress) :
    let course := t.course stack data keywords p
    t.renders stack data keywords p = (course.results, course.progress) ∧
    (∀ i, (supply i).drop (p.taken i) =
        delivered i course.events ++ (supply i).drop (course.progress.taken i) ∧
      course.progress.taken i = p.taken i + (delivered i course.events).length ∧
      ∀ before iterable after, course.events = before ++ .finished iterable :: after →
        iterable.iterator? = some i → delivered i before = (supply i).drop (p.taken i)) ∧
    ((∀ g, data.Holds g → g.iterator? = none) →
      (∀ ks ∈ keywords, ∀ k ∈ ks, ∀ g, k.2.Holds g → g.iterator? = none) →
      course.results = keywords.map fun ks => (t.render stack data ks p).1) := by
  intro course
  have hcourse := t.course_renders stack data keywords p
  have hrun := t.run_course stack hdata keywords hkeywords p
  refine ⟨hcourse, fun i => ?_, fun hnone hnone' => ?_⟩
  · -- the renders are one run of events, in which each step takes the next item
    obtain ⟨hleft, hposition⟩ := hrun.delivers i
    refine ⟨hleft, hposition, fun before iterable after hevents hiterable => ?_⟩
    rw [hevents] at hrun
    exact hrun.finished hiterable
  · have hresults := t.renders_without_iterators stack (Host.supplied_of_none hnone) keywords
      (fun ks hks k hk => Host.supplied_of_none (hnone' ks hks k hk)) p
    rw [hcourse] at hresults
    exact hresults

/-- Two loops, one in the other, over one iterator that stands in two places. The first render fails
in the inner loop, and the second one takes what is left. -/
theorem renders_deliver_once_shared :
    let items : List Host := [.integer 2, .integer 0, .integer 3]
    let iterator : Host := .object (.known 0) ⟨.iterator items, [], [], [], [], []⟩
    let data : Host := .dict .fresh [(.text ['a'], iterator), (.text ['b'], iterator)]
    let six : Expr := .literal ⟨34, 35⟩ (.ofInteger 6)
    let inner : Block := .loop ⟨16, 54⟩ ⟨⟨23, 24⟩, ['y']⟩ (.symbol ⟨28, 29⟩ ['b'])
      [.output ⟨32, 42⟩ (.binary ⟨34, 40⟩ (.arithmetic .quotient) six (.symbol ⟨39, 40⟩ ['y']))]
    let outer : Block := .loop ⟨0, 66⟩ ⟨⟨7, 8⟩, ['x']⟩ (.symbol ⟨12, 13⟩ ['a']) [inner]
    let source := "\x7b% for x in a %\x7d\x7b% for y in b %\x7d".toList ++
      "\x7b\x7b6 // y\x7d\x7d\x7b% endfor %\x7d\x7b% endfor %\x7d".toList
    let t : Template := ⟨source, none, [outer]⟩
    let course := t.course .least data [[], []] .empty
    course.results.map Except.isOk = [false, true] ∧
      (t.renders .least data [[], []] .empty).1 = course.results ∧
      delivered (.known 0) course.events = items := by
  intro items iterator data six inner outer source t course
  have hatomic : ∀ g ∈ iterator.children, g.Atomic :=
    List.forall_mem_cons.mpr ⟨⟨rfl, rfl, rfl⟩, List.forall_mem_cons.mpr
      ⟨⟨rfl, rfl, rfl⟩, List.forall_mem_singleton.mpr ⟨rfl, rfl, rfl⟩⟩⟩
  have hiterator : iterator.Supplied fun _ => items :=
    Host.supplied_of_children (fun i xs hxs => by cases hxs; rfl)
      fun g hg => Host.supplied_of_atomic (hatomic g hg)
  have hdata : data.Supplied fun _ => items := by
    refine Host.supplied_dict .fresh fun e he => ?_
    rcases List.mem_pair.mp he with rfl | rfl <;>
      exact ⟨Host.supplied_of_atomic ⟨rfl, rfl, rfl⟩, hiterator⟩
  have hkeywords : ∀ ks ∈ ([[], []] : List (List (Text × Host))), ∀ k ∈ ks,
      k.2.Supplied fun _ => items := by
    intro ks hks k hk
    rcases List.mem_pair.mp hks with rfl | rfl <;> cases hk
  obtain ⟨hrenders, hdelivered, -⟩ := t.renders_deliver_once .least hdata [[], []] hkeywords .empty
  obtain ⟨hleft, -⟩ := hdelivered (.known 0)
  have hend : course.progress.taken (.known 0) = 3 := by decide +kernel
  rw [hend] at hleft
  replace hleft : items = delivered (.known 0) course.events ++ [] := hleft
  exact ⟨by decide +kernel, congrArg Prod.fst hrenders, (hleft.trans (List.append_nil _)).symm⟩

end Template

end Stencil
