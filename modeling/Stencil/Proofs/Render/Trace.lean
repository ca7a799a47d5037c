import Stencil.Proofs.Render.Simulation

/-!
# Traces

The meaning of blocks together with what loops do, in the order in which they do it. A trace tells
the bindings and the ends of loops, and nothing else about them is different.
-/

namespace Stencil

inductive Event
  /-- A loop over the one value binds its variable to the other one. -/
  | bound (iterable item : Host)
  /-- A loop over the value has come to its end, without a failure. -/
  | finished (iterable : Host)

def Event.iterable : Event → Host
  | bound iterable _ | finished iterable => iterable

structure Traced where
  outcome : Outcome
  events : List Event

abbrev Trace := Progress → Traced

namespace Trace

def plain (t : Trace) : Meaning := fun p => (t p).outcome

def silent (m : Meaning) : Trace := fun p => ⟨m p, []⟩

def after (e : Event) (t : Trace) : Trace := fun p => ⟨(t p).outcome, e :: (t p).events⟩

def andThen (a b : Trace) : Trace := fun p =>
  ⟨a.plain.andThen b.plain p,
    match (a p).outcome.result with
    | .error _ => (a p).events
    | .ok _ => (a p).events ++ (b (a p).outcome.progress).events⟩

def given (v : Except RenderFault Value) (next : Value → Trace) : Trace :=
  match v with
  | .ok v => next v
  | .error f => silent (.fail f)

/-! ## Loops -/

section
variable (iterable : Host) (body : Host → Trace)

def finish : Trace := after (.finished iterable) (silent .done)

def forAll : List Host → Trace
  | [] => finish iterable
  | item :: items => after (.bound iterable item) ((body item).andThen (forAll items))

def forRest (i : Identity) (items : List Host) : (rounds : Nat) → Trace
  | 0 => finish iterable
  | rounds + 1 => fun p =>
    let taken := p.taken i
    match items[taken]? with
    | none => finish iterable p
    | some item =>
      let round := (body item).andThen (forRest i items rounds)
      after (.bound iterable item) round (p.set i (taken + 1))

def forEach : Host.Iteration → Trace
  | .always items => forAll iterable body items
  | .once i items => forRest iterable body i items items.length

section
variable {i : Identity} {items : List Host} (rounds : Nat) {p : Progress}

theorem forRest_none (h : items[p.taken i]? = none) :
    forRest iterable body i items (rounds + 1) p = finish iterable p := by
  simp only [forRest, h]

theorem forRest_some {item : Host} (h : items[p.taken i]? = some item) :
    forRest iterable body i items (rounds + 1) p =
      after (.bound iterable item) ((body item).andThen (forRest iterable body i items rounds))
        (p.set i (p.taken i + 1)) := by
  simp only [forRest, h]

end

end

/-! ## Blocks -/

mutual

def block (page : Page) (calls : Nat) : Block → Bindings → Trace
  | .text _ content, _ => silent (.write content)
  | .output _ e, env =>
    given (e.value (page.within env) (calls - 1)) fun v => silent (.write v.text)
  | .loop _ binder iterator body, env =>
    given (iterator.value (page.within env) (calls - 1)) fun v =>
      match v.iteration? with
      | none => silent .done
      | some items =>
        let round item := blocks page (calls - 2) body (env.set binder.name item)
        forEach v.object round items
  | .choice _ arms, env => firstArm page (calls - 1) arms env
  | .other _ sort, _ => silent (.fail (.malformed (.unknownBlock sort)))

def blocks (page : Page) (calls : Nat) : List Block → Bindings → Trace
  | [], _ => silent .done
  | b :: bs, env => (block page calls b env).andThen (blocks page calls bs env)

def firstArm (page : Page) (calls : Nat) : List Arm → Bindings → Trace
  | [], _ => silent .done
  | .mk _ none body :: _, env => blocks page (calls - 1) body env
  | .mk _ (some test) body :: arms, env =>
    given (test.value (page.within env) calls) fun v =>
      if v.boolean then blocks page (calls - 1) body env else firstArm page calls arms env

end

/-! ## Traces tell, and change nothing -/

section
variable {a b : Trace} {p : Progress}

theorem events_andThen_ok (h : (a p).outcome.result = .ok ()) :
    (a.andThen b p).events = (a p).events ++ (b (a p).outcome.progress).events := by
  simp only [andThen, h]

theorem events_andThen_error {f : RenderFault} (h : (a p).outcome.result = .error f) :
    (a.andThen b p).events = (a p).events := by
  simp only [andThen, h]

theorem plain_andThen (a b : Trace) : (a.andThen b).plain = a.plain.andThen b.plain := rfl

theorem plain_given (v : Except RenderFault Value) (next : Value → Trace) :
    (given v next).plain = .given v fun v => (next v).plain := by
  cases v <;> rfl

end

section
variable (iterable : Host) {body : Host → Trace} {m : Host → Meaning}
variable (hbody : ∀ item, (body item).plain = m item)
include hbody

theorem plain_forAll (items : List Host) :
    (forAll iterable body items).plain = .forAll m items := by
  induction items with
  | nil => rfl
  | cons item items ih =>
    show ((body item).andThen (forAll iterable body items)).plain = _
    rw [plain_andThen, hbody, ih]
    rfl

theorem plain_forRest (i : Identity) (items : List Host) (rounds : Nat) :
    (forRest iterable body i items rounds).plain = .forRest m i items rounds := by
  induction rounds with
  | zero => rfl
  | succ rounds ih =>
    funext p
    cases hitem : items[p.taken i]? with
    | none =>
      rw [plain, forRest_none iterable body rounds hitem]
      simp only [Meaning.forRest, hitem]
      rfl
    | some item =>
      rw [plain, forRest_some iterable body rounds hitem]
      simp only [Meaning.forRest, hitem]
      show ((body item).andThen (forRest iterable body i items rounds)).plain _ = _
      rw [plain_andThen, hbody, ih]

theorem plain_forEach (items : Host.Iteration) :
    (forEach iterable body items).plain = .forEach m items := by
  cases items with
  | always items => exact plain_forAll iterable hbody items
  | once i items => exact plain_forRest iterable hbody i items _

end

mutual

theorem plain_block (page : Page) (calls : Nat) : ∀ (b : Block) (env : Bindings),
    (block page calls b env).plain = Lexical.block page calls b env
  | .text _ _, _ => rfl
  | .output _ e, env => plain_given _ _
  | .loop _ binder iterator body, env => by
    refine (plain_given _ _).trans (congrArg _ (funext fun v => ?_))
    cases v.iteration? with
    | none => rfl
    | some items =>
      have hbody (item : Host) := plain_blocks page (calls - 2) body (env.set binder.name item)
      exact plain_forEach v.object hbody items
  | .choice _ arms, env => plain_firstArm page (calls - 1) arms env
  | .other _ _, _ => rfl

theorem plain_blocks (page : Page) (calls : Nat) : ∀ (bs : List Block) (env : Bindings),
    (blocks page calls bs env).plain = Lexical.blocks page calls bs env
  | [], _ => rfl
  | b :: bs, env => by
    rw [blocks, plain_andThen, plain_block page calls b env, plain_blocks page calls bs env]
    rfl

theorem plain_firstArm (page : Page) (calls : Nat) : ∀ (arms : List Arm) (env : Bindings),
    (firstArm page calls arms env).plain = Lexical.firstArm page calls arms env
  | [], _ => rfl
  | .mk _ none body :: _, env => plain_blocks page (calls - 1) body env
  | .mk _ (some test) body :: arms, env => by
    refine (plain_given _ _).trans (congrArg _ (funext fun v => ?_))
    cases v.boolean with
    | true => exact plain_blocks page (calls - 1) body env
    | false => exact plain_firstArm page calls arms env

end

end Trace

/-! ## Templates -/

namespace Template

def renders (stack : Stack) (t : Template) (data : Host) :
    List (List (Text × Host)) → Progress → List (Except Failure Text) × Progress
  | [], p => ([], p)
  | keywords :: more, p =>
    let (result, p) := t.render stack data keywords p
    let (results, p) := renders stack t data more p
    (result :: results, p)

/-- What renders come to, the events in them, and how far the iterators have got after them. -/
structure Course where
  results : List (Except Failure Text)
  events : List Event
  progress : Progress

def courseOf (stack : Stack) (t : Template) (data : Host) (keywords : List (Text × Host))
    (p : Progress) : Course :=
  match merge data keywords with
  | .error failure => ⟨[.error failure], [], p⟩
  | .ok root =>
    let traced := Trace.blocks ⟨root, .active t.name⟩ stack.calls t.blocks .empty p
    let text := traced.outcome.result.map fun _ => traced.outcome.chunks.flatten
    ⟨[text.mapError (Failure.ofRender t.source t.name)], traced.events, traced.outcome.progress⟩

def course (stack : Stack) (t : Template) (data : Host) :
    List (List (Text × Host)) → Progress → Course
  | [], p => ⟨[], [], p⟩
  | keywords :: more, p =>
    let first := t.courseOf stack data keywords p
    let rest := course stack t data more first.progress
    ⟨first.results ++ rest.results, first.events ++ rest.events, rest.progress⟩

variable (stack : Stack) (t : Template) (data : Host)

theorem courseOf_render (keywords : List (Text × Host)) (p : Progress) :
    (t.courseOf stack data keywords p).results = [(t.render stack data keywords p).1] ∧
      (t.courseOf stack data keywords p).progress = (t.render stack data keywords p).2 := by
  unfold courseOf render
  cases merge data keywords with
  | error failure => exact ⟨rfl, rfl⟩
  | ok root =>
    have hplain :=
      congrFun (Trace.plain_blocks ⟨root, .active t.name⟩ stack.calls t.blocks .empty) p
    unfold Trace.plain at hplain
    simp only [hplain, render_lexical, and_self]

/-- The course has the results of the renders, and the iterators get as far in it. -/
theorem course_renders (keywords : List (List (Text × Host))) (p : Progress) :
    t.renders stack data keywords p =
      ((t.course stack data keywords p).results, (t.course stack data keywords p).progress) := by
  induction keywords generalizing p with
  | nil => rfl
  | cons ks keywords ih =>
    obtain ⟨hresults, hprogress⟩ := courseOf_render stack t data ks p
    simp only [renders, course, hresults, hprogress, ih]
    rfl

end Template

end Stencil
