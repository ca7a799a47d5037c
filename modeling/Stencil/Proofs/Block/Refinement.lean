import Stencil.Proofs.Block.Machine

/-!
# The builder as a machine

The builder comes to the blocks and to the errors of the machine for blocks, unless the clauses open
more constructs inside each other than it has room for.
-/

namespace Stencil.Block

namespace Machine

/-! ## The builder as the machine goes -/

/-- The machine reads a body as the builder does, with room for `n` more calls. -/
def Tracks (source : Text) (limit n : Nat) (nested : Builder) : Prop :=
  ∀ clauses m, m.calls + n = limit → outcomeWithin source limit clauses m =
    (do let (blocks, rest) ← nested clauses; outcomeWithin source limit rest (m.add blocks))

section
variable {source : Text} {limit n : Nat} {nested : Builder} {inChoice inLoop : Option Builder}

/-- A body ends where a clause comes that is not part of it. -/
theorem buildFrom_stops_at (hb : Inside source n inChoice inLoop) : ∀ {fuel clauses blocks rest},
    clauses.length ≤ fuel → buildFrom source inChoice inLoop fuel clauses = .ok (blocks, rest) →
    Stops rest := by
  -- on the clauses that are left: each block takes at least one of them
  intro fuel
  induction fuel with
  | zero =>
    intro clauses blocks rest hf h
    obtain rfl := List.length_eq_zero_iff.mp (Nat.le_zero.mp hf)
    obtain ⟨rfl, rfl⟩ := Prod.mk.inj (pure_eq_ok.mp h)
    trivial
  | succ fuel ih =>
    intro clauses blocks rest hf h
    rcases clauses with _ | ⟨clause, clauses⟩
    · obtain ⟨rfl, rfl⟩ := Prod.mk.inj (pure_eq_ok.mp h)
      trivial
    replace hf : clauses.length ≤ fuel := Nat.le_of_succ_le_succ hf
    cases clause with
    | text | output =>
      obtain ⟨⟨others, _⟩, hothers, heq⟩ := bind_eq_ok.mp h
      obtain ⟨-, rfl⟩ := Prod.mk.inj (pure_eq_ok.mp heq)
      exact ih hf hothers
    | ifTest s t =>
      obtain ⟨nested, hroom, h⟩ := bind_eq_ok.mp h
      obtain ⟨⟨block, after⟩, hblock, hnext⟩ := bind_eq_ok.mp h
      obtain ⟨⟨others, _⟩, hothers, heq⟩ := bind_eq_ok.mp hnext
      obtain ⟨-, rfl⟩ := Prod.mk.inj (pure_eq_ok.mp heq)
      obtain ⟨_, -, hnested⟩ := hb.choice nested (roomFor_eq_ok.mp hroom)
      obtain ⟨taken, rfl, -⟩ := buildChoice_sound hnested hblock
      rw [List.length_append] at hf
      exact ih (by omega) hothers
    | forEach s x e =>
      obtain ⟨nested, hroom, h⟩ := bind_eq_ok.mp h
      obtain ⟨⟨block, after⟩, hblock, hnext⟩ := bind_eq_ok.mp h
      obtain ⟨⟨others, _⟩, hothers, heq⟩ := bind_eq_ok.mp hnext
      obtain ⟨-, rfl⟩ := Prod.mk.inj (pure_eq_ok.mp heq)
      obtain ⟨_, -, hnested⟩ := hb.loop nested (roomFor_eq_ok.mp hroom)
      obtain ⟨taken, rfl, -⟩ := buildLoop_sound hnested hblock
      rw [List.length_append] at hf
      exact ih (by omega) hothers
    | elifTest | otherwise | endIf | endFor =>
      obtain ⟨-, rfl⟩ := Prod.mk.inj (pure_eq_ok.mp h)
      trivial
    | other => exact absurd h fail_ne_ok

theorem inside_inner (source : Text) (n : Nat) :
    Inside source n (inner? source n 2) (inner? source n 1) :=
  inside_of_below fun k _ => buildBody_sound k

/-- A body that is built leaves fewer clauses, which begin with one that is not part of it, and
there was room for it. -/
theorem buildBody_leaves {clauses rest : List Clause} {blocks : List Block}
    (h : buildBody source n clauses = .ok (blocks, rest)) :
    0 < n ∧ Stops rest ∧ rest.length ≤ clauses.length := by
  cases n with
  | zero => exact absurd h fail_ne_ok
  | succ n =>
    rw [buildBody_succ] at h
    obtain ⟨taken, rfl, -⟩ := buildFrom_sound (inside_inner source n) h
    exact ⟨Nat.succ_pos _, buildFrom_stops_at (inside_inner source n) (Nat.le_refl _) h, by simp⟩

/-! ### Constructs -/

def resume (source : Text) (limit : Nat) (m : Machine)
    (built : Except ParseFault (Block × List Clause)) :
    Except ParseFault (List Block) := do
  let (block, rest) ← built
  outcomeWithin source limit rest (m.add [block])

structure Mirrors (source : Text) (limit n : Nat) (nested : Builder) : Prop where
  tracks : Tracks source limit n nested
  leaves : ∀ {clauses rest blocks}, nested clauses = .ok (blocks, rest) →
    0 < n ∧ Stops rest ∧ rest.length ≤ clauses.length

section
variable {m : Machine}

theorem between_of_stops {clauses : List Clause} (h : Stops clauses) : between clauses = 0 := by
  rcases clauses with _ | ⟨clause, clauses⟩
  · rfl
  cases clause with
  | elifTest | otherwise | endIf | endFor => rfl
  | text | output | ifTest | forEach | other => exact h.elim

/-- What ends a body takes no more calls than the body. -/
theorem outcomeWithin_stops {clause : Clause} {rest : List Clause} (hroom : m.calls < limit)
    (hr : Stops (clause :: rest)) : outcomeWithin source limit (clause :: rest) m =
      (do outcomeWithin source limit rest (← m.step source clause)) :=
  outcomeWithin_cons (by rwa [between_of_stops hr])

/-- An arm after `else` is the last one. -/
theorem close_last (hroom : m.calls + 3 < limit) (span : Span) (arms : List Arm)
    (opening : Clause) (body : List Block) {rest : List Clause} (hr : Stops rest) :
    outcomeWithin source limit rest
        ⟨(.choice span arms opening none, m.body) :: m.stack, body⟩ =
      resume source limit m (match rest with
        | .endIf closing :: rest => return (.choice ⟨span.start, closing.stop⟩
            (arms ++ [.mk ⟨opening.start, endOf opening body⟩ none body]), rest)
        | _ => fail .missingEndIf span.start) := by
  have hroom : calls ⟨(.choice span arms opening none, m.body) :: m.stack, body⟩ < limit := by
    rw [calls_open, Construct.calls]
    omega
  rcases rest with _ | ⟨clause, rest⟩
  · exact outcomeWithin_nil hroom
  rw [outcomeWithin_stops hroom hr]
  cases clause with
  | elifTest | otherwise | endIf | endFor => rfl
  | text | output | ifTest | forEach | other => exact hr.elim

/-- The arms of a choice are read one after another, until something else comes. -/
theorem outcomeWithin_arms (hn : Mirrors source limit n nested)
    (hcalls : m.calls + 3 + n = limit) (hpos : 0 < n) (span : Span) :
    ∀ fuel arms opening test body rest, rest.length ≤ fuel → Stops rest →
      outcomeWithin source limit rest
          ⟨(.choice span arms opening (some test), m.body) :: m.stack, body⟩ =
        resume source limit m (do
          let (middle, rest) ← elifArms nested fuel rest
          let (last, rest) ← elseArm nested rest
          match rest with
          | .endIf closing :: rest => return (.choice ⟨span.start, closing.stop⟩
              (arms ++ .mk ⟨opening.start, endOf opening body⟩ (some test) body ::
                (middle ++ last)), rest)
          | _ => fail .missingEndIf span.start) := by
  have hopen (arms opening test body) :
      calls ⟨(.choice span arms opening test, m.body) :: m.stack, body⟩ + n = limit := by
    rw [calls_open, Construct.calls]
    omega
  have hroom (arms opening test body) :
      calls ⟨(.choice span arms opening test, m.body) :: m.stack, body⟩ < limit := by
    have := hopen arms opening test body
    omega
  intro fuel
  induction fuel with
  | zero =>
    intro arms opening test body rest hf _
    obtain rfl := List.length_eq_zero_iff.mp (Nat.le_zero.mp hf)
    exact outcomeWithin_nil (hroom _ _ _ _)
  | succ fuel ih =>
    intro arms opening test body rest hf hr
    rcases rest with _ | ⟨clause, rest⟩
    · exact outcomeWithin_nil (hroom _ _ _ _)
    rw [outcomeWithin_stops (hroom _ _ _ _) hr]
    cases clause with
    | elifTest s t =>
      -- the machine closes the arm that is open, the builder goes on with the arms that are left
      let arms' := arms ++ [.mk ⟨opening.start, endOf opening body⟩ (some test) body]
      refine (hn.tracks rest ⟨(.choice span arms' (.elifTest s t) (some t), m.body) :: m.stack, []⟩
        (hopen _ _ _ _)).trans ?_
      cases hnested : nested rest with
      | error e => simp only [elifArms, arm, hnested]; rfl
      | ok built =>
        obtain ⟨inner, after⟩ := built
        obtain ⟨-, hstops, hle⟩ := hn.leaves hnested
        have hlength : after.length ≤ fuel := Nat.le_trans hle (Nat.le_of_succ_le_succ hf)
        refine (ih arms' (.elifTest s t) t inner after hlength hstops).trans ?_
        simp only [elifArms, arm_eq _ hnested, ok_bind]
        cases elifArms nested fuel after with
        | error e => rfl
        | ok => simp [arms']
    | otherwise s =>
      -- the last arm: nothing but the end of the choice may follow its body
      let arms' := arms ++ [.mk ⟨opening.start, endOf opening body⟩ (some test) body]
      refine (hn.tracks rest ⟨(.choice span arms' (.otherwise s) none, m.body) :: m.stack, []⟩
        (hopen _ _ _ _)).trans ?_
      cases hnested : nested rest with
      | error e => simp only [elifArms, elseArm, pure_bind, arm, hnested]; rfl
      | ok built =>
        obtain ⟨inner, after⟩ := built
        obtain ⟨-, hstops, -⟩ := hn.leaves hnested
        refine (close_last (by omega) span arms' (.otherwise s) inner hstops).trans ?_
        simp only [elifArms, elseArm, arm_eq _ hnested, ok_bind, pure_bind, arms']
        cases after with
        | nil => rfl
        | cons clause after => cases clause <;> simp
    | endIf | endFor => rfl
    | text | output | ifTest | forEach | other => exact hr.elim

theorem outcomeWithin_choice (hn : Mirrors source limit n nested)
    (hcalls : m.calls + 3 + n = limit) (span : Span) (test : Expr) (clauses : List Clause) :
    outcomeWithin source limit clauses (m.push (.choice span [] (.ifTest span test) (some test))) =
      resume source limit m (buildChoice nested span test clauses) := by
  refine (hn.tracks clauses (m.push _) (by rw [calls_push, Construct.calls]; omega)).trans ?_
  cases hnested : nested clauses with
  | error e => simp only [buildChoice, arm, hnested]; rfl
  | ok built =>
    obtain ⟨inner, after⟩ := built
    obtain ⟨hpos, hstops, -⟩ := hn.leaves hnested
    simp only [buildChoice, arm_eq _ hnested, ok_bind]
    exact outcomeWithin_arms hn hcalls hpos span _ [] _ test inner after (Nat.le_refl _) hstops

theorem outcomeWithin_loop (hn : Mirrors source limit n nested)
    (hcalls : m.calls + 2 + n = limit) (span : Span) (binder : Symbol) (iterator : Expr)
    (clauses : List Clause) :
    outcomeWithin source limit clauses (m.push (.loop span binder iterator)) =
      resume source limit m (buildLoop nested span binder iterator clauses) := by
  refine (hn.tracks clauses (m.push _) (by rw [calls_push, Construct.calls]; omega)).trans ?_
  cases hnested : nested clauses with
  | error e => simp only [buildLoop, hnested]; rfl
  | ok built =>
    obtain ⟨inner, after⟩ := built
    obtain ⟨hpos, hstops, -⟩ := hn.leaves hnested
    have hroom : ((m.push (.loop span binder iterator)).add inner).calls < limit := by
      rw [calls_add, calls_push, Construct.calls]
      omega
    simp only [buildLoop, hnested, ok_bind]
    rcases after with _ | ⟨clause, after⟩
    · exact outcomeWithin_nil hroom
    refine (outcomeWithin_stops hroom hstops).trans ?_
    cases clause with
    | elifTest | otherwise | endIf | endFor => rfl
    | text | output | ifTest | forEach | other => exact hstops.elim

end

/-! ### Bodies -/

theorem outcomeWithin_buildFrom (hn : ∀ k < n, Mirrors source limit k (buildBody source k)) :
    ∀ {fuel clauses m}, clauses.length ≤ fuel → m.calls + 1 + n = limit →
      outcomeWithin source limit clauses m =
        (do let (blocks, rest) ←
              buildFrom source (inner? source n 2) (inner? source n 1) fuel clauses
            outcomeWithin source limit rest (m.add blocks)) := by
  intro fuel
  induction fuel with
  | zero =>
    intro clauses m hf hcalls
    obtain rfl := List.length_eq_zero_iff.mp (Nat.le_zero.mp hf)
    simp [buildFrom]
  | succ fuel ih =>
    intro clauses m hf hcalls
    rcases clauses with _ | ⟨clause, clauses⟩
    · simp [buildFrom]
    replace hf : clauses.length ≤ fuel := Nat.le_of_succ_le_succ hf
    cases clause with
    | text span =>
      rw [outcomeWithin_cons (by simp only [between]; omega)]
      refine (ih (m := m.add _) hf hcalls).trans ?_
      simp [buildFrom]
    | output span e =>
      rw [outcomeWithin_cons (by simp only [between]; omega)]
      refine (ih (m := m.add _) hf hcalls).trans ?_
      simp [buildFrom]
    | ifTest span test =>
      -- the builder has room for a choice where the machine has three calls left
      cases hroom : inner? source n 2 with
      | none =>
        have hfew := inner_eq_none.mp hroom
        rw [outcomeWithin_full (by simp only [between]; omega)]
        simp only [buildFrom, roomFor]
        rfl
      | some nested =>
        obtain ⟨k, rfl, rfl⟩ := inner_eq_some hroom
        rw [outcomeWithin_cons (by simp only [between]; omega)]
        refine (outcomeWithin_choice (hn k (by omega)) (by omega) span test clauses).trans ?_
        cases hblock : buildChoice (buildBody source k) span test clauses with
        | error e => simp only [buildFrom, roomFor, pure_bind, hblock]; rfl
        | ok built =>
          obtain ⟨block, after⟩ := built
          obtain ⟨taken, rfl, -⟩ := buildChoice_sound (buildBody_sound k) hblock
          rw [List.length_append] at hf
          refine (ih (m := m.add [block]) (by omega) hcalls).trans ?_
          simp [buildFrom, roomFor, hroom, hblock]
    | forEach span binder iterator =>
      cases hroom : inner? source n 1 with
      | none =>
        have hfew := inner_eq_none.mp hroom
        rw [outcomeWithin_full (by simp only [between]; omega)]
        simp only [buildFrom, roomFor]
        rfl
      | some nested =>
        obtain ⟨k, rfl, rfl⟩ := inner_eq_some hroom
        rw [outcomeWithin_cons (by simp only [between]; omega)]
        refine
          (outcomeWithin_loop (hn k (by omega)) (by omega) span binder iterator clauses).trans ?_
        cases hblock : buildLoop (buildBody source k) span binder iterator clauses with
        | error e => simp only [buildFrom, roomFor, pure_bind, hblock]; rfl
        | ok built =>
          obtain ⟨block, after⟩ := built
          obtain ⟨taken, rfl, -⟩ := buildLoop_sound (buildBody_sound k) hblock
          rw [List.length_append] at hf
          refine (ih (m := m.add [block]) (by omega) hcalls).trans ?_
          simp [buildFrom, roomFor, hroom, hblock]
    | elifTest | otherwise | endIf | endFor => simp [buildFrom]
    | other =>
      rw [outcomeWithin_cons (by simp only [between]; omega)]
      rfl

theorem buildBody_mirrors (source : Text) (limit calls : Nat) :
    Mirrors source limit calls (buildBody source calls) := by
  induction calls using Nat.strongRecOn with
  | ind calls ih =>
    refine ⟨fun clauses m h => ?_, buildBody_leaves⟩
    cases calls with
    | zero => exact outcomeWithin_full (by omega)
    | succ n =>
      rw [buildBody_succ]
      exact outcomeWithin_buildFrom (fun k hk => ih k (Nat.lt_succ_of_lt hk)) (Nat.le_refl _)
        (by omega)

end

end Machine

/-! ## All of the clauses -/

open Machine (Exhausts outcome outcomeWithin)

theorem build_eq_outcomeWithin (source : Text) (limit : Nat) (clauses : List Clause) :
    build source limit clauses = outcomeWithin source limit clauses Machine.start := by
  have hm := Machine.buildBody_mirrors source limit limit
  rw [hm.tracks clauses Machine.start (Nat.zero_add limit), build]
  cases hbody : buildBody source limit clauses with
  | error e => rfl
  | ok built =>
    obtain ⟨blocks, rest⟩ := built
    obtain ⟨hpos, hstops, -⟩ := hm.leaves hbody
    rcases rest with _ | ⟨stray, rest⟩
    · exact (Machine.outcomeWithin_nil (m := ⟨[], blocks⟩) hpos).symm
    refine Eq.trans ?_ (Machine.outcomeWithin_stops (m := ⟨[], blocks⟩) hpos hstops).symm
    cases stray with
    | elifTest | otherwise | endIf | endFor => rfl
    | text | output | ifTest | forEach | other => exact hstops.elim

/-- The builder comes to the outcome of the machine, whatever the clauses and its limit are, if the
calls for the constructs that they open inside each other stay within it. -/
theorem build_eq_outcome (source : Text) (clauses : List Clause) (limit : Nat) :
    (3 * clauses.length < limit → ¬ Exhausts source limit Machine.start clauses) ∧
    (¬ Exhausts source limit Machine.start clauses →
      build source limit clauses = outcome source clauses) ∧
    (Exhausts source limit Machine.start clauses → ∃ front rest after, clauses = front ++ rest ∧
      Machine.run source Machine.start front = .ok after ∧ limit ≤ after.calls + between rest ∧
      build source limit clauses =
        fail .nestingTooDeep ((rest.head?.map Clause.start).getD source.length)) := by
  refine ⟨Machine.not_exhausts_of_length, fun h => ?_, fun h => ?_⟩
  · rw [build_eq_outcomeWithin]
    exact Machine.outcomeWithin_of_not_exhausts h
  · rw [build_eq_outcomeWithin]
    exact Machine.outcomeWithin_of_exhausts h

theorem build_eq_outcome_crossed :
    let clauses := [.ifTest ⟨0, 10⟩ (.symbol ⟨6, 7⟩ ['x']),
      .forEach ⟨10, 24⟩ ⟨⟨17, 18⟩, ['y']⟩ (.symbol ⟨22, 23⟩ ['x']), .endIf ⟨24, 35⟩]
    ¬ Exhausts [] 10 Machine.start clauses ∧ build [] 10 clauses = outcome [] clauses ∧
      outcome [] clauses = .error (.located .missingEndFor 10) := by
  intro clauses
  obtain ⟨hfew, hroom, -⟩ := build_eq_outcome [] clauses 10
  have hlength : 3 * clauses.length < 10 := by decide
  exact ⟨hfew hlength, hroom (hfew hlength), rfl⟩

end Stencil.Block
