import Stencil.Proofs.Block.Nesting

/-!
# A machine for blocks

A machine reads clauses from left to right and keeps the constructs that are still open on a stack.
-/

namespace Stencil.Block

/-! ## The machine -/

inductive Construct
  /-- A choice with its finished arms, and the opening clause and the test of the arm that is being
  built. An arm after `else` has no test. -/
  | choice (span : Span) (arms : List Arm) (opening : Clause) (test : Option Expr)
  | loop (span : Span) (binder : Symbol) (iterator : Expr)

namespace Construct

def span : Construct → Span
  | choice span .. | loop span .. => span

def unclosed : Construct → ParseFault
  | choice span .. => .located .missingEndIf span.start
  | loop span .. => .located .missingEndFor span.start

theorem unclosed_eq : ∀ c : Construct, ∃ kind, kind ≠ .nestingTooDeep ∧
    c.unclosed = .located kind c.span.start
  | choice .. | loop .. => ⟨_, by decide, rfl⟩

end Construct

structure Machine where
  /-- The open constructs, the innermost first, each with the blocks before it. -/
  stack : List (Construct × List Block)
  /-- The blocks of the innermost body so far. -/
  body : List Block

namespace Machine

def start : Machine := ⟨[], []⟩

def add (m : Machine) (blocks : List Block) : Machine := ⟨m.stack, m.body ++ blocks⟩

def push (m : Machine) (c : Construct) : Machine := ⟨(c, m.body) :: m.stack, []⟩

def armNow (m : Machine) (opening : Clause) (test : Option Expr) : Arm :=
  .mk ⟨opening.start, endOf opening m.body⟩ test m.body

/-- Reads a clause that goes on with the innermost construct or closes it. -/
def delimit (m : Machine) (clause : Clause) : Except ParseFault Machine :=
  match m.stack with
  | [] => fail .unknownClause clause.start
  | (top, outer) :: stack =>
    match top, clause with
    | .choice span arms opening (some test), .elifTest _ next =>
      let arms := arms ++ [m.armNow opening (some test)]
      .ok ⟨(.choice span arms clause (some next), outer) :: stack, []⟩
    | .choice span arms opening (some test), .otherwise _ =>
      let arms := arms ++ [m.armNow opening (some test)]
      .ok ⟨(.choice span arms clause none, outer) :: stack, []⟩
    | .choice span arms opening test, .endIf closing =>
      .ok ⟨stack, outer ++ [.choice ⟨span.start, closing.stop⟩ (arms ++ [m.armNow opening test])]⟩
    | .loop span binder iterator, .endFor closing =>
      .ok ⟨stack, outer ++ [.loop ⟨span.start, closing.stop⟩ binder iterator m.body]⟩
    | top, _ => .error top.unclosed

def step (source : Text) (m : Machine) (clause : Clause) : Except ParseFault Machine :=
  match clause with
  | .text span => .ok (m.add [.text span (source.slice span.start span.stop)])
  | .output span e => .ok (m.add [.output span e])
  | .ifTest span test => .ok (m.push (.choice span [] clause (some test)))
  | .forEach span binder iterator => .ok (m.push (.loop span binder iterator))
  | .other span _ => fail .unknownClause span.start
  | delimiter => m.delimit delimiter

def finish (m : Machine) : Except ParseFault (List Block) :=
  match m.stack with
  | [] => .ok m.body
  | (top, _) :: _ => .error top.unclosed

def run (source : Text) (m : Machine) (clauses : List Clause) : Except ParseFault Machine :=
  clauses.foldlM (step source) m

/-- What the machine makes of all of the clauses. -/
def outcome (source : Text) (clauses : List Clause) : Except ParseFault (List Block) := do
  finish (← run source start clauses)

/-- After some of the clauses at least so many constructs are open. -/
def Reaches (source : Text) (height : Nat) (m : Machine) (clauses : List Clause) : Prop :=
  ∃ front rest after, clauses = front ++ rest ∧ run source m front = .ok after ∧
    height ≤ after.stack.length

def opened (m : Machine) : List Span := m.stack.map (·.1.span)

@[simp] theorem length_opened (m : Machine) : m.opened.length = m.stack.length := List.length_map _

/-! ## Steps -/

section
variable {source : Text} {m after : Machine}

@[simp] theorem add_nil (m : Machine) : m.add [] = m := by
  rw [add, List.append_nil]

@[simp] theorem add_add (m : Machine) (bs cs : List Block) :
    (m.add bs).add cs = m.add (bs ++ cs) := by
  rw [add, add, add, List.append_assoc]

@[simp] theorem stack_add (m : Machine) (bs : List Block) : (m.add bs).stack = m.stack := rfl

theorem delimit_opened {clause : Clause} (h : m.delimit clause = .ok after) :
    after.opened = m.opened ∨ after.opened = m.opened.tail := by
  obtain ⟨_ | ⟨⟨top, outer⟩, stack⟩, body⟩ := m
  · cases h
  unfold delimit at h
  dsimp only at h
  split at h <;> cases h
  · exact .inl rfl
  · exact .inl rfl
  · exact .inr rfl
  · exact .inr rfl

theorem step_opened {clause : Clause} (h : m.step source clause = .ok after) :
    after.opened = m.opened ∨ after.opened = m.opened.tail ∨
      after.opened = clause.span :: m.opened := by
  cases clause with
  | text | output =>
    cases h
    exact .inl rfl
  | ifTest | forEach =>
    cases h
    exact .inr (.inr rfl)
  | elifTest | otherwise | endIf | endFor => exact (delimit_opened h).imp_right .inl
  | other => cases h

theorem step_subset {clause : Clause} (h : m.step source clause = .ok after) :
    after.opened ⊆ clause.span :: m.opened := by
  rcases step_opened h with heq | heq | heq <;> rw [heq]
  · exact List.subset_cons_self _ _
  · exact List.Subset.trans (fun _ => List.mem_of_mem_tail) (List.subset_cons_self _ _)
  · exact List.Subset.refl _

def Blamed (spans : List Span) (fault : ParseFault) : Prop :=
  ∃ kind, kind ≠ .nestingTooDeep ∧ ∃ span ∈ spans, fault = .located kind span.start

theorem Blamed.mono {spans more : List Span} {fault : ParseFault} (h : Blamed spans fault)
    (hsub : spans ⊆ more) : Blamed more fault := by
  obtain ⟨kind, hkind, span, hspan, heq⟩ := h
  exact ⟨kind, hkind, span, hsub hspan, heq⟩

theorem delimit_error {clause : Clause} {fault : ParseFault} (h : m.delimit clause = .error fault) :
    Blamed (clause.span :: m.opened) fault := by
  obtain ⟨_ | ⟨⟨top, outer⟩, stack⟩, body⟩ := m
  · cases h
    exact ⟨_, by decide, _, List.mem_cons_self, rfl⟩
  unfold delimit at h
  dsimp only at h
  split at h <;> cases h
  obtain ⟨kind, hkind, heq⟩ := top.unclosed_eq
  exact ⟨kind, hkind, top.span, List.mem_cons_of_mem _ List.mem_cons_self, heq⟩

theorem step_error {clause : Clause} {fault : ParseFault}
    (h : m.step source clause = .error fault) : Blamed (clause.span :: m.opened) fault := by
  cases clause with
  | text | output | ifTest | forEach => cases h
  | elifTest | otherwise | endIf | endFor => exact delimit_error h
  | other =>
    cases h
    exact ⟨_, by decide, _, List.mem_cons_self, rfl⟩

theorem finish_error {fault : ParseFault} (h : m.finish = .error fault) :
    Blamed m.opened fault := by
  obtain ⟨_ | ⟨⟨top, outer⟩, stack⟩, body⟩ := m
  · cases h
  cases h
  obtain ⟨kind, hkind, heq⟩ := top.unclosed_eq
  exact ⟨kind, hkind, top.span, List.mem_cons_self, heq⟩

/-! ## Runs -/

theorem run_cons (clause : Clause) (clauses : List Clause) :
    run source m (clause :: clauses) = (m.step source clause >>= (run source · clauses)) :=
  List.foldlM_cons

theorem run_error {clauses : List Clause} {fault : ParseFault}
    (h : (do finish (← run source m clauses)) = .error fault) :
    Blamed (clauses.map Clause.span ++ m.opened) fault := by
  induction clauses generalizing m with
  | nil => exact finish_error h
  | cons clause clauses ih =>
    rw [run_cons] at h
    cases hstep : m.step source clause with
    | error e =>
      rw [hstep] at h
      cases h
      exact (step_error hstep).mono (List.cons_subset_cons _ (List.subset_append_right _ _))
    | ok next =>
      rw [hstep] at h
      refine (ih h).mono (List.append_subset.mpr ⟨?_, ?_⟩)
      · exact List.subset_cons_of_subset _ (List.subset_append_left _ _)
      · refine List.Subset.trans (step_subset hstep) ?_
        exact List.cons_subset_cons _ (List.subset_append_right _ _)

theorem outcome_error {clauses : List Clause} {fault : ParseFault}
    (h : outcome source clauses = .error fault) : Blamed (clauses.map Clause.span) fault := by
  have hrun := run_error h
  rwa [show start.opened = [] from rfl, List.append_nil] at hrun

theorem run_height {clauses : List Clause} (h : run source m clauses = .ok after) :
    after.stack.length ≤ clauses.length + m.stack.length := by
  induction clauses generalizing m with
  | nil =>
    cases h
    exact Nat.le_add_left _ _
  | cons clause clauses ih =>
    rw [run_cons] at h
    obtain ⟨next, hstep, hrun⟩ := bind_eq_ok.mp h
    have hnext : next.stack.length ≤ m.stack.length + 1 := by
      rw [← length_opened, ← length_opened]
      rcases step_opened hstep with heq | heq | heq <;> rw [heq] <;> simp
      omega
    have := ih hrun
    simp only [List.length_cons]
    omega

theorem not_reaches_of_length {height : Nat} {clauses : List Clause}
    (h : clauses.length < height) : ¬ Reaches source height start clauses := by
  rintro ⟨front, rest, after, rfl, hrun, hheight⟩
  have := run_height hrun
  simp [start] at this h
  omega

end

end Machine

/-! ## Room for calls -/

/-- The calls from the body around a construct down to a body of it. -/
def Construct.calls : Construct → Nat
  | choice .. => 3
  | loop .. => 2

def between : List Clause → Nat
  | .ifTest .. :: _ => 2
  | .forEach .. :: _ => 1
  | _ => 0

theorem between_le (clauses : List Clause) : between clauses ≤ 2 := by
  unfold between
  split <;> decide

namespace Machine

def calls (m : Machine) : Nat := m.stack.foldr (fun top n => top.1.calls + n) 0

@[simp] theorem calls_add (m : Machine) (bs : List Block) : (m.add bs).calls = m.calls := rfl

theorem calls_open (m : Machine) (c : Construct) (outer body : List Block) :
    calls ⟨(c, outer) :: m.stack, body⟩ = c.calls + m.calls := rfl

theorem calls_push (m : Machine) (c : Construct) : (m.push c).calls = c.calls + m.calls :=
  calls_open m c m.body []

theorem calls_le (m : Machine) : m.calls ≤ 3 * m.stack.length := by
  obtain ⟨stack, body⟩ := m
  unfold calls
  induction stack with
  | nil => exact Nat.le_refl _
  | cons top stack ih =>
    have htop : top.1.calls ≤ 3 := by cases top.1 <;> simp [Construct.calls]
    simp only [List.foldr_cons, List.length_cons] at ih ⊢
    omega

/-- After some of the clauses the next one takes more calls than there may be. -/
def Exhausts (source : Text) (limit : Nat) (m : Machine) (clauses : List Clause) : Prop :=
  ∃ front rest after, clauses = front ++ rest ∧ run source m front = .ok after ∧
    limit ≤ after.calls + between rest

def outcomeWithin (source : Text) (limit : Nat) : List Clause → Machine →
    Except ParseFault (List Block)
  | [], m => if m.calls < limit then m.finish else fail .nestingTooDeep source.length
  | clause :: clauses, m =>
    if m.calls + between (clause :: clauses) < limit then do
      outcomeWithin source limit clauses (← m.step source clause)
    else fail .nestingTooDeep clause.start

section
variable {source : Text} {limit : Nat}

theorem not_exhausts_of_height {height : Nat} {clauses : List Clause}
    (h : ¬ Reaches source (height + 1) start clauses) (hlimit : 3 * height + 2 < limit) :
    ¬ Exhausts source limit start clauses := by
  rintro ⟨front, rest, after, rfl, hrun, hcalls⟩
  have hheight : after.stack.length ≤ height :=
    Nat.le_of_lt_succ (Nat.not_le.mp fun hle => h ⟨front, rest, after, rfl, hrun, hle⟩)
  have hle := calls_le after
  have hnext := between_le rest
  omega

theorem not_exhausts_of_length {clauses : List Clause} (h : 3 * clauses.length < limit) :
    ¬ Exhausts source limit start clauses := by
  rintro ⟨front, rest, after, rfl, hrun, hcalls⟩
  have hheight := run_height hrun
  have hle := calls_le after
  cases rest with
  | nil => simp [start, between] at h hheight hcalls; omega
  | cons clause rest =>
    have hnext := between_le (clause :: rest)
    simp [start] at h hheight
    omega

theorem outcomeWithin_nil {m : Machine} (h : m.calls < limit) :
    outcomeWithin source limit [] m = m.finish :=
  if_pos h

theorem outcomeWithin_cons {m : Machine} {clause : Clause} {clauses : List Clause}
    (h : m.calls + between (clause :: clauses) < limit) :
    outcomeWithin source limit (clause :: clauses) m =
      (do outcomeWithin source limit clauses (← m.step source clause)) :=
  if_pos h

theorem outcomeWithin_full {m : Machine} {clauses : List Clause}
    (h : limit ≤ m.calls + between clauses) :
    outcomeWithin source limit clauses m =
      fail .nestingTooDeep ((clauses.head?.map Clause.start).getD source.length) := by
  cases clauses <;> exact if_neg (Nat.not_lt.mpr h)

theorem outcomeWithin_of_not_exhausts {m : Machine} {clauses : List Clause}
    (h : ¬ Exhausts source limit m clauses) :
    outcomeWithin source limit clauses m = (do finish (← run source m clauses)) := by
  have hroom : m.calls + between clauses < limit :=
    Nat.not_le.mp fun hle => h ⟨[], clauses, m, rfl, rfl, hle⟩
  induction clauses generalizing m with
  | nil => exact outcomeWithin_nil hroom
  | cons clause clauses ih =>
    rw [outcomeWithin_cons hroom, run_cons]
    cases hstep : m.step source clause with
    | error e => rfl
    | ok next =>
      have hnext : ¬ Exhausts source limit next clauses := by
        rintro ⟨front, rest, after, rfl, hrun, hcalls⟩
        refine h ⟨clause :: front, rest, after, rfl, ?_, hcalls⟩
        rw [run_cons, hstep]
        exact hrun
      exact ih hnext (Nat.not_le.mp fun hle => hnext ⟨[], clauses, next, rfl, rfl, hle⟩)

/-- Without room enough the first clause for which there is none is to blame. -/
theorem outcomeWithin_of_exhausts {m : Machine} {clauses : List Clause}
    (h : Exhausts source limit m clauses) :
    ∃ front rest after, clauses = front ++ rest ∧ run source m front = .ok after ∧
      limit ≤ after.calls + between rest ∧ outcomeWithin source limit clauses m =
        fail .nestingTooDeep ((rest.head?.map Clause.start).getD source.length) := by
  obtain ⟨front, rest, after, rfl, hrun, hcalls⟩ := h
  induction front generalizing m with
  | nil =>
    cases hrun
    exact ⟨[], rest, _, rfl, rfl, hcalls, outcomeWithin_full hcalls⟩
  | cons clause front ih =>
    by_cases hroom : m.calls + between (clause :: (front ++ rest)) < limit
    · rw [run_cons] at hrun
      obtain ⟨next, hstep, hnext⟩ := bind_eq_ok.mp hrun
      obtain ⟨front', rest', after', heq, hrun', hcalls', hfail⟩ := ih hnext
      refine ⟨clause :: front', rest', after', congrArg _ heq, ?_, hcalls', ?_⟩
      · rw [run_cons, hstep]
        exact hrun'
      · rw [List.cons_append, outcomeWithin_cons hroom, hstep]
        exact hfail
    · replace hroom := Nat.not_lt.mp hroom
      exact ⟨[], _, m, rfl, rfl, hroom, outcomeWithin_full hroom⟩

/-- A machine with a limited stack fails at a clause as the other one does, or because it has no
room at a clause or at the end. -/
theorem outcomeWithin_error {clauses : List Clause} {fault : ParseFault}
    (h : outcomeWithin source limit clauses start = .error fault) :
    Blamed (clauses.map Clause.span) fault ∨
      (∃ c ∈ clauses, fault = .located .nestingTooDeep c.start) ∨
      fault = .located .nestingTooDeep source.length := by
  by_cases hcalls : Exhausts source limit start clauses
  · obtain ⟨front, rest, after, rfl, -, -, hfail⟩ := outcomeWithin_of_exhausts hcalls
    obtain rfl := Except.error.inj (hfail.symm.trans h)
    cases rest with
    | nil => exact .inr (.inr rfl)
    | cons c rest => exact .inr (.inl ⟨c, by simp, rfl⟩)
  · rw [outcomeWithin_of_not_exhausts hcalls] at h
    exact .inl (outcome_error h)

end

end Machine

end Stencil.Block
