import Stencil.Proofs.Block.Grammar
import Stencil.Proofs.Except

/-!
# What the builder accepts

The builder takes the clauses that nest and gives the blocks that they nest to.
-/

namespace Stencil.Block

theorem fail_ne_ok {α : Type} {kind : ParseKind} {offset : Nat} {a : α} :
    (fail kind offset : Except ParseFault α) ≠ .ok a := nofun

theorem arm_eq_ok {nested : Builder} {opening : Clause} {test : Option Expr}
    {clauses rest : List Clause} {a : Arm} (h : arm nested opening test clauses = .ok (a, rest)) :
    ∃ body, nested clauses = .ok (body, rest) ∧
      a = .mk ⟨opening.start, endOf opening body⟩ test body := by
  obtain ⟨⟨body, after⟩, hb, heq⟩ := bind_eq_ok.mp h
  obtain ⟨rfl, rfl⟩ := Prod.mk.inj (pure_eq_ok.mp heq)
  exact ⟨body, hb, rfl⟩

/-! ## Room for calls -/

theorem roomFor_eq_ok {nested : Option Builder} {builder : Builder} {opening : Nat} :
    roomFor nested opening = .ok builder ↔ nested = some builder := by
  cases nested with
  | none => exact ⟨nofun, nofun⟩
  | some b => exact pure_eq_ok.trans (Option.some_inj (a := b)).symm

def inner? (source : Text) (n between : Nat) : Option Builder :=
  if between ≤ n then some (buildBody source (n - between)) else none

theorem inner_add (source : Text) (n between : Nat) :
    inner? source (n + between) between = some (buildBody source n) := by
  rw [inner?, if_pos (Nat.le_add_left _ _), Nat.add_sub_cancel]

theorem inner_eq_some {source : Text} {n between : Nat} {nested : Builder}
    (h : inner? source n between = some nested) :
    ∃ k, n = k + between ∧ nested = buildBody source k := by
  unfold inner? at h
  split at h
  · exact ⟨n - between, by omega, (Option.some.inj h).symm⟩
  · cases h

theorem inner_eq_none {source : Text} {n between : Nat} :
    inner? source n between = none ↔ n < between := by
  simp only [inner?, ite_eq_right_iff, reduceCtorEq, imp_false, Nat.not_le]

theorem buildBody_succ (source : Text) (clauses : List Clause) : ∀ n,
    buildBody source (n + 1) clauses =
      buildFrom source (inner? source n 2) (inner? source n 1) clauses.length clauses
  | 0 | 1 | _ + 2 => rfl

/-! ## What is taken nests -/

section
variable {source : Text} {n : Nat} {nested : Builder}

/-- What the builder takes are the first clauses, and they nest less than `n` deep. -/
def Below (source : Text) (n : Nat) (nested : Builder) : Prop :=
  ∀ clauses blocks rest, nested clauses = .ok (blocks, rest) →
    ∃ m taken, n = m + 1 ∧ clauses = taken ++ rest ∧ Nests source m taken blocks

theorem elifArms_sound (hn : Below source (n + 1) nested) :
    ∀ {fuel clauses arms rest}, elifArms nested fuel clauses = .ok (arms, rest) →
      ∃ taken, clauses = taken ++ rest ∧ ∀ {more last}, NestsArms source n more last →
        NestsArms source n (taken ++ more) (arms ++ last) := by
  intro fuel
  induction fuel with
  | zero =>
    intro clauses arms rest h
    obtain ⟨rfl, rfl⟩ := Prod.mk.inj (pure_eq_ok.mp h)
    exact ⟨[], rfl, id⟩
  | succ fuel ih =>
    intro clauses arms rest h
    unfold elifArms at h
    split at h
    · next s t _ hfuel =>
      cases hfuel
      obtain ⟨⟨first, after⟩, hfirst, hnext⟩ := bind_eq_ok.mp h
      obtain ⟨⟨others, _⟩, hothers, heq⟩ := bind_eq_ok.mp hnext
      obtain ⟨rfl, rfl⟩ := Prod.mk.inj (pure_eq_ok.mp heq)
      obtain ⟨body, hbody, rfl⟩ := arm_eq_ok hfirst
      obtain ⟨_, inner, ⟨⟩, rfl, hinner⟩ := hn _ _ _ hbody
      obtain ⟨taken, rfl, htaken⟩ := ih hothers
      refine ⟨.elifTest s t :: (inner ++ taken), by simp, fun hlast => ?_⟩
      have := NestsArms.elifTest (s := s) (t := t) hinner (htaken hlast)
      rwa [← List.append_assoc] at this
    · obtain ⟨rfl, rfl⟩ := Prod.mk.inj (pure_eq_ok.mp h)
      exact ⟨[], rfl, id⟩

theorem elseArm_sound (hn : Below source (n + 1) nested) {clauses rest : List Clause}
    {arms : List Arm} (h : elseArm nested clauses = .ok (arms, rest)) :
    ∃ taken, clauses = taken ++ rest ∧ NestsArms source n taken arms := by
  unfold elseArm at h
  split at h
  · obtain ⟨⟨last, after⟩, hlast, heq⟩ := bind_eq_ok.mp h
    obtain ⟨rfl, rfl⟩ := Prod.mk.inj (pure_eq_ok.mp heq)
    obtain ⟨body, hbody, rfl⟩ := arm_eq_ok hlast
    obtain ⟨_, inner, ⟨⟩, rfl, hinner⟩ := hn _ _ _ hbody
    exact ⟨_ :: inner, rfl, .otherwise hinner⟩
  · obtain ⟨rfl, rfl⟩ := Prod.mk.inj (pure_eq_ok.mp h)
    exact ⟨[], rfl, .nil⟩

theorem buildChoice_sound (hn : Below source n nested) {s : Span} {t : Expr} {b : Block}
    {clauses rest : List Clause} (h : buildChoice nested s t clauses = .ok (b, rest)) :
    ∃ taken, clauses = taken ++ rest ∧ ∀ {cs bs}, Nests source (n + 2) cs bs →
      Nests source (n + 2) (.ifTest s t :: (taken ++ cs)) (b :: bs) := by
  obtain ⟨⟨first, _⟩, hfirst, hnext⟩ := bind_eq_ok.mp h
  obtain ⟨⟨middle, _⟩, hmiddle, hnext'⟩ := bind_eq_ok.mp hnext
  obtain ⟨⟨last, after⟩, hlast, hend⟩ := bind_eq_ok.mp hnext'
  obtain ⟨body, hbody, rfl⟩ := arm_eq_ok hfirst
  obtain ⟨m, inner, rfl, rfl, hinner⟩ := hn _ _ _ hbody
  obtain ⟨elifs, rfl, helifs⟩ := elifArms_sound hn hmiddle
  obtain ⟨tail, rfl, htail⟩ := elseArm_sound hn hlast
  dsimp only at hend
  split at hend
  · next close _ =>
    obtain ⟨rfl, rfl⟩ := Prod.mk.inj (pure_eq_ok.mp hend)
    refine ⟨inner ++ ((elifs ++ tail) ++ [.endIf close]), by simp, fun hbs => ?_⟩
    have := Nests.choice (s := s) (t := t) (c := close) hinner (helifs htail) hbs
    simpa [Clause.start, Clause.span] using this
  · exact absurd hend fail_ne_ok

theorem buildLoop_sound (hn : Below source n nested) {s : Span} {x : Symbol} {e : Expr} {b : Block}
    {clauses rest : List Clause} (h : buildLoop nested s x e clauses = .ok (b, rest)) :
    ∃ taken, clauses = taken ++ rest ∧ ∀ {cs bs}, Nests source (n + 1) cs bs →
      Nests source (n + 1) (.forEach s x e :: (taken ++ cs)) (b :: bs) := by
  obtain ⟨⟨body, after⟩, hbody, hend⟩ := bind_eq_ok.mp h
  obtain ⟨m, inner, rfl, rfl, hinner⟩ := hn _ _ _ hbody
  dsimp only at hend
  split at hend
  · next close _ =>
    obtain ⟨rfl, rfl⟩ := Prod.mk.inj (pure_eq_ok.mp hend)
    refine ⟨inner ++ [.endFor close], by simp, fun hbs => ?_⟩
    have := Nests.loop (s := s) (x := x) (e := e) (c := close) hinner hbs
    simpa using this
  · exact absurd hend fail_ne_ok

structure Inside (source : Text) (n : Nat) (inChoice inLoop : Option Builder) : Prop where
  choice : ∀ nested, inChoice = some nested → ∃ k, n = k + 2 ∧ Below source k nested
  loop : ∀ nested, inLoop = some nested → ∃ k, n = k + 1 ∧ Below source k nested

theorem inside_of_below (h : ∀ k < n, Below source k (buildBody source k)) :
    Inside source n (inner? source n 2) (inner? source n 1) := by
  constructor <;> intro nested hnested <;> obtain ⟨k, rfl, rfl⟩ := inner_eq_some hnested
  · exact ⟨k, rfl, h k (by omega)⟩
  · exact ⟨k, rfl, h k (by omega)⟩

theorem buildFrom_sound {inChoice inLoop : Option Builder}
    (hn : Inside source n inChoice inLoop) : ∀ {fuel clauses blocks rest},
    buildFrom source inChoice inLoop fuel clauses = .ok (blocks, rest) →
      ∃ taken, clauses = taken ++ rest ∧ Nests source n taken blocks := by
  -- one clause after another: a construct takes its own, and the rest of the body follows it
  intro fuel
  induction fuel with
  | zero =>
    intro clauses blocks rest h
    obtain ⟨rfl, rfl⟩ := Prod.mk.inj (pure_eq_ok.mp h)
    exact ⟨[], rfl, .nil⟩
  | succ fuel ih =>
    intro clauses blocks rest h
    rcases clauses with _ | ⟨clause, clauses⟩
    · obtain ⟨rfl, rfl⟩ := Prod.mk.inj (pure_eq_ok.mp h)
      exact ⟨[], rfl, .nil⟩
    cases clause with
    | text s =>
      obtain ⟨⟨others, _⟩, hothers, heq⟩ := bind_eq_ok.mp h
      obtain ⟨rfl, rfl⟩ := Prod.mk.inj (pure_eq_ok.mp heq)
      obtain ⟨taken, rfl, htaken⟩ := ih hothers
      exact ⟨_ :: taken, rfl, .text htaken⟩
    | output s e =>
      obtain ⟨⟨others, _⟩, hothers, heq⟩ := bind_eq_ok.mp h
      obtain ⟨rfl, rfl⟩ := Prod.mk.inj (pure_eq_ok.mp heq)
      obtain ⟨taken, rfl, htaken⟩ := ih hothers
      exact ⟨_ :: taken, rfl, .output htaken⟩
    | ifTest s t =>
      obtain ⟨nested, hroom, h⟩ := bind_eq_ok.mp h
      obtain ⟨⟨block, _⟩, hblock, hnext⟩ := bind_eq_ok.mp h
      obtain ⟨⟨others, _⟩, hothers, heq⟩ := bind_eq_ok.mp hnext
      obtain ⟨rfl, rfl⟩ := Prod.mk.inj (pure_eq_ok.mp heq)
      obtain ⟨k, rfl, hnested⟩ := hn.choice nested (roomFor_eq_ok.mp hroom)
      obtain ⟨construct, rfl, hconstruct⟩ := buildChoice_sound hnested hblock
      obtain ⟨taken, rfl, htaken⟩ := ih hothers
      exact ⟨_ :: (construct ++ taken), by simp, hconstruct htaken⟩
    | forEach s x e =>
      obtain ⟨nested, hroom, h⟩ := bind_eq_ok.mp h
      obtain ⟨⟨block, _⟩, hblock, hnext⟩ := bind_eq_ok.mp h
      obtain ⟨⟨others, _⟩, hothers, heq⟩ := bind_eq_ok.mp hnext
      obtain ⟨rfl, rfl⟩ := Prod.mk.inj (pure_eq_ok.mp heq)
      obtain ⟨k, rfl, hnested⟩ := hn.loop nested (roomFor_eq_ok.mp hroom)
      obtain ⟨construct, rfl, hconstruct⟩ := buildLoop_sound hnested hblock
      obtain ⟨taken, rfl, htaken⟩ := ih hothers
      exact ⟨_ :: (construct ++ taken), by simp, hconstruct htaken⟩
    | elifTest | otherwise | endIf | endFor =>
      obtain ⟨rfl, rfl⟩ := Prod.mk.inj (pure_eq_ok.mp h)
      exact ⟨[], rfl, .nil⟩
    | other => exact absurd h fail_ne_ok

theorem buildBody_sound (calls : Nat) : Below source calls (buildBody source calls) := by
  induction calls using Nat.strongRecOn with
  | ind calls ih =>
    cases calls with
    | zero => exact fun _ _ _ h => absurd h fail_ne_ok
    | succ n =>
      intro clauses blocks rest h
      rw [buildBody_succ] at h
      have hinside := inside_of_below fun k hk => ih k (Nat.lt_succ_of_lt hk)
      obtain ⟨taken, rfl, htaken⟩ := buildFrom_sound hinside h
      exact ⟨n, taken, rfl, rfl, htaken⟩

end

/-! ## What nests is taken -/

def Stops : List Clause → Prop
  | [] | .elifTest .. :: _ | .otherwise _ :: _ | .endIf _ :: _ | .endFor _ :: _ => True
  | _ => False

theorem buildFrom_stops (source : Text) (inChoice inLoop : Option Builder) (fuel : Nat) :
    ∀ {rest}, Stops rest → buildFrom source inChoice inLoop fuel rest = .ok ([], rest) := by
  intro rest h
  cases fuel with
  | zero => rfl
  | succ fuel =>
    rcases rest with _ | ⟨clause, rest⟩
    · rfl
    cases clause with
    | elifTest | otherwise | endIf | endFor => rfl
    | text | output | ifTest | forEach | other => exact h.elim

section
variable {nested : Builder} {cs after rest : List Clause} {body : List Block}

theorem arm_eq {opening : Clause} (test : Option Expr) (h : nested cs = .ok (body, rest)) :
    arm nested opening test cs =
      .ok (.mk ⟨opening.start, endOf opening body⟩ test body, rest) := by
  rw [arm, h]
  rfl

theorem buildChoice_eq (s : Span) (t : Expr) {close : Span} {middle last : List Arm}
    {more : List Clause} (hbody : nested cs = .ok (body, more))
    (hmiddle : elifArms nested more.length more = .ok (middle, after))
    (hlast : elseArm nested after = .ok (last, .endIf close :: rest)) :
    buildChoice nested s t cs = .ok (.choice ⟨s.start, close.stop⟩
      (.mk ⟨s.start, endOf (.ifTest s t) body⟩ (some t) body :: (middle ++ last)), rest) := by
  simp only [buildChoice, arm_eq _ hbody, hmiddle, hlast, ok_bind]
  rfl

theorem buildLoop_eq (s : Span) (x : Symbol) (e : Expr) {close : Span}
    (hbody : nested cs = .ok (body, .endFor close :: rest)) :
    buildLoop nested s x e cs = .ok (.loop ⟨s.start, close.stop⟩ x e body, rest) := by
  rw [buildLoop, hbody]
  rfl

end

section
variable {source : Text}

theorem NestsArms.stops {n : Nat} {cs : List Clause} {arms : List Arm} (close : Span)
    (rest : List Clause) : NestsArms source n cs arms → Stops (cs ++ .endIf close :: rest)
  | .nil | .otherwise _ | .elifTest .. => trivial

mutual

/-- A body is taken up to where it stops. -/
theorem Nests.buildFrom_eq : ∀ {n cs bs}, Nests source n cs bs →
    ∀ fuel rest, Stops rest → (cs ++ rest).length ≤ fuel →
      buildFrom source (inner? source n 2) (inner? source n 1) fuel (cs ++ rest) = .ok (bs, rest)
  | _, _, _, .nil => fun _ _ hr _ => buildFrom_stops source _ _ _ hr
  | _, _, _, .text h => fun fuel rest hr hf => by
    cases fuel with
    | zero => cases hf
    | succ fuel =>
      rw [List.cons_append, buildFrom, h.buildFrom_eq _ _ hr (Nat.le_of_succ_le_succ hf)]
      rfl
  | _, _, _, .output h => fun fuel rest hr hf => by
    cases fuel with
    | zero => cases hf
    | succ fuel =>
      rw [List.cons_append, buildFrom, h.buildFrom_eq _ _ hr (Nat.le_of_succ_le_succ hf)]
      rfl
  | _, _, _, @Nests.choice _ n s t close first _ more _ cs _ h ha hs => fun fuel rest hr hf => by
    cases fuel with
    | zero => cases hf
    | succ fuel =>
      have hbody : buildBody source (n + 1) (first ++ (more ++ .endIf close :: (cs ++ rest))) = _ :=
        h.buildBody_append (ha.stops _ _)
      obtain ⟨middle, last, after, hmiddle, hlast, rfl⟩ :=
        ha.arms_eq _ close (cs ++ rest) (Nat.le_refl _)
      have hblock := buildChoice_eq s t hbody hmiddle hlast
      -- what follows the construct is shorter, so the fuel is enough for it
      have hlength : (cs ++ rest).length ≤ fuel := by
        simp at hf ⊢
        omega
      have hroom : inner? source (n + 3) 2 = some (buildBody source (n + 1)) := inner_add source _ 2
      have hs := hs.buildFrom_eq _ _ hr hlength
      rw [hroom] at hs ⊢
      simp only [List.cons_append, List.append_assoc, buildFrom, roomFor, pure_bind, hblock, hs,
        ok_bind]
      rfl
  | _, _, _, @Nests.loop _ n s x e close inner _ cs _ h hs => fun fuel rest hr hf => by
    cases fuel with
    | zero => cases hf
    | succ fuel =>
      have hbody : buildBody source (n + 1) (inner ++ .endFor close :: (cs ++ rest)) = _ :=
        h.buildBody_append (show Stops (.endFor close :: _) from trivial)
      have hblock := buildLoop_eq s x e hbody
      have hlength : (cs ++ rest).length ≤ fuel := by
        simp at hf ⊢
        omega
      have hroom : inner? source (n + 2) 1 = some (buildBody source (n + 1)) := inner_add source _ 1
      have hs := hs.buildFrom_eq _ _ hr hlength
      rw [hroom] at hs ⊢
      simp only [List.cons_append, List.append_assoc, buildFrom, roomFor, pure_bind, hblock, hs,
        ok_bind]
      rfl

theorem Nests.buildBody_append : ∀ {n cs bs rest}, Nests source n cs bs → Stops rest →
    buildBody source (n + 1) (cs ++ rest) = .ok (bs, rest)
  | n, _, _, _, h, hr => (buildBody_succ source _ n).trans (h.buildFrom_eq _ _ hr (Nat.le_refl _))

theorem NestsArms.arms_eq : ∀ {n cs arms}, NestsArms source n cs arms →
    ∀ fuel close rest, (cs ++ .endIf close :: rest).length ≤ fuel → ∃ middle last after,
      elifArms (buildBody source (n + 1)) fuel (cs ++ .endIf close :: rest) = .ok (middle, after) ∧
      elseArm (buildBody source (n + 1)) after = .ok (last, .endIf close :: rest) ∧
      arms = middle ++ last
  | _, _, _, .nil => fun fuel close rest _ => by
    refine ⟨[], [], .endIf close :: rest, ?_, rfl, rfl⟩
    cases fuel <;> rfl
  | _, _, _, @NestsArms.otherwise _ n s inner _ h => fun fuel close rest _ => by
    have hbody : buildBody source (n + 1) (inner ++ .endIf close :: rest) = _ :=
      h.buildBody_append (show Stops (.endIf close :: rest) from trivial)
    refine ⟨[], [_], .otherwise s :: (inner ++ .endIf close :: rest), ?_, ?_, rfl⟩
    · cases fuel <;> rfl
    · simp only [elseArm, arm_eq _ hbody, ok_bind]
      rfl
  | _, _, _, @NestsArms.elifTest _ n _ _ inner _ more _ h ha => fun fuel close rest hf => by
    cases fuel with
    | zero => cases hf
    | succ fuel =>
      have hbody : buildBody source (n + 1) (inner ++ (more ++ .endIf close :: rest)) = _ :=
        h.buildBody_append (ha.stops _ _)
      have hlength : (more ++ .endIf close :: rest).length ≤ fuel := by
        simp at hf ⊢
        omega
      obtain ⟨middle, last, after, hmiddle, hlast, rfl⟩ := ha.arms_eq _ _ _ hlength
      refine ⟨_ :: middle, last, after, ?_, hlast, rfl⟩
      simp only [List.cons_append, List.append_assoc, elifArms, arm_eq _ hbody, hmiddle, ok_bind]
      rfl

end

theorem Nests.buildBody_eq {n : Nat} {cs : List Clause} {bs : List Block}
    (h : Nests source n cs bs) : buildBody source (n + 1) cs = .ok (bs, []) := by
  have hbody := h.buildBody_append (show Stops [] from trivial)
  rwa [List.append_nil] at hbody

/-- What is built from all of the clauses is what they nest to. -/
theorem build_eq_ok_iff {calls : Nat} {cs : List Clause} {bs : List Block} :
    build source calls cs = .ok bs ↔ ∃ n, calls = n + 1 ∧ Nests source n cs bs := by
  constructor
  · intro h
    obtain ⟨⟨blocks, rest⟩, hbody, hrest⟩ := bind_eq_ok.mp h
    obtain ⟨n, taken, rfl, rfl, hn⟩ := buildBody_sound calls _ _ _ hbody
    cases rest with
    | nil =>
      obtain rfl := pure_eq_ok.mp hrest
      rw [List.append_nil]
      exact ⟨n, rfl, hn⟩
    | cons stray rest => exact absurd hrest fail_ne_ok
  · rintro ⟨n, rfl, h⟩
    rw [build, h.buildBody_eq]
    rfl

theorem nests_of_build {n : Nat} {cs : List Clause} {bs : List Block}
    (h : build source (n + 1) cs = .ok bs) : Nests source n cs bs := by
  obtain ⟨m, hm, hn⟩ := build_eq_ok_iff.mp h
  rwa [Nat.succ.inj hm]

end

/-! ## Accepted clauses and the blocks built from them -/

/-- The builder accepts the clauses that nest within its limit, whatever this is, keeps all of them
in their order, and builds every block that holds what its clauses say. -/
theorem build_balanced (source : Text) (n : Nat) :
    (∀ clauses, (∃ blocks, build source (n + 1) clauses = .ok blocks) ↔ Balanced n clauses) ∧
    (∀ clauses blocks, build source (n + 1) clauses = .ok blocks →
      buildBody source (n + 1) clauses = .ok (blocks, []) ∧
      (flatten blocks).map Clause.kept = clauses.map Clause.kept ∧ AllFormed source blocks n) ∧
    ∀ blocks, AllFormed source blocks n → build source (n + 1) (flatten blocks) = .ok blocks := by
  refine ⟨fun clauses => ⟨?_, ?_⟩, fun clauses blocks h => ?_, fun blocks h => ?_⟩
  · rintro ⟨blocks, h⟩
    exact (nests_of_build h).balanced
  · intro h
    obtain ⟨blocks, hn⟩ : ∃ blocks, Nests source _ clauses blocks := h.nests
    exact ⟨blocks, build_eq_ok_iff.mpr ⟨n, rfl, hn⟩⟩
  · have hn := nests_of_build h
    exact ⟨hn.buildBody_eq, hn.flatten_kept, hn.formed⟩
  · exact build_eq_ok_iff.mpr ⟨n, rfl, h.nests⟩

theorem build_balanced_choice_in_loop :
    let clauses := [.forEach ⟨0, 14⟩ ⟨⟨7, 8⟩, ['x']⟩ (.symbol ⟨12, 13⟩ ['y']),
      .ifTest ⟨14, 24⟩ (.symbol ⟨20, 21⟩ ['x']), .otherwise ⟨24, 34⟩, .endIf ⟨34, 45⟩,
      .endFor ⟨45, 57⟩]
    let blocks := [.loop ⟨0, 57⟩ ⟨⟨7, 8⟩, ['x']⟩ (.symbol ⟨12, 13⟩ ['y']) [.choice ⟨14, 45⟩
      [.mk ⟨14, 24⟩ (some (.symbol ⟨20, 21⟩ ['x'])) [], .mk ⟨24, 34⟩ none []]]]
    build [] 6 clauses = .ok blocks ∧ (flatten blocks).map Clause.kept = clauses.map Clause.kept ∧
      build [] 6 (flatten blocks) = .ok blocks := by
  intro clauses blocks
  have h : build [] 6 clauses = .ok blocks := rfl
  obtain ⟨_, hkept, hformed⟩ := (build_balanced [] 5).2.1 clauses blocks h
  exact ⟨h, hkept, (build_balanced [] 5).2.2 blocks hformed⟩

/-- Arms need a test in the first place, and blocks do not tell where the clause that closes them
starts. -/
theorem build_not_exact :
    build [] 4 [.otherwise ⟨0, 5⟩, .endIf ⟨5, 10⟩] = .error (.located .unknownClause 0) ∧
    ¬ ∃ starts : List Block → List Nat, ∀ clauses blocks, build [] 4 clauses = .ok blocks →
      starts blocks = clauses.map Clause.start := by
  refine ⟨rfl, fun ⟨starts, h⟩ => ?_⟩
  have near := h [.ifTest ⟨0, 2⟩ default, .endIf ⟨4, 10⟩] _ rfl
  have far := h [.ifTest ⟨0, 2⟩ default, .endIf ⟨8, 10⟩] _ rfl
  exact absurd (near.symm.trans far) (by decide)

end Stencil.Block
