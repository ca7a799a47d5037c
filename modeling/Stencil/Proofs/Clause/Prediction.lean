import Stencil.Proofs.Clause.Failure
import Stencil.Proofs.Expr.Refusals

/-!
# What the next token predicts

Every production decides by the token at its offset whether an expression begins there. A tree
begins where that token does, and a refusal is about a place that is not before it.
-/

namespace Stencil

open Token (Kind lastStop)

/-! ## Streams behind some tokens -/

namespace Token

variable {closes : Kind → Bool} {source : Text}

theorem exists_next {before after : List Token} {t : Token} {offset : Nat}
    (h : stream closes offset (source.drop offset) = before ++ t :: after)
    (hk : t.kind ≠ .invalid) (hc : closes t.kind = false) : ∃ next more, after = next :: more :=
  have ⟨more, hmore⟩ := exists_stream closes source t.stop
  ⟨_, more, (stream_after h hk hc).trans hmore⟩

theorem Follows.stream_eq {ts : List Token} {offset : Nat} (h : Follows source offset ts)
    (hts : ∀ u ∈ ts, u.kind ≠ .invalid ∧ closes u.kind = false) :
    stream closes offset (source.drop offset) =
      ts ++ stream closes (lastStop offset ts) (source.drop (lastStop offset ts)) := by
  induction ts generalizing offset with
  | nil => rfl
  | cons u ts ih =>
    obtain ⟨rfl, hrest⟩ := h
    obtain ⟨hu, hmore⟩ := List.forall_mem_cons.mp hts
    rw [stream_next hu.1 hu.2, ih hrest hmore]
    rfl

theorem Follows.exists_stream {ts : List Token} {t : Token} {offset : Nat}
    (h : Follows source offset (ts ++ [t]))
    (hts : ∀ u ∈ ts, u.kind ≠ .invalid ∧ closes u.kind = false) :
    ∃ more, stream closes offset (source.drop offset) = ts ++ t :: more := by
  obtain ⟨hfront, hlast, -⟩ := follows_append.mp h
  obtain ⟨more, hmore⟩ := Token.exists_stream closes source (lastStop offset ts)
  exact ⟨more, by rw [hfront.stream_eq hts, hmore, ← hlast]⟩

theorem follows_of_stream {before after : List Token} {offset : Nat}
    (h : stream closes offset (source.drop offset) = before ++ after) :
    Follows source offset before := by
  have hf := follows_stream closes source offset
  rw [h, follows_append] at hf
  exact hf.1

end Token

namespace Expr

/-! ## Answers at an offset -/

structure Predicted (source : Text) (offset calls : Nat) (l : Level)
    (answer : Except Refusal (Option Expr)) : Prop where
  /-- There is nothing if and only if there is room for an atom and no expression of the level
  begins with the token at the offset. -/
  none_iff : answer = .ok none ↔
    14 ≤ calls + l.callsAbove ∧ (Token.atOffset source offset).kind ∉ l.first
  /-- A tree stands from the start of that token to the end of a token. -/
  tree : ∀ {e}, answer = .ok (some e) →
    e.start = (Token.atOffset source offset).start ∧ e.start < e.stop ∧
    ∃ t ∈ Token.onward source offset, (Token.atOffset source offset).stop ≤ t.stop ∧ e.stop = t.stop
  /-- The place of an error is not before that token. -/
  located : ∀ {kind o}, answer = .error (.located kind o) →
    (Token.atOffset source offset).start ≤ o ∧ o ≤ source.length
  /-- A refusal has grounds in the tokens. -/
  refusal : ∀ {r}, answer = .error r →
    Grounds (calls + l.callsAbove) (Token.onward source offset) r

theorem openInTrees_onward : OpenInTrees fun _ => false := fun _ _ => rfl

section
variable {source : Text} {offset : Nat}

/-- A production answers as the one over the tokens from there on does. -/
theorem production_onward (source : Text) (offset calls : Nat) (l : Level) :
    Paired (Option.Rel (Behind (fun _ => false) source (Token.onward source offset).length))
      (Parser.production source calls l.rule offset)
      (production (parser (calls + l.callsAbove)) (calls + l.callsAbove) l
        (Token.onward source offset)) :=
  production_mirrors openInTrees_onward calls _ l (Nat.le_refl _) offset

theorem exists_onward (source : Text) (offset : Nat) :
    ∃ ts, Token.onward source offset = Token.atOffset source offset :: ts :=
  Token.exists_stream _ source offset

theorem follows_onward (source : Text) (offset : Nat) :
    Token.Follows source offset (Token.onward source offset) :=
  Token.follows_stream _ source offset

variable {depth room : Nat} {l : Level}

theorem tree_at {e : Expr} {rest : List Token}
    (h : production (parser depth) room l (Token.onward source offset) = .ok (some (e, rest))) :
    e.start = (Token.atOffset source offset).start ∧ e.start < e.stop ∧
    ∃ t ∈ Token.onward source offset,
      (Token.atOffset source offset).stop ≤ t.stop ∧ e.stop = t.stop := by
  obtain ⟨ts, hts, hp⟩ := production_sound (parser_sound depth) room l h
  obtain ⟨t, us, rfl, hstart⟩ := hp.reads.first
  obtain ⟨more, hmore⟩ := exists_onward source offset
  obtain rfl : Token.atOffset source offset = t :=
    (List.cons.inj (hmore.symm.trans (hts.trans (List.cons_append ..)))).1
  have hf := follows_onward source offset
  rw [hts, Token.follows_append] at hf
  have hle : (Token.atOffset source offset).stop ≤ e.stop := by
    rw [hp.reads.stop_eq offset]
    exact hf.1.2.le_lastStop
  have hlt := (Token.atOffset_bounds (hp.reads.valid _ List.mem_cons_self)).1
  obtain ⟨u, hu, hstop⟩ := Token.exists_lastStop (List.cons_ne_nil _ us) offset
  rw [← hp.reads.stop_eq] at hstop
  refine ⟨hstart, by omega, u, ?_, hstop ▸ hle, hstop⟩
  rw [hts]
  exact List.mem_append_left _ hu

theorem refusal_within {kind : ParseKind} {o : Nat}
    (h : production (parser depth) room l (Token.onward source offset) =
      .error (.located kind o)) :
    (Token.atOffset source offset).start ≤ o ∧ o ≤ source.length := by
  obtain ⟨ts, hts⟩ := exists_onward source offset
  have hf := follows_onward source offset
  rw [hts] at hf h
  have hvalid : (Token.atOffset source offset).kind ≠ .invalid := by
    intro hk
    by_cases hroom : room < 14
    · rw [production_tooDeep hroom] at h
      cases h
    · have hnone := (production_eq_none_of_room (parser depth) _ ts l (Nat.not_lt.mp hroom)).mpr
        (by rw [hk]; cases l <;> decide)
      rw [hnone] at h
      cases h
  obtain ⟨hlt, hle⟩ := Token.atOffset_bounds hvalid
  have hfront : Token.Follows source (Token.atOffset source offset).start
      (Token.atOffset source offset :: ts) := ⟨by rw [Token.atOffset_start], hf.2⟩
  let ρ := Relocation.into (Token.atOffset source offset).start source.length
  have htokens := Relocation.into_tokens (hfront.within (by omega))
  have hmove : Movable ρ (production (parser depth) room l) :=
    production_movable (parser_movable depth) room l
  have hmove := hmove (Token.atOffset source offset :: ts)
  rw [htokens] at hmove
  exact Relocation.error_within hmove (by omega) h

theorem predicted (source : Text) (offset calls : Nat) (l : Level) :
    Predicted source offset calls l (Parser.production source calls l.rule offset) where
  none_iff := by
    rw [(production_onward source offset calls l).none_iff]
    obtain ⟨ts, hts⟩ := exists_onward source offset
    rw [hts]
    exact production_eq_none_iff _ _ _ _
  tree h := by
    obtain ⟨⟨e, rest⟩, he, hr⟩ := (production_onward source offset calls l).exists_some h
    obtain rfl := (Prod.mk.inj hr.1).1
    exact tree_at he
  located h := refusal_within ((production_onward source offset calls l).error_iff.mp h)
  refusal h :=
    (production_grounded _ l).grounds ((production_onward source offset calls l).error_iff.mp h)

theorem filterCall_none_iff (source : Text) (offset calls : Nat) :
    Parser.production source calls .filterCall offset = .ok none ↔
      14 ≤ calls + 1 ∧ (Token.atOffset source offset).kind ∉ Level.or.first := by
  rw [(filterCall_production_mirrors openInTrees_onward calls offset).none_iff]
  obtain ⟨ts, hts⟩ := exists_onward source offset
  show filterCall _ _ (Token.onward source offset) = _ ↔ _
  rw [hts]
  exact filterCall_eq_none_iff _ _ _

/-! ## Filter calls that are missing -/

theorem stream_pipe {closes : Kind → Bool} (ho : OpenInTrees closes) {before after : List Token}
    {pipe : Token} (h : Token.stream closes offset (source.drop offset) = before ++ pipe :: after)
    (hk : pipe.kind = .pipe) : after = Token.stream closes pipe.stop (source.drop pipe.stop) :=
  Token.stream_after h (by rw [hk]; decide) (ho pipe (inTree_of_kind hk trivial))

/-- Where a filter call is missing, the pipe is a token of the stream, and no call begins with the
token behind it. -/
theorem Grounds.exists_pipe {closes : Kind → Bool} (ho : OpenInTrees closes) {o : Nat}
    (h : Grounds room (Token.stream closes offset (source.drop offset))
      (.located .missingFilterCall o)) :
    ∃ pipe ∈ Token.stream closes offset (source.drop offset), pipe.kind = .pipe ∧ pipe.stop = o ∧
      (Token.atOffset source o).kind ∉ Level.or.first := by
  cases h with
  | inside hk => cases hk
  | @filterCall before pipe after heq hk hnext =>
    obtain ⟨ts, hts⟩ := Token.exists_stream closes source pipe.stop
    rw [← stream_pipe ho heq hk] at hts
    exact ⟨pipe, by simp [heq], hk, rfl, hnext _ (by simp [hts])⟩

theorem Grounds.not_before {o : Nat} {ts : List Token}
    (h : Grounds room ts (.located .missingFilterCall o)) (hf : Token.Follows source o ts) :
    False := by
  cases h with
  | inside hk => cases hk
  | @filterCall before pipe after heq hk =>
    rw [heq] at hf
    obtain ⟨p, hp, hpipe⟩ := hf.exists_offset pipe (by simp)
    have hvalid : (Token.atOffset source p).kind ≠ .invalid := by rw [← hpipe, hk]; decide
    have hlt := (Token.atOffset_bounds hvalid).1
    have hle := Token.le_start_atOffset source p
    rw [← hpipe] at hlt hle
    omega

/-- Behind an expression and a pipe, a filter call is missing if and only if none begins there,
given the room for one. -/
theorem filterCall_missing_iff {calls : Nat} {e : Expr} {ts rest : List Token} {pipe : Token}
    (hp : Phrase calls .piped e ts) (hk : pipe.kind = .pipe) (hcalls : 14 < calls)
    (h : Token.onward source offset = ts ++ pipe :: rest) :
    Parser.production source calls .expression offset =
        .error (.located .missingFilterCall pipe.stop) ↔
      (Token.atOffset source pipe.stop).kind ∉ Level.or.first := by
  refine (production_onward source offset calls .piped).error_iff.trans ?_
  rw [h]
  show production (parser calls) calls .piped _ = _ ↔ _
  have hrest : rest = Token.onward source pipe.stop := stream_pipe openInTrees_onward h hk
  obtain ⟨us, hus⟩ := exists_onward source pipe.stop
  rw [← hrest] at hus
  -- the production goes on from the expression in the loop of the filters
  have hends : Ends .or (pipe :: rest) := ends_of_kind .pipe (by rw [hk]; rfl) (by decide)
  obtain ⟨fuel, hfuel, hloop⟩ := (hp.reads.recovers hp.fits (Nat.le_refl _) hp.short).tree
    hp.levelled .piped hp.le_level (pipe :: rest) hends
  obtain ⟨m, rfl⟩ : ∃ m, fuel = m + 1 := ⟨fuel - 1, by
    rw [List.length_cons] at hfuel
    omega⟩
  rw [hloop]
  show (pipesFrom (filterCall (parser calls) (calls - 1)) (m + 1) e (pipe :: rest)).map some = _ ↔ _
  have hmissing : filterCall (parser calls) (calls - 1) rest = .ok none ↔ _ :=
    hus ▸ filterCall_eq_none_iff (parser calls) (Token.atOffset source pipe.stop) us
  rw [and_iff_right (Nat.le_sub_one_of_lt hcalls)] at hmissing
  have hs := parser_sound calls
  have hi := fun n (hn : n < calls) => parser_grounded calls n hn
  rw [map_eq_error, pipesFrom, if_pos hk, ← hmissing]
  constructor
  · intro hpipes
    -- another pipe without a filter call would end further on
    have hfollows := follows_onward source pipe.stop
    rw [← hrest] at hfollows
    rcases bind_eq_error.mp hpipes with hcall | ⟨parsed, hparsed, hmore⟩
    · have hgrounds := filterCall_grounds hs (fun n hn => hi n (by omega)) hcall
      exact (hgrounds.not_before hfollows).elim
    rcases parsed with _ | ⟨right, after⟩
    · exact hparsed
    · obtain ⟨vs, rfl⟩ := (filterCall_sound hs).front hparsed
      have hgrounds := pipesFrom_grounded hs hi m hmore
      exact ((hgrounds.append vs).not_before hfollows).elim
  · intro hnone
    rw [hnone]
    rfl

end

end Expr

end Stencil
