import Stencil.Proofs.Expr.Levels
import Stencil.Proofs.Expr.Reading

/-!
# Parsing by offsets

The productions of the parser ask for tokens at the offsets where trees and other tokens end. These
are the offsets at which the tokens of a stream follow one another, so the productions answer as the
productions over these tokens do, with the same trees and the same errors.
-/

namespace Stencil

open Token (Kind atOffset stream exists_stream)

namespace Level

def callsAbove : Level → Nat
  | piped => 0
  | or => 2
  | and => 3
  | not => 4
  | comparison => 5
  | sum => 7
  | product => 9
  | sign => 11
  | postfixed => 12
  | atom => 13

def rule : Level → Expr.Parser.Rule
  | piped => .expression
  | or => .or
  | and => .and
  | not => .not
  | comparison => .comparison
  | sum => .sum
  | product => .product
  | sign => .signed
  | postfixed => .postfixed
  | atom => .atom

end Level

namespace Expr

/-! ## Two readings -/

variable {closes : Kind → Bool} {source : Text}

/-- The tokens after a tree are those from where it ends, fewer than `n`. -/
def Behind (closes : Kind → Bool) (source : Text) (n : Nat) (e : Expr) (p : Parsed) : Prop :=
  p = (e, stream closes e.stop (source.drop e.stop)) ∧ p.2.length < n

def stopAfter (offset : Nat) (items : List Expr) : Nat := (items.getLast?.map stop).getD offset

def ItemsBehind (closes : Kind → Bool) (source : Text) (offset n : Nat) (items : List Expr)
    (r : List Expr × List Token) : Prop :=
  r = (items, stream closes (stopAfter offset items) (source.drop (stopAfter offset items))) ∧
    r.2.length < n

/-- A production answers at every offset as one over the tokens from there on does. -/
def Mirrors (closes : Kind → Bool) (source : Text) (p : Parser.Production) (q : Production) :
    Prop :=
  ∀ offset,
    Paired (Option.Rel (Behind closes source (stream closes offset (source.drop offset)).length))
    (p offset) (q (stream closes offset (source.drop offset)))

def OpenInTrees (closes : Kind → Bool) : Prop := ∀ t, InTree t → closes t.kind = false

theorem mirrors_of_tooDeep {p : Parser.Production} {q : Production}
    (hp : ∀ o, p o = .error .tooDeep) (hq : ∀ ts, q ts = .error .tooDeep) :
    Mirrors closes source p q := by
  intro offset
  rw [hp, hq]
  exact .error _

/-! ## Constants -/

theorem integerLiteral_span {t : Token} {e : Expr} (h : integerLiteral t = .ok e) :
    e.span = t.span := by
  simp only [integerLiteral] at h
  repeat' split at h
  all_goals first | cases h; done | (obtain rfl := pure_eq_ok.mp h; rfl)

theorem floatLiteral_span {t : Token} {e : Expr} (h : floatLiteral t = .ok e) :
    e.span = t.span := by
  simp only [floatLiteral] at h
  split at h
  · obtain rfl := pure_eq_ok.mp h
    rfl
  · cases h

theorem literal_paired {literal : Token → Except Refusal Expr}
    (h : ∀ {t e}, literal t = .ok e → e.span = t.span) (t : Token) :
    Paired (fun e d => d = e ∧ e.stop = t.stop) (literal t) (literal t) := by
  cases hl : literal t with
  | error r => exact .error r
  | ok e => exact .ok ⟨rfl, congrArg Span.stop (h hl)⟩

/-! ## Tokens at offsets -/

/-- A kind is accepted if the next token is of it. -/
theorem accept_stream {k : Kind} (hv : k ≠ .invalid) (hc : closes k = false) (offset : Nat) :
    accept? k (stream closes offset (source.drop offset)) =
      if (atOffset source offset).kind = k then
        some (atOffset source offset, stream closes (atOffset source offset).stop
          (source.drop (atOffset source offset).stop))
      else none := by
  by_cases h : (atOffset source offset).kind = k
  · rw [Token.stream_next (h ▸ hv) (h ▸ hc)]
    rfl
  · obtain ⟨ts, hts⟩ := exists_stream closes source offset
    rw [hts, if_neg h]
    exact if_neg h

/-- A token that is asked for is the next one of the stream. -/
theorem expect_cases {k : Kind} (hv : k ≠ .invalid) (hc : closes k = false) (error : ParseKind)
    (offset : Nat) :
    (Parser.expect source k error offset = .error (.located error offset) ∧
      accept? k (stream closes offset (source.drop offset)) = none) ∨
    ∃ t, Parser.expect source k error offset = .ok t ∧
      accept? k (stream closes offset (source.drop offset)) =
        some (t, stream closes t.stop (source.drop t.stop)) ∧
      (stream closes t.stop (source.drop t.stop)).length <
        (stream closes offset (source.drop offset)).length := by
  rw [accept_stream hv hc, Parser.expect]
  by_cases h : (atOffset source offset).kind = k
  · have hnext : stream closes offset (source.drop offset) = _ :=
      Token.stream_next (h ▸ hv) (h ▸ hc)
    rw [hnext, if_pos h, if_pos h]
    exact .inr ⟨_, rfl, rfl, Nat.lt_succ_self _⟩
  · rw [if_neg h, if_neg h]
    exact .inl ⟨rfl, rfl⟩

section
variable (ho : OpenInTrees closes)
include ho

theorem stream_of_inTree {offset : Nat} (h : InTree (atOffset source offset)) :
    stream closes offset (source.drop offset) =
      atOffset source offset :: stream closes (atOffset source offset).stop
        (source.drop (atOffset source offset).stop) := by
  refine Token.stream_next (fun hk => ?_) (ho _ h)
  rw [InTree, hk] at h
  exact h

/-- A tree that ends with a token that is asked for. -/
theorem expect_paired {k : Kind} (hk : InTree ⟨k, 0, 0, []⟩) (error : ParseKind) {offset n : Nat}
    {f : Token → Expr} (hf : ∀ t, (f t).stop = t.stop)
    (hn : (stream closes offset (source.drop offset)).length ≤ n) :
    Paired (Behind closes source n) (do return f (← Parser.expect source k error offset))
      (match accept? k (stream closes offset (source.drop offset)) with
        | some (t, rest) => return (f t, rest)
        | none => fail error offset) := by
  have hv : k ≠ .invalid := by rintro rfl; exact hk
  rcases expect_cases hv (ho _ hk) error offset with ⟨he, ha⟩ | ⟨t, he, ha, hlt⟩
  · rw [he, ha]
    exact .error _
  · rw [he, ha]
    exact .ok ⟨by rw [hf], Nat.lt_of_lt_of_le hlt hn⟩

omit ho in
/-- What an operator needs is read from where the operator ends. -/
theorem required_paired {p : Parser.Production} {q : Production} (h : Mirrors closes source p q)
    (t : Token) {n : Nat} (hn : (stream closes t.stop (source.drop t.stop)).length ≤ n) :
    Paired (Behind closes source n) (Parser.required t p)
      (required t q (stream closes t.stop (source.drop t.stop))) := by
  refine (h t.stop).bind fun a b hab => ?_
  cases hab with
  | none => exact .error _
  | some hr => exact .ok ⟨hr.1, Nat.lt_of_lt_of_le hr.2 hn⟩

/-! ## Loops -/

/-- A loop that goes on from a tree with any fuel that is enough. -/
def MirrorsFrom (closes : Kind → Bool) (source : Text) (p : Nat → Expr → Except Refusal Expr)
    (q : Nat → Expr → List Token → Except Refusal Parsed) : Prop :=
  ∀ fuel fuel' n left, (stream closes left.stop (source.drop left.stop)).length ≤ fuel →
    (stream closes left.stop (source.drop left.stop)).length ≤ fuel' →
    (stream closes left.stop (source.drop left.stop)).length < n →
    Paired (Behind closes source n) (p fuel left)
      (q fuel' left (stream closes left.stop (source.drop left.stop)))

omit ho in
theorem mirrors_of_loop {p : Parser.Production} {q : Production}
    {onward : Nat → Expr → Except Refusal Expr}
    {loop : Nat → Expr → List Token → Except Refusal Parsed} (h : Mirrors closes source p q)
    (hl : MirrorsFrom closes source onward loop) :
    Mirrors closes source (Parser.looped p (onward (Parser.rounds source))) fun tokens => do
      match ← q tokens with
      | none => return none
      | some (left, rest) => return some (← loop rest.length left rest) := by
  intro offset
  refine (h offset).bind fun a b hab => ?_
  cases hab with
  | none => exact .ok .none
  | @some left _ hr =>
    obtain ⟨rfl, hlt⟩ := hr
    have hle := Token.length_stream closes source left.stop
    exact (hl _ _ _ left (by rw [Parser.rounds]; omega) (Nat.le_refl _) hlt).some

omit ho in
/-- A loop asks for the next token first. -/
theorem mirrorsFrom_of_step {p : Nat → Expr → Except Refusal Expr}
    {q : Nat → Expr → List Token → Except Refusal Parsed}
    (hstep : ∀ fuel fuel' n left ts,
      stream closes left.stop (source.drop left.stop) = atOffset source left.stop :: ts →
      (atOffset source left.stop :: ts).length < n →
      (∀ e, (stream closes e.stop (source.drop e.stop)).length ≤ ts.length →
        Paired (Behind closes source n) (p fuel e)
          (q fuel' e (stream closes e.stop (source.drop e.stop)))) →
      Paired (Behind closes source n) (p (fuel + 1) left)
        (q (fuel' + 1) left (atOffset source left.stop :: ts))) :
    MirrorsFrom closes source p q := by
  intro fuel
  induction fuel with
  | zero =>
    intro fuel' n left hfuel
    obtain ⟨ts, hts⟩ := exists_stream closes source left.stop
    rw [hts] at hfuel
    cases hfuel
  | succ fuel ih =>
    intro fuel' n left hfuel hfuel' hn
    obtain ⟨ts, hts⟩ := exists_stream closes source left.stop
    rw [hts] at hfuel hfuel' hn ⊢
    cases fuel' with
    | zero => cases hfuel'
    | succ fuel' =>
      refine hstep fuel fuel' n left ts hts hn fun e he => ?_
      rw [List.length_cons] at hfuel hfuel' hn
      exact ih fuel' n e (by omega) (by omega) (by omega)

/-! ## Chains of operators -/

theorem chainFrom_mirrors (l : Level) {p : Parser.Production} {q : Production}
    (h : Mirrors closes source p q) :
    MirrorsFrom closes source (Parser.chainFrom source l.operator? p)
      (chainFrom l.operator? q) := by
  refine mirrorsFrom_of_step fun fuel fuel' n left ts hts hn hmore => ?_
  simp only [Parser.chainFrom, chainFrom]
  cases hk : l.operator? (atOffset source left.stop).kind with
  | none => exact .ok ⟨by rw [hts], hn⟩
  | some op =>
    have hnext := stream_of_inTree ho (inTree_of_operator (Level.operator_eq_some hk).1)
    obtain rfl := (List.cons.inj (hts.symm.trans hnext)).2
    refine (required_paired h _ (Nat.le_refl _)).bind fun right _ hright => ?_
    obtain ⟨rfl, hlt⟩ := hright
    exact hmore (.binary ⟨left.start, right.stop⟩ op left right) (Nat.le_of_lt hlt)

theorem chain_mirrors (l : Level) {p : Parser.Production} {q : Production}
    (h : Mirrors closes source p q) :
    Mirrors closes source (Parser.chain source l.operator? p) (chain l.operator? q) :=
  mirrors_of_loop h (chainFrom_mirrors ho l h)

/-! ## Atoms, members and subscripts -/

theorem grouped_paired {p : Parser.Production} {q : Production} (h : Mirrors closes source p q)
    (t : Token) {n : Nat} (hn : (stream closes t.stop (source.drop t.stop)).length ≤ n) :
    Paired (Behind closes source n) (Parser.grouped source p t)
      (grouped q t (stream closes t.stop (source.drop t.stop))) := by
  refine (required_paired h t hn).bind fun body _ hbody => ?_
  obtain ⟨rfl, hlt⟩ := hbody
  exact expect_paired ho (k := .rightParen) trivial .missingParenthesis
    (f := fun closing => .group ⟨t.start, closing.stop⟩ body) (fun _ => rfl) (Nat.le_of_lt hlt)

theorem atom_mirrors {parenthesis : Token → Parser.Production} {q : Production}
    (h : ∀ t n, (stream closes t.stop (source.drop t.stop)).length ≤ n →
      Paired (Option.Rel (Behind closes source n)) (parenthesis t t.stop)
        (do return some (← grouped q t (stream closes t.stop (source.drop t.stop))))) :
    Mirrors closes source (Parser.atom source parenthesis) fun tokens =>
      match tokens with
      | [] => return none
      | t :: ts => atomFrom q t ts := by
  intro offset
  obtain ⟨ts, hts⟩ := exists_stream closes source offset
  have hbehind {k : Kind} (hk : (atOffset source offset).kind = k) (hin : InTree ⟨k, 0, 0, []⟩) :
      ts =
        stream closes (atOffset source offset).stop (source.drop (atOffset source offset).stop) :=
    (List.cons.inj (hts.symm.trans (stream_of_inTree ho (inTree_of_kind hk hin)))).2
  rw [hts]
  simp only [Parser.atom, atomFrom]
  cases hk : (atOffset source offset).kind with
  | symbol | string | trueWord | falseWord =>
    obtain rfl := hbehind hk trivial
    exact .ok (.some ⟨rfl, Nat.lt_succ_self _⟩)
  | integer =>
    obtain rfl := hbehind hk trivial
    refine (literal_paired integerLiteral_span _).bind fun e d hd => ?_
    obtain ⟨rfl, hstop⟩ := hd
    exact .ok (.some ⟨by rw [hstop], Nat.lt_succ_self _⟩)
  | float =>
    obtain rfl := hbehind hk trivial
    refine (literal_paired floatLiteral_span _).bind fun e d hd => ?_
    obtain ⟨rfl, hstop⟩ := hd
    exact .ok (.some ⟨by rw [hstop], Nat.lt_succ_self _⟩)
  | leftParen =>
    obtain rfl := hbehind hk trivial
    exact h _ _ (Nat.le_succ _)
  | _ => exact .ok .none

theorem memberOf_paired (target : Expr) (dot : Token) {n : Nat}
    (hn : (stream closes dot.stop (source.drop dot.stop)).length ≤ n) :
    Paired (Behind closes source n) (Parser.memberOf source target dot)
      (memberOf target dot (stream closes dot.stop (source.drop dot.stop))) :=
  expect_paired ho (k := .symbol) trivial .invalidSymbol
    (f := fun name =>
      .binary ⟨target.start, name.stop⟩ .member target (.symbol name.span name.text))
    (fun _ => rfl) hn

theorem subscriptOf_paired {p : Parser.Production} {q : Production} (h : Mirrors closes source p q)
    (target : Expr) (opening : Token) {n : Nat}
    (hn : (stream closes opening.stop (source.drop opening.stop)).length ≤ n) :
    Paired (Behind closes source n) (Parser.subscriptOf source p target opening)
      (subscriptOf q target opening (stream closes opening.stop (source.drop opening.stop))) := by
  refine (required_paired h opening hn).bind fun key _ hkey => ?_
  obtain ⟨rfl, hlt⟩ := hkey
  exact expect_paired ho (k := .rightBracket) trivial .missingEndOfSubscript
    (f := fun closing => .binary ⟨target.start, closing.stop⟩ .subscript target key)
    (fun _ => rfl) (Nat.le_of_lt hlt)

theorem postfixFrom_mirrors {p : Parser.Production} {q : Production}
    (h : Mirrors closes source p q) :
    MirrorsFrom closes source (Parser.postfixFrom source p) (postfixFrom q) := by
  refine mirrorsFrom_of_step fun fuel fuel' n target ts hts hn hmore => ?_
  have hbehind {k : Kind} (hk : (atOffset source target.stop).kind = k)
      (hin : InTree ⟨k, 0, 0, []⟩) : ts = stream closes (atOffset source target.stop).stop
        (source.drop (atOffset source target.stop).stop) :=
    (List.cons.inj (hts.symm.trans (stream_of_inTree ho (inTree_of_kind hk hin)))).2
  simp only [Parser.postfixFrom, postfixFrom]
  cases hk : (atOffset source target.stop).kind with
  | dot =>
    obtain rfl := hbehind hk trivial
    refine (memberOf_paired ho target _ (Nat.le_refl _)).bind fun e _ he => ?_
    obtain ⟨rfl, hlt⟩ := he
    exact hmore e (Nat.le_of_lt hlt)
  | leftBracket =>
    obtain rfl := hbehind hk trivial
    refine (subscriptOf_paired ho h target _ (Nat.le_refl _)).bind fun e _ he => ?_
    obtain ⟨rfl, hlt⟩ := he
    exact hmore e (Nat.le_of_lt hlt)
  | _ => exact .ok ⟨by rw [hts], hn⟩

/-! ## Prefixes -/

theorem signed_mirrors {p : Parser.Production} {inner : Nat → Production} {room : Nat}
    (h : Mirrors closes source p (postfixed inner room)) :
    Mirrors closes source (Parser.signed source p) (signed inner room) := by
  intro offset
  have hoperand := h offset
  obtain ⟨ts, hts⟩ := exists_stream closes source offset
  rw [hts] at hoperand ⊢
  simp only [Parser.signed, signed]
  cases hk : sign? (atOffset source offset).kind with
  | none => exact hoperand
  | some op =>
    have hin : InTree (atOffset source offset) := by
      revert hk
      cases h : (atOffset source offset).kind <;> intro hk <;> first
        | cases hk; done
        | exact inTree_of_kind h trivial
    obtain rfl := (List.cons.inj (hts.symm.trans (stream_of_inTree ho hin))).2
    refine (required_paired h _ (Nat.le_refl _)).bind fun operand _ hr => ?_
    obtain ⟨rfl, hlt⟩ := hr
    exact .ok (.some ⟨rfl, Nat.lt_succ_of_lt hlt⟩)

theorem negated_mirrors {p c : Parser.Production} {inner : Nat → Production} {room : Nat}
    (hp : Mirrors closes source p (negated inner room))
    (hc : Mirrors closes source c (compared inner (room + 1))) :
    Mirrors closes source (Parser.negated source p c) (negated inner (room + 1)) := by
  intro offset
  have hoperand := hc offset
  obtain ⟨ts, hts⟩ := exists_stream closes source offset
  rw [hts] at hoperand ⊢
  simp only [Parser.negated, negated]
  by_cases hk : (atOffset source offset).kind = .notWord
  · have hin : InTree (atOffset source offset) := inTree_of_kind hk trivial
    obtain rfl := (List.cons.inj (hts.symm.trans (stream_of_inTree ho hin))).2
    rw [if_pos hk, if_pos hk]
    refine (required_paired hp _ (Nat.le_refl _)).bind fun operand _ hr => ?_
    obtain ⟨rfl, hlt⟩ := hr
    exact .ok (.some ⟨rfl, Nat.lt_succ_of_lt hlt⟩)
  · rw [if_neg hk, if_neg hk]
    exact hoperand

/-! ## Filters -/

omit ho in
theorem stopAfter_cons (offset : Nat) (e : Expr) (es : List Expr) :
    stopAfter offset (e :: es) = stopAfter e.stop es := by
  rw [stopAfter, stopAfter, List.getLast?_cons]
  cases es.getLast? <;> rfl

theorem argumentsFrom_paired {p : Parser.Production} {q : Production}
    (h : Mirrors closes source p q) : ∀ (fuel fuel' n : Nat) (last : Expr),
    (stream closes last.stop (source.drop last.stop)).length ≤ fuel →
    (stream closes last.stop (source.drop last.stop)).length ≤ fuel' →
    (stream closes last.stop (source.drop last.stop)).length < n →
    Paired (ItemsBehind closes source last.stop n) (Parser.argumentsFrom source p fuel last)
      (argumentsFrom q fuel' (stream closes last.stop (source.drop last.stop))) := by
  intro fuel
  induction fuel with
  | zero =>
    intro fuel' n last hfuel
    obtain ⟨ts, hts⟩ := exists_stream closes source last.stop
    rw [hts] at hfuel
    cases hfuel
  | succ fuel ih =>
    intro fuel' n last hfuel hfuel' hn
    obtain ⟨ts, hts⟩ := exists_stream closes source last.stop
    cases fuel' with
    | zero =>
      rw [hts] at hfuel'
      cases hfuel'
    | succ fuel' =>
      rw [hts] at hfuel hfuel' hn ⊢
      simp only [Parser.argumentsFrom, argumentsFrom]
      by_cases hk : (atOffset source last.stop).kind = .comma
      · have hin : InTree (atOffset source last.stop) := inTree_of_kind hk trivial
        -- the comma is a token of the stream, which goes on behind it
        obtain rfl := (List.cons.inj (hts.symm.trans (stream_of_inTree ho hin))).2
        rw [if_pos hk, if_pos hk]
        refine (required_paired h _ (Nat.le_refl _)).bind fun next _ hr => ?_
        obtain ⟨rfl, hlt⟩ := hr
        rw [List.length_cons] at hfuel hfuel' hn
        dsimp only at hlt ⊢
        refine (ih fuel' n next (by omega) (by omega) (by omega)).bind fun items _ hitems => ?_
        obtain ⟨rfl, hitems⟩ := hitems
        exact .ok ⟨by rw [stopAfter_cons], hitems⟩
      · rw [if_neg hk, if_neg hk]
        exact .ok ⟨by rw [← hts]; rfl, hn⟩

theorem closing_paired (opening : Token) (items : List Expr) {n : Nat}
    (hn : (stream closes (stopAfter opening.stop items)
      (source.drop (stopAfter opening.stop items))).length < n) :
    Paired (Option.Rel (Behind closes source n))
      (do
        let closing ← Parser.expect source .rightParen .missingParenthesis
          (stopAfter opening.stop items)
        return some (.arguments ⟨opening.start, closing.stop⟩ items))
      ((match accept? .rightParen (stream closes (stopAfter opening.stop items)
            (source.drop (stopAfter opening.stop items))) with
          | some (closing, rest) => pure (.arguments ⟨opening.start, closing.stop⟩ items, rest)
          | none => fail .missingParenthesis (stopAfter opening.stop items)) >>=
        fun r => pure (some r)) := by
  rcases expect_cases (k := .rightParen) (by decide) (ho ⟨_, 0, 0, []⟩ trivial) .missingParenthesis
    (stopAfter opening.stop items) with ⟨he, ha⟩ | ⟨closing, he, ha, hlt⟩
  · rw [he, ha]
    exact .error _
  · rw [he, ha]
    exact .ok (.some ⟨rfl, Nat.lt_trans hlt hn⟩)

/-- The arguments after a name, which are there if a parenthesis is. -/
theorem argumentList_paired {p : Parser.Production} {q : Production}
    (h : Mirrors closes source p q) {offset n : Nat}
    (hn : (stream closes offset (source.drop offset)).length < n) :
    Paired (Option.Rel (Behind closes source n)) (Parser.argumentList source p offset)
      (match accept? .leftParen (stream closes offset (source.drop offset)) with
        | none => return none
        | some (opening, rest) => do return some (← argumentList q opening rest)) := by
  rw [accept_stream (k := .leftParen) (by decide) (ho ⟨_, 0, 0, []⟩ trivial), Parser.argumentList]
  by_cases hk : (atOffset source offset).kind = .leftParen
  · have hnext := stream_of_inTree ho (inTree_of_kind hk trivial)
    rw [hnext, List.length_cons] at hn
    dsimp only
    rw [if_pos hk, if_pos hk]
    change Paired _ _ (argumentList q _ _ >>= fun r => pure (some r))
    rw [argumentList, bind_assoc]
    refine (h _).bind fun a b hab => ?_
    cases hab with
    | none => exact closing_paired ho (atOffset source offset) [] (Nat.lt_of_succ_lt hn)
    | @some first _ hr =>
      obtain ⟨rfl, hlt⟩ := hr
      have hle := Token.length_stream closes source first.stop
      dsimp only at hlt ⊢
      rw [bind_assoc]
      -- each list of tokens is no longer than the characters that are left
      refine (argumentsFrom_paired ho h _ _ n first (Nat.le_trans hle ?_) (Nat.le_refl _)
        (by omega)).bind fun items _ hr => ?_
      · exact Nat.succ_le_succ (Nat.sub_le _ _)
      · obtain ⟨rfl, hlt⟩ := hr
        rw [← stopAfter_cons (atOffset source offset).stop first items] at hlt ⊢
        exact closing_paired ho (atOffset source offset) (first :: items) hlt
  · dsimp only
    rw [if_neg hk, if_neg hk]
    exact .ok .none

theorem pipesFrom_mirrors {p : Parser.Production} {q : Production}
    (h : Mirrors closes source p q) :
    MirrorsFrom closes source (Parser.pipesFrom source p) (pipesFrom q) := by
  refine mirrorsFrom_of_step fun fuel fuel' n left ts hts hn hmore => ?_
  simp only [Parser.pipesFrom, pipesFrom]
  by_cases hk : (atOffset source left.stop).kind = .pipe
  · have hin : InTree (atOffset source left.stop) := inTree_of_kind hk trivial
    obtain rfl := (List.cons.inj (hts.symm.trans (stream_of_inTree ho hin))).2
    rw [if_pos hk, if_pos hk]
    refine (h _).bind fun a b hab => ?_
    cases hab with
    | none => exact .error _
    | @some right _ hr =>
      obtain ⟨rfl, hlt⟩ := hr
      exact hmore (.binary ⟨left.start, right.stop⟩ .pipe left right) (Nat.le_of_lt hlt)
  · rw [if_neg hk, if_neg hk]
    exact .ok ⟨by rw [hts], hn⟩

theorem filterCall_mirrors {target item : Parser.Production} {inner : Nat → Production} {room : Nat}
    (ht : Mirrors closes source target (disjunction inner room))
    (hi : Mirrors closes source item (disjunction inner (room - 1))) :
    Mirrors closes source (Parser.filterCall target (Parser.argumentList source item))
      (filterCall inner room) := by
  intro offset
  refine (ht offset).bind fun a b hab => ?_
  cases hab with
  | none => exact .ok .none
  | @some e _ hr =>
    obtain ⟨rfl, hlt⟩ := hr
    cases e with
    | symbol span name =>
      have hlist := argumentList_paired ho hi hlt
      change Paired _ (Parser.argumentList source item span.stop >>= _) (match accept? .leftParen
        (stream closes span.stop (source.drop span.stop)) with | none => _ | some (o, r) => _)
      change Paired _ (Parser.argumentList source item span.stop) (match accept? .leftParen
        (stream closes span.stop (source.drop span.stop)) with | none => _ | some (o, r) => _)
        at hlist
      generalize accept? .leftParen (stream closes span.stop (source.drop span.stop)) = after
        at hlist ⊢
      generalize Parser.argumentList source item span.stop = list at hlist ⊢
      rcases after with _ | ⟨opening, rest⟩
      · obtain ⟨⟨⟩⟩ | _ := hlist
        exact .ok (.some ⟨rfl, hlt⟩)
      · dsimp only at hlist ⊢
        generalize argumentList (disjunction inner (room - 1)) opening rest = items at hlist ⊢
        cases items with
        | error r =>
          cases hlist
          exact .error r
        | ok r =>
          cases hlist with
          | ok hr =>
          cases hr with
          | some hr =>
          obtain ⟨rfl, hlt⟩ := hr
          exact .ok (.some ⟨rfl, hlt⟩)
    | _ => exact .error _

/-! ## The whole -/

/-- A filter is a name one call further down, its arguments are two calls further down. -/
theorem filterCall_below {calls depth : Nat}
    (h : ∀ c < calls, Mirrors closes source (Parser.production source c .or)
      (disjunction (parser depth) (c + 2))) :
    Mirrors closes source (Parser.production source calls .filterCall)
      (filterCall (parser depth) (calls + 1)) := by
  match calls with
  | 0 | 1 => exact mirrors_of_tooDeep (fun _ => rfl) (filterCall_tooDeep (by decide))
  | c + 2 => exact filterCall_mirrors ho (h (c + 1) (by omega)) (h c (by omega))

/-- With as many calls as lie between an expression and a level there is room for the level. -/
theorem production_mirrors (calls : Nat) : ∀ (depth : Nat) (l : Level),
    calls + l.callsAbove ≤ depth →
    Mirrors closes source (Parser.production source calls l.rule)
      (production (parser depth) (calls + l.callsAbove) l) := by
  induction calls using Nat.strongRecOn with
  | ind calls ih =>
  intro depth l hdepth
  -- with no call left, or with a single one where a level takes two, both refuse
  have htooDeep {r : Parser.Rule} {room : Nat} (hroom : room < 14) :
      Mirrors closes source (Parser.production source 0 r) (production (parser depth) room l) :=
    mirrors_of_tooDeep (fun _ => rfl) fun ts => production_tooDeep hroom ts l
  cases calls with
  | zero => exact htooDeep (by cases l <;> decide)
  | succ c =>
  have hc : c < c + 1 := Nat.lt_succ_self c
  cases l with
  | atom =>
    cases depth with
    | zero => cases hdepth
    | succ depth =>
    have hroom : ¬ c + 1 + Level.atom.callsAbove < 14 := Nat.not_lt.mpr (Nat.le_add_left 14 c)
    -- a parenthesis is two calls further down, where the levels begin again
    have hgroup (t : Token) (n : Nat)
        (hn : (stream closes t.stop (source.drop t.stop)).length ≤ n) :
        Paired (Option.Rel (Behind closes source n))
          (Parser.production source c (.parenthesis t) t.stop) (do
            return some (← grouped (parser (depth + 1) (c + 1 + Level.atom.callsAbove - 15)) t
              (stream closes t.stop (source.drop t.stop)))) := by
      cases c with
      | zero =>
        have htooDeep ts : parser (depth + 1) 0 ts = .error .tooDeep :=
          production_tooDeep (by decide) ts .piped
        rw [show 0 + 1 + Level.atom.callsAbove - 15 = 0 from rfl, grouped, required, htooDeep]
        exact .error _
      | succ c =>
        replace hdepth : c + 15 ≤ depth + 1 := hdepth
        exact (grouped_paired ho (ih c (by omega) depth .piped (by simp [Level.callsAbove]; omega))
          t hn).some
    intro offset
    have hatom := atom_mirrors ho hgroup offset
    simp only [production, atom, if_neg hroom]
    exact hatom
  | postfixed =>
    cases depth with
    | zero => cases hdepth
    | succ depth =>
    exact mirrors_of_loop (ih c hc _ .atom hdepth) (postfixFrom_mirrors ho
      (ih c hc depth .piped (Nat.le_of_add_right_le (Nat.le_of_succ_le_succ hdepth))))
  | sign => exact signed_mirrors ho (ih c hc _ .postfixed hdepth)
  | not =>
    exact negated_mirrors ho (ih c hc _ .not (Nat.le_of_succ_le hdepth))
      (ih c hc _ .comparison hdepth)
  | and => exact chain_mirrors ho .and (ih c hc _ .not hdepth)
  | or => exact chain_mirrors ho .or (ih c hc _ .and hdepth)
  | product =>
    cases c with
    | zero => exact htooDeep (r := .products) (by decide)
    | succ c => exact chain_mirrors ho .product (ih c (by omega) _ .sign hdepth)
  | sum =>
    cases c with
    | zero => exact htooDeep (r := .sums) (by decide)
    | succ c => exact chain_mirrors ho .sum (ih c (by omega) _ .product hdepth)
  | comparison =>
    cases c with
    | zero => exact htooDeep (r := .comparisons) (by decide)
    | succ c => exact chain_mirrors ho .comparison (ih c (by omega) _ .sum hdepth)
  | piped =>
    cases c with
    | zero => exact htooDeep (r := .piped) (by decide)
    | succ c =>
    refine mirrors_of_loop (ih c (by omega) _ .or hdepth) (pipesFrom_mirrors ho ?_)
    replace hdepth : c + 2 ≤ depth := hdepth
    exact filterCall_below ho fun m hm =>
      ih m (by omega) depth .or (by simp [Level.callsAbove]; omega)

theorem filterCall_production_mirrors (calls : Nat) :
    Mirrors closes source (Parser.production source calls .filterCall)
      (filterCall (parser (calls + 1)) (calls + 1)) :=
  filterCall_below ho fun m hm =>
    production_mirrors ho m (calls + 1) .or (Nat.add_le_add_right hm 1)

end

end Expr

end Stencil
