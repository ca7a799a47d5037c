import Stencil.Proofs.Expr.Prediction

/-!
# Why productions refuse

What the tokens are like that a production refuses: where a filter call is missing no call can begin
behind the pipe, what nests too deep has brackets and prefixes for which there is no room, and what
is too long for a number is one of the integers.
-/

namespace Stencil

open Token (Kind)

def ParseKind.insideExpression : ParseKind → Bool
  | invalidSymbol | missingExpression | missingEndOfSubscript | missingParenthesis | invalidFilter
  | invalidNumber => true
  | _ => false

namespace Expr

/-- What a token takes of the room for the expression behind it. -/
def toll (t : Token) : Nat :=
  match t.kind with
  | .leftParen => 15
  | .leftBracket => 13
  | .notWord | .pipe => 1
  | _ => 0

def tolls : List Token → Nat
  | [] => 0
  | t :: ts => toll t + tolls ts

theorem tolls_append (ts us : List Token) : tolls (ts ++ us) = tolls ts + tolls us := by
  induction ts with
  | nil => exact (Nat.zero_add _).symm
  | cons t ts ih => rw [List.cons_append, tolls, tolls, ih, Nat.add_assoc]

/-- What the tokens are like where a refusal is justified, given the room that there was for them.
-/
inductive Grounds (room : Nat) (tokens : List Token) : Refusal → Prop
  | inside {kind offset} : kind.insideExpression = true →
      Grounds room tokens (.located kind offset)
  | filterCall {before pipe after} : tokens = before ++ pipe :: after → pipe.kind = .pipe →
      (∀ t ∈ after.head?, t.kind ∉ Level.or.first) →
      Grounds room tokens (.located .missingFilterCall pipe.stop)
  | deep : room < tolls tokens + 14 → Grounds room tokens .tooDeep
  | numeral {t} : t ∈ tokens → t.kind = .integer → Decimal.longestNumeral < t.text.length →
      Grounds room tokens (.numeralTooLong t.text.length)

section
variable {m n : Nat} {t : Token} {ts tokens : List Token} {r : Refusal}

/-- Tokens in front take room from those behind them. -/
theorem Grounds.behind (h : Grounds m tokens r) (ts : List Token) (hle : n ≤ m + tolls ts) :
    Grounds n (ts ++ tokens) r := by
  cases h with
  | inside hk => exact .inside hk
  | @filterCall before pipe after heq hk hhead =>
    have heq' : ts ++ tokens = (ts ++ before) ++ pipe :: after := by simp [heq]
    exact .filterCall heq' hk hhead
  | deep hroom =>
    refine .deep ?_
    rw [tolls_append]
    omega
  | numeral ht hk hlong => exact .numeral (List.mem_append_right _ ht) hk hlong

theorem Grounds.append (h : Grounds n tokens r) (ts : List Token) : Grounds n (ts ++ tokens) r :=
  h.behind ts (Nat.le_add_right _ _)

theorem Grounds.cons (h : Grounds m tokens r) (t : Token) (hle : n ≤ m + toll t) :
    Grounds n (t :: tokens) r :=
  h.behind [t] hle

end

/-! ## Productions that refuse on these grounds -/

structure Grounded (n : Nat) (p : Production) : Prop where
  grounds : ∀ {tokens r}, p tokens = .error r → Grounds n tokens r
  front : ∀ {tokens e rest}, p tokens = .ok (some (e, rest)) → ∃ ts, tokens = ts ++ rest

def GroundedFrom (n : Nat) (loop : Expr → List Token → Except Refusal Parsed) : Prop :=
  ∀ {left tokens r}, loop left tokens = .error r → Grounds n tokens r

theorem Sound.front {P : Expr → List Token → Prop} {p : Production} (hp : Sound P p)
    {tokens rest : List Token} {e : Expr} (h : p tokens = .ok (some (e, rest))) :
    ∃ ts, tokens = ts ++ rest :=
  have ⟨ts, hts, _⟩ := hp h
  ⟨ts, hts⟩

theorem required_error {t : Token} {p : Production} {tokens : List Token} {r : Refusal}
    (h : required t p tokens = .error r) :
    p tokens = .error r ∨ r = .located .missingExpression t.stop := by
  rcases bind_eq_error.mp h with h | ⟨o, -, h⟩
  · exact .inl h
  cases o with
  | some q => exact absurd h pure_ne_error
  | none => exact .inr (Except.error.inj h).symm

section
variable {n : Nat} {p : Production} (hp : Grounded n p)
include hp

theorem Grounded.required {t : Token} {tokens : List Token} {r : Refusal} {α : Type}
    {f : Parsed → Except Refusal α} (h : (required t p tokens >>= f) = .error r) :
    Grounds n tokens r ∨ ∃ ts e rest, tokens = ts ++ rest ∧ f (e, rest) = .error r := by
  rcases bind_eq_error.mp h with h | ⟨⟨e, rest⟩, he, hf⟩
  · rcases required_error h with h | rfl
    · exact .inl (hp.grounds h)
    · exact .inl (.inside rfl)
  · obtain ⟨ts, hts⟩ := hp.front (required_eq_ok.mp he)
    exact .inr ⟨ts, e, rest, hts, hf⟩

theorem grounds_of_loop {loop : Nat → Expr → List Token → Except Refusal Parsed}
    (hl : ∀ fuel, GroundedFrom n (loop fuel)) {tokens : List Token} {r : Refusal}
    (h : (do
      match ← p tokens with
      | none => return none
      | some (left, rest) => return some (← loop rest.length left rest)) = .error r) :
    Grounds n tokens r := by
  rcases bind_eq_error.mp h with herror | ⟨o, ho, hnext⟩
  · exact hp.grounds herror
  rcases o with _ | ⟨left, rest⟩
  · exact absurd hnext pure_ne_error
  obtain ⟨ts, rfl⟩ := hp.front ho
  rcases bind_eq_error.mp hnext with hloop | ⟨q, -, hpure⟩
  · exact (hl _ hloop).append ts
  · exact absurd hpure pure_ne_error

theorem chainFrom_grounded (operator? : Kind → Option BinaryOp) (fuel : Nat) :
    GroundedFrom n (chainFrom operator? p fuel) := by
  induction fuel with
  | zero => exact fun h => absurd h pure_ne_error
  | succ fuel ih =>
    intro left tokens r h
    cases tokens with
    | nil => exact absurd h pure_ne_error
    | cons t tokens =>
      unfold chainFrom at h
      cases hop : operator? t.kind with
      | none =>
        rw [hop] at h
        exact absurd h pure_ne_error
      | some op =>
        rw [hop] at h
        rcases hp.required h with hright | ⟨ts, e, rest, rfl, hmore⟩
        · exact hright.cons t (Nat.le_add_right _ _)
        · exact ((ih hmore).append ts).cons t (Nat.le_add_right _ _)

theorem chain_grounds (operator? : Kind → Option BinaryOp) {tokens : List Token} {r : Refusal}
    (h : chain operator? p tokens = .error r) : Grounds n tokens r :=
  grounds_of_loop hp (chainFrom_grounded hp operator?) h

theorem unary_grounds {m : Nat} {op : UnaryOp} {t : Token} {tokens : List Token} {r : Refusal}
    (hle : m ≤ n + toll t) (h : (do
      let (d, rest) ← required t p tokens
      return some (Expr.unary ⟨t.start, d.stop⟩ op d, rest)) = .error r) :
    Grounds m (t :: tokens) r := by
  rcases hp.required h with h | ⟨ts, e, rest, -, h⟩
  · exact h.cons t hle
  · exact absurd h pure_ne_error

end

/-! ## Atoms, members and subscripts -/

theorem integerLiteral_grounds {n : Nat} {t : Token} {ts : List Token} {r : Refusal}
    (ht : t.kind = .integer) (h : integerLiteral t = .error r) : Grounds n (t :: ts) r := by
  simp only [integerLiteral] at h
  split at h
  · obtain rfl := Except.error.inj h
    exact .inside rfl
  split at h
  · next hlong =>
    obtain rfl := Except.error.inj h
    exact .numeral List.mem_cons_self ht hlong
  split at h
  · obtain rfl := Except.error.inj h
    exact .inside rfl
  · exact absurd h pure_ne_error

theorem floatLiteral_grounds {n : Nat} {t : Token} {ts : List Token} {r : Refusal}
    (h : floatLiteral t = .error r) : Grounds n (t :: ts) r := by
  simp only [floatLiteral] at h
  split at h
  · exact absurd h pure_ne_error
  · obtain rfl := Except.error.inj h
    exact .inside rfl

theorem toll_eq {t : Token} {k : Kind} (hk : t.kind = k) : toll t = toll ⟨k, 0, 0, []⟩ := by
  rw [toll, hk]
  rfl

theorem atomFrom_grounds {room : Nat} {inner : Production} (hi : Grounded (room - 15) inner)
    {t : Token} {tokens : List Token} {r : Refusal} (h : atomFrom inner t tokens = .error r) :
    Grounds room (t :: tokens) r := by
  simp only [atomFrom] at h
  split at h
  · exact absurd h pure_ne_error
  · exact absurd h pure_ne_error
  · next hk =>
    rcases bind_eq_error.mp h with h | ⟨_, -, h⟩
    · exact integerLiteral_grounds hk h
    · exact absurd h pure_ne_error
  · rcases bind_eq_error.mp h with h | ⟨_, -, h⟩
    · exact floatLiteral_grounds h
    · exact absurd h pure_ne_error
  · exact absurd h pure_ne_error
  · exact absurd h pure_ne_error
  · next hk =>
    rcases bind_eq_error.mp h with h | ⟨_, -, h⟩
    · rcases hi.required h with hbody | ⟨ts, e, rest, -, hclose⟩
      · refine hbody.cons t ?_
        rw [toll_eq hk]
        exact Nat.le_add_of_sub_le (Nat.le_refl _)
      simp only at hclose
      split at hclose
      · exact absurd hclose pure_ne_error
      · obtain rfl := Except.error.inj hclose
        exact .inside rfl
    · exact absurd h pure_ne_error
  · exact absurd h pure_ne_error

theorem memberOf_grounds {n : Nat} {target : Expr} {dot : Token} {tokens : List Token} {r : Refusal}
    (h : memberOf target dot tokens = .error r) : Grounds n tokens r := by
  unfold memberOf at h
  split at h
  · exact absurd h pure_ne_error
  · obtain rfl := Except.error.inj h
    exact .inside rfl

theorem memberOf_front {target e : Expr} {dot : Token} {tokens rest : List Token}
    (h : memberOf target dot tokens = .ok (e, rest)) : ∃ ts, tokens = ts ++ rest := by
  unfold memberOf at h
  split at h
  · next name after hc =>
    obtain ⟨-, rfl⟩ := Prod.mk.inj (pure_eq_ok.mp h)
    exact ⟨[name], (accept_eq_some.mp hc).1⟩
  · exact absurd h fail_ne_ok

section
variable {n room : Nat} {inner : Production} (hi : Grounded n inner)
include hi

theorem subscriptOf_grounds {target : Expr} {opening : Token} {tokens : List Token} {r : Refusal}
    (ho : opening.kind = .leftBracket) (hle : room ≤ n + 13)
    (h : subscriptOf inner target opening tokens = .error r) :
    Grounds room (opening :: tokens) r := by
  rcases hi.required h with hkey | ⟨ts, e, rest, -, hclose⟩
  · refine hkey.cons opening ?_
    rw [toll_eq ho]
    exact hle
  simp only at hclose
  split at hclose
  · exact absurd hclose pure_ne_error
  · obtain rfl := Except.error.inj hclose
    exact .inside rfl

theorem subscriptOf_front {target e : Expr} {opening : Token} {tokens rest : List Token}
    (h : subscriptOf inner target opening tokens = .ok (e, rest)) : ∃ ts, tokens = ts ++ rest := by
  obtain ⟨⟨key, after⟩, hkey, hclose⟩ := bind_eq_ok.mp h
  obtain ⟨ts, rfl⟩ := hi.front (required_eq_ok.mp hkey)
  simp only at hclose
  split at hclose
  · next c left hc =>
    obtain ⟨-, rfl⟩ := Prod.mk.inj (pure_eq_ok.mp hclose)
    exact ⟨ts ++ [c], by rw [(accept_eq_some.mp hc).1, List.append_assoc]; rfl⟩
  · exact absurd hclose fail_ne_ok

theorem postfixFrom_grounded (hle : room ≤ n + 13) (fuel : Nat) :
    GroundedFrom room (postfixFrom inner fuel) := by
  induction fuel with
  | zero => exact fun h => absurd h pure_ne_error
  | succ fuel ih =>
    intro left tokens r h
    cases tokens with
    | nil => exact absurd h pure_ne_error
    | cons t tokens =>
      unfold postfixFrom at h
      split at h
      · rcases bind_eq_error.mp h with hname | ⟨⟨target, rest⟩, hname, hmore⟩
        · exact (memberOf_grounds hname).cons t (Nat.le_add_right _ _)
        · obtain ⟨ts, rfl⟩ := memberOf_front hname
          exact ((ih hmore).append ts).cons t (Nat.le_add_right _ _)
      · next hk =>
        rcases bind_eq_error.mp h with hkey | ⟨⟨target, rest⟩, hkey, hmore⟩
        · exact subscriptOf_grounds hi hk hle hkey
        · obtain ⟨ts, rfl⟩ := subscriptOf_front hi hkey
          exact ((ih hmore).append ts).cons t (Nat.le_add_right _ _)
      · exact absurd h pure_ne_error

end

/-! ## The levels -/

section
variable {room : Nat} {inner : Nat → Production}
  (hs : ∀ room, Sound (Phrase room .piped) (inner room))
  (hi : ∀ m < room, Grounded m (inner m))
include hs hi

omit hs hi in
theorem grounded_of_tooDeep {p : Production} (hroom : room < 14)
    (hp : ∀ tokens, p tokens = .error .tooDeep) : Grounded room p where
  grounds h := by
    rw [hp] at h
    obtain rfl := Except.error.inj h
    exact .deep (Nat.lt_of_lt_of_le hroom (Nat.le_add_left _ _))
  front h := by
    rw [hp] at h
    cases h

theorem atom_grounded (hroom : 14 ≤ room) : Grounded room (atom inner room) where
  grounds {tokens r} h := by
    unfold atom at h
    rw [if_neg (Nat.not_lt.mpr hroom)] at h
    cases tokens with
    | nil => exact absurd h pure_ne_error
    | cons t tokens => exact atomFrom_grounds (hi _ (by omega)) h
  front := (atom_sound hs).front

theorem postfixed_grounded : Grounded room (postfixed inner room) := by
  by_cases hroom : room < 14
  · exact grounded_of_tooDeep hroom (postfixed_tooDeep hroom)
  · exact {
      grounds := grounds_of_loop (atom_grounded hs hi (Nat.not_lt.mp hroom))
        (postfixFrom_grounded (hi _ (by omega)) (Nat.le_add_of_sub_le (Nat.le_refl _)))
      front := (postfixed_sound hs).front }

theorem signed_grounded : Grounded room (signed inner room) where
  grounds {tokens r} h := by
    cases tokens with
    | nil => exact (postfixed_grounded hs hi).grounds h
    | cons t tokens =>
      simp only [signed] at h
      split at h
      · exact (postfixed_grounded hs hi).grounds h
      · exact unary_grounds (postfixed_grounded hs hi) (Nat.le_add_right _ _) h
  front := (signed_sound hs).front

theorem product_grounded : Grounded room (product inner room) where
  grounds := chain_grounds (signed_grounded hs hi) _
  front := (product_sound hs).front

theorem sum_grounded : Grounded room (sum inner room) where
  grounds := chain_grounds (product_grounded hs hi) _
  front := (sum_sound hs).front

theorem compared_grounded : Grounded room (compared inner room) where
  grounds := chain_grounds (sum_grounded hs hi) _
  front := (compared_sound hs).front

omit hi in
theorem negated_grounded (room : Nat) (hi : ∀ m < room, Grounded m (inner m)) :
    Grounded room (negated inner room) := by
  induction room with
  | zero => exact grounded_of_tooDeep (by decide) fun _ => rfl
  | succ room ih =>
    refine ⟨fun {tokens r} h => ?_, (negated_sound hs (room + 1)).front⟩
    cases tokens with
    | nil => exact (compared_grounded hs hi).grounds h
    | cons t tokens =>
      rw [negated] at h
      split at h
      · next hk =>
        refine unary_grounds (ih fun m hm => hi m (Nat.lt_succ_of_lt hm)) ?_ h
        rw [toll_eq hk]
        exact Nat.le_refl _
      · exact (compared_grounded hs hi).grounds h

theorem conjunction_grounded : Grounded room (conjunction inner room) where
  grounds := chain_grounds (negated_grounded hs room hi) _
  front := (conjunction_sound hs).front

theorem disjunction_grounded : Grounded room (disjunction inner room) where
  grounds := chain_grounds (conjunction_grounded hs hi) _
  front := (disjunction_sound hs).front

/-! ## Filters -/

omit hs hi in
theorem argumentsFrom_grounds {item : Production} (hitem : Grounded room item) (fuel : Nat) :
    ∀ {tokens : List Token} {r : Refusal},
    argumentsFrom item fuel tokens = .error r → Grounds room tokens r := by
  induction fuel with
  | zero => exact fun h => absurd h pure_ne_error
  | succ fuel ih =>
    intro tokens r h
    cases tokens with
    | nil => exact absurd h pure_ne_error
    | cons t tokens =>
      unfold argumentsFrom at h
      split at h
      · rcases hitem.required h with hnext | ⟨ts, next, rest, rfl, hmore⟩
        · exact hnext.cons t (Nat.le_add_right _ _)
        rcases bind_eq_error.mp hmore with hitems | ⟨_, -, hpure⟩
        · exact ((ih hitems).append ts).cons t (Nat.le_add_right _ _)
        · exact absurd hpure pure_ne_error
      · exact absurd h pure_ne_error

omit hs hi in
theorem closing_grounds {opening : Token} {items : List Expr} {tokens after : List Token}
    {r : Refusal}
    {o : Nat} (h : (match accept? .rightParen after with
      | some (closing, rest) => return (Expr.arguments ⟨opening.start, closing.stop⟩ items, rest)
      | none => fail .missingParenthesis o : Except Refusal Parsed) = .error r) :
    Grounds room tokens r := by
  split at h
  · exact absurd h pure_ne_error
  · obtain rfl := Except.error.inj h
    exact .inside rfl

omit hs hi in
theorem argumentList_grounds {item : Production} (hitem : Grounded room item) {opening : Token}
    {tokens : List Token} {r : Refusal} (h : argumentList item opening tokens = .error r) :
    Grounds room tokens r := by
  rcases bind_eq_error.mp h with hfirst | ⟨o, ho, hnext⟩
  · exact hitem.grounds hfirst
  rcases o with _ | ⟨first, rest⟩
  · exact closing_grounds hnext
  obtain ⟨ts, rfl⟩ := hitem.front ho
  rcases bind_eq_error.mp hnext with hfrom | ⟨_, -, hclose⟩
  · exact (argumentsFrom_grounds hitem _ hfrom).append ts
  · exact closing_grounds hclose

theorem filterCall_grounds {tokens : List Token} {r : Refusal}
    (h : filterCall inner room tokens = .error r) : Grounds room tokens r := by
  have hdisjunction := disjunction_grounded hs hi
  have hitem : Grounded (room - 1) (disjunction inner (room - 1)) :=
    disjunction_grounded hs fun m hm => hi m (by omega)
  rcases bind_eq_error.mp h with htarget | ⟨o, ho, hnext⟩
  · exact hdisjunction.grounds htarget
  rcases o with _ | ⟨target, rest⟩
  · exact absurd hnext pure_ne_error
  obtain ⟨ts, rfl⟩ := hdisjunction.front ho
  cases target with
  | symbol s name =>
    cases hc : accept? .leftParen rest with
    | none =>
      simp only [hc] at hnext
      exact absurd hnext pure_ne_error
    | some q =>
      obtain ⟨opening, after⟩ := q
      simp only [hc] at hnext
      obtain ⟨rfl, hk⟩ := accept_eq_some.mp hc
      rcases bind_eq_error.mp hnext with hlist | ⟨_, -, hpure⟩
      · refine ((argumentList_grounds hitem hlist).cons opening ?_).append ts
        rw [toll_eq hk]
        exact Nat.le_add_of_sub_le (Nat.sub_le_sub_left (by decide) room)
      · exact absurd hpure pure_ne_error
  | _ =>
    obtain rfl := Except.error.inj hnext
    exact .inside rfl

theorem pipesFrom_grounded (fuel : Nat) :
    GroundedFrom room (pipesFrom (filterCall inner (room - 1)) fuel) := by
  induction fuel with
  | zero => exact fun h => absurd h pure_ne_error
  | succ fuel ih =>
    intro left tokens r h
    cases tokens with
    | nil => exact absurd h pure_ne_error
    | cons t tokens =>
      unfold pipesFrom at h
      split at h
      · next hk =>
        rcases bind_eq_error.mp h with hcall | ⟨o, ho, hnext⟩
        · refine (filterCall_grounds hs (fun m hm => hi m (by omega)) hcall).cons t ?_
          rw [toll_eq hk]
          exact Nat.le_add_of_sub_le (Nat.le_refl _)
        rcases o with _ | ⟨right, rest⟩
        · obtain rfl := Except.error.inj hnext
          refine .filterCall (List.nil_append _).symm hk fun u hu => ?_
          obtain ⟨us, rfl⟩ := List.head?_eq_some_iff.mp hu
          exact ((filterCall_eq_none_iff inner u us).mp ho).2
        · obtain ⟨ts, rfl⟩ := (filterCall_sound hs).front ho
          exact ((ih hnext).append ts).cons t (Nat.le_add_right _ _)
      · exact absurd h pure_ne_error

theorem piped_grounded : Grounded room (piped inner room) where
  grounds := grounds_of_loop (disjunction_grounded hs hi) (pipesFrom_grounded hs hi)
  front := (piped_sound hs).front

end

/-! ## The whole -/

theorem parser_grounded : ∀ depth room, room < depth → Grounded room (parser depth room)
  | depth + 1, _, h => piped_grounded (parser_sound depth) fun m hm =>
    parser_grounded depth m (Nat.lt_of_lt_of_le hm (Nat.le_of_lt_succ h))

theorem production_grounded (room : Nat) (l : Level) :
    Grounded room (production (parser room) room l) := by
  have hs := parser_sound room
  have hi := fun m (hm : m < room) => parser_grounded room m hm
  cases l with
  | piped => exact piped_grounded hs hi
  | or => exact disjunction_grounded hs hi
  | and => exact conjunction_grounded hs hi
  | not => exact negated_grounded hs room hi
  | comparison => exact compared_grounded hs hi
  | sum => exact sum_grounded hs hi
  | product => exact product_grounded hs hi
  | sign => exact signed_grounded hs hi
  | postfixed => exact postfixed_grounded hs hi
  | atom =>
    by_cases hroom : room < 14
    · exact grounded_of_tooDeep hroom (atom_tooDeep hroom)
    · exact atom_grounded hs hi (Nat.not_lt.mp hroom)

end Expr

end Stencil
