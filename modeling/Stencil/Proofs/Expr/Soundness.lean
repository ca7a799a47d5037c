import Stencil.Proofs.Expr.Levels
import Stencil.Proofs.Expr.Limits

/-!
# What the productions read

Whenever a production answers with a tree, the tree is read from exactly the tokens that are gone,
it is well-levelled and at the level of the production, and it is within the limits of the parser.
Each production is sound if those tighter than it are, so the levels are climbed one by one, from
the atoms to the filters.
-/

namespace Stencil.Expr

open Token (Kind)

/-- Tokens that a production of a level may take for a tree that it has room for. -/
structure Phrase (room : Nat) (level : Level) (e : Expr) (ts : List Token) : Prop where
  reads : Reads e ts
  levelled : e.WellLevelled
  le_level : level ≤ e.level
  fits : e.nesting ≤ room
  short : Short ts

/-- The tree is taken from the tokens before `rest`, as `P` allows. -/
def Takes (P : Expr → List Token → Prop) (tokens : List Token) (e : Expr) (rest : List Token) :
    Prop :=
  ∃ ts, tokens = ts ++ rest ∧ P e ts

def Sound (P : Expr → List Token → Prop) (p : Production) : Prop :=
  ∀ ⦃tokens e rest⦄, p tokens = .ok (some (e, rest)) → Takes P tokens e rest

theorem Phrase.weaken {room : Nat} {l m : Level} {e : Expr} {ts : List Token} (h : l ≤ m)
    (hp : Phrase room m e ts) : Phrase room l e ts :=
  ⟨hp.reads, hp.levelled, Level.le_trans h hp.le_level, hp.fits, hp.short⟩

theorem Sound.imp {P Q : Expr → List Token → Prop} {p : Production} (hp : Sound P p)
    (h : ∀ e ts, P e ts → Q e ts) : Sound Q p :=
  fun _ _ _ heq => let ⟨ts, hts, hph⟩ := hp heq; ⟨ts, hts, h _ _ hph⟩

theorem Sound.weaken {room : Nat} {l m : Level} {p : Production} (h : l ≤ m)
    (hp : Sound (Phrase room m) p) : Sound (Phrase room l) p :=
  hp.imp fun _ _ => Phrase.weaken h

theorem Sound.required {P : Expr → List Token → Prop} {p : Production} {t : Token}
    {tokens : List Token} {β : Type} {f : Parsed → Except Refusal β} {b : β} (hp : Sound P p)
    (h : (required t p tokens >>= f) = .ok b) :
    ∃ ts e rest, tokens = ts ++ rest ∧ P e ts ∧ f (e, rest) = .ok b := by
  obtain ⟨⟨e, rest⟩, he, hf⟩ := bind_eq_ok.mp h
  obtain ⟨ts, hts, hph⟩ := hp (required_eq_ok.mp he)
  exact ⟨ts, e, rest, hts, hph, hf⟩

/-! ## Loops

Each level with a loop has a step that takes what is to the left, and a first operand. -/

def SoundFrom (P : Expr → List Token → Prop) (loop : Expr → List Token → Except Refusal Parsed) :
    Prop :=
  ∀ ⦃left ls tokens e rest⦄, P left ls → loop left tokens = .ok (e, rest) →
    Takes P (ls ++ tokens) e rest

theorem sound_of_loop {P : Expr → List Token → Prop} {first : Production}
    {loop : Nat → Expr → List Token → Except Refusal Parsed} (hf : Sound P first)
    (hl : ∀ fuel, SoundFrom P (loop fuel)) :
    Sound P fun tokens => do
      match ← first tokens with
      | none => return none
      | some (left, rest) => return some (← loop rest.length left rest) := by
  intro tokens e rest h
  obtain ⟨o, ho, h⟩ := bind_eq_ok.mp h
  cases o with
  | none => cases pure_eq_ok.mp h
  | some q =>
    obtain ⟨left, after⟩ := q
    obtain ⟨r, hr, hpure⟩ := bind_eq_ok.mp h
    obtain rfl := Option.some.inj (pure_eq_ok.mp hpure)
    obtain ⟨ls, rfl, hp⟩ := hf ho
    exact hl _ hp hr

theorem takes_self {P : Expr → List Token → Prop} {left e : Expr} {ls tokens rest : List Token}
    (hp : P left ls) (h : (pure (left, tokens) : Except Refusal Parsed) = .ok (e, rest)) :
    Takes P (ls ++ tokens) e rest := by
  obtain ⟨rfl, rfl⟩ := Prod.mk.inj (pure_eq_ok.mp h)
  exact ⟨ls, rfl, hp⟩

theorem ne_integer_of_operator {op : BinaryOp} {t : Token} (h : op.kind? = some t.kind) :
    t.kind ≠ .integer := by
  intro hk
  rw [hk] at h
  revert h
  rcases op with _ | _ | _ | _ | _ | _ | op | op <;> first | decide | (cases op <;> decide)

theorem binaryNesting_of_isChain {op : BinaryOp} (h : op.level.isChain = true) :
    binaryNesting op = 0 := by
  cases op <;> first | rfl | cases h

section
variable {room : Nat} {level tight : Level} {operand : Production}
variable (hlt : level < tight) (ho : Sound (Phrase room tight) operand)
include hlt ho

theorem chainFrom_sound (fuel : Nat) :
    SoundFrom (Phrase room level) (chainFrom level.operator? operand fuel) := by
  induction fuel with
  | zero => intro left ls tokens e rest hp h; exact takes_self hp h
  | succ fuel ih =>
    intro left ls tokens e rest hp h
    cases tokens with
    | nil => exact takes_self hp h
    | cons t tokens =>
      unfold chainFrom at h
      cases hop : level.operator? t.kind with
      | none => rw [hop] at h; exact takes_self hp h
      | some op =>
        rw [hop] at h
        obtain ⟨rs, right, after, rfl, hpr, hrest⟩ := ho.required h
        obtain ⟨hk, rfl, hc⟩ := Level.operator_eq_some hop
        have hright : op.level < right.level := Nat.lt_of_lt_of_le hlt hpr.le_level
        have hphrase : Phrase room op.level (.binary ⟨left.start, right.stop⟩ op left right)
            (ls ++ t :: rs) :=
          ⟨.binary hk hp.reads hpr.reads, (wellLevelled_chain hc).mpr
            ⟨⟨hp.le_level, hp.levelled⟩, hright, hpr.levelled⟩, Level.le_refl _,
            nesting_binary_le.mpr ⟨hp.fits, binaryNesting_of_isChain hc ▸ hpr.fits⟩,
            Short.append.mpr ⟨hp.short, short_cons (ne_integer_of_operator hk) hpr.short⟩⟩
        simpa using ih hphrase hrest

theorem chain_sound : Sound (Phrase room level) (chain level.operator? operand) :=
  sound_of_loop (ho.weaken (Nat.le_of_lt hlt)) (chainFrom_sound hlt ho)

end

/-! ## Constants -/

theorem integerLiteral_sound {t : Token} {e : Expr} (ht : t.kind = .integer)
    (h : integerLiteral t = .ok e) :
    ∃ f, e = .literal t.span f ∧ t.Denotes f ∧ Short [t] := by
  simp only [integerLiteral] at h
  split at h
  · cases h
  rename_i hsignificant
  split at h
  · cases h
  rename_i hlength
  split at h
  · cases h
  rename_i hle
  refine ⟨_, (pure_eq_ok.mp h).symm, by simpa [Token.Denotes, ht] using hle, ?_⟩
  exact List.forall_mem_singleton.mpr fun _ =>
    ⟨Nat.le_of_not_lt hsignificant, Nat.le_of_not_lt hlength⟩

theorem floatLiteral_sound {t : Token} {e : Expr} (ht : t.kind = .float)
    (h : floatLiteral t = .ok e) : ∃ f, e = .literal t.span f ∧ t.Denotes f := by
  simp only [floatLiteral] at h
  split at h
  · rename_i hfin
    exact ⟨_, (pure_eq_ok.mp h).symm, by simpa [Token.Denotes, ht] using hfin⟩
  · cases h

theorem takes_leaf {P : Expr → List Token → Prop} {t : Token} {tokens rest : List Token}
    {d e : Expr} (hp : P d [t])
    (h : (pure (some (d, tokens)) : Except Refusal (Option Parsed)) = .ok (some (e, rest))) :
    Takes P (t :: tokens) e rest := by
  obtain ⟨rfl, rfl⟩ := Prod.mk.inj (Option.some.inj (pure_eq_ok.mp h))
  exact ⟨[t], rfl, hp⟩

theorem phrase_literal {room : Nat} {t : Token} {f : Forms} (hroom : 14 ≤ room)
    (h : t.Denotes f) (hs : Short [t]) : Phrase room .atom (.literal t.span f) [t] :=
  ⟨.literal h, trivial, Level.le_refl _, hroom, hs⟩

theorem short_of_kind {t : Token} {k : Kind} (h : t.kind = k) (hk : k ≠ .integer) : Short [t] :=
  short_cons (h ▸ hk) nofun

/-! ## The levels -/

theorem grouped_sound {room : Nat} {inner : Production}
    (hi : Sound (Phrase (room - 15) .piped) inner)
    {t : Token} {tokens rest : List Token} {e : Expr} (ht : t.kind = .leftParen)
    (h : grouped inner t tokens = .ok (e, rest)) :
    Takes (Phrase room .atom) (t :: tokens) e rest := by
  obtain ⟨ts, body, after, rfl, hp, hclose⟩ := hi.required h
  cases hc : accept? .rightParen after with
  | none => simp only [hc] at hclose; exact absurd hclose fail_ne_ok
  | some q =>
    obtain ⟨c, left⟩ := q
    simp only [hc] at hclose
    obtain ⟨rfl, rfl⟩ := Prod.mk.inj (pure_eq_ok.mp hclose)
    obtain ⟨rfl, hk⟩ := accept_eq_some.mp hc
    have hle := Nat.le_trans (le_nesting body) hp.fits
    have hfits : body.nesting + 15 ≤ room := by have := hp.fits; omega
    refine ⟨t :: (ts ++ [c]), by simp, .group ht hk hp.reads, hp.levelled, Level.le_refl _, hfits,
      short_cons (by rw [ht]; decide) ?_⟩
    exact Short.append.mpr ⟨hp.short, short_of_kind hk (by decide)⟩

theorem atomFrom_sound {room : Nat} {inner : Production} (hroom : 14 ≤ room)
    (hi : Sound (Phrase (room - 15) .piped) inner) {t : Token} {tokens rest : List Token} {e : Expr}
    (h : atomFrom inner t tokens = .ok (some (e, rest))) :
    Takes (Phrase room .atom) (t :: tokens) e rest := by
  simp only [atomFrom] at h
  split at h <;> rename_i hk
  · have hs := short_of_kind hk (by decide)
    exact takes_leaf ⟨.symbol hk, trivial, Level.le_refl _, hroom, hs⟩ h
  · have hs := short_of_kind hk (by decide)
    exact takes_leaf (phrase_literal hroom (by simp [Token.Denotes, hk]) hs) h
  · obtain ⟨d, hd, h⟩ := bind_eq_ok.mp h
    obtain ⟨f, rfl, hf, hs⟩ := integerLiteral_sound hk hd
    exact takes_leaf (phrase_literal hroom hf hs) h
  · obtain ⟨d, hd, h⟩ := bind_eq_ok.mp h
    obtain ⟨f, rfl, hf⟩ := floatLiteral_sound hk hd
    exact takes_leaf (phrase_literal hroom hf (short_of_kind hk (by decide))) h
  · have hs := short_of_kind hk (by decide)
    exact takes_leaf (phrase_literal hroom (by simp [Token.Denotes, hk]) hs) h
  · have hs := short_of_kind hk (by decide)
    exact takes_leaf (phrase_literal hroom (by simp [Token.Denotes, hk]) hs) h
  · obtain ⟨q, hq, h⟩ := bind_eq_ok.mp h
    obtain rfl := Option.some.inj (pure_eq_ok.mp h)
    exact grouped_sound hi hk hq
  · cases pure_eq_ok.mp h

section
variable {inner : Nat → Production} (hi : ∀ room, Sound (Phrase room .piped) (inner room))
  {room : Nat}
include hi

theorem atom_sound : Sound (Phrase room .atom) (atom inner room) := by
  intro tokens e rest h
  unfold atom at h
  split at h
  · cases h
  · next hroom =>
    cases tokens with
    | nil => cases pure_eq_ok.mp h
    | cons t tokens => exact atomFrom_sound (Nat.le_of_not_lt hroom) (hi _) h

omit hi in
theorem memberOf_sound {target e : Expr} {dot : Token} {ls tokens rest : List Token}
    (hp : Phrase room .postfixed target ls) (hd : dot.kind = .dot)
    (h : memberOf target dot tokens = .ok (e, rest)) :
    Takes (Phrase room .postfixed) (ls ++ dot :: tokens) e rest := by
  unfold memberOf at h
  cases hc : accept? .symbol tokens with
  | none => rw [hc] at h; exact absurd h fail_ne_ok
  | some q =>
    obtain ⟨name, left⟩ := q
    rw [hc] at h
    obtain ⟨rfl, rfl⟩ := Prod.mk.inj (pure_eq_ok.mp h)
    obtain ⟨rfl, hk⟩ := accept_eq_some.mp hc
    refine ⟨ls ++ [dot, name], by simp,
      .binary (show BinaryOp.member.kind? = some dot.kind by rw [hd]; rfl) hp.reads (.symbol hk),
      ⟨hp.le_level, hp.levelled, rfl⟩, Level.le_refl _,
      nesting_binary_le.mpr ⟨hp.fits, Nat.le_trans (le_nesting target) hp.fits⟩,
      Short.append.mpr ⟨hp.short, ?_⟩⟩
    exact short_cons (by rw [hd]; decide) (short_of_kind hk (by decide))

omit hi in
theorem subscriptOf_sound {inner : Production} (hi : Sound (Phrase (room - 13) .piped) inner)
    {target e : Expr} {opening : Token} {ls tokens rest : List Token}
    (hp : Phrase room .postfixed target ls) (ho : opening.kind = .leftBracket)
    (h : subscriptOf inner target opening tokens = .ok (e, rest)) :
    Takes (Phrase room .postfixed) (ls ++ opening :: tokens) e rest := by
  obtain ⟨ks, key, after, rfl, hk, hclose⟩ := hi.required h
  cases hc : accept? .rightBracket after with
  | none => simp only [hc] at hclose; exact absurd hclose fail_ne_ok
  | some q =>
    obtain ⟨c, left⟩ := q
    simp only [hc] at hclose
    obtain ⟨rfl, rfl⟩ := Prod.mk.inj (pure_eq_ok.mp hclose)
    obtain ⟨rfl, hck⟩ := accept_eq_some.mp hc
    have hle := Nat.le_trans (le_nesting key) hk.fits
    have hfits : key.nesting + 13 ≤ room := by have := hk.fits; omega
    refine ⟨ls ++ opening :: (ks ++ [c]), by simp, .subscript ho hck hp.reads hk.reads,
      ⟨hp.le_level, hp.levelled, hk.levelled⟩, Level.le_refl _,
      nesting_binary_le.mpr ⟨hp.fits, hfits⟩, Short.append.mpr ⟨hp.short, ?_⟩⟩
    apply short_cons (by rw [ho]; decide)
    exact Short.append.mpr ⟨hk.short, short_of_kind hck (by decide)⟩

omit hi in
theorem postfixFrom_sound {inner : Production} (hi : Sound (Phrase (room - 13) .piped) inner)
    (fuel : Nat) :
    SoundFrom (Phrase room .postfixed) (postfixFrom inner fuel) := by
  induction fuel with
  | zero => intro left ls tokens e rest hp h; exact takes_self hp h
  | succ fuel ih =>
    intro left ls tokens e rest hp h
    cases tokens with
    | nil => exact takes_self hp h
    | cons t tokens =>
      unfold postfixFrom at h
      split at h <;> rename_i hk
      · obtain ⟨⟨target, after⟩, hm, hrest⟩ := bind_eq_ok.mp h
        obtain ⟨ts, hts, hpt⟩ := memberOf_sound hp hk hm
        rw [hts]
        exact ih hpt hrest
      · obtain ⟨⟨target, after⟩, hm, hrest⟩ := bind_eq_ok.mp h
        obtain ⟨ts, hts, hpt⟩ := subscriptOf_sound hi hp hk hm
        rw [hts]
        exact ih hpt hrest
      · exact takes_self hp h

theorem postfixed_sound : Sound (Phrase room .postfixed) (postfixed inner room) :=
  sound_of_loop ((atom_sound hi).weaken (by decide)) (postfixFrom_sound (hi _))

omit hi in
theorem unary_sound {P Q : Expr → List Token → Prop} {op : UnaryOp} {operand : Production}
    {t : Token} {tokens rest : List Token} {e : Expr} (ho : Sound P operand)
    (hQ : ∀ d ts, P d ts → Q (unary ⟨t.start, d.stop⟩ op d) (t :: ts))
    (h : (do
      let (d, rest) ← required t operand tokens
      return some (Expr.unary ⟨t.start, d.stop⟩ op d, rest)) = .ok (some (e, rest))) :
    Takes Q (t :: tokens) e rest := by
  obtain ⟨ts, d, after, rfl, hp, hpure⟩ := ho.required h
  obtain ⟨rfl, rfl⟩ := Prod.mk.inj (Option.some.inj (pure_eq_ok.mp hpure))
  exact ⟨t :: ts, rfl, hQ d ts hp⟩

omit hi in
theorem Phrase.unary {op : UnaryOp} {t : Token} {ts : List Token} {e : Expr}
    (hk : t.kind = op.kind) (hp : Phrase room op.operandLevel e ts) :
    Phrase (room + unaryNesting op) op.level (.unary ⟨t.start, e.stop⟩ op e) (t :: ts) :=
  ⟨.unary hk hp.reads, ⟨hp.le_level, hp.levelled⟩, Level.le_refl _, Nat.add_le_add_right hp.fits _,
    short_cons (by rw [hk]; cases op <;> decide) hp.short⟩

omit hi in
theorem sign_kind {k : Kind} {op : UnaryOp} (h : sign? k = some op) :
    k = op.kind ∧ op.level = .sign ∧ op.operandLevel = .postfixed ∧ unaryNesting op = 0 := by
  cases k <;> cases h <;> exact ⟨rfl, rfl, rfl, rfl⟩

theorem signed_sound : Sound (Phrase room .sign) (signed inner room) := by
  intro tokens e rest h
  cases tokens with
  | nil => exact (postfixed_sound hi).weaken (by decide) h
  | cons t tokens =>
    simp only [signed] at h
    cases hs : sign? t.kind with
    | none =>
      rw [hs] at h
      exact (postfixed_sound hi).weaken (by decide) h
    | some op =>
      rw [hs] at h
      obtain ⟨hk, hl, hol, hn⟩ := sign_kind hs
      refine unary_sound (postfixed_sound hi) (fun d ts hp => ?_) h
      have hphrase := Phrase.unary hk (hol ▸ hp)
      rwa [hl, hn, Nat.add_zero] at hphrase

theorem product_sound : Sound (Phrase room .product) (product inner room) :=
  chain_sound (by decide) (signed_sound hi)

theorem sum_sound : Sound (Phrase room .sum) (sum inner room) :=
  chain_sound (by decide) (product_sound hi)

theorem compared_sound : Sound (Phrase room .comparison) (compared inner room) :=
  chain_sound (by decide) (sum_sound hi)

/-- A negation is taken with one call less to come. -/
theorem negated_sound : ∀ room, Sound (Phrase room .not) (negated inner room)
  | 0, _, _, _, h => nomatch h
  | room + 1, [], _, _, h => (compared_sound hi).weaken (by decide) h
  | room + 1, t :: tokens, e, rest, h => by
    unfold negated at h
    split at h
    · rename_i hk
      exact unary_sound (negated_sound room) (fun d ts hp => @Phrase.unary _ .not _ _ _ hk hp) h
    · exact (compared_sound hi).weaken (by decide) h

theorem conjunction_sound : Sound (Phrase room .and) (conjunction inner room) :=
  chain_sound (by decide) (negated_sound hi room)

theorem disjunction_sound : Sound (Phrase room .or) (disjunction inner room) :=
  chain_sound (by decide) (conjunction_sound hi)

/-! ## Filters -/

structure ArgumentPhrases (room : Nat) (es : List Expr) (ts : List Token) : Prop where
  reads : ReadsAll es ts
  arguments : AreArguments es
  fit : mostNesting es ≤ room
  short : Short ts

structure FilterPhrase (room : Nat) (e : Expr) (ts : List Token) : Prop where
  reads : Reads e ts
  isFilter : e.IsFilter
  fits : e.nesting ≤ room
  short : Short ts

structure ListPhrase (room : Nat) (e : Expr) (ts : List Token) : Prop where
  reads : Reads e ts
  isArguments : e.IsArguments
  fits : e.nesting ≤ room
  short : Short ts

omit hi in
theorem Phrase.argument {e : Expr} {ts : List Token} (hp : Phrase room .or e ts) :
    ArgumentPhrases room [e] ts :=
  have hroom := Nat.le_trans (le_nesting e) hp.fits
  ⟨.one hp.reads, ⟨hp.le_level, hp.levelled, trivial⟩, Nat.max_le.mpr ⟨hp.fits, hroom⟩, hp.short⟩

omit hi in
theorem Phrase.arguments {e d : Expr} {es : List Expr} {comma : Token} {ts us : List Token}
    (hp : Phrase room .or e ts) (hk : comma.kind = .comma)
    (hs : ArgumentPhrases room (d :: es) us) :
    ArgumentPhrases room (e :: d :: es) (ts ++ comma :: us) :=
  ⟨.cons hk hp.reads hs.reads, ⟨hp.le_level, hp.levelled, hs.arguments⟩,
    Nat.max_le.mpr ⟨hp.fits, hs.fit⟩,
    Short.append.mpr ⟨hp.short, short_cons (by rw [hk]; decide) hs.short⟩⟩

omit hi in
theorem argumentsFrom_sound {item : Production} (hitem : Sound (Phrase room .or) item)
    (fuel : Nat) :
    ∀ {tokens rest : List Token} {d : Expr} {es : List Expr} {ds : List Token},
    Phrase room .or d ds → argumentsFrom item fuel tokens = .ok (es, rest) →
    ∃ ts, ds ++ tokens = ts ++ rest ∧ ArgumentPhrases room (d :: es) ts := by
  induction fuel with
  | zero =>
    intro tokens rest d es ds hd h
    obtain ⟨rfl, rfl⟩ := Prod.mk.inj (pure_eq_ok.mp h)
    exact ⟨ds, rfl, hd.argument⟩
  | succ fuel ih =>
    intro tokens rest d es ds hd h
    have hstop : (pure ([], tokens) : Except Refusal (List Expr × List Token)) = .ok (es, rest) →
        ∃ ts, ds ++ tokens = ts ++ rest ∧ ArgumentPhrases room (d :: es) ts := by
      intro h
      obtain ⟨rfl, rfl⟩ := Prod.mk.inj (pure_eq_ok.mp h)
      exact ⟨ds, rfl, hd.argument⟩
    cases tokens with
    | nil => exact hstop h
    | cons t tokens =>
      unfold argumentsFrom at h
      split at h
      · rename_i hk
        obtain ⟨ts, next, after, rfl, hp, h⟩ := hitem.required h
        obtain ⟨⟨items, left⟩, hitems, hpure⟩ := bind_eq_ok.mp h
        obtain ⟨rfl, rfl⟩ := Prod.mk.inj (pure_eq_ok.mp hpure)
        obtain ⟨us, hus, hmore⟩ := ih hp hitems
        exact ⟨ds ++ t :: us, by rw [hus]; simp, hd.arguments hk hmore⟩
      · exact hstop h

omit hi in
theorem closing_sound {opening : Token} {items : List Expr} {ts after rest : List Token} {e : Expr}
    {o : Nat} (hk : opening.kind = .leftParen) (hs : ArgumentPhrases (room - 1) items ts)
    (h : (match accept? .rightParen after with
      | some (closing, rest) => return (Expr.arguments ⟨opening.start, closing.stop⟩ items, rest)
      | none => fail .missingParenthesis o) = Except.ok (e, rest)) :
    Takes (ListPhrase room) (opening :: (ts ++ after)) e rest := by
  cases hc : accept? .rightParen after with
  | none => rw [hc] at h; exact absurd h fail_ne_ok
  | some q =>
    obtain ⟨c, left⟩ := q
    rw [hc] at h
    obtain ⟨rfl, rfl⟩ := Prod.mk.inj (pure_eq_ok.mp h)
    obtain ⟨rfl, hck⟩ := accept_eq_some.mp hc
    have hle := Nat.le_trans (le_mostNesting items) hs.fit
    have hfits : mostNesting items + 1 ≤ room := by have := hs.fit; omega
    refine ⟨opening :: (ts ++ [c]), by simp, .arguments hk hck hs.reads, hs.arguments, hfits,
      short_cons (by rw [hk]; decide) ?_⟩
    exact Short.append.mpr ⟨hs.short, short_of_kind hck (by decide)⟩

omit hi in
theorem room_of_disjunction {tokens : List Token} {o : Option Parsed}
    (h : disjunction inner room tokens = .ok o) : 14 ≤ room := by
  refine Nat.le_of_not_lt fun hroom => ?_
  rw [disjunction_tooDeep hroom] at h
  cases h

theorem argumentList_sound {opening : Token} {tokens rest : List Token} {e : Expr}
    (hk : opening.kind = .leftParen)
    (h : argumentList (disjunction inner (room - 1)) opening tokens = .ok (e, rest)) :
    Takes (ListPhrase room) (opening :: tokens) e rest := by
  obtain ⟨o, ho, h⟩ := bind_eq_ok.mp h
  rcases o with _ | ⟨item, left⟩
  · exact closing_sound hk ⟨.nil, trivial, room_of_disjunction ho, nofun⟩ h
  · obtain ⟨⟨more, after⟩, hfrom, hclose⟩ := bind_eq_ok.mp h
    obtain ⟨ds, rfl, hd⟩ := disjunction_sound hi ho
    obtain ⟨ts, hts, hs⟩ := argumentsFrom_sound (disjunction_sound hi) _ hd hfrom
    rw [hts]
    exact closing_sound hk hs hclose

theorem filterCall_sound : Sound (FilterPhrase room) (filterCall inner room) := by
  intro tokens e rest h
  obtain ⟨o, ho, hnext⟩ := bind_eq_ok.mp h
  rcases o with _ | ⟨target, after⟩
  · cases pure_eq_ok.mp hnext
  obtain ⟨ts, rfl, hp⟩ := disjunction_sound hi ho
  cases target with
  | symbol s name =>
    cases hc : accept? .leftParen after with
    | none =>
      simp only [hc] at hnext
      obtain ⟨rfl, rfl⟩ := Prod.mk.inj (Option.some.inj (pure_eq_ok.mp hnext))
      exact ⟨ts, rfl, hp.reads, trivial, hp.fits, hp.short⟩
    | some q =>
      obtain ⟨opening, left⟩ := q
      simp only [hc] at hnext
      obtain ⟨rfl, hk⟩ := accept_eq_some.mp hc
      obtain ⟨⟨items, left'⟩, hitems, hpure⟩ := bind_eq_ok.mp hnext
      obtain ⟨rfl, rfl⟩ := Prod.mk.inj (Option.some.inj (pure_eq_ok.mp hpure))
      obtain ⟨us, hus, hl⟩ := argumentList_sound hi hk hitems
      exact ⟨ts ++ us, by rw [hus]; simp, .call hp.reads hl.reads, ⟨rfl, hl.isArguments⟩,
        nesting_binary_le.mpr ⟨hp.fits, hl.fits⟩, Short.append.mpr ⟨hp.short, hl.short⟩⟩
  | _ => exact absurd hnext fail_ne_ok

theorem pipesFrom_sound (fuel : Nat) :
    SoundFrom (Phrase room .piped) (pipesFrom (filterCall inner (room - 1)) fuel) := by
  induction fuel with
  | zero => intro left ls tokens e rest hp h; exact takes_self hp h
  | succ fuel ih =>
    intro left ls tokens e rest hp h
    cases tokens with
    | nil => exact takes_self hp h
    | cons t tokens =>
      unfold pipesFrom at h
      split at h
      · rename_i hk
        obtain ⟨o, ho, hnext⟩ := bind_eq_ok.mp h
        rcases o with _ | ⟨right, after⟩
        · exact absurd hnext fail_ne_ok
        obtain ⟨rs, rfl, hf⟩ := filterCall_sound hi ho
        have hle := Nat.le_trans (le_nesting right) hf.fits
        have hfits : right.nesting + 1 ≤ room := by have := hf.fits; omega
        have hphrase : Phrase room .piped (.binary ⟨left.start, right.stop⟩ .pipe left right)
            (ls ++ t :: rs) :=
          ⟨.binary (by rw [hk]; rfl) hp.reads hf.reads, ⟨hp.le_level, hp.levelled, hf.isFilter⟩,
            Level.le_refl _, nesting_binary_le.mpr ⟨hp.fits, hfits⟩,
            Short.append.mpr ⟨hp.short, short_cons (by rw [hk]; decide) hf.short⟩⟩
        simpa using ih hphrase hnext
      · exact takes_self hp h

theorem piped_sound : Sound (Phrase room .piped) (piped inner room) :=
  sound_of_loop ((disjunction_sound hi).weaken (by decide)) (pipesFrom_sound hi)

end

/-! ## The whole -/

theorem parser_sound (depth : Nat) : ∀ room, Sound (Phrase room .piped) (parser depth room) := by
  induction depth with
  | zero => intro room tokens e rest h; cases h
  | succ depth ih => exact fun room => piped_sound ih

theorem parse_sound (room : Nat) : Sound (Phrase room .piped) (parse room) := parser_sound _ room

theorem parsePostfix_sound (room : Nat) : Sound (Phrase room .postfixed) (parsePostfix room) :=
  postfixed_sound (parser_sound room)

end Stencil.Expr
