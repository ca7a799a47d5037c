import Stencil.Proofs.Expr.Levels

/-!
# Parsing elsewhere

A parser looks at the kinds and the characters of tokens and only copies their offsets. So when the
tokens are moved, by one map for the offsets at which something starts and one for those at which
something ends, trees and errors move along and nothing else changes.
-/

namespace Stencil

structure Relocation where
  start : Nat → Nat
  stop : Nat → Nat

/-- Errors of most kinds name an offset at which something ends. These name a start. -/
def ParseKind.atStart : ParseKind → Bool
  | incompletedExpressionBlock | unknownClause | missingTestExpression | unknownStatementType
  | missingEndIf | missingEndFor | invalidFilter | invalidNumber | nestingTooDeep => true
  | _ => false

namespace Relocation

def shift (n : Nat) : Relocation := ⟨(n + ·), (n + ·)⟩

variable (ρ : Relocation)

/-! ## What is moved -/

def span (s : Span) : Span := ⟨ρ.start s.start, ρ.stop s.stop⟩

def token (t : Token) : Token := ⟨t.kind, ρ.start t.start, ρ.stop t.stop, t.text⟩

def tokens (ts : List Token) : List Token := ts.map ρ.token

mutual

def expr : Expr → Expr
  | .literal s forms => .literal (ρ.span s) forms
  | .symbol s name => .symbol (ρ.span s) name
  | .unary s op operand => .unary (ρ.span s) op (expr operand)
  | .binary s op left right => .binary (ρ.span s) op (expr left) (expr right)
  | .arguments s items => .arguments (ρ.span s) (exprs items)
  | .group s inner => .group (ρ.span s) (expr inner)
  | .other s sort => .other (ρ.span s) sort

def exprs : List Expr → List Expr
  | [] => []
  | e :: es => expr e :: exprs es

end

def parsed (p : Expr.Parsed) : Expr.Parsed := (ρ.expr p.1, ρ.tokens p.2)

def place (kind : ParseKind) (offset : Nat) : Nat :=
  cond kind.atStart (ρ.start offset) (ρ.stop offset)

def refusal : Expr.Refusal → Expr.Refusal
  | .located kind offset => .located kind (ρ.place kind offset)
  | .tooDeep => .tooDeep
  | .numeralTooLong digits => .numeralTooLong digits

def outcome {α : Type} (f : α → α) : Except Expr.Refusal α → Except Expr.Refusal α
  | .ok a => .ok (f a)
  | .error r => .error (ρ.refusal r)

@[simp] theorem span_expr (e : Expr) : (ρ.expr e).span = ρ.span e.span := by
  cases e <;> rfl

@[simp] theorem start_expr (e : Expr) : (ρ.expr e).start = ρ.start e.start := by
  rw [Expr.start, span_expr]; rfl

@[simp] theorem stop_expr (e : Expr) : (ρ.expr e).stop = ρ.stop e.stop := by
  rw [Expr.stop, span_expr]; rfl

@[simp] theorem kind_token (t : Token) : (ρ.token t).kind = t.kind := rfl

@[simp] theorem stop_token (t : Token) : (ρ.token t).stop = ρ.stop t.stop := rfl

@[simp] theorem tokens_cons (t : Token) (ts : List Token) :
    ρ.tokens (t :: ts) = ρ.token t :: ρ.tokens ts := rfl

@[simp] theorem length_tokens (ts : List Token) : (ρ.tokens ts).length = ts.length :=
  List.length_map ..

theorem exprs_eq_map (es : List Expr) : ρ.exprs es = es.map ρ.expr := by
  induction es with
  | nil => rfl
  | cons e es ih => simp [exprs, ih]

theorem outcome_bind {α β : Type} {f : α → α} {g : β → β} {x : Except Expr.Refusal α}
    {k l : α → Except Expr.Refusal β} (h : ∀ a, l (f a) = ρ.outcome g (k a)) :
    (ρ.outcome f x >>= l) = ρ.outcome g (x >>= k) := by
  cases x with
  | error r => rfl
  | ok a => exact h a

end Relocation

namespace Expr

variable (ρ : Relocation)

/-! ## Productions -/

/-- A production answers the same wherever the tokens are. -/
def Movable (p : Production) : Prop :=
  ∀ tokens, p (ρ.tokens tokens) = ρ.outcome (Option.map ρ.parsed) (p tokens)

theorem accept_move (k : Token.Kind) (tokens : List Token) :
    accept? k (ρ.tokens tokens) =
      (accept? k tokens).map fun r => (ρ.token r.1, ρ.tokens r.2) := by
  cases tokens with
  | nil => rfl
  | cons t tokens =>
    by_cases hk : t.kind = k
    · simp [accept?, Relocation.token, hk]
    · simp [accept?, Relocation.token, hk]

variable {ρ}

theorem Movable.required {p : Production} (hp : Movable ρ p) (t : Token) (tokens : List Token) :
    required (ρ.token t) p (ρ.tokens tokens) = ρ.outcome ρ.parsed (required t p tokens) := by
  unfold Expr.required
  rw [hp]
  apply ρ.outcome_bind
  intro parsed
  cases parsed <;> rfl

/-! ## Loops -/

def MovableFrom (ρ : Relocation) (loop : Expr → List Token → Except Refusal Parsed) : Prop :=
  ∀ left tokens, loop (ρ.expr left) (ρ.tokens tokens) = ρ.outcome ρ.parsed (loop left tokens)

theorem movable_of_loop {first : Production}
    {loop : Nat → Expr → List Token → Except Refusal Parsed} (hf : Movable ρ first)
    (hl : ∀ fuel, MovableFrom ρ (loop fuel)) :
    Movable ρ fun tokens => do
      match ← first tokens with
      | none => return none
      | some (left, rest) => return some (← loop rest.length left rest) := by
  intro tokens
  simp only
  rw [hf]
  apply ρ.outcome_bind
  intro parsed
  cases parsed with
  | none => rfl
  | some q =>
    obtain ⟨left, rest⟩ := q
    simp only [Option.map_some, Relocation.parsed, Relocation.length_tokens]
    rw [hl]
    exact ρ.outcome_bind fun _ => rfl

section
variable {operand : Production} (ho : Movable ρ operand)
include ho

theorem chainFrom_movable (operator? : Token.Kind → Option BinaryOp) (fuel : Nat) :
    MovableFrom ρ (chainFrom operator? operand fuel) := by
  induction fuel with
  | zero => intro left tokens; rfl
  | succ fuel ih =>
    intro left tokens
    cases tokens with
    | nil => rfl
    | cons t tokens =>
      simp only [Relocation.tokens_cons, chainFrom, Relocation.kind_token]
      cases operator? t.kind with
      | none => rfl
      | some op =>
        simp only
        rw [ho.required]
        apply ρ.outcome_bind
        rintro ⟨right, rest⟩
        have := ih (.binary ⟨left.start, right.stop⟩ op left right) rest
        simpa [Relocation.expr, Relocation.span, Relocation.parsed] using this

theorem chain_movable (operator? : Token.Kind → Option BinaryOp) :
    Movable ρ (chain operator? operand) :=
  movable_of_loop ho (chainFrom_movable ho operator?)

end

/-! ## Atoms -/

theorem integerLiteral_move (t : Token) :
    integerLiteral (ρ.token t) = ρ.outcome ρ.expr (integerLiteral t) := by
  simp only [integerLiteral, Relocation.token, apply_ite (ρ.outcome ρ.expr)]
  rfl

theorem floatLiteral_move (t : Token) :
    floatLiteral (ρ.token t) = ρ.outcome ρ.expr (floatLiteral t) := by
  simp only [floatLiteral, Relocation.token, apply_ite (ρ.outcome ρ.expr)]
  rfl

section
variable {inner : Production} (hi : Movable ρ inner)
include hi

theorem grouped_move (opening : Token) (tokens : List Token) :
    grouped inner (ρ.token opening) (ρ.tokens tokens) =
      ρ.outcome ρ.parsed (grouped inner opening tokens) := by
  unfold grouped
  rw [hi.required]
  apply ρ.outcome_bind
  rintro ⟨body, rest⟩
  simp only [Relocation.parsed, accept_move]
  cases accept? .rightParen rest with
  | none => simp [fail, Relocation.outcome, Relocation.refusal, Relocation.place, ParseKind.atStart]
  | some r => rfl

theorem atomFrom_move (t : Token) (tokens : List Token) :
    atomFrom inner (ρ.token t) (ρ.tokens tokens) =
      ρ.outcome (Option.map ρ.parsed) (atomFrom inner t tokens) := by
  simp only [atomFrom, Relocation.kind_token]
  split
  · rfl
  · rfl
  · rw [integerLiteral_move]
    exact ρ.outcome_bind fun _ => rfl
  · rw [floatLiteral_move]
    exact ρ.outcome_bind fun _ => rfl
  · rfl
  · rfl
  · rw [grouped_move hi]
    exact ρ.outcome_bind fun _ => rfl
  · rfl

/-! ## Members and subscripts -/

omit hi in
theorem memberOf_move (target : Expr) (dot : Token) (tokens : List Token) :
    memberOf (ρ.expr target) (ρ.token dot) (ρ.tokens tokens) =
      ρ.outcome ρ.parsed (memberOf target dot tokens) := by
  unfold memberOf
  rw [accept_move]
  cases accept? .symbol tokens with
  | none => rfl
  | some r => simp only [Option.map_some, Relocation.start_expr]; rfl

theorem subscriptOf_move (target : Expr) (opening : Token) (tokens : List Token) :
    subscriptOf inner (ρ.expr target) (ρ.token opening) (ρ.tokens tokens) =
      ρ.outcome ρ.parsed (subscriptOf inner target opening tokens) := by
  unfold subscriptOf
  rw [hi.required]
  apply ρ.outcome_bind
  rintro ⟨key, rest⟩
  simp only [Relocation.parsed, accept_move]
  cases accept? .rightBracket rest with
  | none => simp [fail, Relocation.outcome, Relocation.refusal, Relocation.place, ParseKind.atStart]
  | some r => simp only [Option.map_some, Relocation.start_expr]; rfl

theorem postfixFrom_movable (fuel : Nat) : MovableFrom ρ (postfixFrom inner fuel) := by
  induction fuel with
  | zero => intro left tokens; rfl
  | succ fuel ih =>
    intro left tokens
    cases tokens with
    | nil => rfl
    | cons t tokens =>
      simp only [Relocation.tokens_cons, postfixFrom, Relocation.kind_token]
      split
      · rw [memberOf_move]
        exact ρ.outcome_bind fun r => ih r.1 r.2
      · rw [subscriptOf_move hi]
        exact ρ.outcome_bind fun r => ih r.1 r.2
      · rfl

end

section
variable {inner : Nat → Production} (hi : ∀ room, Movable ρ (inner room)) {room : Nat}
include hi

theorem atom_movable : Movable ρ (atom inner room) := by
  intro tokens
  unfold atom
  split
  · rfl
  · cases tokens with
    | nil => rfl
    | cons t tokens => exact atomFrom_move (hi _) t tokens

theorem postfixed_movable : Movable ρ (postfixed inner room) :=
  movable_of_loop (atom_movable hi) (postfixFrom_movable (hi _))

/-! ## Prefixes -/

omit hi in
theorem unary_move {operand : Production} (ho : Movable ρ operand) (op : UnaryOp) (t : Token)
    (tokens : List Token) :
    (do
      let (d, rest) ← required (ρ.token t) operand (ρ.tokens tokens)
      return some (Expr.unary ⟨(ρ.token t).start, d.stop⟩ op d, rest)) =
    ρ.outcome (Option.map ρ.parsed) (do
      let (d, rest) ← required t operand tokens
      return some (Expr.unary ⟨t.start, d.stop⟩ op d, rest)) := by
  rw [ho.required]
  apply ρ.outcome_bind
  rintro ⟨d, rest⟩
  simp only [Relocation.parsed, Relocation.stop_expr]
  rfl

theorem signed_movable : Movable ρ (signed inner room) := by
  intro tokens
  cases tokens with
  | nil => exact postfixed_movable hi []
  | cons t tokens =>
    simp only [Relocation.tokens_cons, signed, Relocation.kind_token]
    cases sign? t.kind with
    | none => exact postfixed_movable hi (t :: tokens)
    | some op => exact unary_move (postfixed_movable hi) op t tokens

theorem compared_movable : Movable ρ (compared inner room) :=
  chain_movable (chain_movable (chain_movable (signed_movable hi) _) _) _

theorem negated_movable : ∀ room, Movable ρ (negated inner room)
  | 0, _ => rfl
  | _ + 1, [] => compared_movable hi []
  | room + 1, t :: tokens => by
    simp only [Relocation.tokens_cons, negated]
    rw [Relocation.kind_token]
    by_cases hk : t.kind = .notWord
    · simp only [if_pos hk]
      exact unary_move (negated_movable room) .not t tokens
    · simp only [if_neg hk]
      exact compared_movable hi (t :: tokens)

theorem disjunction_movable : Movable ρ (disjunction inner room) :=
  chain_movable (chain_movable (negated_movable hi _) _) _

/-! ## Filters -/

omit hi in
theorem argumentsFrom_move {item : Production} (hitem : Movable ρ item) (fuel : Nat) : ∀ tokens,
    argumentsFrom item fuel (ρ.tokens tokens) =
      ρ.outcome (fun r => (ρ.exprs r.1, ρ.tokens r.2)) (argumentsFrom item fuel tokens) := by
  induction fuel with
  | zero => intro tokens; rfl
  | succ fuel ih =>
    intro tokens
    cases tokens with
    | nil => rfl
    | cons t tokens =>
      simp only [Relocation.tokens_cons, argumentsFrom]
      rw [Relocation.kind_token]
      by_cases hk : t.kind = .comma
      · simp only [if_pos hk]
        rw [hitem.required]
        apply ρ.outcome_bind
        rintro ⟨next, rest⟩
        simp only [Relocation.parsed]
        rw [ih]
        exact ρ.outcome_bind fun _ => rfl
      · simp only [if_neg hk]
        rfl

omit hi in
theorem lastStop_move (items : List Expr) (opening : Token) :
    ((ρ.exprs items).getLast?.map stop).getD (ρ.token opening).stop =
      ρ.stop ((items.getLast?.map stop).getD opening.stop) := by
  rw [Relocation.exprs_eq_map, List.getLast?_map]
  cases items.getLast? with
  | none => rfl
  | some e => simp

omit hi in
theorem closing_move (opening : Token) (items : List Expr) (tokens : List Token) :
    (match accept? .rightParen (ρ.tokens tokens) with
      | some (closing, rest) =>
        return (.arguments ⟨(ρ.token opening).start, closing.stop⟩ (ρ.exprs items), rest)
      | none => fail .missingParenthesis
        (((ρ.exprs items).getLast?.map stop).getD (ρ.token opening).stop) :
        Except Refusal Parsed) =
    ρ.outcome ρ.parsed
      (match accept? .rightParen tokens with
      | some (closing, rest) => return (.arguments ⟨opening.start, closing.stop⟩ items, rest)
      | none => fail .missingParenthesis ((items.getLast?.map stop).getD opening.stop)) := by
  rw [accept_move, lastStop_move]
  cases accept? .rightParen tokens <;> rfl

omit hi in
theorem argumentList_move {item : Production} (hitem : Movable ρ item) (opening : Token)
    (tokens : List Token) :
    argumentList item (ρ.token opening) (ρ.tokens tokens) =
      ρ.outcome ρ.parsed (argumentList item opening tokens) := by
  unfold argumentList
  rw [hitem]
  apply ρ.outcome_bind
  intro parsed
  rcases parsed with _ | ⟨first, rest⟩
  · exact closing_move opening [] tokens
  · simp only [Option.map_some, Relocation.parsed, Relocation.length_tokens]
    rw [argumentsFrom_move hitem]
    exact ρ.outcome_bind fun r => closing_move opening (first :: r.1) r.2

theorem filterCall_movable : Movable ρ (filterCall inner room) := by
  intro tokens
  unfold filterCall
  rw [disjunction_movable hi]
  apply ρ.outcome_bind
  intro parsed
  rcases parsed with _ | ⟨target, rest⟩
  · rfl
  cases target with
  | symbol s name =>
    simp only [Option.map_some, Relocation.parsed, Relocation.expr, accept_move]
    cases accept? .leftParen rest with
    | none => rfl
    | some r =>
      simp only [Option.map_some]
      rw [argumentList_move (disjunction_movable hi)]
      apply ρ.outcome_bind
      rintro ⟨items, rest⟩
      simp only [Relocation.parsed, Relocation.stop_expr]
      rfl
  | _ => rfl

omit hi in
theorem pipesFrom_movable {call : Production} (hc : Movable ρ call) (fuel : Nat) :
    MovableFrom ρ (pipesFrom call fuel) := by
  induction fuel with
  | zero => intro left tokens; rfl
  | succ fuel ih =>
    intro left tokens
    cases tokens with
    | nil => rfl
    | cons t tokens =>
      simp only [Relocation.tokens_cons, pipesFrom]
      rw [Relocation.kind_token]
      by_cases hk : t.kind = .pipe
      · simp only [if_pos hk]
        rw [hc]
        apply ρ.outcome_bind
        intro parsed
        rcases parsed with _ | ⟨right, rest⟩
        · rfl
        have := ih (.binary ⟨left.start, right.stop⟩ .pipe left right) rest
        simpa [Relocation.expr, Relocation.span, Relocation.parsed] using this
      · simp only [if_neg hk]
        rfl

theorem piped_movable : Movable ρ (piped inner room) :=
  movable_of_loop (disjunction_movable hi) (pipesFrom_movable (filterCall_movable hi))

end

/-! ## The whole -/

theorem parser_movable (depth : Nat) : ∀ room, Movable ρ (parser depth room) := by
  induction depth with
  | zero => intro room tokens; rfl
  | succ depth ih => exact fun room => piped_movable ih

theorem parse_movable (room : Nat) : Movable ρ (parse room) := parser_movable _ room

theorem parsePostfix_movable (room : Nat) : Movable ρ (parsePostfix room) :=
  postfixed_movable (parser_movable room)

end Expr

end Stencil
