import Stencil.Proofs.Clause.Relocation
import Stencil.Proofs.Clause.Tiling
import Stencil.Proofs.Expr.Prediction

/-!
# Words decide

What is read at some place depends on the kinds and the characters of the tokens from there on, and
not on where they stand. Two sources with the same words are read alike: both to nothing, both to
errors of the same kind, or to trees that differ in their spans only, each node of one at the tokens
of the corresponding node of the other.
-/

namespace Stencil

namespace Token

def toWord (t : Token) : Word := (t.kind, t.text)

def upTo (closes : Kind → Bool) : List Token → List Token
  | [] => []
  | t :: ts => if closes t.kind then [t] else t :: upTo closes ts

theorem stream_eq_upTo (closes : Kind → Bool) (source : Text) (offset : Nat) :
    stream closes offset (source.drop offset) = upTo closes (onward source offset) := by
  rw [stream_drop, onward_eq]
  simp only
  by_cases hi : (atOffset source offset).kind = .invalid
  · rw [if_pos (.inl hi), if_pos hi, upTo, upTo, ite_self]
  · have ⟨hlt, hle⟩ := atOffset_bounds hi
    have := le_start_atOffset source offset
    rw [if_neg hi, upTo, stream_eq_upTo closes source (atOffset source offset).stop]
    simp only [hi, false_or]
termination_by source.length - offset
decreasing_by omega

theorem upTo_subset (closes : Kind → Bool) (ts : List Token) : upTo closes ts ⊆ ts := by
  induction ts with
  | nil => exact List.Subset.refl _
  | cons t ts ih =>
    rw [upTo]
    split
    · simp
    · exact List.cons_subset_cons t ih

theorem upTo_move (ρ : Relocation) (closes : Kind → Bool) (ts : List Token) :
    upTo closes (ρ.tokens ts) = ρ.tokens (upTo closes ts) := by
  induction ts with
  | nil => rfl
  | cons t ts ih =>
    rw [Relocation.tokens_cons, upTo, upTo, Relocation.kind_token, ih]
    split <;> rfl

/-- Words as tokens, each of which stands at its number. -/
def numbered (ws : List Word) : List Token := ws.mapIdx fun i w => ⟨w.1, i, i, w.2⟩

theorem numbered_cons (w : Word) (ws : List Word) :
    numbered (w :: ws) = ⟨w.1, 0, 0, w.2⟩ :: (numbered (w :: ws)).tail := by
  rw [numbered, List.mapIdx_cons]
  rfl

end Token

/-! ## What does not depend on the place -/

namespace Relocation

def erase : Relocation := ⟨fun _ => 0, fun _ => 0⟩

/-- What stands at a number is moved to the token with that number. -/
def onto (ts : List Token) : Relocation :=
  ⟨fun i => (ts[i]?.map Token.start).getD 0, fun i => (ts[i]?.map Token.stop).getD 0⟩

variable (ρ : Relocation)

mutual

theorem erase_expr : ∀ e, erase.expr (ρ.expr e) = erase.expr e
  | .literal .. | .symbol .. | .other .. => rfl
  | .unary s op operand => by
    simp only [expr, erase_expr operand]
    rfl
  | .binary s op left right => by
    simp only [expr, erase_expr left, erase_expr right]
    rfl
  | .arguments s items => by
    simp only [expr, erase_exprs items]
    rfl
  | .group s inner => by
    simp only [expr, erase_expr inner]
    rfl

theorem erase_exprs : ∀ es, erase.exprs (ρ.exprs es) = erase.exprs es
  | [] => rfl
  | e :: es => by simp only [exprs, erase_expr e, erase_exprs es]

end

theorem erase_clause (c : Clause) : erase.clause (ρ.clause c) = erase.clause c := by
  cases c <;> simp only [clause, erase_expr] <;> rfl

theorem erase_refusal (r : Expr.Refusal) : erase.refusal (ρ.refusal r) = erase.refusal r := by
  cases r with
  | located kind offset => simp only [refusal, place, erase]
  | _ => rfl

theorem onto_numbered (ts : List Token) :
    (onto ts).tokens (Token.numbered (ts.map Token.toWord)) = ts := by
  apply List.ext_getElem
  · simp [Token.numbered]
  · intro i h₁ h₂
    simp [tokens, token, onto, Token.numbered, Token.toWord, h₂]

end Relocation

/-! ## Readings that agree -/

open Relocation (erase onto onto_numbered)
open Stencil.Expr (Refusal)

/-- Two readings come to related results, or to errors that differ in their offsets only. -/
inductive Agree {α : Type} (R : α → α → Prop) : Except Refusal α → Except Refusal α → Prop
  | ok {a b} : R a b → Agree R (.ok a) (.ok b)
  | error {q r} : erase.refusal q = erase.refusal r → Agree R (.error q) (.error r)

section
variable (ts us : List Token)

structure Span.Paired (a b : Span) : Prop where
  start : ∃ p ∈ ts.zip us, p.1.kind ≠ .invalid ∧ a.start = p.1.start ∧ b.start = p.2.start
  stop : ∃ p ∈ ts.zip us, p.1.kind ≠ .invalid ∧ a.stop = p.1.stop ∧ b.stop = p.2.stop

/-- The trees are the same but for their spans, and corresponding nodes stand at corresponding
tokens. -/
def Expr.Alike (d e : Expr) : Prop :=
  erase.expr d = erase.expr e ∧
    List.Forall₂ (fun m n => Span.Paired ts us m.span n.span) d.nodes e.nodes

def Clause.spans (c : Clause) : List Span :=
  match c with
  | .output s e | .ifTest s e | .elifTest s e => s :: e.nodes.map Expr.span
  | .forEach s x e => s :: x.span :: e.nodes.map Expr.span
  | c => [c.span]

def Clause.Alike (c d : Clause) : Prop :=
  erase.clause c = erase.clause d ∧ List.Forall₂ (Span.Paired ts us) c.spans d.spans

end

theorem agree_outcome {α : Type} {R : α → α → Prop} {ρ σ : Relocation} {f g : α → α}
    {x : Except Refusal α} (h : ∀ a, x = .ok a → R (f a) (g a)) :
    Agree R (ρ.outcome f x) (σ.outcome g x) := by
  cases x with
  | error r =>
    apply Agree.error
    rw [Relocation.erase_refusal, Relocation.erase_refusal]
  | ok a => exact .ok (h a rfl)

section
variable {ts us : List Token} (hw : ts.map Token.toWord = us.map Token.toWord)
include hw

theorem zip_onto : ts.zip us = (Token.numbered (ts.map Token.toWord)).map fun t =>
    ((onto ts).token t, (onto us).token t) := by
  have hus := onto_numbered us
  rw [← hw] at hus
  rw [← List.zip_map']
  exact congrArg₂ List.zip (onto_numbered ts).symm hus.symm

theorem paired_onto {s : Span} (h : s.Meets (Token.numbered (ts.map Token.toWord))) :
    Span.Paired ts us ((onto ts).span s) ((onto us).span s) := by
  have hpair {t : Token} (ht : t ∈ Token.numbered (ts.map Token.toWord)) :
      ((onto ts).token t, (onto us).token t) ∈ ts.zip us := by
    rw [zip_onto hw]
    exact List.mem_map_of_mem ht
  obtain ⟨⟨t, ht, hk, hstart⟩, ⟨u, hu, hk', hstop⟩⟩ := h
  constructor
  · exact ⟨_, hpair ht, hk, congrArg (onto ts).start hstart, congrArg (onto us).start hstart⟩
  · exact ⟨_, hpair hu, hk', congrArg (onto ts).stop hstop, congrArg (onto us).stop hstop⟩

theorem Expr.alike_onto {e : Expr}
    (h : ∀ n ∈ e.nodes, n.span.Meets (Token.numbered (ts.map Token.toWord))) :
    Expr.Alike ts us ((onto ts).expr e) ((onto us).expr e) := by
  refine ⟨by rw [Relocation.erase_expr, Relocation.erase_expr], ?_⟩
  rw [Expr.nodes_move, Expr.nodes_move, List.forall₂_map_left_iff, List.forall₂_map_right_iff,
    List.forall₂_same]
  intro n hn
  rw [Relocation.span_expr, Relocation.span_expr]
  exact paired_onto hw (h n hn)

theorem agree_tokens (depth room : Nat) (l : Level) :
    Agree (Option.Rel fun p q => Expr.Alike ts us p.1 q.1)
      (Expr.production (Expr.parser depth) room l ts)
      (Expr.production (Expr.parser depth) room l us) := by
  -- both are the reading of the numbered words, moved onto the tokens of either side
  have hmove (ρ : Relocation) : Expr.Movable ρ (Expr.production (Expr.parser depth) room l) :=
    Expr.production_movable (Expr.parser_movable depth) room l
  have hts := hmove (onto ts) (Token.numbered (ts.map Token.toWord))
  have hus := hmove (onto us) (Token.numbered (us.map Token.toWord))
  rw [onto_numbered] at hts hus
  rw [hts, hus, ← hw]
  apply agree_outcome
  intro parsed hparsed
  rcases parsed with _ | ⟨e, rest⟩
  · exact .none
  · obtain ⟨vs, hvs, hp⟩ := Expr.production_sound (Expr.parser_sound depth) room l hparsed
    refine .some (Expr.alike_onto hw fun n hn => (hp.reads.meets n hn).mono ?_)
    rw [hvs]
    exact List.subset_append_left _ _

end

/-- Readings by offsets agree if those of the tokens from there on do. -/
theorem agree_of_paired {source source' : Text} {closes : Token.Kind → Bool} {m n : Nat}
    {R : Expr → Expr → Prop} {x y : Except Refusal (Option Expr)}
    {p q : Except Refusal (Option Expr.Parsed)}
    (hx : Paired (Option.Rel (Expr.Behind closes source m)) x p)
    (hy : Paired (Option.Rel (Expr.Behind closes source' n)) y q)
    (h : Agree (Option.Rel fun p q => R p.1 q.1) p q) : Agree (Option.Rel R) x y := by
  cases h with
  | error hr =>
    cases hx
    cases hy
    exact .error hr
  | ok hr =>
    cases hx with
    | ok hx =>
    cases hy with
    | ok hy =>
    cases hr with
    | none =>
      cases hx
      cases hy
      exact .ok .none
    | some hr =>
      cases hx with
      | some hx =>
      cases hy with
      | some hy =>
      rw [hx.1, hy.1] at hr
      exact .ok (.some hr)

theorem agree_production {source source' : Text} {offset offset' : Nat}
    (hw : (Token.onward source offset).map Token.toWord =
      (Token.onward source' offset').map Token.toWord) (calls : Nat) (l : Level) :
    Agree (Option.Rel (Expr.Alike (Token.onward source offset) (Token.onward source' offset')))
      (Expr.Parser.production source calls l.rule offset)
      (Expr.Parser.production source' calls l.rule offset') := by
  have ho : Expr.OpenInTrees fun _ => false := fun _ _ => rfl
  exact agree_of_paired (Expr.production_mirrors ho calls _ l (Nat.le_refl _) offset)
    (Expr.production_mirrors ho calls _ l (Nat.le_refl _) offset') (agree_tokens hw _ _ l)

/-! ## Clauses -/

namespace Clause

open Token (toWord upTo onward numbered)

variable {stack : Stack}

theorem spans_move (ρ : Relocation) (c : Clause) : (ρ.clause c).spans = c.spans.map ρ.span := by
  cases c <;> simp [Relocation.clause, spans, Expr.nodes_move, Relocation.binder, Clause.span]

theorem Reads.meets {start : Nat} {c : Clause} {ts : List Token} (h : Reads start c ts)
    (opening : Token) (ho : opening.start = start) (hk : opening.kind ≠ .invalid) :
    ∀ s ∈ c.spans, s.Meets (opening :: ts) := by
  obtain ⟨init, last, hts, hlast, hstop⟩ := h.closing
  have hspan : c.span.Meets (opening :: ts) := by
    refine ⟨⟨opening, List.mem_cons_self, hk, h.start_eq.trans ho.symm⟩, ?_⟩
    exact ⟨last, by simp [hts], valid_of_closes hlast, hstop⟩
  have hnodes {l e} (he : c.expression? = some (l, e)) :
      ∀ s ∈ e.nodes.map Expr.span, s.Meets (opening :: ts) := by
    intro s hs
    obtain ⟨n, hn, rfl⟩ := List.mem_map.mp hs
    obtain ⟨before, es, after, rfl, hr⟩ := h.expression he
    refine (hr.meets n hn).mono fun t ht => ?_
    simp [ht]
  cases h with
  | output | ifTest | elifTest => exact List.forall_mem_cons.mpr ⟨hspan, hnodes rfl⟩
  | @forEach k x i c e ts hk' hx =>
    have hbinder : x.span.Meets (opening :: k :: x :: i :: (ts ++ [c])) := by
      have hvalid : x.kind ≠ .invalid := by rw [hx]; decide
      exact ⟨⟨x, by simp, hvalid, rfl⟩, ⟨x, by simp, hvalid, rfl⟩⟩
    exact List.forall_mem_cons.mpr ⟨hspan, List.forall_mem_cons.mpr ⟨hbinder, hnodes rfl⟩⟩
  | _ => exact List.forall_mem_singleton.mpr hspan

theorem Ended.of_move {ρ : Relocation} {ts : List Token} (h : Ended (ρ.tokens ts)) : Ended ts := by
  obtain ⟨init, last, heq, hlast⟩ := h
  obtain ⟨before, more, rfl, -, hmore⟩ := List.map_eq_append_iff.mp heq
  obtain ⟨t, rfl, rfl⟩ := List.map_eq_singleton_iff.mp hmore
  exact ⟨before, t, rfl, hlast⟩

/-- A clause that begins with a delimiter is read from the tokens behind it. -/
theorem read_onward {source : Text} {offset : Nat} {t : Token} {ts : List Token}
    (h : onward source offset = t :: ts)
    (hk : t.kind = .statementBegin ∨ t.kind = .expressionBegin) :
    Ended (upTo closes ts) ∧ read stack t.start (source.drop t.start) =
      if t.kind = .statementBegin then readStatement stack t.start (upTo closes ts)
      else readOutput stack t.start (upTo closes ts) := by
  have hvalid : t.kind ≠ .invalid := by rcases hk with hk | hk <;> rw [hk] <;> decide
  have hts : t = Token.atOffset source offset ∧ ts = onward source t.stop := by
    rw [Token.onward_eq] at h
    by_cases hi : (Token.atOffset source offset).kind = .invalid
    · simp only [if_pos hi] at h
      rw [(List.cons.inj h).1] at hi
      exact absurd hi hvalid
    · simp only [if_neg hi] at h
      obtain ⟨rfl, rfl⟩ := List.cons.inj h
      exact ⟨rfl, rfl⟩
  obtain ⟨ht, rfl⟩ := hts
  obtain ⟨hdrop, hstop⟩ := Token.drop_start_atOffset (ht ▸ hvalid)
  have hspelled := Token.atOffset_spelled source offset
  rw [← ht] at hdrop hstop hspelled
  -- up to the closing token, the tokens of the clause are those that lie ahead
  rw [← Token.stream_eq_upTo]
  refine ⟨Token.stream_ends .., ?_⟩
  rcases hk with hk | hk
  · have htext : t.text = ['{', '%'] := hspelled _ (by rw [hk]; rfl)
    rw [htext] at hdrop hstop
    rw [if_pos hk, hdrop, hstop]
    rfl
  · have htext : t.text = ['{', '{'] := hspelled _ (by rw [hk]; rfl)
    rw [htext] at hdrop hstop
    rw [if_neg (by rw [hk]; decide), hdrop, hstop]
    rfl

section
variable {f : Nat → List Token → Except Refusal Clause}
  (hmove : ∀ (ρ : Relocation) start {tokens}, Ended tokens →
    f (ρ.start start) (ρ.tokens tokens) = ρ.outcome ρ.clause (f start tokens))
include hmove

theorem outcome_onto {t : Token} {ts : List Token} (h : Ended (upTo closes ts)) :
    f t.start (upTo closes ts) = (onto (t :: ts)).outcome (onto (t :: ts)).clause
      (f 0 (upTo closes (numbered ((t :: ts).map toWord)).tail)) := by
  have hts := onto_numbered (t :: ts)
  rw [List.map_cons, Token.numbered_cons, Relocation.tokens_cons] at hts
  have hup := Token.upTo_move (onto (t :: ts)) closes (numbered ((t :: ts).map toWord)).tail
  rw [List.map_cons, (List.cons.inj hts).2] at hup
  rw [hup] at h ⊢
  exact hmove (onto (t :: ts)) 0 (Ended.of_move h)

theorem agree_read {t u : Token} {ts us : List Token}
    (hw : (t :: ts).map toWord = (u :: us).map toWord) (ht : t.kind ≠ .invalid)
    (hsound : ∀ {start tokens c}, f start tokens = .ok c → Takes stack start tokens c)
    (hts : Ended (upTo closes ts)) (hus : Ended (upTo closes us)) :
    Agree (Clause.Alike (t :: ts) (u :: us)) (f t.start (upTo closes ts))
      (f u.start (upTo closes us)) := by
  rw [outcome_onto hmove hts, outcome_onto hmove hus, ← hw]
  apply agree_outcome
  intro c hc
  obtain ⟨vs, rest, hvs, hp⟩ := hsound hc
  refine ⟨by rw [Relocation.erase_clause, Relocation.erase_clause], ?_⟩
  rw [spans_move, spans_move, List.forall₂_map_left_iff, List.forall₂_map_right_iff,
    List.forall₂_same]
  intro s hs
  refine paired_onto hw ?_
  let opening : Token := ⟨t.kind, 0, 0, t.text⟩
  have hmeets : s.Meets (opening :: vs) := hp.reads.meets opening rfl ht s hs
  refine hmeets.mono ?_
  rw [List.map_cons, Token.numbered_cons]
  apply List.cons_subset_cons
  have hsub : vs ⊆ upTo closes (numbered ((t :: ts).map toWord)).tail := by
    rw [hvs]
    exact List.subset_append_left _ _
  exact List.Subset.trans hsub (Token.upTo_subset _ _)

end

end Clause

/-- **Words decide what is read.** Two places from which on the tokens have the same kinds and
characters are read alike, by every production and as clauses. -/
theorem agree_of_words {source source' : Text} {offset offset' : Nat} (stack : Stack)
    (hw : (Token.onward source offset).map Token.toWord =
      (Token.onward source' offset').map Token.toWord) :
    let ts := Token.onward source offset
    let us := Token.onward source' offset'
    (∀ calls (l : Level), Agree (Option.Rel (Expr.Alike ts us))
      (Expr.Parser.production source calls l.rule offset)
      (Expr.Parser.production source' calls l.rule offset')) ∧
    ∀ t ∈ ts.head?, ∀ u ∈ us.head?, (t.kind = .statementBegin ∨ t.kind = .expressionBegin) →
      Agree (Clause.Alike ts us) (Clause.clauseAt stack source t.start)
        (Clause.clauseAt stack source' u.start) := by
  intro ts us
  refine ⟨agree_production hw, ?_⟩
  intro t ht u hu hk
  obtain ⟨ts', hts⟩ : ∃ ts', ts = t :: ts' := List.head?_eq_some_iff.mp ht
  obtain ⟨us', hus⟩ : ∃ us', us = u :: us' := List.head?_eq_some_iff.mp hu
  replace hw : ts.map Token.toWord = us.map Token.toWord := hw
  rw [hts, hus] at hw ⊢
  -- the same delimiter stands at both places
  have hkind : t.kind = u.kind := congrArg Prod.fst (List.cons.inj hw).1
  obtain ⟨hts', hread⟩ := Clause.read_onward hts hk
  obtain ⟨hus', hread'⟩ := Clause.read_onward hus (hkind ▸ hk)
  rw [Clause.clauseAt_eq_read, Clause.clauseAt_eq_read, hread, hread', ← hkind]
  rcases hk with hk | hk
  · rw [if_pos hk, if_pos hk]
    exact Clause.agree_read (fun ρ start _ h => Clause.readStatement_move ρ start h) hw
      (by rw [hk]; decide) Clause.readStatement_sound hts' hus'
  · have hne : t.kind ≠ .statementBegin := by rw [hk]; decide
    rw [if_neg hne, if_neg hne]
    exact Clause.agree_read (fun ρ start tokens _ => Clause.readOutput_move ρ start tokens) hw
      (by rw [hk]; decide) Clause.readOutput_sound hts' hus'

theorem agree_of_words_spaced :
    let source := "\x7b\x7ba+ b\x7d\x7d".toList
    let source' := "\n\x7b\x7b a +b \x7d\x7d".toList
    let ts := Token.onward source 0
    let us := Token.onward source' 0
    let add (s t u : Span) : Expr :=
      .binary s (.arithmetic .add) (.symbol t ['a']) (.symbol u ['b'])
    ts.map Token.toWord = us.map Token.toWord ∧
      Agree (Clause.Alike ts us) (.ok (.output ⟨0, 8⟩ (add ⟨2, 6⟩ ⟨2, 3⟩ ⟨5, 6⟩)))
        (.ok (.output ⟨1, 11⟩ (add ⟨4, 8⟩ ⟨4, 5⟩ ⟨7, 8⟩))) := by
  intro source source' ts us add
  have hw : ts.map Token.toWord = us.map Token.toWord := by decide +kernel
  have ht : ts.head? = some ⟨.expressionBegin, 0, 2, ['\x7b', '\x7b']⟩ := by decide +kernel
  have hu : us.head? = some ⟨.expressionBegin, 1, 3, ['\x7b', '\x7b']⟩ := by decide +kernel
  have hread : Clause.clauseAt .least source 0 =
      .ok (.output ⟨0, 8⟩ (add ⟨2, 6⟩ ⟨2, 3⟩ ⟨5, 6⟩)) := by
    subst source add
    with_unfolding_all rfl
  have hread' : Clause.clauseAt .least source' 1 =
      .ok (.output ⟨1, 11⟩ (add ⟨4, 8⟩ ⟨4, 5⟩ ⟨7, 8⟩)) := by
    subst source' add
    with_unfolding_all rfl
  have hagree := (agree_of_words .least hw).2 _ ht _ hu (.inr rfl)
  rw [hread, hread'] at hagree
  exact ⟨hw, hagree⟩

end Stencil
