import Stencil.Proofs.Expr.Nodes
import Stencil.Proofs.Expr.Soundness
import Stencil.Proofs.Token.Cut

/-!
# The spans of nodes

Each node covers its children, which follow each other in the source, and an operation begins and
ends with its operands. Calls and lists of arguments apart, a node is a whole tree that the parser
takes wherever it takes the tree that the node is in.
-/

namespace Stencil.Expr

open Token (lastStop atOffset atOffset_bounds follows_append)

/-! ## Order -/

def children : Expr → List Expr
  | unary _ _ operand => [operand]
  | binary _ _ left right => [left, right]
  | arguments _ items => items
  | group _ inner => [inner]
  | literal .. | symbol .. | other .. => []

/-- The children of a node lie inside of it, in the order of the source. An operation begins with
its left operand and ends with the right one, or with the bracket after it. -/
structure Ordered (source : Text) (e : Expr) : Prop where
  inside : ∀ c ∈ e.children, e.start ≤ c.start ∧ c.start < c.stop ∧ c.stop ≤ e.stop
  apart : e.children.Pairwise fun c d => c.stop ≤ d.start
  operands : ∀ s op l r, e = binary s op l r → s.start = l.start ∧
    if op = .subscript then
      ∃ blanks, (∀ c ∈ blanks, Text.isBlank c = true) ∧
        source.slice r.stop s.stop = blanks ++ [']']
    else s.stop = r.stop

section
variable {source : Text}

theorem Reads.bounds {e : Expr} {ts : List Token} {offset : Nat} (h : Reads e ts)
    (hf : Token.Follows source offset ts) :
    offset ≤ e.start ∧ e.start < e.stop ∧ e.stop = lastStop offset ts := by
  obtain ⟨t, us, rfl, hstart⟩ := h.first
  obtain ⟨hlt, -⟩ := atOffset_bounds (hf.1 ▸ h.valid t List.mem_cons_self)
  rw [← hf.1] at hlt
  have hle : t.stop ≤ lastStop t.stop us := hf.2.le_lastStop
  rw [h.stop_eq offset, hstart]
  exact ⟨hf.front_bounds.1, Nat.lt_of_lt_of_le hlt hle, rfl⟩

theorem ReadsAll.bounds : ∀ {es : List Expr} {ts : List Token} {offset : Nat}, ReadsAll es ts →
    Token.Follows source offset ts →
    (∀ e ∈ es, offset ≤ e.start ∧ e.start < e.stop ∧ e.stop ≤ lastStop offset ts) ∧
      es.Pairwise fun c d => c.stop ≤ d.start
  | _, _, _, .nil, _ => ⟨nofun, .nil⟩
  | _, _, _, .one he, hf => by
    obtain ⟨hstart, hlt, hstop⟩ := he.bounds hf
    exact ⟨List.forall_mem_singleton.mpr ⟨hstart, hlt, Nat.le_of_eq hstop⟩,
      List.pairwise_singleton _ _⟩
  | _, _, offset, @ReadsAll.cons s e d es ts us _ he hes, hf => by
    obtain ⟨hts, hmore⟩ := follows_append.mp hf
    obtain ⟨hstart, hlt, hstop⟩ := he.bounds hts
    obtain ⟨hsstart, hsstop⟩ := hmore.front_bounds
    obtain ⟨hall, hpairs⟩ := hes.bounds hmore.2
    have hend : lastStop offset (ts ++ s :: us) = lastStop s.stop us := Token.lastStop_append _ _ _
    have hle : s.stop ≤ lastStop s.stop us := hmore.2.le_lastStop
    refine ⟨List.forall_mem_cons.mpr ⟨⟨hstart, hlt, by omega⟩, fun c hc => ?_⟩,
      .cons (fun c hc => ?_) hpairs⟩
    · obtain ⟨hcstart, hclt, hcstop⟩ := hall c hc
      exact ⟨by omega, hclt, by omega⟩
    · have := (hall c hc).1
      omega

theorem Ordered.of_single {e c : Expr} (hc : e.children = [c])
    (hin : e.start ≤ c.start ∧ c.start < c.stop ∧ c.stop ≤ e.stop) : e.Ordered source where
  inside := by rw [hc]; exact List.forall_mem_singleton.mpr hin
  apart := by rw [hc]; exact List.pairwise_singleton _ _
  operands := by rintro s op l r rfl; cases hc

theorem Ordered.of_pair {s : Span} {op : BinaryOp} {l r : Expr} (hstart : s.start = l.start)
    (hl : l.start < l.stop) (hapart : l.stop ≤ r.start) (hr : r.start < r.stop)
    (hstop : r.stop ≤ s.stop)
    (hend : if op = .subscript then
      ∃ blanks, (∀ c ∈ blanks, Text.isBlank c = true) ∧
        source.slice r.stop s.stop = blanks ++ [']']
      else s.stop = r.stop) : (binary s op l r).Ordered source where
  inside := by
    show ∀ c ∈ [l, r], s.start ≤ c.start ∧ c.start < c.stop ∧ c.stop ≤ s.stop
    simp only [List.mem_cons, List.not_mem_nil, or_false, forall_eq_or_imp, forall_eq]
    omega
  apart := List.pairwise_pair.mpr hapart
  operands := by rintro _ _ _ _ ⟨⟩; exact ⟨hstart, hend⟩

/-- **Children are inside and in order.** -/
theorem Reads.ordered {e : Expr} {ts : List Token} {offset : Nat} (h : Reads e ts)
    (hf : Token.Follows source offset ts) : e.Ordered source := by
  cases h with
  | literal | symbol => exact ⟨nofun, .nil, nofun⟩
  | unary _ he =>
    obtain ⟨hstart, hlt, hstop⟩ := he.bounds hf.2
    have := hf.front_bounds
    exact .of_single rfl ⟨Nat.le_trans this.2 hstart, hlt, Nat.le_refl _⟩
  | @binary t op l r ls rs hk hl hr =>
    obtain ⟨hls, hmore⟩ := follows_append.mp hf
    have hbl := hl.bounds hls
    have hbr := hr.bounds hmore.2
    have ht := hmore.front_bounds
    refine .of_pair rfl hbl.2.1 (by omega) hbr.2.1 (Nat.le_refl _) ?_
    rw [if_neg (ne_subscript_of_kind hk)]
  | @subscript o c l k ls ks ho hc hl hk =>
    obtain ⟨hls, hmore⟩ := follows_append.mp hf
    obtain ⟨hks, hclose⟩ := follows_append.mp hmore.2
    have hbl := hl.bounds hls
    have hbk := hk.bounds hks
    have hto := hmore.front_bounds
    have htc := hclose.front_bounds
    -- between the key and the bracket there are blanks only, since the two tokens are neighbours
    have hvalid : c.kind ≠ .invalid := by rw [hc]; decide
    refine .of_pair rfl hbl.2.1 (by omega) hbk.2.1 (by show k.stop ≤ c.stop; omega) ?_
    obtain ⟨blanks, hblank, hslice, -⟩ := Token.slice_token (hclose.1 ▸ hvalid)
    have htext : c.text = [']'] := hclose.spelled c List.mem_cons_self _ (by rw [hc]; rfl)
    rw [← hclose.1, ← hbk.2.2, htext] at hslice
    rw [if_pos rfl]
    exact ⟨blanks, hblank, hslice⟩
  | @call f a fs as hf' ha =>
    obtain ⟨hfs, has⟩ := follows_append.mp hf
    have hbf := hf'.bounds hfs
    have hba := ha.bounds has
    refine .of_pair rfl hbf.2.1 (by omega) hba.2.1 (Nat.le_refl _) ?_
    rw [if_neg (by decide)]
  | @arguments o c es ts ho hc hes =>
    obtain ⟨hts, hclose⟩ := follows_append.mp hf.2
    have hto := hf.front_bounds
    have htc := hclose.front_bounds
    obtain ⟨hall, hpairs⟩ := hes.bounds hts
    refine ⟨fun d hd => ?_, hpairs, nofun⟩
    obtain ⟨hstart, hlt, hstop⟩ := hall d hd
    exact ⟨by show o.start ≤ d.start; omega, hlt, by show d.stop ≤ c.stop; omega⟩
  | @group o c e ts ho hc he =>
    obtain ⟨hts, hclose⟩ := follows_append.mp hf.2
    have hto := hf.front_bounds
    have htc := hclose.front_bounds
    have hb := he.bounds hts
    exact .of_single rfl ⟨by show o.start ≤ e.start; omega, hb.2.1, by show e.stop ≤ c.stop; omega⟩

end

/-! ## Nodes that stand alone -/

/-- Calls and lists of arguments stand only to the right of a pipe. -/
def standsAlone : Expr → Bool
  | binary _ .call .. | arguments .. => false
  | _ => true

theorem wellLevelled_of_isSymbol {e d : Expr} (h : e.isSymbol = true) (hd : d ∈ e.nodes) :
    d.WellLevelled := by
  cases e with
  | symbol s name => rw [List.mem_singleton.mp hd]; trivial
  | _ => cases h

mutual

theorem WellLevelled.of_mem_nodes : ∀ {e d : Expr}, e.WellLevelled → d ∈ e.nodes →
    d.standsAlone = true → d.WellLevelled
  | literal _ _, _, h, hd, _ | symbol _ _, _, h, hd, _ => List.mem_singleton.mp hd ▸ h
  | unary _ _ operand, _, h, hd, ha => by
    rcases List.mem_cons.mp hd with rfl | hd
    · exact h
    · exact h.2.of_mem_nodes hd ha
  | group s inner, _, h, hd, ha => by
    rcases List.mem_cons.mp hd with rfl | hd
    · exact h
    · exact WellLevelled.of_mem_nodes (e := inner) h hd ha
  | binary _ op left right, d, h, hd, ha => by
    rcases List.mem_cons.mp hd with rfl | hd
    · exact h
    obtain ⟨-, hl, hr⟩ := h
    rcases List.mem_append.mp hd with hleft | hright
    · exact hl.of_mem_nodes hleft ha
    cases op with
    | pipe => exact IsFilter.of_mem_nodes hr hright ha
    | call => exact hr.elim
    | member => exact wellLevelled_of_isSymbol hr hright
    | subscript => exact WellLevelled.of_mem_nodes hr hright ha
    | or | and | arithmetic | comparison => exact hr.2.of_mem_nodes hright ha

theorem IsFilter.of_mem_nodes : ∀ {e d : Expr}, e.IsFilter → d ∈ e.nodes →
    d.standsAlone = true → d.WellLevelled
  | symbol _ _, _, _, hd, _ => wellLevelled_of_isSymbol rfl hd
  | binary _ .call target (arguments _ items), d, h, hd, ha => by
    rcases List.mem_cons.mp hd with rfl | hd
    · cases ha
    rcases List.mem_append.mp hd with hd | hd
    · exact wellLevelled_of_isSymbol h.1 hd
    rcases List.mem_cons.mp hd with rfl | hd
    · cases ha
    · exact AreArguments.of_mem_nodes h.2 hd ha

theorem AreArguments.of_mem_nodes : ∀ {es : List Expr} {d : Expr}, AreArguments es →
    d ∈ allNodes es → d.standsAlone = true → d.WellLevelled
  | e :: es, d, h, hd, ha => by
    rcases List.mem_append.mp hd with hd | hd
    · exact h.2.1.of_mem_nodes hd ha
    · exact AreArguments.of_mem_nodes h.2.2 hd ha

end

mutual

theorem nesting_of_mem_nodes : ∀ {e d : Expr}, d ∈ e.nodes → d.nesting ≤ e.nesting
  | literal _ _, _, hd | symbol _ _, _, hd | other _ _, _, hd =>
    List.mem_singleton.mp hd ▸ Nat.le_refl _
  | unary _ _ _, _, hd => by
    rcases List.mem_cons.mp hd with rfl | hd
    · exact Nat.le_refl _
    · exact Nat.le_trans (nesting_of_mem_nodes hd) (Nat.le_add_right _ _)
  | binary _ _ _ _, _, hd => by
    rcases List.mem_cons.mp hd with rfl | hd
    · exact Nat.le_refl _
    rcases List.mem_append.mp hd with hd | hd
    · exact Nat.le_trans (nesting_of_mem_nodes hd) (Nat.le_max_left _ _)
    · exact Nat.le_trans (Nat.le_trans (nesting_of_mem_nodes hd) (Nat.le_add_right _ _))
        (Nat.le_max_right _ _)
  | arguments _ _, _, hd => by
    rcases List.mem_cons.mp hd with rfl | hd
    · exact Nat.le_refl _
    · exact Nat.le_succ_of_le (nesting_of_mem_allNodes hd)
  | group _ _, _, hd => by
    rcases List.mem_cons.mp hd with rfl | hd
    · exact Nat.le_refl _
    · exact Nat.le_trans (nesting_of_mem_nodes hd) (Nat.le_add_right _ _)

theorem nesting_of_mem_allNodes : ∀ {es : List Expr} {d : Expr}, d ∈ allNodes es →
    d.nesting ≤ mostNesting es
  | _ :: _, _, hd => by
    rcases List.mem_append.mp hd with hd | hd
    · exact Nat.le_trans (nesting_of_mem_nodes hd) (Nat.le_max_left _ _)
    · exact Nat.le_trans (nesting_of_mem_allNodes hd) (Nat.le_max_right _ _)

end

/-- A node that stands alone is a whole tree within the same limits. -/
theorem Phrase.node {room : Nat} {level : Level} {e d : Expr} {ts : List Token}
    (h : Phrase room level e ts) (hd : d ∈ e.nodes) (ha : d.standsAlone = true) {us : List Token}
    (hus : us <:+: ts) (hr : d.Reads us) : Phrase room .piped d us where
  reads := hr
  levelled := h.levelled.of_mem_nodes hd ha
  le_level := Level.piped_le _
  fits := Nat.le_trans (nesting_of_mem_nodes hd) h.fits
  short := fun t ht => h.short t (hus.subset ht)

end Stencil.Expr
