import Stencil.Proofs.Expr.Reading
import Stencil.Proofs.Expr.Relocation

/-!
# The nodes of a tree

Every node of a tree is read from some of the tokens that the tree is read from, so it begins where
one of them begins and ends where one of them ends.
-/

namespace Stencil

namespace Expr

mutual

def nodes : Expr → List Expr
  | literal s forms => [literal s forms]
  | symbol s name => [symbol s name]
  | unary s op operand => unary s op operand :: nodes operand
  | binary s op left right => binary s op left right :: (nodes left ++ nodes right)
  | arguments s items => arguments s items :: allNodes items
  | group s inner => group s inner :: nodes inner
  | other s sort => [other s sort]

def allNodes : List Expr → List Expr
  | [] => []
  | e :: es => nodes e ++ allNodes es

end

@[simp] theorem self_mem_nodes (e : Expr) : e ∈ e.nodes := by
  cases e <;> exact List.mem_cons_self

theorem mem_allNodes {e : Expr} {es : List Expr} (he : e ∈ es) : e ∈ allNodes es := by
  induction es with
  | nil => cases he
  | cons d es ih =>
    rcases List.mem_cons.mp he with rfl | he
    · exact List.mem_append_left _ (self_mem_nodes _)
    · exact List.mem_append_right _ (ih he)

mutual

theorem nodes_subset : ∀ {e d : Expr}, d ∈ e.nodes → d.nodes ⊆ e.nodes
  | literal _ _, _, hd | symbol _ _, _, hd | other _ _, _, hd => by
    rw [List.mem_singleton.mp hd]
    exact List.Subset.refl _
  | unary _ _ operand, _, hd | group _ operand, _, hd => by
    rcases List.mem_cons.mp hd with rfl | hd
    · exact List.Subset.refl _
    · exact List.subset_cons_of_subset _ (nodes_subset hd)
  | binary _ _ left right, _, hd => by
    rcases List.mem_cons.mp hd with rfl | hd
    · exact List.Subset.refl _
    apply List.subset_cons_of_subset
    rcases List.mem_append.mp hd with hd | hd
    · exact List.subset_append_of_subset_left _ (nodes_subset hd)
    · exact List.subset_append_of_subset_right _ (nodes_subset hd)
  | arguments _ items, _, hd => by
    rcases List.mem_cons.mp hd with rfl | hd
    · exact List.Subset.refl _
    · exact List.subset_cons_of_subset _ (allNodes_subset hd)

theorem allNodes_subset : ∀ {es : List Expr} {d : Expr}, d ∈ allNodes es → d.nodes ⊆ allNodes es
  | _ :: _, _, hd => by
    rcases List.mem_append.mp hd with hd | hd
    · exact List.subset_append_of_subset_left _ (nodes_subset hd)
    · exact List.subset_append_of_subset_right _ (allNodes_subset hd)

end

mutual

theorem nodes_move (ρ : Relocation) : ∀ e, (ρ.expr e).nodes = e.nodes.map ρ.expr
  | literal _ _ | symbol _ _ | other _ _ => rfl
  | unary s op operand => by
    simp only [Relocation.expr, nodes, nodes_move ρ operand, List.map_cons]
  | binary s op left right => by
    simp only [Relocation.expr, nodes, nodes_move ρ left, nodes_move ρ right, List.map_cons,
      List.map_append]
  | arguments s items => by
    simp only [Relocation.expr, nodes, allNodes_move ρ items, List.map_cons]
  | group s inner => by
    simp only [Relocation.expr, nodes, nodes_move ρ inner, List.map_cons]

theorem allNodes_move (ρ : Relocation) : ∀ es, allNodes (ρ.exprs es) = (allNodes es).map ρ.expr
  | [] => rfl
  | e :: es => by
    simp only [Relocation.exprs, allNodes, nodes_move ρ e, allNodes_move ρ es, List.map_append]

end

/-! ## The tokens of a node -/

def ReadIn (ts : List Token) (e : Expr) : Prop := ∃ us, us <:+: ts ∧ e.Reads us

theorem Reads.readIn {e : Expr} {ts : List Token} (h : e.Reads ts) : ReadIn ts e :=
  ⟨ts, List.infix_rfl, h⟩

theorem ReadIn.mono {ts us : List Token} {e : Expr} (h : ReadIn ts e) (hsub : ts <:+: us) :
    ReadIn us e := by
  obtain ⟨vs, hvs, hr⟩ := h
  exact ⟨vs, hvs.trans hsub, hr⟩

theorem infix_bracketed {α : Type} (o c : α) (ts : List α) : ts <:+: o :: (ts ++ [c]) :=
  ⟨[o], [c], rfl⟩

theorem infix_behind {α : Type} (s : α) (ts us : List α) : us <:+: ts ++ s :: us :=
  ((List.suffix_cons s us).trans (List.suffix_append ts _)).isInfix

mutual

theorem Reads.nodes : ∀ {e : Expr} {ts : List Token}, Reads e ts → ∀ d ∈ e.nodes, ReadIn ts d
  | _, _, .literal h, d, hd => by
    rw [List.mem_singleton.mp hd]
    exact (Reads.literal h).readIn
  | _, _, .symbol h, d, hd => by
    rw [List.mem_singleton.mp hd]
    exact (Reads.symbol h).readIn
  | _, _, .unary hk he, d, hd => by
    rcases List.mem_cons.mp hd with rfl | hd
    · exact (Reads.unary hk he).readIn
    · exact (he.nodes d hd).mono (List.suffix_cons _ _).isInfix
  | _, _, .binary hk hl hr, d, hd => by
    rcases List.mem_cons.mp hd with rfl | hd
    · exact (Reads.binary hk hl hr).readIn
    rcases List.mem_append.mp hd with hd | hd
    · exact (hl.nodes d hd).mono (List.prefix_append _ _).isInfix
    · exact (hr.nodes d hd).mono (infix_behind _ _ _)
  | _, _, .subscript ho hc hl hk, d, hd => by
    rcases List.mem_cons.mp hd with rfl | hd
    · exact (Reads.subscript ho hc hl hk).readIn
    rcases List.mem_append.mp hd with hd | hd
    · exact (hl.nodes d hd).mono (List.prefix_append _ _).isInfix
    · exact ((hk.nodes d hd).mono (List.prefix_append _ _).isInfix).mono (infix_behind _ _ _)
  | _, _, .call hf ha, d, hd => by
    rcases List.mem_cons.mp hd with rfl | hd
    · exact (Reads.call hf ha).readIn
    rcases List.mem_append.mp hd with hd | hd
    · exact (hf.nodes d hd).mono (List.prefix_append _ _).isInfix
    · exact (ha.nodes d hd).mono (List.suffix_append _ _).isInfix
  | _, _, .arguments ho hc hes, d, hd => by
    rcases List.mem_cons.mp hd with rfl | hd
    · exact (Reads.arguments ho hc hes).readIn
    · exact (hes.nodes d hd).mono (infix_bracketed _ _ _)
  | _, _, .group ho hc he, d, hd => by
    rcases List.mem_cons.mp hd with rfl | hd
    · exact (Reads.group ho hc he).readIn
    · exact (he.nodes d hd).mono (infix_bracketed _ _ _)

theorem ReadsAll.nodes : ∀ {es : List Expr} {ts : List Token}, ReadsAll es ts →
    ∀ d ∈ allNodes es, ReadIn ts d
  | _, _, .nil, _, hd => nomatch hd
  | _, _, .one he, d, hd => by
    rw [allNodes, allNodes, List.append_nil] at hd
    exact he.nodes d hd
  | _, _, .cons hs he hes, d, hd => by
    rcases List.mem_append.mp hd with hd | hd
    · exact (he.nodes d hd).mono (List.prefix_append _ _).isInfix
    · exact (hes.nodes d hd).mono (infix_behind _ _ _)

end

end Expr

/-! ## Where nodes begin and end -/

structure Span.Meets (ts : List Token) (s : Span) : Prop where
  start : ∃ t ∈ ts, t.kind ≠ .invalid ∧ s.start = t.start
  stop : ∃ t ∈ ts, t.kind ≠ .invalid ∧ s.stop = t.stop

theorem Span.Meets.mono {ts us : List Token} {s : Span} (h : Meets ts s) (hsub : ts ⊆ us) :
    Meets us s := by
  obtain ⟨⟨t, ht, hstart⟩, ⟨u, hu, hstop⟩⟩ := h
  exact ⟨⟨t, hsub ht, hstart⟩, ⟨u, hsub hu, hstop⟩⟩

theorem Token.exists_lastStop {ts : List Token} (h : ts ≠ []) (offset : Nat) :
    ∃ t ∈ ts, lastStop offset ts = t.stop := by
  induction ts generalizing offset with
  | nil => exact absurd rfl h
  | cons t ts ih =>
    cases ts with
    | nil => exact ⟨t, List.mem_cons_self, rfl⟩
    | cons u ts =>
      obtain ⟨v, hv, heq⟩ := ih (List.cons_ne_nil _ _) t.stop
      exact ⟨v, List.mem_cons_of_mem _ hv, heq⟩

theorem Expr.Reads.meets {e : Expr} {ts : List Token} (h : e.Reads ts) :
    ∀ d ∈ e.nodes, d.span.Meets ts := by
  intro d hd
  obtain ⟨us, hus, hr⟩ := h.nodes d hd
  refine Span.Meets.mono ?_ hus.subset
  obtain ⟨t, more, rfl, hstart⟩ := hr.first
  obtain ⟨last, hlast, hstop⟩ := Token.exists_lastStop (List.cons_ne_nil t more) 0
  refine ⟨⟨t, List.mem_cons_self, hr.valid t List.mem_cons_self, hstart⟩, ?_⟩
  exact ⟨last, hlast, hr.valid last hlast, (hr.stop_eq 0).trans hstop⟩

end Stencil
