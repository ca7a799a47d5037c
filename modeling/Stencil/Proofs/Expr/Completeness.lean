import Stencil.Proofs.Expr.Limits
import Stencil.Proofs.Expr.Loops
import Stencil.Proofs.Expr.Reading

/-!
# What the productions do not miss

A well-levelled tree that there is room for is read back from its tokens, whatever comes after them,
as long as they do not go on with an operator.
-/

namespace Stencil.Expr

open Token (Kind)

/-! ## Trees at their own level -/

section
variable {inner : Nat → Production} {room : Nat}

theorem atom_eq_atomFrom (hroom : 14 ≤ room) (t : Token) (ts : List Token) :
    atom inner room (t :: ts) = atomFrom (inner (room - 15)) t ts :=
  if_neg (Nat.not_lt.mpr hroom)

theorem goes_atom {t : Token} {e : Expr} (hroom : 14 ≤ room)
    (h : ∀ more, atomFrom (inner (room - 15)) t more = .ok (some (e, more))) :
    Goes inner room .atom e [t] :=
  goes_of_parses (fun _ _ => rfl) fun more _ => (atom_eq_atomFrom hroom t more).trans (h more)

theorem goes_group {o c : Token} {e : Expr} {ts : List Token} (hroom : 14 ≤ room)
    (ho : o.kind = .leftParen) (hc : c.kind = .rightParen)
    (h : ∀ more, Ends .piped more → inner (room - 15) (ts ++ more) = .ok (some (e, more))) :
    Goes inner room .atom (.group ⟨o.start, c.stop⟩ e) (o :: (ts ++ [c])) := by
  refine goes_of_parses (fun _ _ => rfl) fun more _ => ?_
  have hin := h (c :: more) (ends_of_none (by rw [hc]; rfl) (by rw [hc]; decide))
  have hgrouped : grouped (inner (room - 15)) o (ts ++ c :: more) =
      .ok (.group ⟨o.start, c.stop⟩ e, more) := by
    simp only [grouped, required_eq_ok.mpr hin, ok_bind, accept_eq_some.mpr ⟨rfl, hc⟩]
    rfl
  rw [List.cons_append, List.append_assoc]
  show atom inner room (o :: (ts ++ c :: more)) = _
  rw [atom_eq_atomFrom hroom]
  simp only [atomFrom, ho, hgrouped]
  rfl

theorem goes_member {l : Expr} {ls : List Token} {d n : Token} (hd : d.kind = .dot)
    (hn : n.kind = .symbol) (hl : Goes inner room .postfixed l ls) :
    Goes inner room .postfixed (.binary ⟨l.start, n.stop⟩ .member l (.symbol n.span n.text))
      (ls ++ [d, n]) := by
  refine hl.step fun more _ => ⟨?_, Nat.succ_pos _, fun fuel => ?_⟩
  · exact ends_of_kind .member (by rw [hd]; rfl) (by decide)
  · show postfixFrom (inner (room - 13)) (fuel + 1) l (d :: n :: more) = _
    simp only [postfixFrom, hd, memberOf, accept_eq_some.mpr ⟨rfl, hn⟩]
    rfl

theorem goes_subscript {l k : Expr} {ls ks : List Token} {o c : Token} (ho : o.kind = .leftBracket)
    (hc : c.kind = .rightBracket) (hl : Goes inner room .postfixed l ls)
    (hk : ∀ more, Ends .piped more → inner (room - 13) (ks ++ more) = .ok (some (k, more))) :
    Goes inner room .postfixed (.binary ⟨l.start, c.stop⟩ .subscript l k)
      (ls ++ o :: (ks ++ [c])) := by
  refine hl.step fun more _ => ⟨⟨fun m hm => ?_, ?_⟩, Nat.succ_pos _, fun fuel => ?_⟩
  · rw [ho] at hm; cases hm; decide
  · exact accept_cons_ne (by rw [ho]; decide)
  · have hin := hk (c :: more) (ends_of_none (by rw [hc]; rfl) (by rw [hc]; decide))
    have hkey : subscriptOf (inner (room - 13)) l o (ks ++ c :: more) =
        .ok (.binary ⟨l.start, c.stop⟩ .subscript l k, more) := by
      simp only [subscriptOf, required_eq_ok.mpr hin, ok_bind, accept_eq_some.mpr ⟨rfl, hc⟩]
      rfl
    rw [List.cons_append, List.append_assoc]
    show postfixFrom (inner (room - 13)) (fuel + 1) l (o :: (ks ++ c :: more)) = _
    simp only [postfixFrom, ho, hkey]
    rfl

theorem goes_sign {op : UnaryOp} {t : Token} {e : Expr} {ts : List Token} (hs : op.level = .sign)
    (ht : t.kind = op.kind) (he : Goes inner room .postfixed e ts) :
    Goes inner room .sign (.unary ⟨t.start, e.stop⟩ op e) (t :: ts) := by
  refine goes_of_parses (fun _ _ => rfl) fun more hm => ?_
  have hop : sign? t.kind = some op := by rw [ht]; cases op <;> first | rfl | cases hs
  have hin : postfixed inner room (ts ++ more) = .ok (some (e, more)) := he.parses hm
  show signed inner room (t :: (ts ++ more)) = _
  simp only [signed, hop]
  rw [required_eq_ok.mpr hin]
  rfl

theorem goes_not {t : Token} {e : Expr} {ts : List Token} (ht : t.kind = .notWord)
    (he : Goes inner room .not e ts) :
    Goes inner (room + 1) .not (.unary ⟨t.start, e.stop⟩ .not e) (t :: ts) := by
  refine goes_of_parses (fun _ _ => rfl) fun more hm => ?_
  have hstops : Stops .not more := by
    cases more with
    | nil => trivial
    | cons u us =>
      intro m hu
      refine Level.lt_of_le_of_ne (Nat.le_of_lt_succ (hm.stops m hu)) ?_
      rintro rfl
      revert hu
      cases u.kind <;> decide
  have hin : negated inner room (ts ++ more) = .ok (some (e, more)) :=
    he.parses ⟨hstops, hm.uncalled⟩
  show negated inner (room + 1) (t :: (ts ++ more)) = _
  rw [negated, if_pos ht, required_eq_ok.mpr hin]
  rfl

theorem goes_chain {op : BinaryOp} {t : Token} {l r : Expr} {ls rs : List Token}
    (hc : op.level.isChain = true) (hk : op.kind? = some t.kind)
    (hl : Goes inner room op.level l ls)
    (hr : Goes inner room op.level.tighter r rs) :
    Goes inner room op.level (.binary ⟨l.start, r.stop⟩ op l r) (ls ++ t :: rs) := by
  refine hl.step fun more he => ⟨?_, Nat.succ_pos _, fun fuel => ?_⟩
  · exact ends_of_kind op hk (Level.lt_tighter_of_isChain hc)
  · rw [loop_chain inner room hc, List.cons_append]
    simp only [chainFrom, Level.operator_of_isChain hc rfl hk]
    rw [required_eq_ok.mpr (hr.parses he)]
    rfl

theorem goes_pipe {t : Token} {l r : Expr} {ls rs : List Token} (ht : t.kind = .pipe)
    (hl : Goes inner room .piped l ls)
    (hr : ∀ more, Ends .or more →
      filterCall inner (room - 1) (rs ++ more) = .ok (some (r, more))) :
    Goes inner room .piped (.binary ⟨l.start, r.stop⟩ .pipe l r) (ls ++ t :: rs) := by
  refine hl.step fun more he => ⟨?_, Nat.succ_pos _, fun fuel => ?_⟩
  · exact ends_of_kind .pipe (by rw [ht]; rfl) (by decide)
  · show pipesFrom (filterCall inner (room - 1)) (fuel + 1) l (t :: (rs ++ more)) = _
    rw [pipesFrom, if_pos ht, hr more he]
    rfl

/-! ## Filters and their arguments -/

theorem disjunction_symbol {t : Token} {more : List Token} (hroom : 14 ≤ room)
    (ht : t.kind = .symbol) (hs : Stops .or more) :
    disjunction inner room (t :: more) = .ok (some (.symbol t.span t.text, more)) := by
  have hatom : production inner room .atom (t :: more) =
      .ok (some (.symbol t.span t.text, more)) := by
    show atom inner room (t :: more) = _
    rw [atom_eq_atomFrom hroom]
    simp only [atomFrom, ht]
    rfl
  have h := production_of_lt (l := .or) (by decide) (by omega)
    (fun k _ _ => ⟨fun _ => by rw [ht]; decide, fun _ => by rw [ht]; rfl⟩)
    (hs.tighten (Level.le_tighter _)) hatom
  rw [loop_stops hs] at h
  exact h

theorem disjunction_rightParen {c : Token} {more : List Token} (hroom : 14 ≤ room)
    (hc : c.kind = .rightParen) : disjunction inner room (c :: more) = .ok none := by
  obtain ⟨n, rfl⟩ : ∃ n, room = n + 1 := ⟨room - 1, by omega⟩
  have hatom : atom inner (n + 1) (c :: more) = .ok none := by
    rw [atom_eq_atomFrom hroom]
    simp only [atomFrom, hc]
    rfl
  have hnot : negated inner (n + 1) (c :: more) = .ok none := by
    simp only [negated, hc, compared, chain, sum, product, signed, sign?, postfixed, hatom]
    rfl
  simp only [disjunction, conjunction, chain, hnot]
  rfl

theorem filterCall_symbol {t : Token} {more : List Token} (hroom : 14 ≤ room)
    (ht : t.kind = .symbol) (he : Ends .or more) :
    filterCall inner room (t :: more) = .ok (some (.symbol t.span t.text, more)) := by
  simp only [filterCall, disjunction_symbol hroom ht he.stops, ok_bind, he.uncalled]
  rfl

theorem filterCall_call {t o : Token} {a : Expr} {ts more : List Token} (hroom : 14 ≤ room)
    (ht : t.kind = .symbol) (ho : o.kind = .leftParen)
    (h : argumentList (disjunction inner (room - 1)) o ts = .ok (a, more)) :
    filterCall inner room (t :: o :: ts) =
      .ok (some (.binary ⟨t.start, a.stop⟩ .call (.symbol t.span t.text) a, more)) := by
  have hs : Stops .or (o :: ts) := fun m hm => by rw [ho] at hm; cases hm
  simp only [filterCall, disjunction_symbol hroom ht hs, ok_bind, accept_eq_some.mpr ⟨rfl, ho⟩, h]
  rfl

/-- The tokens are read as these arguments when a closing parenthesis comes after them. -/
def Lists (item : Production) : List Expr → List Token → Prop
  | [], ts => ts = []
  | e :: es, ts => ∃ us vs, ts = us ++ vs ∧ ∀ c more, c.kind = .rightParen →
      item (us ++ (vs ++ c :: more)) = .ok (some (e, vs ++ c :: more)) ∧
      ∀ fuel, vs.length < fuel → argumentsFrom item fuel (vs ++ c :: more) = .ok (es, c :: more)

theorem lists_one {item : Production} {e : Expr} {ts : List Token}
    (h : ∀ more, Ends .or more → item (ts ++ more) = .ok (some (e, more))) :
    Lists item [e] ts := by
  refine ⟨ts, [], (List.append_nil ts).symm, fun c more hc => ⟨?_, fun fuel hfuel => ?_⟩⟩
  · exact h _ (ends_of_none (by rw [hc]; rfl) (by rw [hc]; decide))
  · obtain ⟨n, rfl⟩ : ∃ n, fuel = n + 1 := ⟨fuel - 1, by omega⟩
    show argumentsFrom item (n + 1) (c :: more) = _
    rw [argumentsFrom, if_neg (by rw [hc]; decide)]
    rfl

theorem lists_cons {item : Production} {s : Token} {e d : Expr} {es : List Expr}
    {ts us : List Token}
    (hs : s.kind = .comma)
    (h : ∀ more, Ends .or more → item (ts ++ more) = .ok (some (e, more)))
    (hmore : Lists item (d :: es) us) : Lists item (e :: d :: es) (ts ++ s :: us) := by
  obtain ⟨vs, ws, rfl, hlist⟩ := hmore
  refine ⟨ts, s :: (vs ++ ws), rfl, fun c more hc => ⟨?_, fun fuel hfuel => ?_⟩⟩
  · exact h _ (ends_of_none (by rw [hs]; rfl) (by rw [hs]; decide))
  · obtain ⟨hitem, hrest⟩ := hlist c more hc
    obtain ⟨n, rfl⟩ : ∃ n, fuel = n + 1 := ⟨fuel - 1, by omega⟩
    have hn : ws.length < n := by
      simp only [List.length_cons, List.length_append] at hfuel
      omega
    rw [List.cons_append, List.append_assoc, argumentsFrom, if_pos hs,
      required_eq_ok.mpr hitem]
    show (argumentsFrom item n (ws ++ c :: more) >>= _) = _
    rw [hrest n hn]
    rfl

theorem argumentList_of_lists {item : Production} {o c : Token} {es : List Expr} {ts : List Token}
    (hnone : ∀ more, item (c :: more) = .ok none) (hc : c.kind = .rightParen)
    (h : Lists item es ts) (more : List Token) :
    argumentList item o (ts ++ c :: more) = .ok (.arguments ⟨o.start, c.stop⟩ es, more) := by
  have hclose : accept? .rightParen (c :: more) = some (c, more) := accept_eq_some.mpr ⟨rfl, hc⟩
  unfold argumentList
  cases es with
  | nil =>
    obtain rfl : ts = [] := h
    simp only [List.nil_append, hnone, ok_bind, pure_bind, hclose]
    rfl
  | cons e es =>
    obtain ⟨us, vs, rfl, hlist⟩ := h
    obtain ⟨hitem, hrest⟩ := hlist c more hc
    simp only [List.append_assoc, hitem, ok_bind, hrest (vs ++ c :: more).length (by simp),
      pure_bind, hclose]
    rfl

end

/-! ## All trees -/

/-- The tree is read back from its tokens: as a tree of its level and of the looser ones, as a
filter, and as a list of arguments. -/
structure Recovers (depth room : Nat) (e : Expr) (ts : List Token) : Prop where
  tree : e.WellLevelled → ∀ l, l ≤ e.level → Goes (parser depth) room l e ts
  filter : e.IsFilter → ∀ more, Ends .or more →
    filterCall (parser depth) room (ts ++ more) = .ok (some (e, more))
  arguments : e.IsArguments → ∃ o us, ts = o :: us ∧ o.kind = .leftParen ∧
    ∀ more, argumentList (disjunction (parser depth) (room - 1)) o (us ++ more) = .ok (e, more)

theorem integerLiteral_complete {t : Token} {f : Forms} (ht : t.kind = .integer)
    (hd : t.Denotes f) (hs : Short [t]) : integerLiteral t = .ok (.literal t.span f) := by
  simp only [Token.Denotes, ht] at hd
  obtain ⟨hle, rfl⟩ := hd
  obtain ⟨hsignificant, hlength⟩ := hs t List.mem_cons_self ht
  simp only [integerLiteral]
  rw [if_neg (by omega), if_neg (by omega), if_neg (by omega)]
  rfl

theorem literal_complete {inner : Production} {t : Token} {f : Forms} (hd : t.Denotes f)
    (hs : Short [t]) (more : List Token) :
    atomFrom inner t more = .ok (some (.literal t.span f, more)) := by
  cases hk : t.kind <;> simp only [Token.Denotes, hk] at hd
  case integer =>
    have hint := integerLiteral_complete hk (by simpa only [Token.Denotes, hk] using hd) hs
    simp only [atomFrom, hk, hint]
    rfl
  case float =>
    obtain ⟨hfin, rfl⟩ := hd
    simp only [atomFrom, hk, floatLiteral, hfin, if_true]
    rfl
  all_goals
    subst hd
    simp only [atomFrom, hk]
    rfl

theorem begins_of_kind {t : Token} {k : Kind} {m l : Level} (ht : t.kind = k)
    (h : k ≠ .notWord ∧ sign? k = none) (_ : l < m) : Begins l t :=
  ⟨fun _ => ht ▸ h.1, fun _ => ht ▸ h.2⟩

theorem begins_of_denotes {t : Token} {f : Forms} {m l : Level} (hd : t.Denotes f) (h : l < m) :
    Begins l t := by
  refine begins_of_kind (k := t.kind) rfl ?_ h
  unfold Token.Denotes at hd
  split at hd
  case h_6 => cases hd
  all_goals
    rename_i hk
    rw [hk]
    exact ⟨by decide, rfl⟩

theorem begins_unary {t : Token} {op : UnaryOp} {l : Level} (hk : t.kind = op.kind)
    (hl : l < op.level) : Begins l t := by
  refine ⟨?_, ?_⟩
  · rintro rfl; rw [hk]; cases op <;> first | decide | exact absurd hl (Nat.lt_irrefl _)
  · rintro rfl; cases op <;> exact absurd hl (by decide)

theorem Reads.begins : ∀ {e : Expr} {ts : List Token}, Reads e ts → e.WellLevelled →
    ∃ t us, ts = t :: us ∧ ∀ l, l < e.level → Begins l t
  | _, _, .literal hd => fun _ => ⟨_, [], rfl, fun _ => begins_of_denotes hd⟩
  | _, _, .symbol hk => fun _ => ⟨_, [], rfl, fun _ => begins_of_kind hk ⟨by decide, rfl⟩⟩
  | _, _, .unary hk _ => fun _ => ⟨_, _, rfl, fun _ => begins_unary hk⟩
  | _, _, .binary _ hl _ | _, _, .subscript _ _ hl _ | _, _, .call hl _ => fun hw =>
    let ⟨t, us, hts, hb⟩ := hl.begins hw.2.1
    ⟨t, us ++ _, congrArg (· ++ _) hts, fun l hlt => hb l (Nat.lt_of_lt_of_le hlt hw.1)⟩
  | _, _, .arguments _ _ _ => fun hw => nomatch hw
  | _, _, .group ho _ _ => fun _ => ⟨_, _, rfl, fun _ => begins_of_kind ho ⟨by decide, rfl⟩⟩

section
variable {depth room : Nat}

/-- A tree that is read at its own level is read at the looser ones. -/
theorem recovers_of_own {e : Expr} {ts : List Token} (hr : Reads e ts) (hn : e.nesting ≤ room)
    (hfilter : ¬ e.IsFilter) (harguments : ¬ e.IsArguments)
    (h : e.WellLevelled → Goes (parser depth) room e.level e ts) : Recovers depth room e ts where
  tree hw l hle := by
    by_cases hl : l = e.level
    · subst hl; exact h hw
    · obtain ⟨t, us, rfl, hb⟩ := hr.begins hw
      have hpos : 0 < room := Nat.lt_of_lt_of_le (by decide) (Nat.le_trans (le_nesting e) hn)
      exact (h hw).loosen (Level.lt_of_le_of_ne hle hl) hpos fun k _ => hb k
  filter hfil := absurd hfil hfilter
  arguments hargs := absurd hargs harguments

theorem recovers_symbol {t : Token} (hroom : 14 ≤ room) (ht : t.kind = .symbol) :
    Recovers depth room (.symbol t.span t.text) [t] where
  tree hw l hle := by
    have hatom : Goes (parser depth) room .atom (.symbol t.span t.text) [t] :=
      goes_atom hroom fun more => by simp only [atomFrom, ht]; rfl
    by_cases hl : l = .atom
    · subst hl; exact hatom
    · exact hatom.loosen (Level.lt_of_le_of_ne hle hl) (by omega)
        fun _ _ => begins_of_kind ht ⟨by decide, rfl⟩
  filter _ _ he := filterCall_symbol hroom ht he
  arguments h := nomatch h

theorem Recovers.inner {e : Expr} {ts : List Token} (h : Recovers depth room e ts)
    (hw : e.WellLevelled) {more : List Token} (he : Ends .piped more) :
    parser (depth + 1) room (ts ++ more) = .ok (some (e, more)) :=
  (h.tree hw .piped (Level.piped_le _)).parses he

theorem Recovers.item {e : Expr} {ts : List Token} (h : Recovers depth room e ts)
    (hl : .or ≤ e.level) (hw : e.WellLevelled) {more : List Token} (he : Ends .or more) :
    disjunction (parser depth) room (ts ++ more) = .ok (some (e, more)) :=
  (h.tree hw .or hl).parses he

theorem recovers_not {t : Token} {e : Expr} {ts : List Token} (hk : t.kind = .notWord)
    (hr : Reads e ts) (hn : e.nesting ≤ room) (h : Recovers depth room e ts) :
    Recovers depth (room + 1) (.unary ⟨t.start, e.stop⟩ .not e) (t :: ts) :=
  recovers_of_own (.unary hk hr) (Nat.succ_le_succ hn) id id fun ⟨hle, hw⟩ =>
    goes_not hk (h.tree hw .not hle)

theorem recovers_sign {op : UnaryOp} {t : Token} {e : Expr} {ts : List Token}
    (hop : op ≠ .not) (hk : t.kind = op.kind) (hr : Reads e ts) (hn : e.nesting ≤ room)
    (h : Recovers depth room e ts) :
    Recovers depth room (.unary ⟨t.start, e.stop⟩ op e) (t :: ts) := by
  cases op with
  | not => exact absurd rfl hop
  | positive | negative =>
    exact recovers_of_own (.unary hk hr) hn id id fun ⟨hle, hw⟩ =>
      goes_sign rfl hk (h.tree hw .postfixed hle)

theorem isChain_of_kind {op : BinaryOp} {k : Kind} (hk : op.kind? = some k) (hp : op ≠ .pipe)
    (hm : op ≠ .member) : op.level.isChain = true := by
  cases op with
  | arithmetic op => cases op <;> rfl
  | pipe => exact absurd rfl hp
  | member => exact absurd rfl hm
  | call | subscript => cases hk
  | _ => rfl

theorem binaryNesting_of_kind {op : BinaryOp} {k : Kind} (hk : op.kind? = some k)
    (hp : op ≠ .pipe) : binaryNesting op = 0 := by
  cases op with
  | pipe => exact absurd rfl hp
  | call | subscript => cases hk
  | _ => rfl

theorem recovers_binary {op : BinaryOp} {t : Token} {l r : Expr} {ls rs : List Token}
    (hk : op.kind? = some t.kind) (hl : Reads l ls) (hr : Reads r rs)
    (hn : (binary ⟨l.start, r.stop⟩ op l r).nesting ≤ room) (hleft : Recovers depth room l ls)
    (hright : Recovers depth (room - binaryNesting op) r rs) :
    Recovers depth room (.binary ⟨l.start, r.stop⟩ op l r) (ls ++ t :: rs) := by
  have hcall : op ≠ .call := by rintro rfl; cases hk
  refine recovers_of_own (.binary hk hl hr) hn ?_ id fun hw => ?_
  · cases op <;> first | exact absurd rfl hcall | exact id
  have hlgoes : Goes (parser depth) room op.level l ls := hleft.tree hw.2.1 op.level hw.1
  by_cases hp : op = .pipe
  · subst hp
    exact goes_pipe (Option.some.inj hk).symm hlgoes (hright.filter hw.2.2)
  rw [binaryNesting_of_kind hk hp] at hright
  by_cases hm : op = .member
  · subst hm
    obtain ⟨n, rfl, hsymbol, rfl⟩ := hr.symbol_eq hw.2.2
    exact goes_member (Option.some.inj hk).symm hsymbol hlgoes
  · have hc := isChain_of_kind hk hp hm
    obtain ⟨_, hlt, hwr⟩ := (wellLevelled_chain hc).mp hw
    exact goes_chain hc hk hlgoes (hright.tree hwr _ (Level.tighter_le_of_lt hlt))

theorem recovers_subscript {o c : Token} {l k : Expr} {ls ks : List Token}
    (ho : o.kind = .leftBracket) (hc : c.kind = .rightBracket) (hl : Reads l ls)
    (hk : Reads k ks) (hn : (binary ⟨l.start, c.stop⟩ .subscript l k).nesting ≤ room)
    (hleft : Recovers (depth + 1) room l ls) (hkey : Recovers depth (room - 13) k ks) :
    Recovers (depth + 1) room (.binary ⟨l.start, c.stop⟩ .subscript l k)
      (ls ++ o :: (ks ++ [c])) :=
  recovers_of_own (.subscript ho hc hl hk) hn id id fun ⟨hle, hwl, hwk⟩ =>
    goes_subscript ho hc (hleft.tree hwl .postfixed hle) fun _ => hkey.inner hwk

theorem recovers_group {o c : Token} {e : Expr} {ts : List Token} (ho : o.kind = .leftParen)
    (hc : c.kind = .rightParen) (hr : Reads e ts)
    (hn : (group ⟨o.start, c.stop⟩ e).nesting ≤ room) (h : Recovers depth (room - 15) e ts) :
    Recovers (depth + 1) room (.group ⟨o.start, c.stop⟩ e) (o :: (ts ++ [c])) :=
  recovers_of_own (.group ho hc hr) hn id id fun hw =>
    goes_group (Nat.le_trans (le_nesting _) hn) ho hc fun _ => h.inner hw

theorem recovers_call {f a : Expr} {fs as : List Token} (hroom : 14 ≤ room) (hf : Reads f fs)
    (h : Recovers depth room a as) :
    Recovers depth room (.binary ⟨f.start, a.stop⟩ .call f a) (fs ++ as) where
  tree hw := hw.2.2.elim
  filter hfil more _ := by
    obtain ⟨t, rfl, ht, rfl⟩ := hf.symbol_eq hfil.1
    obtain ⟨o, us, rfl, ho, hlist⟩ := h.arguments hfil.2
    exact filterCall_call hroom ht ho (hlist more)
  arguments h := h.elim

theorem recovers_arguments {o c : Token} {es : List Expr} {ts : List Token} (hroom : 15 ≤ room)
    (ho : o.kind = .leftParen) (hc : c.kind = .rightParen)
    (h : AreArguments es → Lists (disjunction (parser depth) (room - 1)) es ts) :
    Recovers depth room (.arguments ⟨o.start, c.stop⟩ es) (o :: (ts ++ [c])) where
  tree hw := hw.elim
  filter h := h.elim
  arguments hargs := ⟨o, ts ++ [c], rfl, ho, fun more => by
    rw [List.append_assoc]
    have hnone (more : List Token) : disjunction (parser depth) (room - 1) (c :: more) = .ok none :=
      disjunction_rightParen (show 14 ≤ room - 1 by omega) hc
    exact argumentList_of_lists hnone hc (h hargs) more⟩

end

mutual

theorem Reads.recovers : ∀ {e : Expr} {ts : List Token} {depth room : Nat}, Reads e ts →
    e.nesting ≤ room → room ≤ depth → Short ts → Recovers depth room e ts
  | _, _, _, _, .literal hd => fun hn _ hs =>
    recovers_of_own (.literal hd) hn id id fun _ => goes_atom hn (literal_complete hd hs)
  | _, _, _, _, .symbol hk => fun hn _ _ => recovers_symbol hn hk
  | _, _, depth, room, @Reads.unary _ .not e _ hk he => fun hn hd hs => by
    obtain ⟨n, rfl⟩ : ∃ n, room = n + 1 := Nat.exists_eq_add_of_le' (Nat.le_of_add_left_le hn)
    have hle : e.nesting ≤ n := Nat.le_of_succ_le_succ hn
    exact recovers_not hk he hle (he.recovers hle (Nat.le_of_succ_le hd) hs.cons)
  | _, _, _, _, @Reads.unary _ .positive _ _ hk he => fun hn hd hs =>
    recovers_sign (by decide) hk he hn (he.recovers hn hd hs.cons)
  | _, _, _, _, @Reads.unary _ .negative _ _ hk he => fun hn hd hs =>
    recovers_sign (by decide) hk he hn (he.recovers hn hd hs.cons)
  | _, _, _, _, .binary hk hl hr => fun hn hd hs =>
    have ⟨hls, hrs⟩ := Short.append.mp hs
    have ⟨hnl, hnr⟩ := nesting_binary_le.mp hn
    recovers_binary hk hl hr hn (hl.recovers hnl hd hls)
      (hr.recovers (Nat.le_sub_of_add_le hnr) (Nat.le_trans (Nat.sub_le _ _) hd) hrs.cons)
  | _, _, depth, room, @Reads.subscript _ _ _ k _ _ ho hc hl hk => fun hn hd hs => by
    obtain ⟨hls, hks⟩ := Short.append.mp hs
    -- a key begins again at the loosest level, and so takes thirteen calls
    obtain ⟨hnl, hnk⟩ := nesting_binary_le.mp hn
    replace hnk : k.nesting + 13 ≤ room := hnk
    obtain ⟨n, rfl⟩ : ∃ n, depth = n + 1 := ⟨depth - 1, by omega⟩
    exact recovers_subscript ho hc hl hk hn (hl.recovers hnl hd hls)
      (hk.recovers (by omega) (by omega) (Short.append.mp hks.cons).1)
  | _, _, _, _, .call hf ha => fun hn hd hs =>
    have ⟨hnf, hna⟩ := nesting_binary_le.mp hn
    recovers_call (Nat.le_trans (le_nesting _) hnf) hf (ha.recovers hna hd (Short.append.mp hs).2)
  | _, _, _, room, @Reads.arguments _ _ es _ ho hc hes => fun hn hd hs => by
    have hle : mostNesting es + 1 ≤ room := hn
    have := le_mostNesting es
    exact recovers_arguments (by omega) ho hc
      (hes.recovers (by omega) (by omega) (Short.append.mp hs.cons).1)
  | _, _, depth, room, @Reads.group _ _ e _ ho hc he => fun hn hd hs => by
    have hle : e.nesting + 15 ≤ room := hn
    obtain ⟨n, rfl⟩ : ∃ n, depth = n + 1 := ⟨depth - 1, by omega⟩
    exact recovers_group ho hc he hn
      (he.recovers (by omega) (by omega) (Short.append.mp hs.cons).1)

theorem ReadsAll.recovers : ∀ {es : List Expr} {ts : List Token} {depth room : Nat},
    ReadsAll es ts → mostNesting es ≤ room → room ≤ depth → Short ts → AreArguments es →
    Lists (disjunction (parser depth) room) es ts
  | _, _, _, _, .nil => fun _ _ _ _ => rfl
  | _, _, _, _, .one he => fun hn hd hs ha =>
    lists_one fun _ => (he.recovers (Nat.le_trans (Nat.le_max_left _ _) hn) hd hs).item ha.1 ha.2.1
  | _, _, _, _, .cons hk he hes => fun hn hd hs ha =>
    have ⟨hts, hus⟩ := Short.append.mp hs
    have ⟨hne, hnes⟩ := Nat.max_le.mp hn
    lists_cons hk (fun _ => (he.recovers hne hd hts).item ha.1 ha.2.1)
      (hes.recovers hnes hd hus.cons ha.2.2)

end

end Stencil.Expr
