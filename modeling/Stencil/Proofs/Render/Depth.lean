import Stencil.Proofs.Block.Refinement
import Stencil.Proofs.Clause.Written
import Stencil.Proofs.Render.Faults

/-!
# Length is not depth

Templates whose expressions and blocks are nested a few levels deep are parsed and rendered without
an error about depth, however long they are.
-/

namespace Stencil

open Meaning (FailsOnly failsOnly_done)
open Block (Machine)

def RenderFault.Bounded (f : RenderFault) : Prop := ∀ offset, f ≠ .located .evaluationTooDeep offset

theorem Expr.Raises.bounded {e : Expr} {f : RenderFault} (h : e.Raises f) : f.Bounded := by
  obtain ⟨kind, offset, hplace, hb⟩ := h
  rintro o rfl
  cases hplace
  cases hb with
  | operands _ _ hk => rcases hk with hk | hk <;> cases hk
  | filter _ hk => rcases hk with hk | hk <;> cases hk

theorem Expr.value_bounded {env : Env} {calls room : Nat} {e : Expr} {f : RenderFault}
    (hw : e.WellLevelled) (henv : env.Each (Host.Shown (room + 3)))
    (hcalls : room + 5 * e.depth + 8 ≤ calls) (h : e.value env calls = .error f) : f.Bounded := by
  rcases value_eq_error h with ⟨-, rfl⟩ | ⟨-, heval | ⟨heval, -⟩⟩
  · exact fun _ => nofun
  · rcases only_evaluate env _ e hw f heval with hraises | rfl | rfl
    · exact hraises.bounded
    · exact fun _ => nofun
    · exact fun _ => nofun
  · exact absurd heval (roomy_evaluate henv (by omega))

section
variable {stack : Stack} {source : Text} {clauses : List Clause} {levels opened : Nat}

/-- Fifteen calls for each level are enough, and some for what is around an expression. -/
theorem scan_written (hw : Clause.Written source 0 clauses)
    (hd : ∀ c ∈ clauses, c.DepthAtMost levels) (hlevels : 15 * levels + 20 ≤ stack.calls) :
    Clause.scan stack source = .ok clauses :=
  Clause.scan_eq_ok_iff.mpr ⟨hw, fun c hc => (hd c hc).fits (hw.wellLevelled c hc) hlevels⟩

/-- A source in which expressions and constructs are within the limits is parsed to the outcome of
the machine for its clauses. -/
theorem parse_written (hw : Clause.Written source 0 clauses)
    (hd : ∀ c ∈ clauses, c.DepthAtMost levels) (hlevels : 15 * levels + 20 ≤ stack.calls)
    (hroom : ¬ Machine.Exhausts source (stack.calls - 1) .start clauses)
    (hblank : (Text.trim source).isEmpty = false) :
    parse stack source = Machine.outcome source clauses := by
  rw [parse, if_neg (by rw [hblank]; decide), scan_written hw hd hlevels, ok_bind,
    Block.build_eq_outcomeWithin]
  exact Machine.outcomeWithin_of_not_exhausts hroom

/-- Three calls for each construct that is open are enough, and two for the last one. -/
theorem failsOnly_bounded {blocks : List Block} (hscan : Clause.scan stack source = .ok clauses)
    (hbuild : Machine.outcome source clauses = .ok blocks)
    (hd : ∀ c ∈ clauses, c.DepthAtMost levels)
    (hopen : ¬ Machine.Reaches source (opened + 1) .start clauses) {page : Page} {room : Nat}
    (hshown : page.data.Shown room) {calls : Nat}
    (hcalls : room + 5 * levels + 3 * opened + 11 ≤ calls) :
    FailsOnly RenderFault.Bounded (Lexical.blocks page calls blocks .empty) := by
  -- three calls for each construct that may be open are enough to build the blocks
  have hbuilt : Block.build source (3 * opened + 3) clauses = .ok blocks := by
    rw [Block.build_eq_outcomeWithin, ← hbuild]
    exact Machine.outcomeWithin_of_not_exhausts (Machine.not_exhausts_of_height hopen (by omega))
  obtain ⟨n, hn, hnests⟩ := Block.build_eq_ok_iff.mp hbuilt
  refine failsOnly_blocks (Host.closed_shown room) hnests.formed
    (by omega : room + 5 * levels + 8 ≤ _) (fun e he env henv m hm f hf => ?_)
    ⟨hshown.mono (Nat.le_add_right _ _), fun _ _ hbound => by cases hbound⟩
  obtain ⟨c, hc, ⟨l, hexpr⟩, hwell, -⟩ := exists_clause hscan hbuilt he
  have hdepth := hd c hc l e hexpr
  exact Expr.value_bounded hwell henv (by omega) hf

theorem Template.merge_ne_diagnostic (data : Host) (keywords : List (Text × Host))
    (d : Diagnostic) : merge data keywords ≠ .error (.diagnostic d) := by
  intro h
  unfold merge at h
  repeat' split at h
  all_goals cases h

theorem Template.render_bounded {t : Template} {data : Host} {keywords : List (Text × Host)}
    (h : ∀ root, merge data keywords = .ok root →
      FailsOnly RenderFault.Bounded
        (Lexical.blocks ⟨root, .active t.name⟩ stack.calls t.blocks .empty))
    {progress : Progress} {d : Diagnostic}
    (hd : (t.render stack data keywords progress).1 = .error (.diagnostic d)) :
    d.kind ≠ .render .evaluationTooDeep := by
  obtain hmerge | ⟨root, f, hroot, hresult, hof⟩ := exists_fault hd
  · exact absurd hmerge (merge_ne_diagnostic data keywords d)
  have hf : f.Bounded := h root hroot progress f hresult
  cases f with
  | located kind offset =>
    cases hof
    intro hkind
    cases hkind
    exact hf offset rfl
  | filterFailed => cases hof; nofun
  | malformed | overlong | numeralTooLong | exhausted => cases hof

end

/-- **Length never exhausts depth.** Stacks that are large enough for the levels of the expressions,
for the constructs that are open, and for the data, are large enough for sources of any length. -/
theorem not_too_deep {stack : Stack} {source : Text} {clauses : List Clause} {levels opened : Nat}
    (hw : Clause.Written source 0 clauses) (hd : ∀ c ∈ clauses, c.DepthAtMost levels)
    (hopen : ¬ Machine.Reaches source (opened + 1) .start clauses)
    (hlevels : 15 * levels + 20 ≤ stack.calls) (hstack : 3 * opened + 4 ≤ stack.calls) :
    ((Text.trim source).isEmpty = false → parse stack source = Machine.outcome source clauses) ∧
    (∀ offset, parse stack source ≠ .error (.located .nestingTooDeep offset)) ∧
    ∀ name t, Template.ofText stack source name = .ok t → ∀ data keywords room,
      (∀ root, Template.merge data keywords = .ok root → root.Shown room) →
      ∀ later : Stack, room + 5 * levels + 3 * opened + 11 ≤ later.calls → ∀ progress d,
      (t.render later data keywords progress).1 = .error (.diagnostic d) →
        d.kind ≠ .render .evaluationTooDeep := by
  have hroom : ¬ Machine.Exhausts source (stack.calls - 1) .start clauses :=
    Machine.not_exhausts_of_height hopen (by omega)
  have hparse := parse_written hw hd hlevels hroom
  have hblank (hb : ¬ (Text.trim source).isEmpty = false) : parse stack source = .ok [] := by
    rw [parse, if_pos (eq_true_of_ne_false hb)]
  have hscan := scan_written hw hd hlevels
  refine ⟨hparse, fun offset h => ?_,
    fun name t ht data keywords room hshown later hlater _ d => ?_⟩
  · by_cases hb : (Text.trim source).isEmpty = false
    · obtain ⟨kind, hkind, _, _, heq⟩ := Machine.outcome_error (hparse hb ▸ h)
      cases heq
      exact hkind rfl
    · rw [hblank hb] at h
      cases h
  · refine Template.render_bounded fun root hroot => ?_
    obtain ⟨blocks, hblocks, rfl⟩ := Template.exists_blocks ht
    by_cases hb : (Text.trim source).isEmpty = false
    · rw [hparse hb] at hblocks
      exact failsOnly_bounded hscan hblocks hd hopen (hshown root hroot) hlater
    · rw [hblank hb] at hblocks
      cases hblocks
      exact failsOnly_done

theorem not_too_deep_group :
    let source := "\x7b\x7b (a) \x7d\x7d".toList
    let e : Expr := .group ⟨3, 6⟩ (.symbol ⟨4, 5⟩ ['a'])
    let clauses : List Clause := [.output ⟨0, 9⟩ e]
    let t : Template := ⟨source, none, [.output ⟨0, 9⟩ e]⟩
    let data : Host := .dict .fresh [(.text ['a'], .list .fresh [.list .fresh []])]
    let stack : Stack := ⟨35, by decide⟩
    (Clause.Written source 0 clauses ∧ (∀ c ∈ clauses, c.DepthAtMost 1) ∧
      ¬ Machine.Reaches source (1 + 1) .start clauses ∧ data.Shown 5) ∧
    Template.ofText stack source none = .ok t ∧
    (∀ offset, parse stack source ≠ .error (.located .nestingTooDeep offset)) ∧
    ∀ d, (t.render ⟨24, by decide⟩ data [] .empty).1 = .error (.diagnostic d) →
      d.kind ≠ .render .evaluationTooDeep := by
  intro source e clauses t data stack
  have hscan : Clause.scan stack source = .ok clauses := by
    subst stack source clauses e
    with_unfolding_all rfl
  have hw : Clause.Written source 0 clauses := (Clause.scan_eq_ok_iff.mp hscan).1
  have hd : ∀ c ∈ clauses, c.DepthAtMost 1 := by
    intro c hc l d hexpr
    rw [List.mem_singleton.mp hc] at hexpr
    cases hexpr
    decide
  have hopen : ¬ Machine.Reaches source (1 + 1) .start clauses :=
    Machine.not_reaches_of_length (by decide)
  have hshown : data.Shown 5 := by
    have htext : (Host.text ['a']).Shown 5 := Host.Atomic.shown ⟨rfl, rfl, rfl⟩ 2
    have hlist : (Host.list .fresh [.list .fresh []]).Shown 5 :=
      Host.shown_of_children rfl (List.forall_mem_singleton.mpr
        (Host.shown_of_children rfl (List.forall_mem_nil _)))
    exact Host.shown_of_children rfl (by simp [data, Host.children, htext, hlist])
  have hlevels : 15 * 1 + 20 ≤ stack.calls := Nat.le_refl _
  have hstack : 3 * 1 + 4 ≤ stack.calls := by decide
  obtain ⟨hparse, hnever, hrender⟩ := not_too_deep hw hd hopen hlevels hstack
  have ht : Template.ofText stack source none = .ok t := by
    rw [Template.ofText, hparse (by decide)]
    rfl
  refine ⟨⟨hw, hd, hopen, hshown⟩, ht, hnever, fun d => ?_⟩
  refine hrender none t ht data [] 5 ?_ _ (by decide) .empty d
  intro root hroot
  obtain rfl := Except.ok.inj hroot
  exact hshown

/-! ## Data that nest too deep -/

def nestedList : Nat → Host
  | 0 => .list .fresh []
  | k + 1 => .list .fresh [nestedList k]

theorem inner_nestedList : ∀ {calls k : Nat}, calls ≤ k →
    (nestedList k).inner calls = .error .tooDeep
  | 0, k, _ => by cases k <;> rfl
  | calls + 1, k + 1, hle => by
    rw [nestedList, Host.inner, Host.inners, inner_nestedList (Nat.le_of_succ_le_succ hle)]
    rfl

theorem ofHost_nestedList {calls k : Nat} (hle : calls ≤ k + 2) :
    Value.ofHost calls (nestedList k) = .error .tooDeep := by
  have hshow : Value.ofHost calls (nestedList k) = do
      let t ← (nestedList k).inner (calls - 2)
      return ⟨.ofDisplay t, nestedList k⟩ := by cases k <;> rfl
  rw [hshow, inner_nestedList (Nat.sub_le_of_le_add hle)]
  rfl

theorem render_nestedList {stack : Stack} {k : Nat} (hle : stack.calls ≤ k) (span start : Span)
    (source : Text) (progress : Progress) :
    let t : Template := ⟨source, none, [.output span (.symbol start ['a'])]⟩
    let data : Host := .dict .fresh [(.text ['a'], nestedList k)]
    (t.render stack data [] progress).1 =
      .error (.diagnostic ⟨.render .evaluationTooDeep, start.start, source, none, none⟩) := by
  intro t data
  obtain ⟨n, hn⟩ := stack.calls_eq
  let env : Env := Page.env ⟨data, .active none⟩ ⟨.empty, progress⟩
  have hvalue : (Expr.symbol start ['a']).value env (n + 16 + 1) =
      .error (.located .evaluationTooDeep start.start) := by
    have hname : env.host? ['a'] = some (nestedList k) := rfl
    have hshown : Value.ofHost? (n + 14) (some (nestedList k)) = .error .tooDeep :=
      ofHost_nestedList (by rw [hn, leastCalls] at hle; omega)
    rw [Expr.value_succ, Expr.evaluate_succ, Expr.handle, Env.resolve_eq, hname,
      show n + 15 - 1 = n + 14 from rfl, hshown]
    rfl
  have hrender : Stencil.render ⟨data, .active none⟩ stack.calls t.blocks progress =
      (.error (.located .evaluationTooDeep start.start), progress) := by
    rw [hn, Stencil.render, renderBlocks, renderBlock, Action.andThen, Action.evaluating,
      show n + leastCalls - 1 = n + 16 + 1 from rfl, hvalue]
  show ((Stencil.render ⟨data, .active none⟩ stack.calls t.blocks progress).1.mapError _) = _
  rw [hrender]
  rfl

/-- A name alone fails where its value nests deeper than it can be displayed. -/
theorem not_too_deep_list :
    let source := "\x7b\x7b a \x7d\x7d".toList
    let e : Expr := .symbol ⟨3, 4⟩ ['a']
    let t : Template := ⟨source, none, [.output ⟨0, 7⟩ e]⟩
    let stack : Stack := ⟨988, by decide⟩
    let data : Host := .dict .fresh [(.text ['a'], nestedList 1499)]
    Template.ofText stack source none = .ok t ∧ e.depth = 0 ∧
      (t.render stack data [] .empty).1 =
        .error (.diagnostic ⟨.render .evaluationTooDeep, 3, source, none, none⟩) := by
  intro source e t stack data
  have hparse : parse stack source = .ok t.blocks := by
    subst stack source t e
    with_unfolding_all rfl
  have hstack : stack.calls ≤ 1499 := by decide
  exact ⟨by rw [Template.ofText, hparse], rfl,
    render_nestedList hstack ⟨0, 7⟩ ⟨3, 4⟩ source .empty⟩

end Stencil
