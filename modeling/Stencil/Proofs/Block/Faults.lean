import Stencil.Proofs.Block.Refinement
import Stencil.Proofs.Block.Tiling
import Stencil.Proofs.Clause.Failure

/-!
# Where errors of a source are

A source that cannot be scanned is at fault in one clause, and everything before that clause is well
formed. Clauses that do not nest are at fault where one of them starts.
-/

namespace Stencil

open Clause (Scanned)
open Draft (Opens)

namespace Block

theorem build_error {source : Text} {calls : Nat} {clauses : List Clause} {fault : ParseFault}
    (h : build source calls clauses = .error fault) :
    ∃ kind offset, fault = .located kind offset ∧ ((∃ c ∈ clauses, c.start = offset) ∨
      kind = .nestingTooDeep ∧ offset = source.length) := by
  rw [build_eq_outcomeWithin] at h
  rcases Machine.outcomeWithin_error h with ⟨kind, -, span, hspan, rfl⟩ | ⟨c, hc, rfl⟩ | rfl
  · obtain ⟨c, hc, rfl⟩ := List.mem_map.mp hspan
    exact ⟨kind, c.start, rfl, .inl ⟨c, hc, rfl⟩⟩
  · exact ⟨_, c.start, rfl, .inl ⟨c, hc, rfl⟩⟩
  · exact ⟨_, _, rfl, .inr ⟨rfl, rfl⟩⟩

end Block

/-- **Errors are located.** A scan fails at a clause that an opening delimiter begins, at a place in
or behind it, and what nests wrongly is blamed on a clause or, if it is too much, on the end. -/
theorem parse_error_located (stack : Stack) (source : Text) :
    (∀ kind e, Clause.scan stack source = .error (.located kind e) →
      ∃ o clauses, Opens (source.drop o) ∧ o ≤ e ∧ e ≤ source.length ∧
        Scanned stack source 0 clauses o ∧ Clause.scan stack (source.take o) = .ok clauses ∧
        (Clause.clauseAt stack source o).mapError (Clause.blame o) = .error (.located kind e)) ∧
    ∀ clauses fault, Clause.scan stack source = .ok clauses → parse stack source = .error fault →
      ∃ kind e, fault = .located kind e ∧ ((∃ c ∈ clauses, c.start = e) ∨
        kind = .nestingTooDeep ∧ e = source.length) := by
  refine ⟨fun kind e h => ?_, fun clauses fault hscan h => ?_⟩
  · obtain ⟨clauses, o, r, hscanned, hread, hfault⟩ := Clause.scan_error_iff.mp h
    refine ⟨o, clauses, ?_⟩
    have hfront : Clause.scan stack (source.take o) = .ok clauses := by
      rw [Clause.scan_eq_scanFrom]
      exact hscanned.scan_take (Nat.zero_le _)
    rw [hread, hfault]
    rw [Clause.clauseAt_eq_read] at hread
    obtain ⟨hfirst, hlast⟩ := Clause.error_within hread hfault.symm
    exact ⟨Clause.opens_of_error hread, hfirst, hlast, hscanned, hfront, rfl⟩
  · unfold parse at h
    split at h
    · cases h
    · rw [hscan] at h
      exact Block.build_error h

theorem parse_error_located_inside :
    let source := "b\x7b\x7b a + \x7d\x7d".toList
    let tag := "\x7b% endif %\x7d".toList
    (Clause.scan .least source = .error (.located .missingExpression 7) ∧
      ∃ o clauses, Opens (source.drop o) ∧ o ≤ 7 ∧ 7 ≤ source.length ∧
        Clause.scan .least (source.take o) = .ok clauses) ∧
    Clause.scan .least tag = .ok [.endIf ⟨0, 11⟩] ∧
      parse .least tag = .error (.located .unknownClause 0) ∧
      ∃ c ∈ [Clause.endIf ⟨0, 11⟩], c.start = 0 := by
  intro source tag
  have hscan : Clause.scan .least source = .error (.located .missingExpression 7) := by
    subst source
    with_unfolding_all rfl
  have htag : Clause.scan .least tag = .ok [.endIf ⟨0, 11⟩] := by
    subst tag
    with_unfolding_all rfl
  have hparse : parse .least tag = .error (.located .unknownClause 0) := by
    subst tag
    with_unfolding_all rfl
  obtain ⟨o, clauses, hopens, hfirst, hlast, -, hfront, -⟩ :=
    (parse_error_located .least source).1 _ _ hscan
  obtain ⟨_, _, heq, hstart⟩ := (parse_error_located .least tag).2 _ _ htag hparse
  obtain ⟨rfl, rfl⟩ := ParseFault.located.inj heq
  refine ⟨⟨hscan, o, clauses, hopens, hfirst, hlast, hfront⟩, htag, hparse, ?_⟩
  exact hstart.resolve_right fun hnested => by cases hnested.1

/-! ## More constructs than there is room for -/

def opening : Text := "\x7b% if x %\x7d".toList

def openings : (offset count : Nat) → List Clause
  | _, 0 => []
  | offset, count + 1 =>
    .ifTest ⟨offset, offset + 10⟩ (.symbol ⟨offset + 6, offset + 7⟩ ['x']) ::
      openings (offset + 10) count

theorem length_openings_source (count : Nat) :
    (List.replicate count opening).flatten.length = 10 * count := by
  rw [List.length_flatten, List.map_replicate, List.sum_replicate_nat, Nat.mul_comm]
  rfl

theorem start_of_mem_openings {c : Clause} : ∀ {offset count : Nat}, c ∈ openings offset count →
    c.start < offset + 10 * count
  | _, _ + 1, h => by
    rcases List.mem_cons.mp h with rfl | h
    · exact Nat.lt_add_of_pos_right (by omega)
    · have := start_of_mem_openings h
      omega

theorem read_opening (stack : Stack) :
    Clause.read stack 0 opening = .ok (.ifTest ⟨0, 10⟩ (.symbol ⟨6, 7⟩ ['x'])) := by
  have hstream : Token.stream Clause.closes 2 " if x %\x7d".toList =
      [⟨.ifWord, 3, 5, "if".toList⟩, ⟨.symbol, 6, 7, ['x']⟩,
        ⟨.statementEnd, 8, 10, ['%', '\x7d']⟩] := by
    decide +kernel
  have hroom : 14 ≤ stack.calls - 4 := Nat.le_sub_of_add_le stack.enough
  have htest : Clause.readTest stack _ = _ :=
    Clause.readTest_complete (c := ⟨.statementEnd, 8, 10, ['%', '\x7d']⟩)
      (Expr.Reads.symbol (t := ⟨.symbol, 6, 7, ['x']⟩) rfl) trivial hroom
      (Expr.short_of_kind rfl (by decide)) rfl
  show Clause.readStatement stack 0 (Token.stream Clause.closes 2 " if x %\x7d".toList) = _
  rw [hstream, Clause.readStatement]
  dsimp only
  rw [show [_, _] = [_] ++ [_] from rfl, htest]
  rfl

theorem scanFrom_openings (stack : Stack) : ∀ offset count,
    Clause.scanFrom stack offset (List.replicate count opening).flatten =
      .ok (openings offset count)
  | offset, 0 => Clause.scanFrom_nil offset
  | offset, count + 1 => by
    have hread : ∀ rest, Clause.read stack offset (opening ++ rest) =
        .ok (.ifTest ⟨offset, offset + 10⟩ (.symbol ⟨offset + 6, offset + 7⟩ ['x'])) := by
      intro rest
      have hshift := @Clause.read_shift stack offset 0 (opening ++ rest)
      rw [Clause.read_append (read_opening stack) nofun] at hshift
      exact hshift
    rw [List.replicate_succ, List.flatten_cons]
    exact Clause.scanFrom_cons (by decide) (hread _) rfl
      (scanFrom_openings stack (offset + 10) count)

theorem scan_openings (stack : Stack) (count : Nat) :
    Clause.scan stack (List.replicate count opening).flatten = .ok (openings 0 count) :=
  (Clause.scan_eq_scanFrom _ _).trans (scanFrom_openings stack 0 count)

theorem buildBody_openings (source : Text) : ∀ offset count,
    Block.buildBody source (3 * count) (openings offset count) =
      .error (.located .nestingTooDeep source.length)
  | _, 0 => rfl
  | offset, count + 1 => by
    have hnested := buildBody_openings source (offset + 10) count
    rw [Nat.mul_succ]
    simp only [openings, Block.buildBody, List.length_cons, Block.buildFrom, Block.roomFor,
      Block.buildChoice, Block.arm, pure_bind, hnested]
    rfl

theorem parse_openings {stack : Stack} {count : Nat} (hstack : stack.calls = 3 * count + 1) :
    parse stack (List.replicate count opening).flatten =
      .error (.located .nestingTooDeep (10 * count)) := by
  obtain ⟨count, rfl⟩ : ∃ k, count = k + 1 := by
    have henough : 18 ≤ stack.calls := stack.enough
    exact Nat.exists_eq_add_one.mpr (by omega)
  have htrim : Text.trim (List.replicate (count + 1) opening).flatten ≠ [] :=
    Text.trim_ne_nil (c := '\x7b') (List.mem_of_mem_head? rfl) (by decide)
  rw [parse, if_neg (by simpa using htrim), scan_openings, hstack,
    Nat.add_sub_cancel, ok_bind, Block.build, buildBody_openings, length_openings_source]
  rfl

/-- Where the last clause opens one construct more than there is room for, no clause is left to
blame. -/
theorem parse_error_at_end :
    let source := (List.replicate 329 opening).flatten
    Clause.scan ⟨988, by decide⟩ source = .ok (openings 0 329) ∧
      parse ⟨988, by decide⟩ source = .error (.located .nestingTooDeep 3290) ∧
      ¬ ∃ c ∈ openings 0 329, c.start = 3290 := by
  intro source
  refine ⟨scan_openings _ 329, parse_openings rfl, fun ⟨c, hc, hstart⟩ => ?_⟩
  have := start_of_mem_openings hc
  omega

end Stencil
