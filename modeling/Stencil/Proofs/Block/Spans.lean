import Stencil.Proofs.Block.Reading
import Stencil.Proofs.Clause.Printing
import Stencil.Proofs.Clause.Relocation
import Stencil.Proofs.Expr.Room
import Stencil.Proofs.Token.Locality

/-!
# Spans are faithful

What a node covers in the source is the node again: between a pair of braces it is a template of its
own, with the same tree a few characters further on. Only an iterator may nest deeper than there is
room for between braces.
-/

namespace Stencil

open Token (Layout lastStop follows_append)

/-! ## The place of an output -/

/-- Moves what begins at `start` to where the expression of a template begins. -/
def Relocation.toOutput (start : Nat) : Relocation :=
  ⟨fun n => n + 2 - start, fun n => n + 2 - start⟩

theorem Relocation.toOutput_shift (m : Nat) (ts : List Token) :
    (toOutput (m + 2)).tokens ((shift m).tokens ts) = ts := by
  have hmove : ∀ n, m + n + 2 - (m + 2) = n := fun n => by omega
  rw [tokens, tokens, List.map_map]
  refine (List.map_congr_left fun t _ => ?_).trans (List.map_id ts)
  simp only [Function.comp, token, shift, toOutput, hmove, id]

def Text.braced (t : Text) : Text := '{' :: '{' :: (t ++ ['}', '}'])

/-! ## One tree -/

def Expr.closing (e : Expr) : Token := ⟨.expressionEnd, e.stop, e.stop + 2, ['}', '}']⟩

namespace Expr.Located

variable {room : Nat} {source : Text} {e : Expr} {offset : Nat} {ts : List Token}

theorem stream_cut (h : e.Located room source offset ts) :
    Token.stream Clause.closes e.start (source.slice e.start e.stop ++ ['}', '}']) =
      ts ++ [e.closing] := by
  obtain ⟨-, hf, hp, hmore⟩ := h
  obtain ⟨t, us, rfl, hstart⟩ := hp.reads.first
  obtain ⟨init, last, hsplit, hlast⟩ := hp.reads.last
  have hfront : Token.Follows source e.start (t :: us) :=
    ⟨by rw [hstart, hf.1, Token.atOffset_start], hf.2⟩
  have hkinds : ∀ u ∈ t :: us, u.kind ≠ .invalid ∧ Clause.closes u.kind = false := fun u hu =>
    ⟨hp.reads.valid u hu, Clause.openInTrees_closes u (hp.reads.inTree u hu)⟩
  rw [closing, hp.reads.stop_eq e.start]
  refine hfront.stream_cut (show Clause.closes .expressionEnd = true from rfl) hkinds ?_ hmore
  intro init' last' heq
  obtain ⟨-, hsame⟩ := List.append_inj' (hsplit.symm.trans heq) rfl
  rwa [← (List.cons.inj hsame).1]

/-- The output is read over the tokens of the tree, moved to where they are between the braces. -/
theorem readOutput_cut (h : e.Located room source offset ts) (stack : Stack) :
    Clause.readOutput stack 0
        (Token.stream Clause.closes 2 (source.slice e.start e.stop ++ ['}', '}'])) =
      (Relocation.toOutput e.start).outcome (Relocation.toOutput e.start).clause
        (Clause.readOutput stack (e.start - 2) (ts ++ [e.closing])) := by
  have hb := h.phrase.reads.bounds h.follows
  obtain ⟨m, hm⟩ : ∃ m, e.start = m + 2 := Nat.exists_eq_add_of_le' (Nat.le_trans h.after hb.1)
  have hstream : Token.stream Clause.closes 2 (source.slice e.start e.stop ++ ['}', '}']) =
      (Relocation.toOutput e.start).tokens (ts ++ [e.closing]) := by
    rw [← h.stream_cut, hm, Token.stream_shift, Relocation.toOutput_shift]
  have hzero : (Relocation.toOutput e.start).start (e.start - 2) = 0 := by
    rw [hm]
    exact Nat.sub_self _
  rw [← Clause.readOutput_move, hzero, hstream]

theorem parse_cut {stack : Stack} (h : e.Located room source offset ts)
    (hroom : e.nesting + 3 ≤ stack.calls) :
    Stencil.parse stack (source.slice e.start e.stop).braced =
      .ok [.output ⟨0, e.stop - e.start + 4⟩ ((Relocation.toOutput e.start).expr e)] := by
  have hb := h.phrase.reads.bounds h.follows
  have hafter := Nat.le_trans h.after hb.1
  have hlength : (source.slice e.start e.stop).braced.length = e.stop - e.start + 4 := by
    have hmore := h.more
    simp only [Text.braced, List.length_cons, List.length_append, Text.slice, List.length_take,
      List.length_drop, List.length_nil]
    omega
  have hread : Clause.readOutput stack (e.start - 2) (ts ++ [e.closing]) =
      .ok (.output ⟨e.start - 2, e.stop + 2⟩ e) :=
    Clause.readOutput_complete h.phrase.reads h.phrase.levelled (by omega) h.phrase.short rfl
  have hspan : (Relocation.toOutput e.start).span ⟨e.start - 2, e.stop + 2⟩ =
      ⟨0, e.stop - e.start + 4⟩ := by
    simp only [Relocation.span, Relocation.toOutput, Span.mk.injEq]
    omega
  refine parse_output rfl hlength.symm ?_
  rw [h.readOutput_cut stack, hread, ← hspan]
  rfl

theorem parse_cut_tooDeep {stack : Stack} (h : e.Located room source offset ts)
    (hroom : stack.calls < e.nesting + 3) :
    Stencil.parse stack (source.slice e.start e.stop).braced =
      .error (.located .nestingTooDeep 0) := by
  have hparse : Expr.parse (stack.calls - 3) (ts ++ [e.closing]) = .error .tooDeep :=
    parse_tooDeep h.phrase.reads h.phrase.levelled h.phrase.short (Clause.ends_closing rfl)
      (by have := stack.enough; unfold leastCalls at this; omega)
  refine parse_output_error (r := .tooDeep) rfl ?_
  rw [h.readOutput_cut stack, Clause.readOutput, hparse]
  rfl

/-- A node that stands alone is found where the tree is that it is in. -/
theorem node (h : e.Located room source offset ts) {d : Expr} (hd : d ∈ e.nodes) :
    ∃ o us, Token.Follows source o us ∧ d.Reads us ∧
      (d.standsAlone = true → d.Located room source o us) := by
  obtain ⟨us, ⟨before, after, hts⟩, hr⟩ := h.phrase.reads.nodes d hd
  obtain ⟨hafter, hf, hp, hmore⟩ := h
  have hfront := hts ▸ hf
  obtain ⟨hleft, hright⟩ := follows_append.mp hfront
  obtain ⟨hbefore, hus⟩ := follows_append.mp hleft
  refine ⟨_, us, hus, hr, fun ha => ?_⟩
  refine ⟨Nat.le_trans hafter hbefore.le_lastStop, hus, hp.node hd ha ⟨before, after, hts⟩ hr, ?_⟩
  have hle := hright.le_lastStop
  rw [← Token.lastStop_append, hts] at hle
  rw [← Token.lastStop_append]
  exact Nat.lt_of_le_of_lt hle hmore

end Expr.Located

/-! ## All trees -/

/-- **Spans are faithful.** What a node covers is, between braces, an output of the same tree,
unless the node is in the iterator of a loop and nests deeper than an output may. -/
theorem spans_faithful {stack : Stack} {source : Text} {blocks : List Block}
    (h : parse stack source = .ok blocks) {e d : Expr} (he : e ∈ Block.allTrees blocks)
    (hd : d ∈ e.nodes) :
    (d.standsAlone = true →
      (d.nesting + 3 ≤ stack.calls → parse stack (source.slice d.start d.stop).braced =
        .ok [.output ⟨0, d.stop - d.start + 4⟩ ((Relocation.toOutput d.start).expr d)]) ∧
      (stack.calls < d.nesting + 3 →
        parse stack (source.slice d.start d.stop).braced = .error (.located .nestingTooDeep 0) ∧
        ∃ clauses s x, Clause.scan stack source = .ok clauses ∧ .forEach s x e ∈ clauses)) ∧
      d.Ordered source := by
  obtain ⟨room, offset, ts, hl, hroom⟩ := located_of_mem h he
  obtain ⟨o, us, hf, hr, halone⟩ := hl.node hd
  refine ⟨fun ha => ⟨(halone ha).parse_cut, fun hdeep => ⟨(halone ha).parse_cut_tooDeep hdeep, ?_⟩⟩,
    hr.ordered hf⟩
  have hfits := (halone ha).phrase.fits
  exact hroom.resolve_left (by omega)

theorem spans_faithful_subscript :
    let stack : Stack := ⟨40, by decide⟩
    let source := "\x7b\x7b a[b ]|f \x7d\x7d".toList
    let d : Expr := .binary ⟨3, 8⟩ .subscript (.symbol ⟨3, 4⟩ ['a']) (.symbol ⟨5, 6⟩ ['b'])
    let e : Expr := .binary ⟨3, 10⟩ .pipe d (.symbol ⟨9, 10⟩ ['f'])
    parse stack source = .ok [.output ⟨0, 13⟩ e] ∧ e ∈ Block.allTrees [.output ⟨0, 13⟩ e] ∧
      d ∈ e.nodes ∧ d.standsAlone = true ∧ d.nesting + 3 ≤ stack.calls ∧
      parse stack "\x7b\x7ba[b ]\x7d\x7d".toList = .ok [.output ⟨0, 9⟩
        (.binary ⟨2, 7⟩ .subscript (.symbol ⟨2, 3⟩ ['a']) (.symbol ⟨4, 5⟩ ['b']))] ∧
      d.Ordered source := by
  intro stack source d e
  have hparse : parse stack source = .ok [.output ⟨0, 13⟩ e] := by
    subst stack source e d
    with_unfolding_all rfl
  have he : e ∈ Block.allTrees [.output ⟨0, 13⟩ e] := List.mem_cons_self
  have hd : d ∈ e.nodes := by simp [e, Expr.nodes]
  have hroom : d.nesting + 3 ≤ stack.calls := by decide
  have hcut :
      (Text.slice source d.start d.stop).braced = "\x7b\x7ba[b ]\x7d\x7d".toList := by decide
  obtain ⟨halone, hordered⟩ := spans_faithful hparse he hd
  rw [← hcut]
  exact ⟨hparse, he, hd, rfl, hroom, (halone rfl).1 hroom, hordered⟩

/-! ## Iterators that nest deeper than outputs -/

def negations : Nat → Expr
  | 0 => .symbol default ['a']
  | count + 1 => .unary default .not (negations count)

theorem words_negations (numeral : Float → Text) (count : Nat) :
    (negations count).words numeral =
      List.replicate count Token.Kind.notWord.word ++ [(.symbol, ['a'])] := by
  induction count with
  | zero => rfl
  | succ count ih => exact congrArg (_ :: ·) ih

theorem nesting_negations (count : Nat) : (negations count).nesting = count + 14 := by
  induction count with
  | zero => rfl
  | succ count ih =>
    rw [negations, Expr.nesting, ih]
    rfl

theorem wellLevelled_negations : ∀ count : Nat,
    (negations count).WellLevelled ∧ Level.not ≤ (negations count).level
  | 0 => ⟨trivial, by decide⟩
  | count + 1 => ⟨(wellLevelled_negations count).symm, Level.le_refl _⟩

theorem printable_negations (numeral : Float → Text) (count : Nat) :
    (negations count).Printable numeral := by
  induction count with
  | zero => exact Token.isName_letter rfl rfl
  | succ count ih => exact ih

def negationLoop (count : Nat) : List Draft :=
  [.forEach ['x'] (.group default (negations count)), .endFor]

theorem parse_negationLoop {stack : Stack} {count : Nat} (hcalls : count + 21 ≤ stack.calls) :
    ∃ e s x, parse stack (Draft.printAll .spaced 0 (negationLoop count)) =
      .ok [.loop s x e []] ∧ e.standsAlone = true ∧ e.nesting = count + 29 := by
  have hnesting : (Expr.group default (negations count)).nesting = count + 29 := by
    rw [Expr.nesting, nesting_negations]
  have hprintable : ∀ d ∈ negationLoop count, d.Printable stack Layout.spaced.numeral := by
    refine List.forall_mem_cons.mpr
      ⟨⟨Token.isName_letter rfl rfl, ?_⟩, List.forall_mem_singleton.mpr trivial⟩
    exact ⟨printable_negations _ count, (wellLevelled_negations count).1,
      (by decide : Level.postfixed ≤ .atom), by omega⟩
  have hscan := Draft.scanFrom_print .spaced (negationLoop count) 0 hprintable
    (by simp [negationLoop, Draft.Meets])
  have htrim : Text.trim (Draft.printAll .spaced 0 (negationLoop count)) ≠ [] :=
    Text.trim_ne_nil (c := '{') List.mem_cons_self (by decide)
  have hparse : parse stack (Draft.printAll .spaced 0 (negationLoop count)) =
      Block.build (Draft.printAll .spaced 0 (negationLoop count)) (stack.calls - 1)
        (Draft.placeAll .spaced 0 (negationLoop count)) := by
    rw [parse, if_neg (by simpa using htrim), Clause.scan_eq_scanFrom, hscan, ok_bind]
  obtain ⟨n, hn⟩ := stack.calls_eq
  rw [hn] at hparse
  exact ⟨(Expr.group default (negations count)).place .spaced 11, _, _, hparse, rfl,
    (Expr.nesting_place _ _ _).trans hnesting⟩

theorem write_spaced (o : Nat) (ws : List Token.Word) :
    Layout.spaced.write o ws = (ws.map fun w => ' ' :: w.2).flatten := by
  induction ws generalizing o with
  | nil => rfl
  | cons w ws ih =>
    rw [Layout.write, ih]
    rfl

theorem print_negationLoop (count : Nat) : Draft.printAll .spaced 0 (negationLoop count) =
    "\x7b% for x in (".toList ++ (List.replicate count " not".toList).flatten ++
      " a ) %\x7d\x7b% endfor %\x7d".toList := by
  simp only [negationLoop, Draft.printAll, Draft.print, write_spaced, Draft.words, Expr.words,
    words_negations, List.map_cons, List.map_append, List.map_replicate, List.flatten_cons,
    List.flatten_append, List.cons_append, List.append_assoc]
  rfl

/-- The iterator of a loop may nest where the same expression may not as an output. -/
theorem not_faithful_iterator :
    let stack : Stack := ⟨988, by decide⟩
    let source := "\x7b% for x in (".toList ++ (List.replicate 967 " not".toList).flatten ++
      " a ) %\x7d\x7b% endfor %\x7d".toList
    ∃ blocks, parse stack source = .ok blocks ∧ ∃ e ∈ Block.allTrees blocks, e.standsAlone = true ∧
      parse stack (Text.slice source e.start e.stop).braced =
        .error (.located .nestingTooDeep 0) := by
  intro stack source
  obtain ⟨e, s, x, hparse, halone, hnesting⟩ :=
    parse_negationLoop (show 967 + 21 ≤ stack.calls from Nat.le_refl _)
  rw [print_negationLoop] at hparse
  have he : e ∈ Block.allTrees [.loop s x e []] := by simp [Block.allTrees, Block.trees]
  obtain ⟨room, offset, ts, hl, -⟩ := located_of_mem hparse he
  refine ⟨_, hparse, e, he, halone, hl.parse_cut_tooDeep ?_⟩
  rw [hnesting]
  decide

end Stencil
