import Stencil.Proofs.Block.Nesting
import Stencil.Proofs.Clause.Tiling
import Stencil.Template

/-!
# Blocks tile the source

The blocks of a template cover its source from end to end. Inside a choice or a loop the arms and
the blocks follow each other in the same way, between the clause that opens it and the one that
closes it.
-/

namespace Stencil

theorem Span.Tile.last_stop {m n : Nat} {ss : List Span} (h : Tile m n ss) :
    (ss.getLast?.map Span.stop).getD m = n := by
  induction ss generalizing m with
  | nil => exact h
  | cons s ss ih =>
    obtain ⟨-, -, h⟩ := h
    rw [← ih h, List.getLast?_cons]
    cases ss.getLast? <;> rfl

theorem Text.mem_dropWhile_blank {t : Text} {c : Char} (hc : c ∈ t) (hb : isBlank c = false) :
    c ∈ t.dropWhile isBlank := by
  rw [← List.takeWhile_append_dropWhile (p := isBlank) (l := t)] at hc
  refine (List.mem_append.mp hc).resolve_left fun h => ?_
  rw [List.all_eq_true.mp List.all_takeWhile c h] at hb
  cases hb

theorem Text.trim_ne_nil {t : Text} {c : Char} (hc : c ∈ t) (hb : isBlank c = false) :
    trim t ≠ [] := by
  have hfront := mem_dropWhile_blank hc hb
  have hback := mem_dropWhile_blank (List.mem_reverse.mpr hfront) hb
  exact List.ne_nil_of_mem (List.mem_reverse.mpr hback)

/-- A template of one output is parsed by reading that output. -/
theorem parse_output {stack : Stack} {source rest : Text} {stop : Nat} {e : Expr}
    (hsource : source = '{' :: '{' :: rest) (hstop : stop = source.length)
    (h : Clause.readOutput stack 0 (Token.stream Clause.closes 2 rest) =
      .ok (.output ⟨0, stop⟩ e)) :
    parse stack source = .ok [.output ⟨0, stop⟩ e] := by
  subst hsource
  have hread : Clause.read stack 0 ('{' :: '{' :: rest ++ []) = .ok (.output ⟨0, stop⟩ e) := by
    rw [List.append_nil]
    exact h
  have hscan := Clause.scanFrom_cons (List.cons_ne_nil _ _) hread
    (hstop.trans (Nat.zero_add _).symm) (Clause.scanFrom_nil stop)
  have hne : (Text.trim ('{' :: '{' :: rest)).isEmpty = false :=
    List.isEmpty_eq_false_iff.mpr (Text.trim_ne_nil List.mem_cons_self (by decide))
  rw [List.append_nil] at hscan
  obtain ⟨n, hn⟩ := stack.calls_eq
  rw [parse, hne, if_neg (by decide), Clause.scan_eq_scanFrom, hscan, hn]
  rfl

theorem parse_output_error {stack : Stack} {source rest : Text} {r : Expr.Refusal}
    (hsource : source = '{' :: '{' :: rest)
    (h : Clause.readOutput stack 0 (Token.stream Clause.closes 2 rest) = .error r) :
    parse stack source = .error (Clause.blame 0 r) := by
  subst hsource
  have hread : Clause.read stack 0 ('{' :: '{' :: rest) = .error r := h
  have hne : (Text.trim ('{' :: '{' :: rest)).isEmpty = false :=
    List.isEmpty_eq_false_iff.mpr (Text.trim_ne_nil List.mem_cons_self (by decide))
  rw [parse, hne, if_neg (by decide), Clause.scan_eq_scanFrom, Clause.scanFrom, hread]
  rfl

namespace Block

open Clause (IsTag)

/-! ## Blocks between their clauses -/

section
variable (source : Text) (clauses : List Clause)

def Closed (closing : Span → Clause) (word : Text) (start stop : Nat) : Prop :=
  closing ⟨start, stop⟩ ∈ clauses ∧ IsTag word (source.slice start stop)

mutual

/-- A text is that of its span. The body of a loop, and the arms of a choice with their bodies,
tile what is between the clauses that open and close them. -/
def Tiled : Block → Prop
  | text s content => content = source.slice s.start s.stop
  | output .. => True
  | loop s x e body => ∃ opened closed, .forEach ⟨s.start, opened⟩ x e ∈ clauses ∧
      Span.Tile opened closed (body.map span) ∧ AllTiled body ∧
      Closed source clauses .endFor "endfor".toList closed s.stop
  | choice s arms => arms ≠ [] ∧ ∃ closed, Span.Tile s.start closed (arms.map Arm.span) ∧
      ArmsTiled .ifTest arms ∧ Closed source clauses .endIf "endif".toList closed s.stop
  | other .. => False

def AllTiled : List Block → Prop
  | [] => True
  | b :: bs => b.Tiled ∧ AllTiled bs

def ArmsTiled (opening : Span → Expr → Clause) : List Arm → Prop
  | [] => True
  | .mk s test body :: arms =>
    (∃ opened, test.elim (.otherwise ⟨s.start, opened⟩) (opening ⟨s.start, opened⟩) ∈ clauses ∧
      Span.Tile opened s.stop (body.map span)) ∧ AllTiled body ∧ ArmsTiled .elifTest arms

end

def Closing : Prop := ∀ s,
  (.endIf s ∈ clauses → IsTag "endif".toList (source.slice s.start s.stop)) ∧
  (.endFor s ∈ clauses → IsTag "endfor".toList (source.slice s.start s.stop))

end

theorem endOf_tile {opening : Clause} {body : List Block} {stop : Nat}
    (h : Span.Tile opening.stop stop (body.map span)) : endOf opening body = stop := by
  have hlast := h.last_stop
  rw [List.getLast?_map, Option.map_map] at hlast
  exact hlast

/-! ## What nests keeps tiling -/

section
variable {source : Text} {clauses : List Clause}

mutual

theorem Nests.tiled (hc : Closing source clauses) :
    ∀ {n cs bs}, Nests source n cs bs → (∀ c ∈ cs, c ∈ clauses) →
    ∀ {start stop}, Span.Tile start stop (cs.map Clause.span) →
      Span.Tile start stop (bs.map span) ∧ AllTiled source clauses bs
  | _, _, _, .nil, _, _, _, ht => ⟨ht, trivial⟩
  | _, _, _, .text h, hm, _, _, ⟨hstart, hlt, ht⟩ => by
    obtain ⟨-, hm⟩ := List.forall_mem_cons.mp hm
    obtain ⟨hbs, htiled⟩ := h.tiled hc hm ht
    exact ⟨⟨hstart, hlt, hbs⟩, rfl, htiled⟩
  | _, _, _, .output h, hm, _, _, ⟨hstart, hlt, ht⟩ => by
    obtain ⟨-, hm⟩ := List.forall_mem_cons.mp hm
    obtain ⟨hbs, htiled⟩ := h.tiled hc hm ht
    exact ⟨⟨hstart, hlt, hbs⟩, trivial, htiled⟩
  | _, _, _, @Nests.loop _ n s x e c inner body cs bs h hs, hm, _, _, ⟨hstart, hlt, ht⟩ => by
    obtain ⟨hopen, hm⟩ := List.forall_mem_cons.mp hm
    obtain ⟨hinner, hm⟩ := List.forall_mem_append.mp hm
    obtain ⟨hclose, hcs⟩ := List.forall_mem_cons.mp hm
    rw [List.map_append, Span.Tile.append] at ht
    -- the opening clause, the body and the closing clause lie end to end
    obtain ⟨closed, htinner, hcstart, hclt, htcs⟩ := ht
    obtain ⟨hbody, hbtiled⟩ := h.tiled hc hinner htinner
    obtain ⟨hbs, htiled⟩ := hs.tiled hc hcs htcs
    obtain rfl : c.start = closed := hcstart
    refine ⟨⟨hstart, ?_, hbs⟩, ⟨s.stop, c.start, hopen, hbody, hbtiled, hclose, ?_⟩, htiled⟩
    · exact Nat.lt_trans (Nat.lt_of_lt_of_le hlt htinner.le) hclt
    · exact (hc c).2 hclose
  | _, _, _, @Nests.choice _ n s t c first body more arms cs bs h ha hs, hm, _, _,
      ⟨hstart, hlt, ht⟩ => by
    obtain ⟨hopen, hm⟩ := List.forall_mem_cons.mp hm
    obtain ⟨hfirst, hm⟩ := List.forall_mem_append.mp hm
    obtain ⟨hmore, hm⟩ := List.forall_mem_append.mp hm
    obtain ⟨hclose, hcs⟩ := List.forall_mem_cons.mp hm
    rw [List.map_append, Span.Tile.append] at ht
    obtain ⟨last, htfirst, ht⟩ := ht
    rw [List.map_append, Span.Tile.append] at ht
    obtain ⟨closed, htmore, hcstart, hclt, htcs⟩ := ht
    obtain ⟨hbody, hbtiled⟩ := h.tiled hc hfirst htfirst
    obtain ⟨harms, hatiled⟩ := ha.tiled hc hmore htmore
    obtain ⟨hbs, htiled⟩ := hs.tiled hc hcs htcs
    obtain rfl : c.start = closed := hcstart
    -- an arm ends where its body does
    have hend : endOf (.ifTest s t) body = last := endOf_tile hbody
    have harm : s.start < last := Nat.lt_of_lt_of_le hlt htfirst.le
    rw [hend]
    refine ⟨⟨hstart, ?_, hbs⟩, ⟨List.cons_ne_nil _ _, c.start, ⟨rfl, harm, harms⟩,
      ⟨⟨s.stop, hopen, hbody⟩, hbtiled, hatiled⟩, hclose, ?_⟩, htiled⟩
    · exact Nat.lt_trans (Nat.lt_of_lt_of_le harm htmore.le) hclt
    · exact (hc c).1 hclose

theorem NestsArms.tiled (hc : Closing source clauses) : ∀ {n cs arms},
    NestsArms source n cs arms → (∀ c ∈ cs, c ∈ clauses) →
      ∀ {start stop}, Span.Tile start stop (cs.map Clause.span) →
      Span.Tile start stop (arms.map Arm.span) ∧ ArmsTiled source clauses .elifTest arms
  | _, _, _, .nil, _, _, _, ht => ⟨ht, trivial⟩
  | _, _, _, @NestsArms.otherwise _ n s inner body h, hm, _, _, ⟨hstart, hlt, ht⟩ => by
    obtain ⟨hopen, hinner⟩ := List.forall_mem_cons.mp hm
    obtain ⟨hbody, hbtiled⟩ := h.tiled hc hinner ht
    rw [show endOf (.otherwise s) body = _ from endOf_tile hbody]
    exact ⟨⟨hstart, Nat.lt_of_lt_of_le hlt ht.le, rfl⟩, ⟨s.stop, hopen, hbody⟩, hbtiled, trivial⟩
  | _, _, _, @NestsArms.elifTest _ n s t inner body more arms h ha, hm, _, _,
      ⟨hstart, hlt, ht⟩ => by
    obtain ⟨hopen, hm⟩ := List.forall_mem_cons.mp hm
    obtain ⟨hinner, hmore⟩ := List.forall_mem_append.mp hm
    rw [List.map_append, Span.Tile.append] at ht
    obtain ⟨last, htinner, htmore⟩ := ht
    obtain ⟨hbody, hbtiled⟩ := h.tiled hc hinner htinner
    obtain ⟨harms, hatiled⟩ := ha.tiled hc hmore htmore
    rw [show endOf (.elifTest s t) body = last from endOf_tile hbody]
    exact ⟨⟨hstart, Nat.lt_of_lt_of_le hlt htinner.le, harms⟩, ⟨s.stop, hopen, hbody⟩, hbtiled,
      hatiled⟩

end

end

/-! ## Templates -/

theorem closing_scan {stack : Stack} {source : Text} {clauses : List Clause}
    (h : Clause.scan stack source = .ok clauses) : Closing source clauses := by
  refine fun s => ⟨fun hs => ?_, fun hs => ?_⟩
  · obtain ⟨o, hlt, hread⟩ := Clause.read_of_mem_scan h hs
    refine Clause.tag_of_read hlt hread rfl fun ts hr => ?_
    cases hr with
    | endIf hk hd => exact ⟨_, _, rfl, by rw [hk]; rfl, hd⟩
  · obtain ⟨o, hlt, hread⟩ := Clause.read_of_mem_scan h hs
    refine Clause.tag_of_read hlt hread rfl fun ts hr => ?_
    cases hr with
    | endFor hk hd => exact ⟨_, _, rfl, by rw [hk]; rfl, hd⟩

end Block

/-- **Spans tile the source.** The clauses of a scan cover the source, no two runs of text in a row,
and so do the blocks of a template that is not blank, and in them the arms and the bodies. -/
theorem parse_tiles (stack : Stack) (source : Text) :
    (∀ clauses, Clause.scan stack source = .ok clauses →
      Span.Tile 0 source.length (clauses.map Clause.span) ∧
      (clauses.IsChain fun c d => ¬ (c.isText = true ∧ d.isText = true)) ∧
      ∀ s, .text s ∈ clauses → Draft.IsRun (source.slice s.start s.stop)) ∧
    ∀ blocks, (∃ c ∈ source, Text.isBlank c = false) → parse stack source = .ok blocks →
      ∃ clauses, Clause.scan stack source = .ok clauses ∧
        Span.Tile 0 source.length (blocks.map Block.span) ∧
        Block.AllTiled source clauses blocks := by
  have hscan {clauses} (h : Clause.scan stack source = .ok clauses) :
      Clause.scanFrom stack 0 (source.drop 0) = .ok clauses :=
    (Clause.scan_eq_scanFrom stack source).symm.trans h
  refine ⟨fun clauses h => ⟨?_, ?_, ?_⟩, fun blocks ⟨c, hc, hb⟩ h => ?_⟩
  · exact Clause.tile_scanFrom (Nat.zero_le _) (hscan h)
  · exact Clause.alternate_scanFrom (Nat.zero_le _) (hscan h)
  · intro s hs
    obtain ⟨o, hlt, hread⟩ := Clause.read_of_mem_scan h hs
    exact (Clause.run_of_read hlt hread).1
  · have hne : (Text.trim source).isEmpty = false := by
      rw [List.isEmpty_eq_false_iff]
      exact Text.trim_ne_nil hc hb
    rw [parse, hne, if_neg (by decide)] at h
    obtain ⟨clauses, hclauses, hbuild⟩ := bind_eq_ok.mp h
    obtain ⟨_, -, hn⟩ := Block.build_eq_ok_iff.mp hbuild
    have ht := Clause.tile_scanFrom (Nat.zero_le _) (hscan hclauses)
    obtain ⟨hblocks, htiled⟩ := hn.tiled (Block.closing_scan hclauses) (fun _ hm => hm) ht
    exact ⟨clauses, hclauses, hblocks, htiled⟩

theorem parse_tiles_choice :
    let source := "\x7b% if x %\x7db\x7b% endif %\x7d".toList
    let x : Expr := .symbol ⟨6, 7⟩ ['x']
    let clauses : List Clause := [.ifTest ⟨0, 10⟩ x, .text ⟨10, 11⟩, .endIf ⟨11, 22⟩]
    let blocks : List Block := [.choice ⟨0, 22⟩ [.mk ⟨0, 11⟩ (some x) [.text ⟨10, 11⟩ ['b']]]]
    parse .least source = .ok blocks ∧ Clause.scan .least source = .ok clauses ∧
      Span.Tile 0 22 (clauses.map Clause.span) ∧ Draft.IsRun (Text.slice source 10 11) ∧
      Span.Tile 0 22 (blocks.map Block.span) ∧ Block.AllTiled source clauses blocks := by
  intro source x clauses blocks
  have hscan : Clause.scan .least source = .ok clauses := by
    subst clauses x source
    with_unfolding_all rfl
  have hparse : parse .least source = .ok blocks := by
    subst blocks x source
    with_unfolding_all rfl
  obtain ⟨hscanned, hparsed⟩ := parse_tiles .least source
  obtain ⟨htile, -, hrun⟩ := hscanned clauses hscan
  obtain ⟨others, hothers, hblocks, htiled⟩ := hparsed blocks ⟨'b', by decide, by decide⟩ hparse
  obtain rfl : clauses = others := Except.ok.inj (hscan.symm.trans hothers)
  exact ⟨hparse, hscan, htile, hrun ⟨10, 11⟩ (by simp [clauses]), hblocks, htiled⟩

end Stencil
