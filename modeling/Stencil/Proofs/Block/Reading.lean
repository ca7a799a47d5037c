import Stencil.Proofs.Block.Tiling
import Stencil.Proofs.Expr.Spans
import Stencil.Proofs.Render.Faults

/-!
# The trees of a template

Outputs, tests and iterators are expressions, and so is the variable of a loop: a name. Each of them
is read from tokens of the source that follow each other, up to the delimiter that closes its
clause.
-/

namespace Stencil

open Token (lastStop follows_append)

/-! ## Trees -/

/-- The expression of a clause, and the variable of a loop as an expression. -/
def Clause.trees : Clause → List Expr
  | output _ e | ifTest _ e | elifTest _ e => [e]
  | forEach _ x e => [.symbol x.span x.name, e]
  | _ => []

namespace Block

mutual

def trees : Block → List Expr
  | text .. | other .. => []
  | output _ e => [e]
  | loop _ x iterator body => .symbol x.span x.name :: iterator :: allTrees body
  | choice _ arms => armTrees arms

def allTrees : List Block → List Expr
  | [] => []
  | b :: bs => b.trees ++ allTrees bs

def armTrees : List Arm → List Expr
  | [] => []
  | .mk _ test body :: arms => test.toList ++ (allTrees body ++ armTrees arms)

end

mutual

theorem expressions_sublist : ∀ b : Block, b.expressions.Sublist b.trees
  | text .. | other .. | output _ _ => .refl _
  | loop _ _ iterator body => .cons _ ((allExpressions_sublist body).cons_cons iterator)
  | choice _ arms => armExpressions_sublist arms

theorem allExpressions_sublist : ∀ bs, (allExpressions bs).Sublist (allTrees bs)
  | [] => .refl _
  | b :: bs => (expressions_sublist b).append (allExpressions_sublist bs)

theorem armExpressions_sublist : ∀ arms, (armExpressions arms).Sublist (armTrees arms)
  | [] => .refl _
  | .mk _ test body :: arms =>
    (List.Sublist.refl test.toList).append
      ((allExpressions_sublist body).append (armExpressions_sublist arms))

end

section
variable {source : Text}

mutual

theorem Nests.trees_eq : ∀ {n cs bs}, Nests source n cs bs → allTrees bs = cs.flatMap Clause.trees
  | _, _, _, .nil => rfl
  | _, _, _, .text h => h.trees_eq
  | _, _, _, .output h => congrArg (_ :: ·) h.trees_eq
  | _, _, _, .choice h ha hs => by
    simp [allTrees, trees, armTrees, h.trees_eq, ha.trees_eq, hs.trees_eq, Clause.trees]
  | _, _, _, .loop h hs => by
    simp [allTrees, trees, h.trees_eq, hs.trees_eq, Clause.trees]

theorem NestsArms.trees_eq : ∀ {n cs arms}, NestsArms source n cs arms →
    armTrees arms = cs.flatMap Clause.trees
  | _, _, _, .nil => rfl
  | _, _, _, .otherwise h => by simp [armTrees, h.trees_eq, Clause.trees]
  | _, _, _, .elifTest h ha => by simp [armTrees, h.trees_eq, ha.trees_eq, Clause.trees]

end

end

end Block

/-! ## Where they are read -/

/-- The tree is read from the tokens at `offset` with some room for calls, and more of the source
comes after them. -/
structure Expr.Located (room : Nat) (source : Text) (e : Expr) (offset : Nat) (ts : List Token) :
    Prop where
  after : 2 ≤ offset
  follows : Token.Follows source offset ts
  phrase : Phrase room .piped e ts
  more : lastStop offset ts < source.length

variable {stack : Stack} {source : Text}

/-- The iterator of a loop may be read with more room than an output has; nothing else is. -/
theorem Clause.Phrased.tree {start : Nat} {c : Clause} {ts : List Token}
    (h : Phrased stack start c ts) {e : Expr} (he : e ∈ c.trees) :
    ∃ room before es between last, ts = before ++ (es ++ (between ++ [last])) ∧
      closes last.kind = true ∧ Expr.Phrase room .piped e es ∧
      (room + 3 ≤ stack.calls ∨ ∃ s x, c = .forEach s x e) := by
  obtain ⟨hr, hw, hf, hs⟩ := h
  have henough : 18 ≤ stack.calls := stack.enough
  cases hr with
  | @output c d ts hc hd =>
    obtain rfl := List.mem_singleton.mp he
    refine ⟨stack.calls - 3, [], ts, [], c, rfl, by rw [hc]; rfl, ?_, .inl (by omega)⟩
    exact ⟨hd, (hw _ _ rfl).1, Level.piped_le _, hf _ _ rfl, (Expr.Short.append.mp hs).1⟩
  | @ifTest k c d ts hk hc hd | @elifTest k c d ts hk hc hd =>
    obtain rfl := List.mem_singleton.mp he
    refine ⟨stack.calls - 4, [k], ts, [], c, rfl, by rw [hc]; rfl, ?_, .inl (by omega)⟩
    exact ⟨hd, (hw _ _ rfl).1, Level.piped_le _, hf _ _ rfl, (Expr.Short.append.mp hs.cons).1⟩
  | @forEach k x i c d ts hk hx hi hc hd =>
    have hclose : closes c.kind = true := by rw [hc]; rfl
    rcases List.mem_cons.mp he with rfl | he
    · refine ⟨14, [k], [x], i :: ts, c, rfl, hclose, ?_, .inl (by omega)⟩
      exact ⟨.symbol hx, trivial, Level.piped_le _, Nat.le_refl _,
        Expr.short_of_kind hx (by decide)⟩
    · obtain rfl := List.mem_singleton.mp he
      refine ⟨stack.calls + 8, [k, x, i], ts, [], c, rfl, hclose, ?_, .inr ⟨_, _, rfl⟩⟩
      exact ⟨hd, (hw _ _ rfl).1, Level.piped_le _, hf _ _ rfl,
        (Expr.Short.append.mp hs.cons.cons.cons).1⟩
  | otherwise | endIf | endFor => cases he

theorem located_of_read {o : Nat} {c : Clause} (hlt : o < source.length)
    (h : Clause.read stack o (source.drop o) = .ok c) {e : Expr} (he : e ∈ c.trees) :
    ∃ room offset ts, e.Located room source offset ts ∧
      (room + 3 ≤ stack.calls ∨ ∃ s x, c = .forEach s x e) := by
  rcases Clause.read_sound hlt h with ⟨rfl, -⟩ | ⟨ts, rest, hts, hp⟩
  · cases he
  obtain ⟨room, before, es, between, last, rfl, hlast, hphrase, hroom⟩ := hp.tree he
  have hf := Token.follows_stream Clause.closes source (o + 2)
  rw [hts] at hf
  obtain ⟨hbefore, hf⟩ := follows_append.mp (follows_append.mp hf).1
  obtain ⟨hes, hclosing⟩ := follows_append.mp hf
  refine ⟨room, _, es, ⟨?_, hes, hphrase, ?_⟩, hroom⟩
  · exact Nat.le_trans (Nat.le_add_left 2 o) hbefore.le_lastStop
  · obtain ⟨o', ho', rfl⟩ := hclosing.exists_offset last (by simp)
    obtain ⟨hstart, hstop⟩ := Token.atOffset_bounds (Clause.valid_of_closes hlast)
    have := Token.le_start_atOffset source o'
    omega

theorem located_of_mem {blocks : List Block} (h : parse stack source = .ok blocks) {e : Expr}
    (he : e ∈ Block.allTrees blocks) : ∃ room offset ts, e.Located room source offset ts ∧
      (room + 3 ≤ stack.calls ∨
        ∃ clauses s x, Clause.scan stack source = .ok clauses ∧ .forEach s x e ∈ clauses) := by
  unfold parse at h
  split at h
  · cases h
    cases he
  · obtain ⟨clauses, hscan, hbuild⟩ := bind_eq_ok.mp h
    obtain ⟨_, -, hn⟩ := Block.build_eq_ok_iff.mp hbuild
    rw [hn.trees_eq] at he
    obtain ⟨c, hc, he⟩ := List.mem_flatMap.mp he
    obtain ⟨o, hlt, hread⟩ := Clause.read_of_mem_scan hscan hc
    obtain ⟨room, offset, ts, hl, hroom⟩ := located_of_read hlt hread he
    refine ⟨room, offset, ts, hl, hroom.imp_right ?_⟩
    rintro ⟨s, x, rfl⟩
    exact ⟨clauses, s, x, hscan, hc⟩

end Stencil
