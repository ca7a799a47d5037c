import Stencil.Block.Build

/-!
# The grammar of blocks

`Balanced n cs` says which lists of clauses nest in a body that `n` calls may follow, and `Nests`
relates them to the blocks that they nest to. Blocks are flattened to clauses again; `Formed` blocks
are those that some clauses nest to. The body of an arm is three calls further down than the body
around the choice, and the body of a loop two.
-/

namespace Stencil

namespace Block

/-! ## Lists of clauses that nest -/

mutual

inductive Balanced : Nat → List Clause → Prop
  | nil {n} : Balanced n []
  | text {n s cs} : Balanced n cs → Balanced n (.text s :: cs)
  | output {n s e cs} : Balanced n cs → Balanced n (.output s e :: cs)
  | choice {n s t c first arms cs} : Balanced n first → BalancedArms n arms →
      Balanced (n + 3) cs →
      Balanced (n + 3) (.ifTest s t :: (first ++ (arms ++ .endIf c :: cs)))
  | loop {n s x e c body cs} : Balanced n body → Balanced (n + 2) cs →
      Balanced (n + 2) (.forEach s x e :: (body ++ .endFor c :: cs))

inductive BalancedArms : Nat → List Clause → Prop
  | nil {n} : BalancedArms n []
  | otherwise {n s body} : Balanced n body → BalancedArms n (.otherwise s :: body)
  | elifTest {n s t body arms} : Balanced n body → BalancedArms n arms →
      BalancedArms n (.elifTest s t :: (body ++ arms))

end

/-! ## Clauses and the blocks that they nest to -/

section
variable (source : Text)

mutual

inductive Nests : Nat → List Clause → List Block → Prop
  | nil {n} : Nests n [] []
  | text {n s cs bs} : Nests n cs bs →
      Nests n (.text s :: cs) (.text s (source.slice s.start s.stop) :: bs)
  | output {n s e cs bs} : Nests n cs bs → Nests n (.output s e :: cs) (.output s e :: bs)
  | choice {n s t c first body more arms cs bs} : Nests n first body →
      NestsArms n more arms → Nests (n + 3) cs bs →
      Nests (n + 3) (.ifTest s t :: (first ++ (more ++ .endIf c :: cs)))
        (.choice ⟨s.start, c.stop⟩
          (.mk ⟨s.start, endOf (.ifTest s t) body⟩ (some t) body :: arms) :: bs)
  | loop {n s x e c inner body cs bs} : Nests n inner body → Nests (n + 2) cs bs →
      Nests (n + 2) (.forEach s x e :: (inner ++ .endFor c :: cs))
        (.loop ⟨s.start, c.stop⟩ x e body :: bs)

inductive NestsArms : Nat → List Clause → List Arm → Prop
  | nil {n} : NestsArms n [] []
  | otherwise {n s inner body} : Nests n inner body →
      NestsArms n (.otherwise s :: inner) [.mk ⟨s.start, endOf (.otherwise s) body⟩ none body]
  | elifTest {n s t inner body more arms} : Nests n inner body → NestsArms n more arms →
      NestsArms n (.elifTest s t :: (inner ++ more))
        (.mk ⟨s.start, endOf (.elifTest s t) body⟩ (some t) body :: arms)

end

end

section
variable {source : Text}

mutual

theorem Nests.balanced : ∀ {n cs bs}, Nests source n cs bs → Balanced n cs
  | _, _, _, .nil => .nil
  | _, _, _, .text h => .text h.balanced
  | _, _, _, .output h => .output h.balanced
  | _, _, _, .choice h ha hs => .choice h.balanced ha.balanced hs.balanced
  | _, _, _, .loop h hs => .loop h.balanced hs.balanced

theorem NestsArms.balanced : ∀ {n cs arms}, NestsArms source n cs arms → BalancedArms n cs
  | _, _, _, .nil => .nil
  | _, _, _, .otherwise h => .otherwise h.balanced
  | _, _, _, .elifTest h ha => .elifTest h.balanced ha.balanced

end

mutual

theorem Balanced.nests : ∀ {n cs}, Balanced n cs → ∃ bs, Nests source n cs bs
  | _, _, .nil => ⟨_, .nil⟩
  | _, _, .text h => let ⟨_, hb⟩ := h.nests; ⟨_, .text hb⟩
  | _, _, .output h => let ⟨_, hb⟩ := h.nests; ⟨_, .output hb⟩
  | _, _, .choice h ha hs =>
    let ⟨_, hb⟩ := h.nests
    let ⟨_, harms⟩ := ha.nests
    let ⟨_, hbs⟩ := hs.nests
    ⟨_, .choice hb harms hbs⟩
  | _, _, .loop h hs =>
    let ⟨_, hb⟩ := h.nests
    let ⟨_, hbs⟩ := hs.nests
    ⟨_, .loop hb hbs⟩

theorem BalancedArms.nests : ∀ {n cs}, BalancedArms n cs → ∃ arms, NestsArms source n cs arms
  | _, _, .nil => ⟨_, .nil⟩
  | _, _, .otherwise h => let ⟨_, hb⟩ := h.nests; ⟨_, .otherwise hb⟩
  | _, _, .elifTest h ha =>
    let ⟨_, hb⟩ := h.nests
    let ⟨_, harms⟩ := ha.nests
    ⟨_, .elifTest hb harms⟩

end

end

end Block

/-! ## Flattening -/

/-- A clause without what blocks do not keep of its span: where an opening clause ends, and where a
closing one starts. -/
def Clause.kept : Clause → Clause
  | ifTest s t => ifTest ⟨s.start, 0⟩ t
  | elifTest s t => elifTest ⟨s.start, 0⟩ t
  | otherwise s => otherwise ⟨s.start, 0⟩
  | forEach s x e => forEach ⟨s.start, 0⟩ x e
  | endIf s => endIf ⟨0, s.stop⟩
  | endFor s => endFor ⟨0, s.stop⟩
  | c => c

namespace Block

mutual

/-- The clauses of a block; opening and closing clauses have the span of what they belong to. -/
def clauses : Block → List Clause
  | text s _ => [.text s]
  | output s e => [.output s e]
  | loop s x e body => .forEach s x e :: (flatten body ++ [.endFor s])
  | choice s arms => firstClauses arms ++ [.endIf s]
  | other s sort => [.other s sort]

def flatten : List Block → List Clause
  | [] => []
  | b :: bs => b.clauses ++ flatten bs

def firstClauses : List Arm → List Clause
  | [] => []
  | .mk s (some t) body :: arms => .ifTest s t :: (flatten body ++ armClauses arms)
  | .mk s none body :: arms => .otherwise s :: (flatten body ++ armClauses arms)

def armClauses : List Arm → List Clause
  | [] => []
  | .mk s (some t) body :: arms => .elifTest s t :: (flatten body ++ armClauses arms)
  | .mk s none body :: arms => .otherwise s :: (flatten body ++ armClauses arms)

end

section
variable {source : Text}

mutual

/-- Nothing is lost, doubled or moved. -/
theorem Nests.flatten_kept : ∀ {n cs bs}, Nests source n cs bs →
    (flatten bs).map Clause.kept = cs.map Clause.kept
  | _, _, _, .nil => rfl
  | _, _, _, .text h => congrArg (_ :: ·) h.flatten_kept
  | _, _, _, .output h => congrArg (_ :: ·) h.flatten_kept
  | _, _, _, .choice h ha hs => by
    simp only [flatten, clauses, firstClauses, List.map_append, List.map_cons, h.flatten_kept,
      ha.flatten_kept, hs.flatten_kept, List.cons_append, List.append_assoc, Clause.kept]
    rfl
  | _, _, _, .loop h hs => by
    simp only [flatten, clauses, List.map_append, List.map_cons, h.flatten_kept,
      hs.flatten_kept, List.cons_append, List.append_assoc, Clause.kept]
    rfl

theorem NestsArms.flatten_kept : ∀ {n cs arms}, NestsArms source n cs arms →
    (armClauses arms).map Clause.kept = cs.map Clause.kept
  | _, _, _, .nil => rfl
  | _, _, _, .otherwise h => by
    simp only [armClauses, List.map_cons, List.append_nil, h.flatten_kept, Clause.kept]
  | _, _, _, .elifTest h ha => by
    simp only [armClauses, List.map_append, List.map_cons, h.flatten_kept, ha.flatten_kept,
      Clause.kept]

end

end

/-! ## Blocks that clauses nest to -/

def Ended (s : Span) (body : List Block) : Prop := ∀ b ∈ body.getLast?, s.stop = b.stop

section
variable (source : Text)

mutual

/-- The block holds what the clauses that it is made of say: the text of its span, and arms that
begin with a test and have no test at most in the last place. It fits into a body like that. -/
def Formed : Block → Nat → Prop
  | text s content, _ => content = source.slice s.start s.stop
  | output .., _ => True
  | loop _ _ _ body, n => 2 ≤ n ∧ AllFormed body (n - 2)
  | choice s arms, n => 3 ≤ n ∧ FirstFormed s arms (n - 3)
  | other .., _ => False

def AllFormed : List Block → Nat → Prop
  | [], _ => True
  | b :: bs, n => b.Formed n ∧ AllFormed bs n

def FirstFormed (span : Span) : List Arm → Nat → Prop
  | .mk s (some _) body :: arms, n =>
    s.start = span.start ∧ Ended s body ∧ AllFormed body n ∧ ArmsFormed arms n
  | _, _ => False

def ArmsFormed : List Arm → Nat → Prop
  | [], _ => True
  | .mk s (some _) body :: arms, n => Ended s body ∧ AllFormed body n ∧ ArmsFormed arms n
  | .mk s none body :: arms, n => Ended s body ∧ AllFormed body n ∧ arms = []

end

end

theorem ended_endOf (opening : Clause) (start : Nat) (body : List Block) :
    Ended ⟨start, endOf opening body⟩ body := by
  intro b hb
  rw [Option.mem_def] at hb
  simp only [endOf, hb, Option.map_some, Option.getD_some]

theorem Ended.span_eq {s : Span} {body : List Block} {opening : Clause} (h : Ended s body)
    (hs : opening.stop = s.stop) : (⟨s.start, endOf opening body⟩ : Span) = s := by
  suffices endOf opening body = s.stop by rw [this]
  unfold endOf
  cases hb : body.getLast? with
  | none => exact hs
  | some b => exact (h b hb).symm

section
variable {source : Text}

mutual

theorem Nests.formed : ∀ {n cs bs}, Nests source n cs bs → AllFormed source bs n
  | _, _, _, .nil => trivial
  | _, _, _, .text h => ⟨rfl, h.formed⟩
  | _, _, _, .output h => ⟨trivial, h.formed⟩
  | _, _, _, .choice h ha hs =>
    ⟨⟨Nat.le_add_left _ _, rfl, ended_endOf _ _ _, h.formed, ha.formed⟩, hs.formed⟩
  | _, _, _, .loop h hs => ⟨⟨Nat.le_add_left _ _, h.formed⟩, hs.formed⟩

theorem NestsArms.formed : ∀ {n cs arms}, NestsArms source n cs arms → ArmsFormed source arms n
  | _, _, _, .nil => trivial
  | _, _, _, .otherwise h => ⟨ended_endOf _ _ _, h.formed, rfl⟩
  | _, _, _, .elifTest h ha => ⟨ended_endOf _ _ _, h.formed, ha.formed⟩

end

mutual

theorem AllFormed.nests : ∀ {bs n}, AllFormed source bs n → Nests source n (flatten bs) bs
  | [], _, _ => .nil
  | .text s _ :: _, _, ⟨rfl, hs⟩ => .text hs.nests
  | .output .. :: _, _, ⟨_, hs⟩ => .output hs.nests
  | .loop s x e body :: bs, n + 2, ⟨⟨_, hb⟩, hs⟩ => by
    have := Nests.loop (n := n) (s := s) (x := x) (e := e) (c := s) hb.nests hs.nests
    simpa only [flatten, clauses, List.cons_append, List.append_assoc, List.nil_append] using this
  | .choice span (.mk s (some t) body :: arms) :: bs, n + 3, ⟨⟨_, hstart, hend, hb, ha⟩, hs⟩ => by
    have := Nests.choice (n := n) (s := s) (t := t) (c := span) hb.nests ha.nests hs.nests
    rw [hend.span_eq rfl, hstart] at this
    simpa only [flatten, clauses, firstClauses, List.cons_append, List.append_assoc,
      List.nil_append] using this

theorem ArmsFormed.nests : ∀ {arms n}, ArmsFormed source arms n →
    NestsArms source n (armClauses arms) arms
  | [], _, _ => .nil
  | .mk s (some t) body :: arms, n, ⟨hend, hb, ha⟩ => by
    have := NestsArms.elifTest (s := s) (t := t) hb.nests ha.nests
    rwa [hend.span_eq rfl] at this
  | .mk s none body :: _, n, ⟨hend, hb, rfl⟩ => by
    have := NestsArms.otherwise (s := s) hb.nests
    rw [hend.span_eq rfl] at this
    simpa only [armClauses, List.append_nil] using this

end

end

end Block

end Stencil
