import Stencil.Proofs.Expr.Nodes
import Stencil.Proofs.Expr.Results
import Stencil.Proofs.Expr.Spine

/-!
# Where evaluation fails

The evaluation of a well-levelled tree comes to a value, or to an error that names the start of a
node: of the left operand of an operator on values, of the operand of a sign, or of what a value is
piped into. No node is one that cannot be evaluated where it stands.
-/

namespace Stencil

def RenderFault.place? : RenderFault → Option (RenderKind × Nat)
  | located kind offset => some (kind, offset)
  | filterFailed offset _ => some (.filterCallFailed, offset)
  | malformed _ | overlong | numeralTooLong | exhausted => none

def BinaryOp.onValues : BinaryOp → Bool
  | arithmetic _ | comparison _ => true
  | _ => false

namespace Expr

inductive Blames (e : Expr) : RenderKind → Nat → Prop
  | operands {kind s op left right} : binary s op left right ∈ e.nodes → op.onValues = true →
      kind = .unsupportedOperation ∨ kind = .dividedByZero → Blames e kind left.start
  | operand {s op inner} : unary s op inner ∈ e.nodes → op ≠ .not →
      Blames e .unsupportedOperation inner.start
  | filter {kind s left right} : binary s .pipe left right ∈ e.nodes →
      kind = .unsupportedFilter ∨ kind = .filterCallFailed → Blames e kind right.start

theorem Blames.exists_start {e : Expr} {kind : RenderKind} {offset : Nat}
    (h : e.Blames kind offset) : ∃ n ∈ e.nodes, offset = n.start := by
  cases h with
  | @operands _ s op left right hn _ _ =>
    exact ⟨left, nodes_subset hn (by simp [nodes]), rfl⟩
  | @operand s op inner hn _ =>
    exact ⟨inner, nodes_subset hn (by simp [nodes]), rfl⟩
  | @filter _ s left right hn _ =>
    exact ⟨right, nodes_subset hn (by simp [nodes]), rfl⟩

def Raises (e : Expr) (f : RenderFault) : Prop :=
  ∃ kind offset, f.place? = some (kind, offset) ∧ e.Blames kind offset

theorem Raises.mono {d e : Expr} {f : RenderFault} (h : d.Raises f) (hd : d ∈ e.nodes) :
    e.Raises f := by
  obtain ⟨kind, offset, hf, hb⟩ := h
  have hsub := nodes_subset hd
  refine ⟨kind, offset, hf, ?_⟩
  cases hb with
  | operands hn hop hk => exact .operands (hsub hn) hop hk
  | operand hn hop => exact .operand (hsub hn) hop
  | filter hn hk => exact .filter (hsub hn) hk

/-! ## Computations that fail in certain ways only -/

def Only {α : Type} (P : RenderFault → Prop) (x : Except Stop α) : Prop :=
  ∀ f, x = .error (.fault f) → P f

section
variable {α β : Type} {P Q : RenderFault → Prop}

theorem only_ok (a : α) : Only P (.ok a) := nofun

theorem only_pure (a : α) : Only P (pure a) := nofun

theorem Only.mono {x : Except Stop α} (h : Only P x) (hPQ : ∀ f, P f → Q f) : Only Q x :=
  fun f hf => hPQ f (h f hf)

theorem Only.bind_given {x : Except Stop α} {g : α → Except Stop β} (hx : Only P x)
    (hg : ∀ a, x = .ok a → Only P (g a)) : Only P (x >>= g) := by
  intro f hf
  cases x with
  | error stop => exact hx f (congrArg Except.error (Except.error.inj hf))
  | ok a => exact hg a rfl f hf

theorem Only.bind {x : Except Stop α} {g : α → Except Stop β} (hx : Only P x)
    (hg : ∀ a, Only P (g a)) : Only P (x >>= g) :=
  hx.bind_given fun a _ => hg a

end

/-! ## Operators on values -/

section
variable {P : RenderFault → Prop} {offset : Nat}

theorem only_failAt {α : Type} {kind : RenderKind} (h : P (.located kind offset)) :
    Only P (failAt kind offset : Except Stop α) := by
  intro f hf
  obtain rfl := Stop.fault.inj (Except.error.inj hf)
  exact h

theorem only_applyUnary {op : UnaryOp} (h : op ≠ .not → P (.located .unsupportedOperation offset))
    (v : Value) : Only P (applyUnary op offset v) := by
  by_cases hop : op = .not
  · rw [hop]
    exact only_ok _
  have hfail : Only P (failAt .unsupportedOperation offset : Result) := only_failAt (h hop)
  unfold applyUnary
  split <;> first | exact only_ok _ | exact hfail

theorem only_shown (h : P .numeralTooLong) (v : Except Host.DisplayFault Value) :
    Only P (shown v) := by
  intro f hf
  cases v with
  | ok v => cases hf
  | error fault =>
    cases fault with
    | tooDeep => cases hf
    | numeralTooLong =>
      obtain rfl := Stop.fault.inj (Except.error.inj hf)
      exact h

theorem only_applySubscript (hoverlong : P .overlong) (hnumeral : P .numeralTooLong) (calls : Nat)
    (target key : Value) : Only P (applySubscript calls target key) := by
  unfold applySubscript
  split
  · intro f hf
    obtain rfl := Stop.fault.inj (Except.error.inj hf)
    exact hoverlong
  · exact only_shown hnumeral _

variable (hunsupported : P (.located .unsupportedOperation offset))
include hunsupported

theorem only_applyComparison (comparison : Comparison) (a b : Value) :
    Only P (applyComparison comparison offset a b) := by
  unfold applyComparison
  split
  · exact only_ok _
  · exact only_failAt hunsupported

variable (hzero : P (.located .dividedByZero offset))
include hzero

theorem only_onIntegers (divide : Int → Int → Int) (a b : Value) :
    Only P (onIntegers divide offset a b) := by
  unfold onIntegers
  split
  · exact only_failAt hunsupported
  split
  · exact only_failAt hzero
  · exact only_ok _

theorem only_applyArithmetic (arithmetic : Arithmetic) (a b : Value) :
    Only P (applyArithmetic arithmetic offset a b) := by
  cases arithmetic <;> simp only [applyArithmetic]
  case add =>
    split
    · exact only_ok _
    split
    · exact only_ok _
    · exact only_failAt hunsupported
  case subtract | multiply =>
    split
    · exact only_ok _
    · exact only_failAt hunsupported
  case divide =>
    split
    · exact only_failAt hunsupported
    split
    · exact only_failAt hzero
    · exact only_ok _
  case quotient | remainder => exact only_onIntegers hunsupported hzero _ a b

end

/-! ## Filters -/

theorem callParts_of_isFilter {call : Expr} (h : call.IsFilter) :
    ∃ name items, callParts call = .ok (name, items) ∧ AreArguments items ∧
      allNodes items ⊆ call.nodes := by
  cases call with
  | symbol s name => exact ⟨name, [], rfl, trivial, List.nil_subset _⟩
  | binary s op target list =>
    cases op with
    | call =>
      obtain ⟨ht, hl⟩ := h
      cases target with
      | symbol _ name =>
        cases list with
        | arguments _ items =>
          refine ⟨name, items, rfl, hl, fun n hn => ?_⟩
          simp only [nodes, List.mem_cons, List.mem_append]
          exact .inr (.inr (.inr hn))
        | _ => exact hl.elim
      | _ => cases ht
    | _ => exact h.elim
  | _ => exact h.elim

theorem AreArguments.wellLevelled : ∀ {items : List Expr}, AreArguments items →
    ∀ d ∈ items, d.WellLevelled
  | _ :: _, ⟨_, hw, hitems⟩, d, hd => by
    rcases List.mem_cons.mp hd with rfl | hd
    · exact hw
    · exact AreArguments.wellLevelled hitems d hd

section
variable {P : RenderFault → Prop} {eval : Expr → Result}

theorem only_argumentObjects {items : List Expr} (h : ∀ d ∈ items, Only P (eval d)) :
    Only P (argumentObjects eval items) := by
  induction items with
  | nil => exact only_ok _
  | cons d items ih =>
    obtain ⟨hd, hitems⟩ := List.forall_mem_cons.mp h
    exact hd.bind fun v => (ih hitems).bind fun vs => only_pure _

theorem only_pipeInto {call : Expr} (hparts : Only P (callParts call))
    (hitems : ∀ name items, callParts call = .ok (name, items) →
      Only P (argumentObjects eval items))
    (hunsupported : P (.located .unsupportedFilter call.start))
    (hfailed : ∀ cause, P (.filterFailed call.start cause)) (hnumeral : P .numeralTooLong)
    (calls : Nat) (v : Value) : Only P (pipeInto calls eval v call) := by
  unfold pipeInto
  cases hcall : callParts call with
  | error stop =>
    rw [hcall] at hparts
    exact fun f hf => hparts f (congrArg Except.error (Except.error.inj hf))
  | ok parts =>
    refine (hitems parts.1 parts.2 hcall).bind fun objects => ?_
    split
    · exact only_failAt hunsupported
    · rename_i filter _
      cases filter (v.object :: objects) with
      | ok h => exact only_shown hnumeral _
      | error cause =>
        intro f hf
        obtain rfl := Stop.fault.inj (Except.error.inj hf)
        exact hfailed cause

end

/-! ## Expressions -/

/-- A failure that a node is to be blamed for, or one of the data: that of a sequence or of an
integer that is too long. -/
def Fails (e : Expr) (f : RenderFault) : Prop := e.Raises f ∨ f = .overlong ∨ f = .numeralTooLong

theorem Fails.mono {d e : Expr} {f : RenderFault} (h : d.Fails f) (hd : d ∈ e.nodes) : e.Fails f :=
  h.imp_left fun h => h.mono hd

theorem Blames.fails {e : Expr} {kind : RenderKind} {offset : Nat} (h : e.Blames kind offset) :
    e.Fails (.located kind offset) :=
  .inl ⟨kind, offset, rfl, h⟩

theorem fails_overlong (e : Expr) : e.Fails .overlong := .inr (.inl rfl)

theorem fails_numeral (e : Expr) : e.Fails .numeralTooLong := .inr (.inr rfl)

section
variable {env : Env} {calls : Nat} {eval : Nat → Expr → Result} {e : Expr}
  (ih : ∀ (more : Nat) (d : Expr), d.WellLevelled → Only d.Fails (eval more d))
include ih

theorem only_within {d : Expr} (hw : d.WellLevelled) (hd : d ∈ e.nodes) (more : Nat) :
    Only e.Fails (eval more d) :=
  (ih more d hw).mono fun _ h => h.mono hd

theorem only_handle (hw : e.WellLevelled) (hb : ∀ s op left right, e ≠ binary s op left right) :
    Only e.Fails (handle env calls eval e) := by
  cases e with
  | literal s forms => exact only_ok _
  | symbol s name => exact only_shown (fails_numeral _) _
  | unary s op operand =>
    refine (only_within ih hw.2 (by simp [nodes]) 0).bind (only_applyUnary fun hop => ?_)
    exact (Blames.operand (self_mem_nodes _) hop).fails
  | binary s op left right => exact absurd rfl (hb s op left right)
  | arguments s items => exact hw.elim
  | group s inner =>
    have hinner : inner.WellLevelled := hw
    exact only_within ih hinner (by simp [nodes]) 0
  | other s sort => exact hw.elim

theorem only_filter {s : Span} {left call : Expr} (hf : call.IsFilter) (v : Value) :
    Only (binary s .pipe left call).Fails (pipeInto calls (eval 2) v call) := by
  obtain ⟨name, items, hparts, hitems, hnodes⟩ := callParts_of_isFilter hf
  have hcall : call ∈ (binary s .pipe left call).nodes := by simp [nodes]
  refine only_pipeInto ?_ ?_ ?_ ?_ (fails_numeral _) calls v
  · rw [hparts]
    exact only_ok _
  · intro name' items' hparts'
    obtain ⟨rfl, rfl⟩ := Prod.ext_iff.mp (Except.ok.inj (hparts.symm.trans hparts'))
    refine only_argumentObjects fun d hd => only_within ih (hitems.wellLevelled d hd) ?_ 2
    exact nodes_subset hcall (hnodes (mem_allNodes hd))
  · exact (Blames.filter (self_mem_nodes _) (.inl rfl)).fails
  · exact fun cause => .inl ⟨_, _, rfl, .filter (self_mem_nodes _) (.inr rfl)⟩

theorem only_apply {s : Span} {op : BinaryOp} {left right : Expr}
    (hw : (binary s op left right).WellLevelled) (v : Value) :
    Only (binary s op left right).Fails (apply env calls eval v ⟨op, left.start, right⟩) := by
  have hright : right ∈ (binary s op left right).nodes := by simp [nodes]
  have hblames (hop : op.onValues = true) {kind : RenderKind}
      (hk : kind = .unsupportedOperation ∨ kind = .dividedByZero) :
      (binary s op left right).Fails (.located kind left.start) :=
    (Blames.operands (self_mem_nodes _) hop hk).fails
  obtain ⟨-, -, hw⟩ := hw
  cases op with
  | pipe => exact only_filter ih hw v
  | call => exact hw.elim
  | subscript =>
    exact (only_within ih hw hright 0).bind
      (only_applySubscript (fails_overlong _) (fails_numeral _) calls v)
  | member =>
    cases right with
    | symbol s name => exact only_shown (fails_numeral _) _
    | _ => cases hw
  | or | and =>
    simp only [apply]
    split
    · exact only_ok _
    · exact (only_within ih hw.2 hright 0).bind fun _ => only_pure _
  | arithmetic op =>
    exact (only_within ih hw.2 hright 0).bind
      (only_applyArithmetic (hblames rfl (.inl rfl)) (hblames rfl (.inr rfl)) op v)
  | comparison op =>
    exact (only_within ih hw.2 hright 0).bind
      (only_applyComparison (hblames rfl (.inl rfl)) op v)

end

theorem only_evaluate (env : Env) (calls : Nat) (e : Expr) :
    e.WellLevelled → Only e.Fails (evaluate env calls e) := by
  refine evaluate_induction (P := fun e x => e.WellLevelled → Only e.Fails x) (fun _ _ => nofun)
    ?_ ?_ calls e
  · exact fun calls eval e ih hb hw => only_handle ih hw hb
  · intro calls eval s op left right x ih hx hw
    have hleft : left ∈ (binary s op left right).nodes := by simp [nodes]
    exact ((hx hw.2.1).mono fun _ h => h.mono hleft).bind (only_apply ih hw)

/-- The value fails as the evaluation does that it begins, if there is a call to begin it. -/
theorem value_eq_error {env : Env} {calls : Nat} {e : Expr} {f : RenderFault}
    (h : e.value env calls = .error f) :
    calls = 0 ∧ f = .exhausted ∨ 0 < calls ∧
      (evaluate env (calls - 1) e = .error (.fault f) ∨
        evaluate env (calls - 1) e = .error .tooDeep ∧
          f = .located .evaluationTooDeep e.start) := by
  unfold value at h
  split at h
  · rename_i hzero
    exact .inl ⟨hzero, (Except.error.inj h).symm⟩
  rename_i hcalls
  refine .inr ⟨Nat.pos_of_ne_zero hcalls, ?_⟩
  split at h
  · cases h
  · rename_i fault heval
    obtain rfl := Except.error.inj h
    exact .inl heval
  · rename_i heval
    exact .inr ⟨heval, (Except.error.inj h).symm⟩

/-- The value of a well-levelled tree cannot fail to be found but for what one of its nodes is to
be blamed for, because of the data, or because the calls run out. -/
theorem value_fails {env : Env} {calls : Nat} {e : Expr} {f : RenderFault} (hw : e.WellLevelled)
    (h : e.value env calls = .error f) :
    e.Fails f ∨ f = .located .evaluationTooDeep e.start ∨ calls = 0 ∧ f = .exhausted := by
  rcases value_eq_error h with hzero | ⟨-, heval | ⟨-, hf⟩⟩
  · exact .inr (.inr hzero)
  · exact .inl (only_evaluate env _ e hw f heval)
  · exact .inr (.inl hf)

end Expr

end Stencil
