import Stencil.Proofs.Expr.Faults
import Stencil.Proofs.Expr.Recursion
import Stencil.Proofs.Host.Supply

/-!
# Data that evaluation can use

A subscript of a sequence has no answer if the sequence has more items than can be counted, and a
value is not found if it cannot be displayed. All that evaluation comes across is in the data, and
so it does not fail in these ways where everything in the data can be counted and displayed.
-/

namespace Stencil

namespace Host

/-- No sequence in the value has more items than can be counted. -/
def Counted (h : Host) : Prop :=
  ∀ g items, h.Holds g → g.sequence? = some items → items.size ≤ countLimit

theorem closed_counted : Closed Counted where
  child hh hg k items hk := hh k items (.head hg hk)
  atomic hh k items hk hitems := by
    rcases hk.cases_head with rfl | ⟨g, hg, -⟩
    · rw [hh.sequence] at hitems
      cases hitems
    · rw [hh.children] at hg
      cases hg

theorem counted_of_children {h : Host} (hsize : ∀ items, h.sequence? = some items →
    items.size ≤ countLimit) (hchildren : ∀ g ∈ h.children, g.Counted) : h.Counted := by
  intro k items hk hitems
  rcases hk.cases_head with rfl | ⟨g, hg, hk⟩
  · exact hsize items hitems
  · exact hchildren g hg k items hk hitems

theorem Counted.overlong {h : Host} (hh : h.Counted) (index : Int) : h.overlong index = false := by
  unfold Host.overlong
  cases hitems : h.sequence? with
  | none => exact Bool.and_false _
  | some items =>
    have hle := hh h items .refl hitems
    simp [Nat.not_lt.mpr hle]

/-- So many calls are enough for the value of everything in the value. -/
def Shown (calls : Nat) (h : Host) : Prop :=
  ∀ g, h.Holds g → ∃ v, Value.ofHost calls g = .ok v

section
variable {calls m n : Nat} {h : Host}

theorem Shown.mono (hh : h.Shown m) (hle : m ≤ n) : h.Shown n := by
  intro g hg
  obtain ⟨v, hv⟩ := hh g hg
  exact ⟨v, (Value.ofHost_extends hle g).ok hv⟩

theorem shown_of_children {v : Value} (hv : Value.ofHost calls h = .ok v)
    (hchildren : ∀ g ∈ h.children, g.Shown calls) : h.Shown calls := by
  intro k hk
  rcases hk.cases_head with rfl | ⟨g, hg, hk⟩
  · exact ⟨v, hv⟩
  · exact hchildren g hg k hk

/-- A value with nothing inside takes three calls: two to its display, and that itself. -/
theorem Atomic.shown (hh : h.Atomic) (n : Nat) : h.Shown (n + 3) := by
  have hvalue : ∃ v, Value.ofHost (n + 3) h = .ok v := by
    cases h with
    | list | tuple | range => cases hh.sequence
    | set i items => obtain rfl : items = [] := hh.children; exact ⟨_, rfl⟩
    | dict i entries =>
      cases entries with
      | nil => exact ⟨_, rfl⟩
      | cons e entries => cases hh.children
    | _ => exact ⟨_, rfl⟩
  obtain ⟨v, hv⟩ := hvalue
  refine shown_of_children hv ?_
  rw [hh.children]
  exact List.forall_mem_nil _

theorem closed_shown (n : Nat) : Closed (Shown (n + 3)) where
  child hh hg k hk := hh k (.head hg hk)
  atomic hh := hh.shown n

end

end Host

namespace Expr

/-! ## Recursion on data with a property -/

def EndsIn {α : Type} (P : Stop → Prop) (x : Except Stop α) : Prop :=
  ∀ stop, x = .error stop → P stop

section
variable {α β : Type} {P : Stop → Prop}

theorem endsIn_ok (a : α) : EndsIn P (.ok a) := nofun

theorem endsIn_pure (a : α) : EndsIn P (pure a) := nofun

theorem EndsIn.bind_given {x : Except Stop α} {g : α → Except Stop β} (hx : EndsIn P x)
    (hg : ∀ a, x = .ok a → EndsIn P (g a)) : EndsIn P (x >>= g) := by
  intro stop h
  rcases bind_eq_error.mp h with h | ⟨a, ha, h⟩
  · exact hx stop h
  · exact hg a ha stop h

theorem EndsIn.bind {x : Except Stop α} {g : α → Except Stop β} (hx : EndsIn P x)
    (hg : ∀ a, EndsIn P (g a)) : EndsIn P (x >>= g) :=
  hx.bind_given fun a _ => hg a

end

/-- What evaluation may stop with on data with a property: anything but failures of the data, and of
these what the property does not rule out. -/
structure Allows (K : Host → Prop) (room : Nat) (P : Stop → Prop) : Prop where
  other (f) : f ≠ .overlong → f ≠ .numeralTooLong → P (.fault f)
  overlong (h index) : K h → h.overlong index = true → P (.fault .overlong)
  display (h fault) : K h → Value.ofHost room h = .error fault → P (.ofDisplay fault)

section
variable {K : Host → Prop} (hK : Host.Closed K) {env : Env} (henv : env.Each K) {room : Nat}
  {P : Stop → Prop} (hP : Allows K room P)

theorem endsIn_denoteAll : ∀ {items : List Expr},
    (∀ d ∈ items, EndsIn P (denote env room d)) → EndsIn P (denoteAll env room items)
  | [], _ => by rw [denoteAll]; exact endsIn_ok _
  | e :: es, h => by
    obtain ⟨he, hes⟩ := List.forall_mem_cons.mp h
    rw [denoteAll]
    exact he.bind fun _ => (endsIn_denoteAll hes).bind fun _ => endsIn_pure _

section
include hP

theorem endsIn_failAt {α : Type} (kind : RenderKind) (offset : Nat) :
    EndsIn P (failAt kind offset : Except Stop α) := by
  rintro stop h
  obtain rfl := Except.error.inj h
  exact hP.other _ nofun nofun

theorem endsIn_malformed {α : Type} (m : Malformed) : EndsIn P (malformed m : Except Stop α) := by
  rintro stop h
  obtain rfl := Except.error.inj h
  exact hP.other _ nofun nofun

theorem endsIn_shown {h : Option Host} (hh : ∀ g, h = some g → K g) :
    EndsIn P (shown (Value.ofHost? room h)) := by
  intro stop hstop
  cases h with
  | none => cases hstop
  | some g =>
    cases hv : Value.ofHost room g with
    | ok v =>
      rw [Value.ofHost?, hv] at hstop
      cases hstop
    | error fault =>
      rw [Value.ofHost?, hv] at hstop
      obtain rfl := Except.error.inj hstop
      exact hP.display g fault (hh g rfl) hv

theorem endsIn_applyUnary (op : UnaryOp) (offset : Nat) (v : Value) :
    EndsIn P (applyUnary op offset v) := by
  unfold applyUnary
  split <;> first | exact endsIn_ok _ | exact endsIn_failAt hP _ _

theorem endsIn_applyArithmetic (op : Arithmetic) (offset : Nat) (a b : Value) :
    EndsIn P (applyArithmetic op offset a b) := by
  cases op <;> simp only [applyArithmetic, onIntegers] <;> repeat' split
  all_goals first | exact endsIn_ok _ | exact endsIn_failAt hP _ _

theorem endsIn_applyComparison (op : Comparison) (offset : Nat) (a b : Value) :
    EndsIn P (applyComparison op offset a b) := by
  unfold applyComparison
  split
  · exact endsIn_ok _
  · exact endsIn_failAt hP _ _

theorem endsIn_denoteCall {call : Expr}
    (ih : ∀ d, sizeOf d < sizeOf call → EndsIn P (denote env room d)) :
    EndsIn P (denoteCall env room call) := by
  fun_cases callParts call with
  | case1 s name => rw [denoteCall]; exact endsIn_ok _
  | case2 s t name u items =>
    rw [denoteCall]
    refine (endsIn_denoteAll fun d hd => ih d ?_).bind fun _ => endsIn_pure _
    have := List.sizeOf_lt_of_mem hd
    simp only [binary.sizeOf_spec, arguments.sizeOf_spec]
    omega
  | case3 s left right hparts =>
    rw [denoteCall]
    · exact endsIn_malformed hP _
    all_goals exact hparts
  | case4 hname hparts hcall =>
    rw [denoteCall]
    · exact endsIn_malformed hP _
    all_goals assumption

end

section
include hK hP

theorem endsIn_applySubscript {target key : Value} (htarget : K target.object) :
    EndsIn P (applySubscript room target key) := by
  unfold applySubscript
  split
  · rename_i hlong
    intro stop h
    obtain rfl := Except.error.inj h
    exact hP.overlong _ _ htarget hlong
  · exact endsIn_shown hP fun g hg => hK.found htarget (Host.item_found hg)

theorem endsIn_callFilter (name : Text) (offset : Nat) {v : Host} (hv : K v) (objects : List Host) :
    EndsIn P (callFilter room name offset (v :: objects)) := by
  unfold callFilter
  split
  · exact endsIn_failAt hP _ _
  · rename_i filter hfilter
    split
    · rename_i h hh
      refine endsIn_shown (h := some h) hP fun g hg => ?_
      obtain rfl := Option.some.inj hg
      exact hK.filtered hv hfilter hh
    · intro stop h
      obtain rfl := Except.error.inj h
      exact hP.other _ nofun nofun

end

section
include hK henv

theorem closed_denote {e : Expr} {v : Value} (hv : denote env room e = .ok v) : K v.object :=
  closed_evaluate hK henv ((denote_extends_evaluate (.inl (Nat.le_refl _))).ok hv)

include hP

/-- Recursion comes across data with the property only, and so it ends as these allow. -/
theorem endsIn_denote : ∀ e : Expr, EndsIn P (denote env room e)
  | literal .. => by rw [denote]; exact endsIn_ok _
  | arguments .. | other .. => by rw [denote]; exact endsIn_malformed hP _
  | symbol .. => by
    rw [denote, env.resolve_eq]
    exact endsIn_shown hP fun h hh => henv.host hK hh
  | group _ inner => by
    rw [denote]
    exact endsIn_denote inner
  | unary _ op operand => by
    rw [denote]
    exact (endsIn_denote operand).bind (endsIn_applyUnary hP op _)
  | binary _ .or left right | binary _ .and left right => by
    rw [denote]
    refine (endsIn_denote left).bind fun a => ?_
    split
    -- the right operand is evaluated in one of the cases only
    all_goals first | exact endsIn_pure _ | exact (endsIn_denote right).bind fun _ => endsIn_pure _
  | binary _ (.arithmetic op) left right => by
    rw [denote]
    exact (endsIn_denote left).bind fun a => (endsIn_denote right).bind
      (endsIn_applyArithmetic hP op _ a)
  | binary _ (.comparison op) left right => by
    rw [denote]
    exact (endsIn_denote left).bind fun a => (endsIn_denote right).bind
      (endsIn_applyComparison hP op _ a)
  | binary _ .subscript left right => by
    rw [denote]
    refine (endsIn_denote left).bind_given fun target htarget => ?_
    have hkept := closed_denote hK henv htarget
    exact (endsIn_denote right).bind fun key => endsIn_applySubscript hK hP hkept
  | binary _ .member left right => by
    rw [denote]
    refine (endsIn_denote left).bind_given fun target htarget => ?_
    have hkept := closed_denote hK henv htarget
    have hname : EndsIn P (memberName right) := by
      unfold memberName
      split
      · exact endsIn_ok _
      · exact endsIn_malformed hP _
    exact hname.bind fun name => endsIn_shown hP fun g hg => hK.found hkept (Host.member_found hg)
  | binary s .pipe left right => by
    rw [denote]
    refine (endsIn_denote left).bind_given fun v hv => ?_
    have hkept := closed_denote hK henv hv
    refine (endsIn_denoteCall hP fun d hd => ?_).bind fun call => ?_
    · exact endsIn_denote d
    · exact endsIn_callFilter hK hP call.1 _ hkept call.2
  | binary _ .call left _ => by
    rw [denote]
    exact (endsIn_denote left).bind fun _ => endsIn_malformed hP _
termination_by e => sizeOf e

end

end

/-! ## Evaluation -/

section
variable {env : Env} {calls : Nat} {e : Expr}

/-- Where everything can be counted, no sequence is too long. -/
theorem counted_evaluate (henv : env.Each Host.Counted) :
    evaluate env calls e ≠ .error (.fault .overlong) := by
  intro h
  have hallows : Allows Host.Counted calls fun stop => stop ≠ .fault .overlong :=
    { other := fun f hf _ h => hf (Stop.fault.inj h)
      overlong := fun h index hh hlong => by rw [hh.overlong] at hlong; cases hlong
      display := fun h fault _ _ heq => by cases fault <;> cases heq }
  have hdenote : denote env calls e = .error (.fault .overlong) := by
    rw [← h]
    exact evaluate_extends_denote (Nat.le_refl _) e (by rw [h]; nofun)
  exact endsIn_denote Host.closed_counted henv hallows e _ hdenote rfl

variable {room : Nat}

/-- Where all of the data have a value, recursion displays whatever it comes across. -/
theorem shown_denote (henv : env.Each (Host.Shown (room + 3))) (hle : room + 3 ≤ calls) :
    denote env calls e ≠ .error .tooDeep ∧
      denote env calls e ≠ .error (.fault .numeralTooLong) := by
  have hallows : Allows (Host.Shown (room + 3)) calls fun stop =>
      stop ≠ .tooDeep ∧ stop ≠ .fault .numeralTooLong :=
    { other := fun f _ hf => ⟨nofun, fun h => hf (Stop.fault.inj h)⟩
      overlong := fun _ _ _ _ => ⟨nofun, nofun⟩
      display := fun h fault hh hfault => by
        obtain ⟨v, hv⟩ := (hh.mono hle) h .refl
        rw [hv] at hfault
        cases hfault }
  have hends := endsIn_denote (Host.closed_shown room) henv hallows e
  exact ⟨fun h => (hends _ h).1 rfl, fun h => (hends _ h).2 rfl⟩

theorem shown_more (henv : env.Each (Host.Shown room)) : env.Each (Host.Shown (room + 3)) :=
  henv.imp fun _ hh => hh.mono (Nat.le_add_right _ _)

theorem shown_evaluate (henv : env.Each (Host.Shown room)) :
    evaluate env calls e ≠ .error (.fault .numeralTooLong) := by
  intro h
  refine (shown_denote (e := e) (shown_more henv) (Nat.le_max_right calls (room + 3))).2 ?_
  rw [← h]
  exact evaluate_extends_denote (Nat.le_max_left _ _) e (by rw [h]; nofun)

/-- The calls are enough for the data, and for five of them at each level of the tree. -/
theorem roomy_evaluate (henv : env.Each (Host.Shown (room + 3)))
    (hcalls : room + 5 * e.depth + 7 ≤ calls) : evaluate env calls e ≠ .error .tooDeep := by
  have hdenote := (shown_denote (e := e) henv (Nat.le_refl _)).1
  rw [denote_extends_evaluate (.inl (by omega)) hdenote]
  exact hdenote

/-! ## Whole expressions -/

theorem counted_value (henv : env.Each Host.Counted) : e.value env calls ≠ .error .overlong := by
  intro h
  rcases value_eq_error h with ⟨-, hf⟩ | ⟨-, heval | ⟨-, hf⟩⟩
  · cases hf
  · exact counted_evaluate henv heval
  · cases hf

theorem shown_value {room : Nat} (henv : env.Each (Host.Shown room)) :
    e.value env calls ≠ .error .numeralTooLong := by
  intro h
  rcases value_eq_error h with ⟨-, hf⟩ | ⟨-, heval | ⟨-, hf⟩⟩
  · cases hf
  · exact shown_evaluate henv heval
  · cases hf

end

end Expr

end Stencil
