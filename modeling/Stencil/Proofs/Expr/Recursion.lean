import Stencil.Proofs.Expr.Depth
import Stencil.Proofs.Expr.Environment
import Stencil.Proofs.Expr.Spine
import Stencil.Proofs.Host.Display

/-!
# Evaluation is plain recursion

Evaluation walks down the left spine of a tree and then applies the operators of the spine from the
innermost one outward. It comes to what plain recursion on the tree comes to, and fails with the
first of the errors that there are from left to right.
-/

namespace Stencil.Expr

/-! ## Plain recursion

Host data are displayed by `room` calls wherever they stand in the tree. -/

def callFilter (room : Nat) (name : Text) (offset : Nat) (objects : List Host) : Result :=
  match Filter.named? name with
  | none => failAt .unsupportedFilter offset
  | some filter =>
    match filter objects with
    | .ok h => shown (Value.ofHost room h)
    | .error cause => .error (.fault (.filterFailed offset cause))

def memberName : Expr → Except Stop Text
  | symbol _ name => .ok name
  | _ => malformed .memberNotSymbol

def memberOfValue (env : Env) (room : Nat) (target : Value) (name : Text) : Result :=
  shown (Value.ofHost? room (target.object.member? env.rendering name))

mutual

/-- The value of an expression from the values of its operands, which are evaluated from left to
right, and only if the operator looks at them. -/
def denote (env : Env) (room : Nat) : Expr → Result
  | literal _ forms => .ok forms.value
  | symbol _ name => shown (env.resolve room name)
  | group _ inner => denote env room inner
  | unary _ op operand => do applyUnary op operand.start (← denote env room operand)
  | binary _ .or left right => do
    if (← denote env room left).boolean then return .ofBoolean true
    else return .ofBoolean (← denote env room right).boolean
  | binary _ .and left right => do
    if (← denote env room left).boolean then return .ofBoolean (← denote env room right).boolean
    else return .ofBoolean false
  | binary _ (.arithmetic op) left right => do
    let a ← denote env room left
    let b ← denote env room right
    applyArithmetic op left.start a b
  | binary _ (.comparison op) left right => do
    let a ← denote env room left
    let b ← denote env room right
    applyComparison op left.start a b
  | binary _ .subscript left right => do
    let target ← denote env room left
    let key ← denote env room right
    applySubscript room target key
  | binary _ .member left right => do
    let target ← denote env room left
    let name ← memberName right
    memberOfValue env room target name
  | binary _ .pipe left right => do
    let v ← denote env room left
    let (name, objects) ← denoteCall env room right
    callFilter room name right.start (v.object :: objects)
  | binary _ .call left _ => do
    let _ ← denote env room left
    malformed (.withoutValue "Binary".toList)
  | arguments .. => malformed (.withoutValue "ListExpr".toList)
  | other _ sort => malformed (.unknownExpression sort)

def denoteCall (env : Env) (room : Nat) : Expr → Except Stop (Text × List Host)
  | symbol _ name => .ok (name, [])
  | binary _ .call (symbol _ name) (arguments _ items) => do
    return (name, ← denoteAll env room items)
  | binary _ .call _ _ => malformed .badCall
  | e => malformed (.badFilter e.sort)

def denoteAll (env : Env) (room : Nat) : List Expr → Except Stop (List Host)
  | [] => .ok []
  | e :: es => do
    let v ← denote env room e
    return v.object :: (← denoteAll env room es)

end

/-! ## Recursion goes along the spine -/

section
variable (env : Env) (room : Nat)

theorem denoteAll_eq (items : List Expr) :
    denoteAll env room items = argumentObjects (denote env room) items := by
  induction items with
  | nil => rfl
  | cons e es ih => rw [denoteAll, argumentObjects, ih]

theorem denoteCall_eq (call : Expr) :
    denoteCall env room call = do
      let (name, items) ← callParts call
      return (name, ← argumentObjects (denote env room) items) := by
  fun_cases callParts call with
  | case1 s name => rfl
  | case2 s t name u items => rw [denoteCall, denoteAll_eq]; rfl
  | case3 s left right hsymbol => rw [denoteCall]; rfl; exact hsymbol
  | case4 hsymbol hcall hbad => rw [denoteCall]; rfl; all_goals assumption

theorem denote_binary (s : Span) (op : BinaryOp) (left right : Expr) :
    denote env room (binary s op left right) = denote env room left >>= fun a =>
      apply env room (fun _ => denote env room) a ⟨op, left.start, right⟩ := by
  cases op with
  | or | and =>
    rw [denote]
    refine bind_congr fun a => ?_
    cases ha : a.boolean <;> simp only [apply, ha] <;> rfl
  | member =>
    rw [denote]
    cases right <;> rfl
  | pipe =>
    rw [denote, denoteCall_eq]
    refine bind_congr fun a => ?_
    simp only [apply, pipeInto, bind_assoc, pure_bind]
    rfl
  | call | subscript | arithmetic | comparison => rw [denote]; rfl

theorem denote_primary {e : Expr} (h : ∀ s op left right, e ≠ binary s op left right) :
    denote env room e = handle env room (fun _ => denote env room) e := by
  cases e with
  | binary s op left right => exact absurd rfl (h s op left right)
  | _ => rw [denote]; rfl

theorem denote_eq_alongSpine (e : Expr) :
    denote env room e = alongSpine env (room + 1) (fun _ => denote env room) e := by
  induction e using spine_induction with
  | binary s op left right ih => rw [denote_binary, alongSpine_binary, ← ih]; rfl
  | primary e h => rw [alongSpine_primary _ _ _ h]

end

/-! ## Evaluations with more room

The one evaluation comes to the same as the other one, unless that runs out of calls. -/

theorem extends_shown {x y : Except Host.DisplayFault Value} (h : Extends .tooDeep x y) :
    Extends .tooDeep (shown x) (shown y) := by
  intro hne
  have hx : x ≠ .error .tooDeep := by
    rintro rfl
    exact hne rfl
  rw [h hx]

section
variable {env : Env}

theorem argumentObjects_extends {eval eval' : Expr → Result} : ∀ {items : List Expr},
    (∀ d ∈ items, Extends .tooDeep (eval d) (eval' d)) →
    Extends .tooDeep (argumentObjects eval items) (argumentObjects eval' items)
  | [], _ => extends_refl _
  | _ :: _, h => by
    obtain ⟨hitem, hitems⟩ := List.forall_mem_cons.mp h
    exact hitem.bind fun _ => (argumentObjects_extends hitems).bind fun _ => extends_refl _

variable {m n : Nat} {eval eval' : Nat → Expr → Result} (hle : m ≤ n)
include hle

theorem applySubscript_extends (target key : Value) :
    Extends .tooDeep (applySubscript m target key) (applySubscript n target key) := by
  unfold applySubscript
  split
  · exact extends_refl _
  · exact extends_shown (Value.ofHost?_extends hle _)

theorem pipeInto_extends {eval eval' : Expr → Result} {call : Expr}
    (hitems : ∀ name items, callParts call = .ok (name, items) →
      ∀ d ∈ items, Extends .tooDeep (eval d) (eval' d)) (v : Value) :
    Extends .tooDeep (pipeInto m eval v call) (pipeInto n eval' v call) := by
  unfold pipeInto
  cases hcall : callParts call with
  | error stop => exact extends_refl _
  | ok parts =>
    refine (argumentObjects_extends (hitems parts.1 parts.2 hcall)).bind fun objects => ?_
    split
    · exact extends_refl _
    split
    · exact extends_shown (Value.ofHost_extends hle _)
    · exact extends_refl _

theorem apply_extends {s : Step}
    (hright : s.op.levels = 1 → Extends .tooDeep (eval 0 s.right) (eval' 0 s.right))
    (hitems : s.op = .pipe → ∀ name items, callParts s.right = .ok (name, items) →
      ∀ d ∈ items, Extends .tooDeep (eval 2 d) (eval' 2 d)) (a : Value) :
    Extends .tooDeep (apply env m eval a s) (apply env n eval' a s) := by
  obtain ⟨op, leftStart, right⟩ := s
  cases op with
  | or | and =>
    simp only [apply]
    split
    · exact extends_refl _
    · exact (hright rfl).bind fun _ => extends_refl _
  | member =>
    cases right with
    | symbol s name => exact extends_shown (Value.ofHost?_extends hle _)
    | _ => exact extends_refl _
  | pipe => exact pipeInto_extends hle (hitems rfl) a
  | call => exact extends_refl _
  | subscript => exact (hright rfl).bind fun key => applySubscript_extends hle a key
  | arithmetic | comparison => exact (hright rfl).bind fun _ => extends_refl _

/-- Above the operands of a tree there is nothing but displays. -/
theorem handle_extends {e : Expr} (hb : ∀ s op left right, e ≠ binary s op left right)
    (h : ∀ d : Expr, d.depth < e.depth → Extends .tooDeep (eval 0 d) (eval' 0 d)) :
    Extends .tooDeep (handle env m eval e) (handle env n eval' e) := by
  cases e with
  | symbol s name =>
    rw [handle, handle, env.resolve_eq, env.resolve_eq]
    exact extends_shown (Value.ofHost?_extends hle _)
  | unary s op operand => exact (h operand (Nat.lt_succ_self _)).bind fun _ => extends_refl _
  | group s inner => exact h inner (Nat.lt_succ_self _)
  | binary s op left right => exact absurd rfl (hb s op left right)
  | literal | arguments | other => exact extends_refl _

/-- Nothing is counted to the left, so the whole spine is as deep as the tree at most. -/
theorem alongSpine_extends {deepest : Nat}
    (hhead : ∀ d : Expr, (∀ s op left right, d ≠ binary s op left right) → d.depth ≤ deepest →
      Extends .tooDeep (eval 0 d) (eval' 0 d))
    (hright : ∀ d : Expr, d.depth < deepest → Extends .tooDeep (eval 1 d) (eval' 1 d))
    (hitem : ∀ d : Expr, d.depth < deepest → Extends .tooDeep (eval 3 d) (eval' 3 d)) :
    ∀ e : Expr, e.depth ≤ deepest →
      Extends .tooDeep (alongSpine env m eval e) (alongSpine env n eval' e) := by
  intro e
  induction e using spine_induction with
  | binary s op left right ih =>
    intro hdepth
    rw [depth] at hdepth
    refine (ih (by omega)).bind fun a => ?_
    refine apply_extends (Nat.sub_le_sub_right hle 1) (fun hop => hright right ?_) ?_ a
    · replace hop : op.levels = 1 := hop
      omega
    · rintro rfl name items hparts d hd
      have hless : d.depth < right.depth := depth_lt_of_callParts hparts hd
      exact hitem d (by omega)
  | primary e hb =>
    rw [alongSpine_primary _ _ _ hb, alongSpine_primary _ _ _ hb]
    exact hhead e hb

end

section
variable {env : Env}

/-- Fewer calls than recursion has room for do not come to anything else. -/
theorem evaluate_extends_denote : ∀ {calls room : Nat}, calls ≤ room → ∀ e : Expr,
    Extends .tooDeep (evaluate env calls e) (denote env room e)
  | 0, _, _, _ => extends_out
  | calls + 1, room, hle, e => by
    have ih (more : Nat) (d : Expr) :
        Extends .tooDeep (further env (calls - 1) more d) (denote env room d) :=
      evaluate_extends_denote (by omega) d
    rw [evaluate_succ]
    rcases eq_binary_or e with ⟨s, op, left, right, rfl⟩ | hb
    · rw [handle_binary, denote_eq_alongSpine]
      exact alongSpine_extends (by omega) (fun d _ _ => ih 0 d) (fun d _ => ih 1 d)
        (fun d _ => ih 3 d) _ (Nat.le_refl _)
    · rw [denote_primary env room hb]
      exact handle_extends (by omega) hb fun d _ => ih 0 d
termination_by calls => calls

/-- Five calls suffice for a step into an operand: the longest way is that into an argument of a
filter. -/
theorem denote_extends_evaluate {room : Nat} : ∀ {calls : Nat} {e : Expr},
    room + 5 * e.depth + 4 ≤ calls ∨
      room + 5 * e.depth + 2 ≤ calls ∧ (∀ s op left right, e ≠ binary s op left right) →
    Extends .tooDeep (denote env room e) (evaluate env calls e)
  | 0, _, h => absurd h (by omega)
  | calls + 1, e, h => by
    rw [evaluate_succ]
    rcases eq_binary_or e with ⟨s, op, left, right, rfl⟩ | hb
    · have hcalls : room + 5 * (binary s op left right).depth + 4 ≤ calls + 1 :=
        h.resolve_right fun h => h.2 s op left right rfl
      rw [handle_binary, denote_eq_alongSpine]
      refine alongSpine_extends (by omega) (fun d hb hd => ?_) (fun d hd => ?_) (fun d hd => ?_) _
        (Nat.le_refl _)
      · exact denote_extends_evaluate (.inr ⟨by omega, hb⟩)
      · exact denote_extends_evaluate (.inl (by omega))
      · exact denote_extends_evaluate (.inl (by omega))
    · rw [denote_primary env room hb]
      refine handle_extends (by omega) hb fun d hd => ?_
      exact denote_extends_evaluate (.inl (by omega))
termination_by calls => calls

/-- More calls change nothing about what is evaluated by fewer. -/
theorem evaluate_extends : ∀ {m n : Nat}, m ≤ n → ∀ e : Expr,
    Extends .tooDeep (evaluate env m e) (evaluate env n e)
  | 0, _, _, _ => extends_out
  | m + 1, n + 1, hle, e => by
    have ih (more : Nat) (d : Expr) :
        Extends .tooDeep (further env (m - 1) more d) (further env (n - 1) more d) :=
      evaluate_extends (by omega) d
    rw [evaluate_succ, evaluate_succ]
    rcases eq_binary_or e with ⟨s, op, left, right, rfl⟩ | hb
    · rw [handle_binary, handle_binary]
      exact alongSpine_extends (by omega) (fun d _ _ => ih 0 d) (fun d _ => ih 1 d)
        (fun d _ => ih 3 d) _ (Nat.le_refl _)
    · exact handle_extends (by omega) hb fun d _ => ih 0 d
termination_by m => m

/-- A left operand comes to what it comes to on its own. -/
theorem evaluate_extends_alongSpine {m n : Nat} (hle : m ≤ n) (e : Expr) :
    Extends .tooDeep (evaluate env m e) (alongSpine env n (further env n) e) := by
  rcases eq_binary_or e with ⟨s, op, left, right, rfl⟩ | hb
  · cases m with
    | zero => exact extends_out
    | succ m =>
      have hmore (more : Nat) (d : Expr) :
          Extends .tooDeep (further env (m - 1) more d) (further env n more d) :=
        evaluate_extends (by omega) d
      rw [evaluate_succ, handle_binary]
      exact alongSpine_extends (by omega) (fun d _ _ => hmore 0 d) (fun d _ => hmore 1 d)
        (fun d _ => hmore 3 d) _ (Nat.le_refl _)
  · rw [alongSpine_primary _ _ _ hb]
    exact evaluate_extends hle e

end

/-! ## The first error from left to right -/

def ownErrors {α : Type} : Except Stop α → List Stop
  | .ok _ => []
  | .error stop => [stop]

def decides (b : Bool) : Result → Bool
  | .ok a => a.boolean == b
  | .error _ => false

def jointErrors {α β γ : Type} (x : Except Stop α) (y : Except Stop β)
    (f : α → β → Except Stop γ) : List Stop :=
  match x, y with
  | .ok a, .ok b => ownErrors (f a b)
  | _, _ => []

mutual

/-- All errors of an expression from left to right, as if evaluation went on after each one: those
of the operands that are looked at, and that of an operator whose operands have values. -/
def errors (env : Env) (room : Nat) : Expr → List Stop
  | literal .. => []
  | symbol _ name => ownErrors (shown (env.resolve room name))
  | group _ inner => errors env room inner
  | unary _ op operand => errors env room operand ++
    match denote env room operand with
    | .ok v => ownErrors (applyUnary op operand.start v)
    | .error _ => []
  | binary _ .or left right => errors env room left ++
    if decides true (denote env room left) then [] else errors env room right
  | binary _ .and left right => errors env room left ++
    if decides false (denote env room left) then [] else errors env room right
  | binary _ (.arithmetic op) left right => errors env room left ++ (errors env room right ++
    jointErrors (denote env room left) (denote env room right) (applyArithmetic op left.start))
  | binary _ (.comparison op) left right => errors env room left ++ (errors env room right ++
    jointErrors (denote env room left) (denote env room right) (applyComparison op left.start))
  | binary _ .subscript left right => errors env room left ++ (errors env room right ++
    jointErrors (denote env room left) (denote env room right) (applySubscript room))
  | binary _ .member left right => errors env room left ++ (ownErrors (memberName right) ++
    jointErrors (denote env room left) (memberName right) (memberOfValue env room))
  | binary _ .pipe left right => errors env room left ++ (callErrors env room right ++
    jointErrors (denote env room left) (denoteCall env room right) fun v (name, objects) =>
      callFilter room name right.start (v.object :: objects))
  | binary _ .call left _ =>
    errors env room left ++ [.fault (.malformed (.withoutValue "Binary".toList))]
  | arguments .. => [.fault (.malformed (.withoutValue "ListExpr".toList))]
  | other _ sort => [.fault (.malformed (.unknownExpression sort))]

def callErrors (env : Env) (room : Nat) : Expr → List Stop
  | symbol .. => []
  | binary _ .call (symbol ..) (arguments _ items) => allErrors env room items
  | binary _ .call _ _ => [.fault (.malformed .badCall)]
  | e => [.fault (.malformed (.badFilter e.sort))]

def allErrors (env : Env) (room : Nat) : List Expr → List Stop
  | [] => []
  | e :: es => errors env room e ++ allErrors env room es

end

/-- A computation has a value if there are no errors, and fails with the first one if there are. -/
def FailsFirst {α : Type} (es : List Stop) : Except Stop α → Prop
  | .ok _ => es = []
  | .error stop => es.head? = some stop

section
variable {α β γ : Type} {x : Except Stop α} {y : Except Stop β} {es fs : List Stop}

theorem failsFirst_own (x : Except Stop α) : FailsFirst (ownErrors x) x := by
  cases x <;> rfl

theorem FailsFirst.bind {f : α → Except Stop β} (hx : FailsFirst es x)
    (hf : ∀ a, x = .ok a → FailsFirst fs (f a)) : FailsFirst (es ++ fs) (x >>= f) := by
  cases x with
  | error stop =>
    show (es ++ fs).head? = some stop
    rw [List.head?_append, show es.head? = some stop from hx]
    rfl
  | ok a =>
    obtain rfl : es = [] := hx
    exact hf a rfl

theorem FailsFirst.map {g : α → β} (hx : FailsFirst es x) :
    FailsFirst es (x >>= fun a => pure (g a)) := by
  cases x <;> exact hx

theorem FailsFirst.joint {f : α → β → Except Stop γ} (hx : FailsFirst es x) (hy : FailsFirst fs y) :
    FailsFirst (es ++ (fs ++ jointErrors x y f)) (do let a ← x; let b ← y; f a b) := by
  refine hx.bind fun a ha => hy.bind fun b hb => ?_
  subst ha hb
  exact failsFirst_own (f a b)

end

section
variable {env : Env} {room : Nat}

theorem failsFirst_denoteAll : ∀ {items : List Expr},
    (∀ d ∈ items, FailsFirst (errors env room d) (denote env room d)) →
    FailsFirst (allErrors env room items) (denoteAll env room items)
  | [], _ => by rw [allErrors, denoteAll]; rfl
  | e :: es, h => by
    obtain ⟨he, hes⟩ := List.forall_mem_cons.mp h
    rw [allErrors, denoteAll]
    exact he.bind fun _ _ => (failsFirst_denoteAll hes).map

theorem failsFirst_denoteCall {call : Expr}
    (ih : ∀ d, sizeOf d < sizeOf call → FailsFirst (errors env room d) (denote env room d)) :
    FailsFirst (callErrors env room call) (denoteCall env room call) := by
  fun_cases callParts call with
  | case1 s name => rw [callErrors, denoteCall]; rfl
  | case2 s t name u items =>
    rw [callErrors, denoteCall]
    refine (failsFirst_denoteAll fun d hd => ih d ?_).map
    have := List.sizeOf_lt_of_mem hd
    simp only [binary.sizeOf_spec, arguments.sizeOf_spec]
    omega
  | case3 s left right hparts =>
    rw [callErrors, denoteCall]
    · rfl
    all_goals exact hparts
  | case4 hname hparts hcall =>
    rw [callErrors, denoteCall]
    · rfl
    all_goals assumption

theorem failsFirst_denote : ∀ e : Expr, FailsFirst (errors env room e) (denote env room e)
  | literal .. | arguments .. | other .. => by rw [errors, denote]; rfl
  | symbol .. => by rw [errors, denote]; exact failsFirst_own _
  | group _ inner => by
    rw [errors, denote]
    exact failsFirst_denote inner
  | unary _ op operand => by
    rw [errors, denote]
    refine (failsFirst_denote operand).bind fun v hv => ?_
    rw [hv]
    exact failsFirst_own _
  | binary _ .or left right | binary _ .and left right => by
    rw [errors, denote]
    refine (failsFirst_denote left).bind fun a ha => ?_
    rw [ha]
    -- the left operand decides, or the right one does
    cases hb : a.boolean <;> simp only [decides, hb]
    all_goals first | rfl | exact (failsFirst_denote right).map
  | binary _ (.arithmetic op) left right | binary _ (.comparison op) left right
  | binary _ .subscript left right => by
    rw [errors, denote]
    exact (failsFirst_denote left).joint (failsFirst_denote right)
  | binary _ .member left right => by
    rw [errors, denote]
    exact (failsFirst_denote left).joint (failsFirst_own _)
  | binary s .pipe left right => by
    rw [errors, denote]
    refine (failsFirst_denote left).joint (failsFirst_denoteCall fun d hd => ?_)
    exact failsFirst_denote d
  | binary _ .call left _ => by
    rw [errors, denote]
    exact (failsFirst_denote left).bind fun _ _ => rfl
termination_by e => sizeOf e

end

/-- **Evaluation is plain recursion** as long as the calls do not run out. An error is the first one
of all that there are from left to right, and there is a value if there are none. -/
theorem evaluate_recursive (env : Env) (room : Nat) (e : Expr) :
    (∀ calls ≤ room, evaluate env calls e ≠ .error .tooDeep →
      evaluate env calls e = denote env room e) ∧
    (denote env room e ≠ .error .tooDeep → ∀ calls, room + 5 * e.depth + 4 ≤ calls →
      evaluate env calls e = denote env room e) ∧
    (∀ stop, denote env room e = .error stop ↔ (errors env room e).head? = some stop) := by
  refine ⟨fun calls hle h => (evaluate_extends_denote hle e h).symm,
    fun h calls hle => denote_extends_evaluate (.inl hle) h, fun stop => ?_⟩
  have hfirst : FailsFirst (errors env room e) (denote env room e) := failsFirst_denote e
  cases hvalue : denote env room e with
  | ok v =>
    rw [hvalue] at hfirst
    rw [show errors env room e = [] from hfirst]
    exact ⟨nofun, nofun⟩
  | error first =>
    rw [hvalue] at hfirst
    rw [show (errors env room e).head? = some first from hfirst]
    constructor
    · intro h
      exact congrArg some (Except.error.inj h)
    · intro h
      exact congrArg Except.error (Option.some.inj h)

/-- Of two errors the left one is reported: that of `(1 // 0)` in `(1 // 0) + (x | f)`. -/
theorem evaluate_recursive_two_errors :
    let env : Env := ⟨.empty, .null, .active none⟩
    let quotient : Expr := .binary ⟨1, 7⟩ (.arithmetic .quotient) (.literal ⟨1, 2⟩ (.ofInteger 1))
      (.literal ⟨6, 7⟩ (.ofInteger 0))
    let piped : Expr := .binary ⟨12, 17⟩ .pipe (.symbol ⟨12, 13⟩ ['x']) (.symbol ⟨16, 17⟩ ['f'])
    let e : Expr :=
      .binary ⟨0, 18⟩ (.arithmetic .add) (.group ⟨0, 8⟩ quotient) (.group ⟨11, 18⟩ piped)
    let first : Stop := .fault (.located .dividedByZero 1)
    let second : Stop := .fault (.located .unsupportedFilter 16)
    errors env 0 e = [first, second] ∧ denote env 0 e = .error first ∧
      (8 ≤ 8 ∧ evaluate env 8 e ≠ .error .tooDeep) ∧ 0 + 5 * e.depth + 4 ≤ 14 ∧
      evaluate env 14 e = denote env 0 e ∧ evaluate env 8 e = denote env 8 e := by
  intro env quotient piped e first second
  have herrors : errors env 0 e = [first, second] := rfl
  obtain ⟨-, hlarge, hfirst⟩ := evaluate_recursive env 0 e
  obtain ⟨hsmall, -, -⟩ := evaluate_recursive env 8 e
  have hdenote : denote env 0 e = .error first := (hfirst first).mpr (by rw [herrors]; rfl)
  have hnot : (.error first : Result) ≠ .error .tooDeep := fun h =>
    nomatch (Except.error.inj h : Stop.fault (.located .dividedByZero 1) = .tooDeep)
  have hshallow : denote env 0 e ≠ .error .tooDeep := hdenote ▸ hnot
  have height : evaluate env 8 e ≠ .error .tooDeep := hnot
  exact ⟨herrors, hdenote, ⟨Nat.le_refl _, height⟩, by decide, hlarge hshallow 14 (by decide),
    hsmall 8 (Nat.le_refl _) height⟩

end Stencil.Expr
