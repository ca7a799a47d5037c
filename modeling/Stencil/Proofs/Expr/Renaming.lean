import Stencil.Proofs.Expr.Simulation

/-!
# Other names

A tree with other names for its values comes to the same, value or failure, in an environment where
each new name stands for what the old one stands for. The names of members and filters stay.
-/

namespace Stencil

structure Env.Along (σ : Text → Text) (names : List Text) (env env' : Env) : Prop where
  rendering : env'.rendering = env.rendering
  resolve : ∀ name ∈ names, ∀ calls, env'.resolve calls (σ name) = env.resolve calls name

theorem Env.Along.mono {σ : Text → Text} {few many : List Text} {env env' : Env}
    (h : Env.Along σ many env env') (hsub : few ⊆ many) : Env.Along σ few env env' :=
  ⟨h.rendering, fun name hname => h.resolve name (hsub hname)⟩

namespace Expr

mutual

/-- The tree with the name `σ name` for each name that stands for a value. -/
def rename (σ : Text → Text) : Expr → Expr
  | symbol s name => symbol s (σ name)
  | unary s op operand => unary s op (rename σ operand)
  | binary s op left right => binary s op (rename σ left) <| match op with
    | .member => right
    | .pipe => renameFilter σ right
    | _ => rename σ right
  | arguments s items => arguments s (renameAll σ items)
  | group s inner => group s (rename σ inner)
  | e => e

def renameFilter (σ : Text → Text) : Expr → Expr
  | binary s .call name list => binary s .call name (rename σ list)
  | e => e

def renameAll (σ : Text → Text) : List Expr → List Expr
  | [] => []
  | e :: es => rename σ e :: renameAll σ es

end

def Step.rename (σ : Text → Text) (s : Step) : Step :=
  { s with right := match s.op with
    | .member => s.right
    | .pipe => s.right.renameFilter σ
    | _ => s.right.rename σ }

section
variable (σ : Text → Text)

theorem rename_binary (s : Span) (op : BinaryOp) (left right : Expr) :
    (binary s op left right).rename σ =
      binary s op (left.rename σ) (Step.rename σ ⟨op, left.start, right⟩).right := by
  cases op <;> rfl

@[simp] theorem span_rename (e : Expr) : (e.rename σ).span = e.span := by
  cases e <;> rfl

@[simp] theorem start_rename (e : Expr) : (e.rename σ).start = e.start := by
  rw [start, span_rename, start]

@[simp] theorem start_renameFilter (e : Expr) : (e.renameFilter σ).start = e.start := by
  fun_cases renameFilter σ e <;> rfl

theorem callParts_rename (call : Expr) :
    callParts (call.renameFilter σ) =
      (callParts call).map fun (name, items) => (name, renameAll σ items) := by
  cases call with
  | binary s op target list =>
    cases op with
    | call =>
      cases target with
      | symbol t name => cases list <;> rfl
      | _ => rfl
    | _ => rfl
  | _ => rfl

end

theorem rename_primary {σ : Text → Text} {e : Expr}
    (h : ∀ s op left right, e ≠ binary s op left right) :
    ∀ s op left right, e.rename σ ≠ binary s op left right := by
  cases e with
  | binary s op left right => exact absurd rfl (h s op left right)
  | _ => nofun

/-! ## What trees come to -/

section
variable {σ : Text → Text} {env env' : Env}

section
variable {eval eval' : Expr → Result}
variable (ih : ∀ e : Expr, Env.Along σ e.names env env' → eval' (e.rename σ) = eval e)
include ih

theorem argumentObjects_rename {items : List Expr} (h : Env.Along σ (allNames items) env env') :
    argumentObjects eval' (renameAll σ items) = argumentObjects eval items := by
  induction items with
  | nil => rfl
  | cons e es hes =>
    have he := ih e (h.mono (names_subset_allNames List.mem_cons_self))
    have hrest := hes (h.mono (List.subset_append_right _ _))
    rw [renameAll, argumentObjects, argumentObjects, he, hrest]

theorem pipeInto_rename (calls : Nat) (v : Value) {call : Expr}
    (h : Env.Along σ call.filterNames env env') :
    pipeInto calls eval' v (call.renameFilter σ) = pipeInto calls eval v call := by
  rw [pipeInto, pipeInto, callParts_rename, start_renameFilter]
  cases hcall : callParts call with
  | error stop => rfl
  | ok parts =>
    obtain ⟨name, items⟩ := parts
    have hitems : allNames items ⊆ call.filterNames := by
      unfold callParts at hcall
      split at hcall <;> cases hcall
      · exact List.nil_subset _
      · exact List.Subset.refl _
    show (argumentObjects eval' (renameAll σ items) >>= _) = argumentObjects eval items >>= _
    rw [argumentObjects_rename ih (h.mono hitems)]

end

section
variable {eval eval' : Nat → Expr → Result}
variable (ih : ∀ (more : Nat) (e : Expr), Env.Along σ e.names env env' →
  eval' more (e.rename σ) = eval more e)
include ih

theorem apply_rename (calls : Nat) (v : Value) {s : Step} (h : Env.Along σ s.names env env') :
    apply env' calls eval' v (s.rename σ) = apply env calls eval v s := by
  obtain ⟨op, leftStart, right⟩ := s
  cases op with
  | member => simp only [apply, Step.rename, h.rendering]
  | pipe => exact pipeInto_rename (ih 2) calls v h
  | call => rfl
  | or | and | subscript | arithmetic op | comparison op =>
    simp only [apply, Step.rename, ih 0 right h]

theorem alongSpine_rename (calls : Nat) {e : Expr} (h : Env.Along σ e.names env env') :
    alongSpine env' calls eval' (e.rename σ) = alongSpine env calls eval e := by
  induction e using spine_induction with
  | binary s op left right hleft =>
    rw [names_binary] at h
    rw [rename_binary, alongSpine_binary, alongSpine_binary,
      hleft (h.mono (List.subset_append_left _ _)), start_rename]
    refine bind_congr fun v => ?_
    exact apply_rename (fun more => ih (more + 1)) _ v (h.mono (List.subset_append_right _ _))
  | primary e hb =>
    rw [alongSpine_primary _ _ _ hb, alongSpine_primary _ _ _ (rename_primary hb)]
    exact ih 0 e h

theorem handle_rename (calls : Nat) {e : Expr} (h : Env.Along σ e.names env env') :
    handle env' calls eval' (e.rename σ) = handle env calls eval e := by
  cases e with
  | symbol s name => exact congrArg shown (h.resolve name List.mem_cons_self calls)
  | unary s op operand => simp only [rename, handle, ih 0 operand h, start_rename]
  | group s inner => exact ih 0 inner h
  | binary s op left right =>
    have hspine := alongSpine_rename ih calls h
    rw [rename_binary] at hspine ⊢
    rw [handle_binary, handle_binary, hspine]
  | literal | arguments | other => rfl

end

theorem evaluateAfter_rename : ∀ (calls more : Nat) (e : Expr), Env.Along σ e.names env env' →
    evaluateAfter env' calls more (e.rename σ) = evaluateAfter env calls more e
  | 0, _, _, _ => rfl
  | calls + 1, more + 1, e, h => evaluateAfter_rename calls more e h
  | calls + 1, 0, _, h => handle_rename (fun more => evaluateAfter_rename calls (more + 1)) _ h

theorem value_rename (calls : Nat) {e : Expr} (h : Env.Along σ e.names env env') :
    (e.rename σ).value env' calls = e.value env calls := by
  have heval : evaluate env' (calls - 1) (e.rename σ) = evaluate env (calls - 1) e :=
    evaluateAfter_rename (calls - 1) 0 e h
  rw [value, value, heval, start_rename]

end

end Expr

end Stencil
