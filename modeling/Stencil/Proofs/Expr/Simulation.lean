import Stencil.Proofs.Expr.Results
import Stencil.Proofs.Expr.Spine
import Mathlib.Data.List.Forall2
import Mathlib.Data.Option.Basic

/-!
# Two evaluations

A relation between hosts simulates if no access tells related hosts apart. An expression then comes
to related values, or to the same failure, in environments that relate what its names stand for.
-/

namespace Stencil

theorem paired_of_gives {α : Type} {R : α → α → Prop} {x : Except Expr.Stop α}
    (h : Expr.Gives (fun a => R a a) x) : Paired R x x := by
  cases x with
  | ok a => exact .ok (h a rfl)
  | error e => exact .error e

theorem related_getElem? {α β : Type} {R : α → β → Prop} {as : List α} {bs : List β}
    (h : List.Forall₂ R as bs) (i : Nat) : Option.Rel R as[i]? bs[i]? := by
  induction h generalizing i with
  | nil => exact .none
  | cons hab _ ih =>
    cases i with
    | zero => exact .some hab
    | succ i => exact ih i

/-! ## Simulations -/

structure Value.Paired (R : Host → Host → Prop) (v v' : Value) : Prop where
  forms : v.toForms = v'.toForms
  object : R v.object v'.object

inductive Host.Iteration.Paired (R : Host → Host → Prop) (ι : Identity → Identity) :
    Host.Iteration → Host.Iteration → Prop
  | always {xs ys} : List.Forall₂ R xs ys → Paired R ι (.always xs) (.always ys)
  | once {i xs ys} : List.Forall₂ R xs ys → Paired R ι (.once i xs) (.once (ι i) ys)

/-- No access tells related hosts apart. An iterator `i` of the one run stands for `ι i` of the
other. -/
structure Host.Simulation (R : Host → Host → Prop) (ι : Identity → Identity) : Prop where
  injective : Function.Injective ι
  text (t : Text) : R (.text t) (.text t)
  integer (n : Int) : R (.integer n) (.integer n)
  float (x : Float) : R (.float .fresh x) (.float .fresh x)
  boolean (b : Bool) : R (.boolean b) (.boolean b)
  ofHost {h h'} (calls) : R h h' →
    Stencil.Paired (Value.Paired R) (Value.ofHost calls h) (Value.ofHost calls h')
  identical {a a' b b'} : R a a' → R b b' → a.identical b = a'.identical b'
  member {h h'} (rendering name) : R h h' →
    Option.Rel R (h.member? rendering name) (h'.member? rendering name)
  item {h h' k k'} (index) : R h h' → R k k' → Option.Rel R (h.item? k index) (h'.item? k' index)
  overlong {h h'} (index) : R h h' → h.overlong index = h'.overlong index
  iteration {h h'} : R h h' → Option.Rel (Host.Iteration.Paired R ι) h.iteration? h'.iteration?
  replace {v v' o o' n n'} : R v v' → R o o' → R n n' →
    Stencil.Paired R (Filter.replaceIn v o n) (Filter.replaceIn v' o' n')

namespace Expr

/-! ## The names of an expression -/

mutual

/-- The symbols of a tree that stand for values, so not those that name a member or a filter. -/
def names : Expr → List Text
  | literal .. | other .. => []
  | symbol _ name => [name]
  | unary _ _ operand => names operand
  | binary _ op left right => names left ++ match op with
    | .member => []
    | .pipe => filterNames right
    | _ => names right
  | arguments _ items => allNames items
  | group _ inner => names inner

def filterNames : Expr → List Text
  | binary _ .call _ list => names list
  | _ => []

def allNames : List Expr → List Text
  | [] => []
  | e :: es => names e ++ allNames es

end

theorem names_subset_allNames {e : Expr} {es : List Expr} (h : e ∈ es) :
    e.names ⊆ allNames es := by
  induction es with
  | nil => cases h
  | cons d es ih =>
    rw [allNames]
    rcases List.mem_cons.mp h with rfl | h
    · exact List.subset_append_left _ _
    · exact List.subset_append_of_subset_right _ (ih h)

def Step.names (s : Step) : List Text :=
  match s.op with
  | .member => []
  | .pipe => s.right.filterNames
  | _ => s.right.names

theorem names_binary (s : Span) (op : BinaryOp) (left right : Expr) :
    (binary s op left right).names = left.names ++ Step.names ⟨op, left.start, right⟩ := by
  cases op <;> simp only [names, Step.names]

end Expr

structure Env.Paired (R : Host → Host → Prop) (names : List Text) (env env' : Env) : Prop where
  rendering : env.rendering = env'.rendering
  resolve : ∀ name ∈ names, ∀ calls,
    Stencil.Paired (Value.Paired R) (env.resolve calls name) (env'.resolve calls name)

theorem Env.Paired.mono {R : Host → Host → Prop} {few many : List Text} {env env' : Env}
    (h : Env.Paired R many env env') (hsub : few ⊆ many) : Env.Paired R few env env' :=
  ⟨h.rendering, fun name hname => h.resolve name (hsub hname)⟩

namespace Expr

section
variable {R : Host → Host → Prop} {ι : Identity → Identity} (hR : Host.Simulation R ι)
include hR

/-! ## Values that are made anew -/

theorem paired_primitive {v : Value} (h : v.Primitive) : v.Paired R v := by
  cases h with
  | text t => exact ⟨rfl, hR.text t⟩
  | integer n => exact ⟨rfl, hR.integer _⟩
  | float x => exact ⟨rfl, hR.float x⟩
  | boolean b => exact ⟨rfl, hR.boolean b⟩

theorem paired_gives {x : Result} (h : Gives Value.Primitive x) :
    Paired (Value.Paired R) x x :=
  paired_of_gives (h.mono fun _ => paired_primitive hR)

theorem paired_literal (f : Forms) : f.value.Paired R f.value := by
  unfold Forms.value
  split
  · exact ⟨rfl, hR.text _⟩
  · exact ⟨rfl, hR.integer _⟩
  · exact ⟨rfl, hR.float _⟩
  · exact ⟨rfl, hR.boolean _⟩
  · exact ⟨rfl, hR.boolean _⟩

theorem paired_ofHost? (calls : Nat) {h h' : Option Host} (hh : Option.Rel R h h') :
    Paired (Value.Paired R) (Value.ofHost? calls h) (Value.ofHost? calls h') := by
  cases hh with
  | none => exact .ok (paired_primitive hR (.text []))
  | some hh => exact hR.ofHost calls hh

/-! ## Operators -/

section
variable {v v' w w' : Value} (hv : v.Paired R v') (hw : w.Paired R w')
include hv

theorem paired_applyUnary (op : UnaryOp) (offset : Nat) :
    Paired (Value.Paired R) (applyUnary op offset v) (applyUnary op offset v') := by
  obtain ⟨f, x⟩ := v
  obtain ⟨f', x'⟩ := v'
  obtain rfl : f = f' := hv.forms
  have hmade {w : Value} (hw : w.Primitive) : Paired (Value.Paired R) (.ok w : Result) (.ok w) :=
    .ok (paired_primitive hR hw)
  cases op with
  | not => exact hmade (.boolean _)
  | positive | negative =>
    unfold applyUnary
    cases f.kind with
    | integer => exact hmade (.integer _)
    | float => first | exact hmade (.float _) | exact .ok ⟨rfl, hv.object⟩
    | string | boolean | object => exact .error _

include hw

theorem paired_applyArithmetic (op : Arithmetic) (offset : Nat) :
    Paired (Value.Paired R) (applyArithmetic op offset v w) (applyArithmetic op offset v' w') := by
  obtain ⟨f, x⟩ := v
  obtain ⟨f', x'⟩ := v'
  obtain ⟨g, y⟩ := w
  obtain ⟨g', y'⟩ := w'
  obtain rfl : f = f' := hv.forms
  obtain rfl : g = g' := hw.forms
  rw [applyArithmetic_forms f g op offset x x' y y']
  exact paired_gives hR (primitive_applyArithmetic op offset _ _)

theorem paired_applyComparison (op : Comparison) (offset : Nat) :
    Paired (Value.Paired R) (applyComparison op offset v w) (applyComparison op offset v' w') := by
  obtain ⟨f, x⟩ := v
  obtain ⟨f', x'⟩ := v'
  obtain ⟨g, y⟩ := w
  obtain ⟨g', y'⟩ := w'
  obtain rfl : f = f' := hv.forms
  obtain rfl : g = g' := hw.forms
  rw [applyComparison_forms f g op offset (hR.identical hv.object hw.object)]
  exact paired_gives hR (primitive_applyComparison op offset _ _)

theorem paired_applySubscript (calls : Nat) :
    Paired (Value.Paired R) (applySubscript calls v w) (applySubscript calls v' w') := by
  have hindex : w.integer = w'.integer := congrArg Forms.integer hw.forms
  unfold applySubscript
  rw [hR.overlong w.integer hv.object, hindex]
  split
  · exact .error _
  · exact (paired_ofHost? hR calls (hR.item _ hv.object hw.object)).mapError _

end

/-! ## Filters -/

theorem paired_filter {name : Text} {filter : Filter} (hf : Filter.named? name = some filter)
    {hs hs' : List Host} (h : List.Forall₂ R hs hs') :
    Paired R (filter hs) (filter hs') := by
  unfold Filter.named? at hf
  split at hf
  · obtain rfl := Option.some.inj hf
    unfold Filter.replace
    rcases h with _ | ⟨ha, _ | ⟨hb, _ | ⟨hc, _ | ⟨hd, hmore⟩⟩⟩⟩
    · exact .error _
    · exact .error _
    · exact .error _
    · exact hR.replace ha hb hc
    · simp only [List.length_cons, hmore.length_eq]
      exact .error _
  · cases hf

section
variable {env env' : Env} {eval eval' : Expr → Result}
variable (ih : ∀ e : Expr, Env.Paired R e.names env env' →
  Paired (Value.Paired R) (eval e) (eval' e))
include ih

omit hR in
theorem paired_argumentObjects {items : List Expr} (h : Env.Paired R (allNames items) env env') :
    Paired (List.Forall₂ R) (argumentObjects eval items) (argumentObjects eval' items) := by
  induction items with
  | nil => exact .ok .nil
  | cons e es hes =>
    have he := ih e (h.mono (names_subset_allNames List.mem_cons_self))
    have hmore := hes (h.mono (List.subset_append_right _ _))
    exact he.bind fun v v' hv => hmore.bind fun os os' hos => paired_pure (.cons hv.object hos)

theorem paired_pipeInto (calls : Nat) {v v' : Value} (hv : v.Paired R v') {call : Expr}
    (h : Env.Paired R call.filterNames env env') :
    Paired (Value.Paired R) (pipeInto calls eval v call) (pipeInto calls eval' v' call) := by
  unfold pipeInto
  cases hcall : callParts call with
  | error stop => exact .error stop
  | ok parts =>
    obtain ⟨name, items⟩ := parts
    have hitems : allNames items ⊆ call.filterNames := by
      unfold callParts at hcall
      split at hcall <;> cases hcall
      · exact List.nil_subset _
      · exact List.Subset.refl _
    apply (paired_argumentObjects ih (h.mono hitems)).bind
    intro objects objects' hobjects
    cases hfilter : Filter.named? name with
    | none => exact .error _
    | some filter =>
      have hfiltered := paired_filter hR hfilter (.cons hv.object hobjects)
      simp only
      revert hfiltered
      cases filter (v.object :: objects) <;> cases filter (v'.object :: objects') <;>
        intro hfiltered <;> cases hfiltered
      · exact .error _
      · rename_i hh; exact (hR.ofHost calls hh).mapError _

end

/-! ## Expressions -/

section
variable {env env' : Env} {eval eval' : Nat → Expr → Result}
variable (ih : ∀ (more : Nat) (e : Expr), Env.Paired R e.names env env' →
  Paired (Value.Paired R) (eval more e) (eval' more e))
include ih

theorem paired_apply (calls : Nat) {v v' : Value} (hv : v.Paired R v') {s : Step}
    (h : Env.Paired R s.names env env') :
    Paired (Value.Paired R) (apply env calls eval v s) (apply env' calls eval' v' s) := by
  have hboolean : v.boolean = v'.boolean := congrArg Forms.boolean hv.forms
  obtain ⟨op, leftStart, right⟩ := s
  cases op with
  | or | and =>
    simp only [apply, hboolean]
    split
    · exact .ok (paired_primitive hR (.boolean _))
    · refine (ih 0 right h).bind fun w w' hw => ?_
      rw [show w.boolean = w'.boolean from congrArg Forms.boolean hw.forms]
      exact .ok (paired_primitive hR (.boolean _))
  | member =>
    cases right with
    | symbol _ name =>
      simp only [apply, h.rendering]
      exact (paired_ofHost? hR calls (hR.member _ name hv.object)).mapError _
    | _ => exact .error _
  | subscript => exact (ih 0 right h).bind fun _ _ hkey => paired_applySubscript hR hv hkey calls
  | pipe => exact paired_pipeInto hR (ih 2) calls hv h
  | call => exact .error _
  | arithmetic op =>
    exact (ih 0 right h).bind fun _ _ hw => paired_applyArithmetic hR hv hw op leftStart
  | comparison op =>
    exact (ih 0 right h).bind fun _ _ hw => paired_applyComparison hR hv hw op leftStart

theorem paired_alongSpine (calls : Nat) {e : Expr} (h : Env.Paired R e.names env env') :
    Paired (Value.Paired R) (alongSpine env calls eval e) (alongSpine env' calls eval' e) := by
  induction e using spine_induction with
  | binary s op left right hleft =>
    rw [names_binary] at h
    refine (hleft (h.mono (List.subset_append_left _ _))).bind fun v v' hv => ?_
    exact paired_apply hR (fun more => ih (more + 1)) (calls - 1) hv
      (h.mono (List.subset_append_right _ _))
  | primary e hb =>
    rw [alongSpine_primary _ _ _ hb, alongSpine_primary _ _ _ hb]
    exact ih 0 e h

theorem paired_handle (calls : Nat) {e : Expr} (h : Env.Paired R e.names env env') :
    Paired (Value.Paired R) (handle env calls eval e) (handle env' calls eval' e) := by
  cases e with
  | literal _ forms => exact .ok (paired_literal hR forms)
  | symbol _ name => exact (h.resolve name List.mem_cons_self calls).mapError _
  | unary _ op operand =>
    exact (ih 0 operand h).bind fun _ _ hv => paired_applyUnary hR hv op operand.start
  | binary s op left right =>
    rw [handle_binary, handle_binary]
    exact paired_alongSpine hR ih calls h
  | group _ inner => exact ih 0 inner h
  | arguments | other => exact .error _

end

theorem paired_evaluateAfter {env env' : Env} : ∀ (calls more : Nat) (e : Expr),
    Env.Paired R e.names env env' →
    Paired (Value.Paired R) (evaluateAfter env calls more e) (evaluateAfter env' calls more e)
  | 0, _, _, _ => .error _
  | calls + 1, more + 1, e, h => paired_evaluateAfter calls more e h
  | calls + 1, 0, _, h =>
    paired_handle hR (fun more => paired_evaluateAfter calls (more + 1)) (calls - 1) h

theorem paired_value {env env' : Env} (calls : Nat) {e : Expr}
    (h : Env.Paired R e.names env env') :
    Paired (Value.Paired R) (e.value env calls) (e.value env' calls) := by
  have heval : Paired (Value.Paired R) (evaluate env (calls - 1) e) (evaluate env' (calls - 1) e) :=
    paired_evaluateAfter hR (calls - 1) 0 e h
  unfold value
  split
  · exact .error _
  revert heval
  generalize evaluate env (calls - 1) e = x
  generalize evaluate env' (calls - 1) e = x'
  intro heval
  cases heval with
  | ok hv => exact .ok hv
  | error stop => cases stop <;> exact .error _

end

end Expr

end Stencil
