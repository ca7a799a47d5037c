import Stencil.Proofs.Block.Reading
import Stencil.Proofs.Decimal.Integer
import Stencil.Proofs.Expr.Environment
import Stencil.Proofs.Expr.Results
import Stencil.Proofs.Expr.Spine
import Stencil.Proofs.Host.Display

/-!
# Values agree with themselves

A value is known in several forms at once. Whatever an expression comes to, its forms are those of
the host value that stands for it.
-/

namespace Stencil

/-! ## Coherent values -/

namespace Value

/-- The forms are those of the object, displayed by so many calls, and an integer is within 64 bits
and its own object. -/
structure Coherent (calls : Nat) (v : Value) : Prop where
  forms : ofHost calls v.object = .ok v
  range : v.kind ≠ .float → Decimal.least ≤ v.integer ∧ v.integer ≤ Decimal.greatest
  whole : v.kind = .integer → v.object = .integer v.integer

theorem Coherent.mono {m n : Nat} {v : Value} (h : v.Coherent m) (hle : m ≤ n) : v.Coherent n :=
  ⟨(ofHost_extends hle _).ok h.forms, h.range, h.whole⟩

theorem Primitive.coherent {v : Value} (h : v.Primitive) (calls : Nat) : v.Coherent calls := by
  cases h with
  | text t => exact ⟨rfl, fun _ => Decimal.readInteger_range t, nofun⟩
  | integer n =>
    have hwrap : ofHost calls (.integer (Decimal.wrap n)) = .ok (ofInteger n) := by
      simp [ofHost, ofInteger, Forms.ofInteger]
    exact ⟨hwrap, fun _ => Decimal.wrap_range n, fun _ => rfl⟩
  | float x => exact ⟨rfl, fun hk => absurd rfl hk, nofun⟩
  | boolean b => exact ⟨rfl, fun _ => by cases b <;> decide, nofun⟩

theorem coherent_ofHost {calls : Nat} {h : Host} {v : Value} (hv : ofHost calls h = .ok v) :
    v.Coherent calls := by
  have hobject (hv' : ofObject (calls - 2) h = .ok v) : v.Coherent calls := by
    unfold ofObject at hv'
    split at hv'
    · cases hv'
      exact ⟨rfl, fun _ => Decimal.readInteger_range [], nofun⟩
    · obtain ⟨t, -, hv'⟩ := bind_eq_ok.mp hv'
      cases hv'
      exact ⟨hv, fun _ => Decimal.readInteger_range t, nofun⟩
  cases h with
  | text t => cases hv; exact (Primitive.text t).coherent calls
  | boolean b => cases hv; exact (Primitive.boolean b).coherent calls
  | integer n => cases hv; exact (Primitive.integer n).coherent calls
  | float i x => cases hv; exact ⟨rfl, fun h => absurd rfl h, nofun⟩
  | _ => exact hobject hv

/-- A floating point number is its own object, so its forms can be made again. -/
theorem Coherent.ofFloat {calls : Nat} {v : Value} (h : v.Coherent calls)
    (hkind : v.kind = .float) :
    (⟨.ofFloat v.float, v.object⟩ : Value) = v := by
  obtain ⟨f, x⟩ := v
  have hforms : ofHost calls x = .ok ⟨f, x⟩ := h.forms
  have hobject (hx : ofObject (calls - 2) x = .ok ⟨f, x⟩) : f.kind = .object := by
    unfold ofObject at hx
    split at hx
    · cases hx
      rfl
    · obtain ⟨t, -, hx⟩ := bind_eq_ok.mp hx
      cases hx
      rfl
  cases x with
  | float i x => cases hforms; rfl
  | text | boolean | integer =>
    exact nomatch (congrArg (·.kind) (Except.ok.inj hforms)).trans hkind
  | _ => exact nomatch (hobject hforms).symm.trans hkind

theorem coherent_ofHost? {calls : Nat} {h : Option Host} {v : Value}
    (hv : ofHost? calls h = .ok v) : v.Coherent calls := by
  cases h with
  | none => cases hv; exact (Primitive.text []).coherent calls
  | some h => exact coherent_ofHost hv

end Value

namespace Expr

/-! ## Operators -/

open Value (Coherent Primitive coherent_ofHost coherent_ofHost?)

theorem gives_shown {P : Value → Prop} {v : Except Host.DisplayFault Value}
    (h : ∀ w, v = .ok w → P w) : Gives P (shown v) :=
  fun w hw => h w (mapError_eq_ok.mp hw)

section
variable {calls limit : Nat}

theorem Gives.coherent {x : Result} (h : Gives Primitive x) : Gives (Coherent limit) x :=
  h.mono fun _ hv => hv.coherent limit

theorem coherent_applyUnary (op : UnaryOp) (offset : Nat) {v : Value} (h : v.Coherent limit) :
    Gives (Coherent limit) (applyUnary op offset v) := by
  refine (gives_applyUnary op offset v).mono fun w hw => ?_
  rcases hw with hw | ⟨hkind, rfl⟩
  · exact hw.coherent limit
  · rwa [h.ofFloat hkind]

variable (hle : calls ≤ limit)
include hle

theorem coherent_pipeInto (eval : Expr → Result) (v : Value) (call : Expr) :
    Gives (Coherent limit) (pipeInto calls eval v call) := by
  apply gives_bind
  rintro ⟨name, items⟩
  apply gives_bind
  intro objects
  split
  · exact gives_error _
  · split
    · exact gives_shown fun w hw => (coherent_ofHost hw).mono hle
    · exact gives_error _

theorem coherent_applySubscript (target key : Value) :
    Gives (Coherent limit) (applySubscript calls target key) := by
  unfold applySubscript
  split
  · exact gives_error _
  · exact gives_shown fun w hw => (coherent_ofHost? hw).mono hle

/-- What an operator comes to is made anew, from whatever operands. -/
theorem coherent_apply (env : Env) (eval : Nat → Expr → Result) (left : Value) (s : Step) :
    Gives (Coherent limit) (apply env calls eval left s) := by
  obtain ⟨op, leftStart, right⟩ := s
  cases op with
  | or | and =>
    simp only [apply]
    split
    · exact gives_ok ((Primitive.boolean _).coherent limit)
    · exact gives_bind fun v => gives_ok ((Primitive.boolean v.boolean).coherent limit)
  | member =>
    cases right with
    | symbol s name => exact gives_shown fun w hw => (coherent_ofHost? hw).mono hle
    | _ => exact gives_error _
  | subscript => exact gives_bind fun key => coherent_applySubscript hle left key
  | pipe => exact coherent_pipeInto hle (eval 2) left right
  | call => exact gives_error _
  | arithmetic op =>
    exact gives_bind fun v => (primitive_applyArithmetic op leftStart left v).coherent
  | comparison op =>
    exact gives_bind fun v => (primitive_applyComparison op leftStart left v).coherent

end

/-! ## Literals -/

theorem value_ofText (t : Text) : (Forms.ofText t).value = .ofText t := rfl

theorem value_ofInteger (n : Int) : (Forms.ofInteger n).value = .ofInteger n := rfl

theorem value_ofFloat (x : Float) : (Forms.ofFloat x).value = .ofFloat x := rfl

theorem value_ofBoolean (b : Bool) : (Forms.ofBoolean b).value = .ofBoolean b := rfl

theorem primitive_literal {t : Token} {f : Forms} (h : t.Denotes f) : f.value.Primitive := by
  unfold Token.Denotes at h
  split at h
  · rw [h, value_ofText]; exact .text _
  · rw [h.2, value_ofInteger]; exact .integer _
  · rw [h.2, value_ofFloat]; exact .float _
  · rw [h, value_ofBoolean]; exact .boolean true
  · rw [h, value_ofBoolean]; exact .boolean false
  · exact h.elim

def Literate (e : Expr) : Prop := ∀ s f, literal s f ∈ e.nodes → f.value.Primitive

theorem Literate.of_node {e d : Expr} (h : e.Literate) (hd : d ∈ e.nodes) : d.Literate :=
  fun s f hf => h s f (nodes_subset hd hf)

theorem Reads.literate {e : Expr} {ts : List Token} (h : e.Reads ts) : e.Literate := by
  intro s f hf
  obtain ⟨us, -, hus⟩ := h.nodes _ hf
  cases hus with
  | literal hd => exact primitive_literal hd

/-! ## Expressions -/

section
variable {env : Env}

theorem coherent_handle {calls limit : Nat} (hle : calls ≤ limit) {eval : Nat → Expr → Result}
    (ih : ∀ more d, d.Literate → Gives (Coherent limit) (eval more d)) {e : Expr} (h : e.Literate)
    (hb : ∀ s op left right, e ≠ binary s op left right) :
    Gives (Coherent limit) (handle env calls eval e) := by
  cases e with
  | literal s f => exact gives_ok ((h s f List.mem_cons_self).coherent limit)
  | symbol s name =>
    rw [handle, env.resolve_eq]
    exact gives_shown fun w hw => (coherent_ofHost? hw).mono hle
  | unary s op operand =>
    intro w hw
    obtain ⟨v, hv, hsign⟩ := bind_eq_ok.mp hw
    have hoperand : operand.Literate := h.of_node (by simp [nodes])
    exact coherent_applyUnary op operand.start (ih 0 operand hoperand v hv) w hsign
  | group s inner => exact ih 0 inner (h.of_node (by simp [nodes]))
  | binary s op left right => exact absurd rfl (hb s op left right)
  | _ => exact gives_error _

theorem evaluate_coherent (env : Env) : ∀ {calls limit : Nat}, calls ≤ limit → ∀ e : Expr,
    e.Literate → Gives (Coherent limit) (evaluate env calls e)
  | 0, _, _, _, _ => gives_error _
  | calls + 1, limit, hle, e, he => by
    have ih (more : Nat) (d : Expr) (hd : d.Literate) :
        Gives (Coherent limit) (further env (calls - 1) more d) :=
      evaluate_coherent env (by omega) d hd
    rw [evaluate_succ]
    rcases eq_binary_or e with ⟨s, op, left, right, rfl⟩ | hb
    · -- the operator on top has the last word
      rw [handle_binary, alongSpine_binary]
      exact gives_bind fun a => coherent_apply (by omega) env _ a _
    · exact coherent_handle (by omega) ih he hb
termination_by calls => calls

end

end Expr

/-- **Values agree with themselves.** Whatever a node of an expression of a parsed template comes
to, in whatever environment, is the value of its object, and an integer is its own object. -/
theorem template_values_coherent {stack : Stack} {source : Text} {blocks : List Block}
    (h : parse stack source = .ok blocks) {e d : Expr} (he : e ∈ Block.allExpressions blocks)
    (hd : d ∈ e.nodes) (env : Env) (calls : Nat) (v : Value)
    (hv : Expr.evaluate env calls d = .ok v) :
    Value.ofHost calls v.object = .ok v ∧
      (v.kind ≠ .float → Decimal.least ≤ v.integer ∧ v.integer ≤ Decimal.greatest) ∧
      (v.kind = .integer → v.object = .integer v.integer) := by
  obtain ⟨_, _, ts, hl, -⟩ := located_of_mem h ((Block.allExpressions_sublist blocks).subset he)
  have hcoherent :=
    Expr.evaluate_coherent env (Nat.le_refl calls) d (hl.phrase.reads.literate.of_node hd) v hv
  exact ⟨hcoherent.forms, hcoherent.range, hcoherent.whole⟩

theorem template_values_coherent_wrapped :
    let source := "\x7b\x7b x + 1 \x7d\x7d".toList
    let e : Expr := .binary ⟨3, 8⟩ (.arithmetic .add) (.symbol ⟨3, 4⟩ ['x'])
      (.literal ⟨7, 8⟩ (.ofInteger 1))
    let env : Env := ⟨.empty, .dict .fresh [(.text ['x'], .integer Decimal.greatest)], .active none⟩
    let v := Value.ofInteger (Decimal.greatest + 1)
    parse .least source = .ok [.output ⟨0, 11⟩ e] ∧ e ∈ Block.allExpressions [.output ⟨0, 11⟩ e] ∧
      e ∈ e.nodes ∧ e.evaluate env 4 = .ok v ∧ v.integer = Decimal.least ∧
      Value.ofHost 4 v.object = .ok v ∧
      (v.kind ≠ .float → Decimal.least ≤ v.integer ∧ v.integer ≤ Decimal.greatest) ∧
      (v.kind = .integer → v.object = .integer v.integer) := by
  intro source e env v
  have hparse : parse .least source = .ok [.output ⟨0, 11⟩ e] := by
    subst source e
    with_unfolding_all rfl
  have he : e ∈ Block.allExpressions [.output ⟨0, 11⟩ e] := List.mem_cons_self
  have hvalue : e.evaluate env 4 = .ok v := rfl
  exact ⟨hparse, he, e.self_mem_nodes, hvalue, by decide,
    template_values_coherent hparse he e.self_mem_nodes env 4 v hvalue⟩

end Stencil
