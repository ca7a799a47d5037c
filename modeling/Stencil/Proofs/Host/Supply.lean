import Mathlib.Logic.Relation
import Stencil.Proofs.Expr.Environment
import Stencil.Proofs.Expr.Simulation
import Stencil.Proofs.Host.Display

/-!
# Iterators in the data

An iterator can stand in many places of the data, with the same items in each, as it is one object.
Evaluation finds nothing but what the data hold and what has nothing inside, and so it finds
iterators with these items only.
-/

namespace Stencil

/-! ## What a value holds -/

def Content.children : Content Host → List Host
  | plain => []
  | iterable items | iterator items | sequence items => items
  | mapping entries _ => entries.flatMap fun e => [e.1, e.2]

namespace Host

def children : Host → List Host
  | list _ items | tuple _ items | set _ items => items
  | dict _ entries => entries.flatMap fun e => [e.1, e.2]
  | object _ o => o.content.children ++ o.attributes.map Prod.snd
  | _ => []

def Holds : Host → Host → Prop := Relation.ReflTransGen fun h g => g ∈ h.children

def Iteration.items : Iteration → List Host
  | always items | once _ items => items

def iterator? (h : Host) : Option Identity :=
  match h.iteration? with
  | some (.once i _) => some i
  | _ => none

structure Atomic (h : Host) : Prop where
  children : h.children = []
  iterator : h.iterator? = none
  sequence : h.sequence? = none

section
variable {h g key : Host} {entries : List (Host × Host)} {i : Identity} {items : List Host}

theorem iterator_of_once (hitems : h.iteration? = some (.once i items)) : h.iterator? = some i := by
  rw [iterator?, hitems]

/-! ## What is found in a value -/

theorem mem_flatten_entries {e : Host × Host} (he : e ∈ entries) :
    e.1 ∈ entries.flatMap (fun e => [e.1, e.2]) ∧ e.2 ∈ entries.flatMap (fun e => [e.1, e.2]) :=
  ⟨List.mem_flatMap.mpr ⟨e, he, List.mem_cons_self⟩,
    List.mem_flatMap.mpr ⟨e, he, List.mem_cons_of_mem _ List.mem_cons_self⟩⟩

theorem entries_children (hentries : h.entries? = some entries) :
    ∀ e ∈ entries, e.1 ∈ h.children ∧ e.2 ∈ h.children := by
  intro e he
  cases h with
  | dict i es =>
    obtain rfl := Option.some.inj hentries
    exact mem_flatten_entries he
  | object i o =>
    obtain ⟨content, _, attributes, _, _, _⟩ := o
    cases content with
    | mapping es broken =>
      obtain rfl := Option.some.inj hentries
      have hmem : e ∈ es := by
        cases broken with
        | false => exact he
        | true => cases he
      exact ⟨List.mem_append_left _ (mem_flatten_entries hmem).1,
        List.mem_append_left _ (mem_flatten_entries hmem).2⟩
    | _ => cases hentries
  | _ => cases hentries

theorem lookup_mem (hg : lookup? key entries = some g) : ∃ e ∈ entries, e.2 = g := by
  unfold lookup? at hg
  split at hg
  · obtain ⟨e, he, hvalue⟩ := Option.map_eq_some_iff.mp hg
    exact ⟨e, List.mem_of_find?_eq_some he, hvalue⟩
  · cases hg

theorem lookup_children (hg : h.entries?.bind (lookup? key) = some g) : g ∈ h.children := by
  obtain ⟨entries, hentries, hlookup⟩ := Option.bind_eq_some_iff.mp hg
  obtain ⟨e, he, rfl⟩ := lookup_mem hlookup
  exact (entries_children hentries e he).2

theorem mem_of_lookup {attributes : List (Text × Host)} {name : Text}
    (hg : attributes.lookup name = some g) : g ∈ attributes.map Prod.snd := by
  obtain ⟨before, after, rfl, -⟩ := List.lookup_eq_some_iff.mp hg
  exact List.mem_map.mpr ⟨(name, g), by simp, rfl⟩

theorem integerMember_atomic {n : Int} {name : Text} (hg : integerMember? n name = some g) :
    g.Atomic := by
  unfold integerMember? at hg
  repeat' split at hg
  all_goals cases hg
  all_goals exact ⟨rfl, rfl, rfl⟩

theorem attribute_found {rendering : Rendering} {name : Text}
    (hg : h.attribute? rendering name = some g) : g ∈ h.children ∨ g.Atomic := by
  unfold attribute? at hg
  split at hg
  · cases hg
  cases h with
  | boolean | integer => exact .inr (integerMember_atomic hg)
  | float | range =>
    refine .inr ?_
    simp only at hg
    repeat' split at hg
    all_goals cases hg
    all_goals exact ⟨rfl, rfl, rfl⟩
  | object j o =>
    simp only at hg
    split at hg
    · cases hg
    split at hg
    · cases hg
      exact .inr ⟨rfl, rfl, rfl⟩
    split at hg
    · cases hg
    exact .inl (List.mem_append_right _ (mem_of_lookup hg))
  | _ => cases hg

theorem member_found {rendering : Rendering} {name : Text}
    (hg : h.member? rendering name = some g) : g ∈ h.children ∨ g.Atomic := by
  unfold member? at hg
  split at hg
  · rename_i value hvalue
    obtain rfl := Option.some.inj hg
    exact .inl (lookup_children hvalue)
  · exact attribute_found hg

theorem sequence_found {as : Items} (hs : h.sequence? = some as) {n : Nat}
    (hg : as.item n = some g) : g ∈ h.children ∨ g.Atomic := by
  cases h with
  | list j xs | tuple j xs =>
    obtain rfl := Option.some.inj hs
    exact .inl (List.mem_of_getElem? hg)
  | range j a b c =>
    obtain rfl := Option.some.inj hs
    obtain rfl := Option.some.inj hg
    exact .inr ⟨rfl, rfl, rfl⟩
  | object j o =>
    obtain ⟨content, _, attributes, _, _, _⟩ := o
    cases content with
    | sequence xs =>
      obtain rfl := Option.some.inj hs
      exact .inl (List.mem_append_left _ (List.mem_of_getElem? hg))
    | _ => cases hs
  | _ => cases hs

theorem item_found {index : Int} (hg : h.item? key index = some g) :
    g ∈ h.children ∨ g.Atomic := by
  unfold item? at hg
  split at hg
  · rename_i as hs
    split at hg
    · exact sequence_found hs hg
    · cases hg
  · exact .inl (lookup_children hg)

theorem iterator_children (hitems : h.iteration? = some (.once i items)) :
    ∀ g ∈ items, g ∈ h.children := by
  intro g hg
  cases h with
  | object j o =>
    obtain ⟨content, _, attributes, _, _, _⟩ := o
    cases content with
    | iterator xs =>
      cases hitems
      exact List.mem_append_left _ hg
    | _ => cases hitems
  | _ => cases hitems

theorem iterable_found (hitems : h.iteration? = some (.always items)) :
    ∀ g ∈ items, g ∈ h.children ∨ g.Atomic := by
  intro g hg
  have hkey {es : List (Host × Host)} (hg : g ∈ es.map Prod.fst) :
      g ∈ es.flatMap fun e => [e.1, e.2] := by
    obtain ⟨e, he, rfl⟩ := List.mem_map.mp hg
    exact (mem_flatten_entries he).1
  cases h with
  | list j xs | tuple j xs | set j xs =>
    cases hitems
    exact .inl hg
  | dict j es =>
    cases hitems
    exact .inl (hkey hg)
  | range j a b c =>
    cases hitems
    obtain ⟨n, -, rfl⟩ := List.mem_map.mp hg
    exact .inr ⟨rfl, rfl, rfl⟩
  | object j o =>
    obtain ⟨content, _, attributes, _, _, _⟩ := o
    cases content with
    | iterable xs | sequence xs =>
      cases hitems
      exact .inl (List.mem_append_left _ hg)
    | mapping es broken =>
      cases hitems
      exact .inl (List.mem_append_left _ (hkey hg))
    | _ => cases hitems
  | _ => cases hitems

end

theorem replace_found {value old new g : Host} (hg : Filter.replaceIn value old new = .ok g) :
    g = value ∨ g.Atomic := by
  unfold Filter.replaceIn at hg
  cases value with
  | text t =>
    obtain ⟨_, _, hg⟩ := bind_eq_ok.mp hg
    obtain ⟨_, _, hg⟩ := bind_eq_ok.mp hg
    cases hg
    exact .inr ⟨rfl, rfl, rfl⟩
  | bytes j content =>
    obtain ⟨_, _, hg⟩ := bind_eq_ok.mp hg
    obtain ⟨_, _, hg⟩ := bind_eq_ok.mp hg
    split at hg <;> cases hg
    · exact .inr ⟨rfl, rfl, rfl⟩
    · exact .inl rfl
  | object j o =>
    simp only at hg
    repeat' split at hg
    all_goals cases hg
  | _ => cases hg

/-! ## Properties that pass to what is inside -/

/-- The property holds of what is inside a value with it, and of all that has nothing inside. -/
structure Closed (P : Host → Prop) : Prop where
  child : ∀ {h g}, P h → g ∈ h.children → P g
  atomic : ∀ {h : Host}, h.Atomic → P h

section
variable {P : Host → Prop}

theorem related_self {o : Option Host} (h : ∀ g, o = some g → P g) :
    Option.Rel (fun h h' => h = h' ∧ P h) o o := by
  cases o with
  | none => exact .none
  | some g => exact .some ⟨rfl, h g rfl⟩

theorem forall₂_self {items : List Host} (h : ∀ g ∈ items, P g) :
    List.Forall₂ (fun h h' => h = h' ∧ P h) items items :=
  List.forall₂_same.mpr fun g hg => ⟨rfl, h g hg⟩

variable (hP : Closed P)
include hP

theorem Closed.found {h g : Host} (hh : P h) (hg : g ∈ h.children ∨ g.Atomic) : P g :=
  hg.elim (hP.child hh) hP.atomic

theorem Closed.filtered {name : Text} {filter : Filter} {v h : Host} {objects : List Host}
    (hv : P v) (hfilter : Filter.named? name = some filter) (hh : filter (v :: objects) = .ok h) :
    P h := by
  unfold Filter.named? at hfilter
  split at hfilter
  · obtain rfl := Option.some.inj hfilter
    unfold Filter.replace at hh
    split at hh
    · rename_i heq
      cases heq
      rcases replace_found hh with rfl | hatomic
      · exact hv
      · exact hP.atomic hatomic
    all_goals cases hh
  · cases hfilter

theorem Closed.iteration {h : Host} {items : Iteration} (hh : P h)
    (hitems : h.iteration? = some items) : ∀ g ∈ items.items, P g := by
  intro g hg
  cases items with
  | always items => exact hP.found hh (iterable_found hitems g hg)
  | once i items => exact hP.child hh (iterator_children hitems g hg)

/-- Evaluation gives values with the property where it is given values with it. -/
theorem simulation_closed : Simulation (fun h h' => h = h' ∧ P h) id where
  injective := Function.injective_id
  text _ := ⟨rfl, hP.atomic ⟨rfl, rfl, rfl⟩⟩
  integer _ := ⟨rfl, hP.atomic ⟨rfl, rfl, rfl⟩⟩
  float _ := ⟨rfl, hP.atomic ⟨rfl, rfl, rfl⟩⟩
  boolean _ := ⟨rfl, hP.atomic ⟨rfl, rfl, rfl⟩⟩
  ofHost := by
    rintro h _ calls ⟨rfl, hh⟩
    cases hv : Value.ofHost calls h with
    | error fault => exact .error fault
    | ok v =>
      refine .ok ⟨rfl, rfl, ?_⟩
      rcases Value.object_ofHost hv with hobject | ⟨n, hobject⟩
      · rwa [hobject]
      · rw [hobject]
        exact hP.atomic ⟨rfl, rfl, rfl⟩
  identical ha hb := by rw [ha.1, hb.1]
  member := by
    rintro h _ rendering name ⟨rfl, hh⟩
    exact related_self fun g hg => hP.found hh (member_found hg)
  item := by
    rintro h _ k _ index ⟨rfl, hh⟩ ⟨rfl, -⟩
    exact related_self fun g hg => hP.found hh (item_found hg)
  overlong _ h := by rw [h.1]
  iteration := by
    rintro h _ ⟨rfl, hh⟩
    cases hitems : h.iteration? with
    | none => exact .none
    | some iteration =>
      have hgood := hP.iteration hh hitems
      cases iteration with
      | always items => exact .some (.always (forall₂_self hgood))
      | once i items => exact .some (.once (forall₂_self hgood))
  replace := by
    rintro v _ o _ n _ ⟨rfl, hh⟩ ⟨rfl, -⟩ ⟨rfl, -⟩
    cases hg : Filter.replaceIn v o n with
    | error fault => exact .error fault
    | ok g =>
      refine .ok ⟨rfl, ?_⟩
      -- the filter gives its input back, or a new text
      rcases replace_found hg with rfl | hg
      · exact hh
      · exact hP.atomic hg

end

def Passes (data h : Host) : Prop := ∀ {P : Host → Prop}, Closed P → P data → P h

theorem passes_self (data : Host) : data.Passes data := fun _ hdata => hdata

theorem closed_passes (data : Host) : Closed data.Passes :=
  ⟨fun hh hg _ hP hdata => hP.child (hh hP hdata) hg, fun hh _ hP _ => hP.atomic hh⟩

/-! ## Iterators that stand in many places -/

/-- Wherever an iterator stands in the value, it has the items of the supply. -/
def Supplied (supply : Identity → List Host) (h : Host) : Prop :=
  ∀ g i items, h.Holds g → g.iteration? = some (.once i items) → items = supply i

section
variable {supply : Identity → List Host} {h g : Host}

theorem Supplied.items (hh : h.Supplied supply) {i : Identity} {items : List Host}
    (hitems : h.iteration? = some (.once i items)) : items = supply i :=
  hh h i items .refl hitems

theorem Supplied.child (hh : h.Supplied supply) (hg : g ∈ h.children) : g.Supplied supply :=
  fun k i items hk => hh k i items (.head hg hk)

theorem supplied_of_children (hitems : ∀ i items, h.iteration? = some (.once i items) →
    items = supply i) (hchildren : ∀ g ∈ h.children, g.Supplied supply) : h.Supplied supply := by
  intro k i items hk hiteration
  rcases hk.cases_head with rfl | ⟨g, hg, hk⟩
  · exact hitems i items hiteration
  · exact hchildren g hg k i items hk hiteration

/-- Without iterators any supply will do. -/
theorem supplied_of_none (hnone : ∀ g, h.Holds g → g.iterator? = none) : h.Supplied supply := by
  intro g i items hg hitems
  have hsome := iterator_of_once hitems
  rw [hnone g hg] at hsome
  cases hsome

theorem supplied_of_atomic (hh : h.Atomic) : h.Supplied supply := by
  refine supplied_of_children (fun i items hitems => ?_) ?_
  · have hsome := iterator_of_once hitems
    rw [hh.iterator] at hsome
    cases hsome
  · rw [hh.children]
    exact List.forall_mem_nil _

theorem closed_supplied (supply : Identity → List Host) : Closed (Supplied supply) :=
  ⟨Supplied.child, supplied_of_atomic⟩

theorem supplied_dict (i : Identity) {entries : List (Host × Host)}
    (h : ∀ e ∈ entries, e.1.Supplied supply ∧ e.2.Supplied supply) :
    (dict i entries).Supplied supply := by
  refine supplied_of_children (fun i items hitems => by cases hitems) fun g hg => ?_
  obtain ⟨e, he, hg⟩ := List.mem_flatMap.mp hg
  rcases List.mem_pair.mp hg with rfl | rfl
  · exact (h e he).1
  · exact (h e he).2

end

/-! ## Entries that are put together -/

section
variable {P : Host → Prop} {entries : List (Host × Host)}

theorem forall_insert {key value : Host} (hkey : P key) (hvalue : P value)
    (h : ∀ e ∈ entries, P e.1 ∧ P e.2) : ∀ e ∈ insert key value entries, P e.1 ∧ P e.2 := by
  induction entries with
  | nil => exact List.forall_mem_singleton.mpr ⟨hkey, hvalue⟩
  | cons e entries ih =>
    obtain ⟨he, hentries⟩ := List.forall_mem_cons.mp h
    rw [insert]
    split
    · exact List.forall_mem_cons.mpr ⟨⟨he.1, hvalue⟩, hentries⟩
    · exact List.forall_mem_cons.mpr ⟨he, ih hentries⟩

theorem forall_ofEntries (h : ∀ e ∈ entries, P e.1 ∧ P e.2) :
    ∀ e ∈ ofEntries entries, P e.1 ∧ P e.2 := by
  have hfold (added : List (Host × Host)) (hadded : ∀ e ∈ added, P e.1 ∧ P e.2) :
      ∀ es : List (Host × Host), (∀ e ∈ es, P e.1 ∧ P e.2) →
        ∀ e ∈ added.foldl (fun es e => insert e.1 e.2 es) es, P e.1 ∧ P e.2 := by
    induction added with
    | nil => exact fun _ hes => hes
    | cons a added ih =>
      obtain ⟨ha, hmore⟩ := List.forall_mem_cons.mp hadded
      exact fun es hes => ih hmore _ (forall_insert ha.1 ha.2 hes)
  exact hfold entries h [] (List.forall_mem_nil _)

end

end Host

/-! ## Values of expressions -/

structure Env.Each (P : Host → Prop) (env : Env) : Prop where
  data : P env.data
  locals : ∀ name h, env.locals.get? name = some h → P h

theorem Env.Each.set {P : Host → Prop} {env : Env} (henv : env.Each P) {item : Host}
    (hitem : P item) (name : Text) :
    Env.Each P { env with locals := env.locals.set name item } := by
  refine ⟨henv.data, fun n h hn => ?_⟩
  rw [Assoc.get?_set] at hn
  split at hn
  · obtain rfl := Option.some.inj hn
    exact hitem
  · exact henv.locals n h hn

theorem Env.Each.imp {P Q : Host → Prop} {env : Env} (henv : env.Each P) (h : ∀ g, P g → Q g) :
    env.Each Q :=
  ⟨h _ henv.data, fun name g hg => h g (henv.locals name g hg)⟩

theorem Env.Each.host {P : Host → Prop} {env : Env} (henv : env.Each P) (hP : Host.Closed P)
    {name : Text} {h : Host} (hh : env.host? name = some h) : P h := by
  rcases Option.or_eq_some_iff.mp hh with hlocal | ⟨-, hmember⟩
  · exact henv.locals name h hlocal
  · exact hP.found henv.data (Host.member_found hmember)

section
variable {P : Host → Prop} (hP : Host.Closed P) {env : Env} (henv : env.Each P)
include hP henv

theorem Expr.paired_closed (names : List Text) :
    Env.Paired (fun h h' => h = h' ∧ P h) names env env := by
  refine ⟨rfl, fun name _ calls => ?_⟩
  rw [env.resolve_eq]
  exact Expr.paired_ofHost? (Host.simulation_closed hP) calls
    (Host.related_self fun _ => henv.host hP)

theorem Expr.closed_evaluate {calls : Nat} {e : Expr} {v : Value}
    (hv : evaluate env calls e = .ok v) : P v.object := by
  have hpaired := Expr.paired_evaluateAfter (Host.simulation_closed hP) calls 0 e
    (Expr.paired_closed hP henv e.names)
  rw [show evaluateAfter env calls 0 e = .ok v from hv] at hpaired
  cases hpaired with | ok hvalue => exact hvalue.object.2

theorem Expr.closed_value {calls : Nat} {e : Expr} {v : Value}
    (hv : e.value env calls = .ok v) : P v.object := by
  unfold value at hv
  split at hv
  · cases hv
  split at hv
  · rename_i w heval
    obtain rfl := Except.ok.inj hv
    exact closed_evaluate hP henv heval
  · cases hv
  · cases hv

end

end Stencil
