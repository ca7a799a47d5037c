import Stencil.Host.Access
import Stencil.Host.Display
import Stencil.Proofs.Expr.Simulation

/-!
# Twins

Two hosts are twins if they are built alike and display alike, with objects of the one for those of
the other, and differ at most in what is private to corresponding objects. No access tells twins
apart.
-/

namespace Stencil

def Identity.map (ρ : Nat → Nat) : Identity → Identity
  | known number => known (ρ number)
  | fresh => fresh

theorem Identity.map_injective {ρ : Nat → Nat} (hρ : Function.Injective ρ) :
    Function.Injective (Identity.map ρ) := by
  intro i j h
  cases i <;> cases j <;> simp_all [Identity.map, hρ.eq_iff]

theorem Identity.same_map {ρ : Nat → Nat} (hρ : Function.Injective ρ) (i j : Identity) :
    (i.map ρ).same (j.map ρ) = i.same j := by
  cases i <;> cases j <;> simp [Identity.map, Identity.same, hρ.eq_iff]

/-- The same public names have attributes, getters that fail and getters that tell the template.
Methods count only where they are named like an attribute, or `replace`. -/
structure HostObject.Alike {α : Type} (o o' : HostObject α) : Prop where
  display : o.display = o'.display
  attributes : ∀ name, Host.isPublic name = true →
    (o.attributes.lookup name).isSome = (o'.attributes.lookup name).isSome
  raises : ∀ name, Host.isPublic name = true → o.raises.contains name = o'.raises.contains name
  watches : ∀ name, Host.isPublic name = true → o.watches.contains name = o'.watches.contains name
  methods : ∀ name, Host.isPublic name = true →
    (o.attributes.lookup name).isSome = true ∨ name = "replace".toList →
    o.methods.contains name = o'.methods.contains name

namespace Host

mutual

/-- The second host is the first one with other objects for its objects, by `ρ`, and perhaps other
private attributes. -/
inductive Twin (ρ : Nat → Nat) : Host → Host → Prop
  | null : Twin ρ null null
  | boolean (b) : Twin ρ (boolean b) (boolean b)
  | integer (n) : Twin ρ (integer n) (integer n)
  | float (i x) : Twin ρ (float i x) (float (i.map ρ) x)
  | text (t) : Twin ρ (text t) (text t)
  | list (i) {xs ys} : Twins ρ xs ys → Twin ρ (list i xs) (list (i.map ρ) ys)
  | tuple (i) {xs ys} : Twins ρ xs ys → Twin ρ (tuple i xs) (tuple (i.map ρ) ys)
  | set (i) {xs ys} : Twins ρ xs ys → Twin ρ (set i xs) (set (i.map ρ) ys)
  | dict (i) {xs ys} : TwinEntries ρ xs ys → Twin ρ (dict i xs) (dict (i.map ρ) ys)
  | bytes (i content) : Twin ρ (bytes i content) (bytes (i.map ρ) content)
  | range (i a b c) : Twin ρ (range i a b c) (range (i.map ρ) a b c)
  | object (i) {o o'} : o.Alike o' → TwinContent ρ o.content o'.content →
      (∀ name x y, isPublic name = true → o.attributes.lookup name = some x →
        o'.attributes.lookup name = some y → Twin ρ x y) →
      Twin ρ (object i o) (object (i.map ρ) o')

inductive Twins (ρ : Nat → Nat) : List Host → List Host → Prop
  | nil : Twins ρ [] []
  | cons {x y xs ys} : Twin ρ x y → Twins ρ xs ys → Twins ρ (x :: xs) (y :: ys)

inductive TwinEntries (ρ : Nat → Nat) : List (Host × Host) → List (Host × Host) → Prop
  | nil : TwinEntries ρ [] []
  | cons {k l x y es fs} : Twin ρ k l → Twin ρ x y → TwinEntries ρ es fs →
      TwinEntries ρ ((k, x) :: es) ((l, y) :: fs)

inductive TwinContent (ρ : Nat → Nat) : Content Host → Content Host → Prop
  | plain : TwinContent ρ .plain .plain
  | iterable {xs ys} : Twins ρ xs ys → TwinContent ρ (.iterable xs) (.iterable ys)
  | iterator {xs ys} : Twins ρ xs ys → TwinContent ρ (.iterator xs) (.iterator ys)
  | sequence {xs ys} : Twins ρ xs ys → TwinContent ρ (.sequence xs) (.sequence ys)
  | mapping {es fs} (broken) : TwinEntries ρ es fs →
      TwinContent ρ (.mapping es broken) (.mapping fs broken)

end

section
variable {ρ : Nat → Nat}

theorem Twins.forall₂ {xs ys : List Host} (h : Twins ρ xs ys) : List.Forall₂ (Twin ρ) xs ys := by
  induction xs generalizing ys with
  | nil => cases h; exact .nil
  | cons x xs ih => cases h with | cons hx hxs => exact .cons hx (ih hxs)

/-! ## Display -/

mutual

theorem Twin.inner_eq : ∀ {h h' : Host}, Twin ρ h h' → ∀ calls, h.inner calls = h'.inner calls
  | _, _, ht, 0 => by cases ht <;> rfl
  | _, _, .null, _ + 1 | _, _, .boolean _, _ + 1 | _, _, .integer _, _ + 1 => rfl
  | _, _, .float _ _, _ + 1 | _, _, .text _, _ + 1 => rfl
  | _, _, .bytes _ _, _ + 1 | _, _, .range _ _ _ _, _ + 1 => rfl
  | _, _, .list _ hs, _ + 1 | _, _, .tuple _ hs, _ + 1 | _, _, .set _ hs, _ + 1 => by
    simp only [inner, hs.inners_eq]
  | _, _, .dict _ hs, _ + 1 => by simp only [inner, hs.innerEntries_eq]
  | _, _, .object _ ha _ _, _ + 1 => by simp only [inner, ha.display]

theorem Twins.inners_eq : ∀ {xs ys : List Host}, Twins ρ xs ys →
    ∀ calls, inners xs calls = inners ys calls
  | _, _, .nil, _ => rfl
  | _, _, .cons h hs, _ => by simp only [inners, h.inner_eq, hs.inners_eq]

theorem TwinEntries.innerEntries_eq : ∀ {es fs : List (Host × Host)}, TwinEntries ρ es fs →
    ∀ calls, innerEntries es calls = innerEntries fs calls
  | _, _, .nil, _ => rfl
  | _, _, .cons hk hx hs, _ => by
    simp only [innerEntries, hk.inner_eq, hx.inner_eq, hs.innerEntries_eq]

end

theorem Twin.display_eq {h h' : Host} (ht : Twin ρ h h') (calls : Nat) :
    h.display calls = h'.display calls := by
  have hinner := ht.inner_eq calls
  cases ht with
  | text t => rfl
  | _ => exact hinner

/-! ## Types, identity and keys -/

theorem Twin.typeName_eq {h h' : Host} (ht : Twin ρ h h') : h.typeName = h'.typeName := by
  cases ht with
  | @object i o o' ha hc hat =>
    obtain ⟨c, _, _, _, _, _⟩ := o
    obtain ⟨c', _, _, _, _, _⟩ := o'
    replace hc : TwinContent ρ c c' := hc
    cases hc <;> rfl
  | _ => rfl

theorem Twin.identical_eq (hρ : Function.Injective ρ) {a a' b b' : Host} (ha : Twin ρ a a')
    (hb : Twin ρ b b') : a.identical b = a'.identical b' := by
  cases ha <;> cases hb <;> simp [identical, identity?, Identity.same_map hρ]

mutual

theorem Twin.isKey_eq : ∀ {h h' : Host}, Twin ρ h h' → h.isKey = h'.isKey
  | _, _, .null | _, _, .boolean _ | _, _, .integer _ | _, _, .float _ _ | _, _, .text _ => rfl
  | _, _, .bytes _ _ | _, _, .range _ _ _ _ => rfl
  | _, _, .list _ _ | _, _, .set _ _ | _, _, .dict _ _ => rfl
  | _, _, .tuple _ hs => by simp only [isKey, hs.areKeys_eq]
  | _, _, @Twin.object _ _ o o' _ hc _ => by
    obtain ⟨c, _, _, _, _, _⟩ := o
    obtain ⟨c', _, _, _, _, _⟩ := o'
    replace hc : TwinContent ρ c c' := hc
    cases hc <;> rfl

theorem Twins.areKeys_eq : ∀ {xs ys : List Host}, Twins ρ xs ys → areKeys xs = areKeys ys
  | _, _, .nil => rfl
  | _, _, .cons h hs => by simp only [areKeys, h.isKey_eq, hs.areKeys_eq]

end

mutual

theorem Twin.sameKey_eq (hρ : Function.Injective ρ) : ∀ {a a' b b' : Host}, Twin ρ a a' →
    Twin ρ b b' → a.sameKey b = a'.sameKey b'
  | _, _, _, _, .null, hb => Twin.identical_eq hρ .null hb
  | _, _, _, _, .list i hs, hb => Twin.identical_eq hρ (.list i hs) hb
  | _, _, _, _, .set i hs, hb => Twin.identical_eq hρ (.set i hs) hb
  | _, _, _, _, .dict i hs, hb => Twin.identical_eq hρ (.dict i hs) hb
  | _, _, _, _, .object i ha hc hat, hb => Twin.identical_eq hρ (.object i ha hc hat) hb
  | _, _, _, _, .boolean _, hb | _, _, _, _, .integer _, hb => by
    cases hb <;> simp only [sameKey, wholeNumber?]
  | _, _, _, _, .text _, hb => by cases hb <;> simp only [sameKey]
  | _, _, _, _, .float _ _, hb | _, _, _, _, .bytes _ _, hb | _, _, _, _, .range _ _ _ _, hb => by
    cases hb <;> simp only [sameKey, wholeNumber?, Identity.same_map hρ]
  | _, _, _, _, .tuple _ hs, hb => by
    cases hb with
    | tuple j ht => simp only [sameKey, Identity.same_map hρ, hs.sameKeys_eq hρ ht]
    | _ => simp only [sameKey]

theorem Twins.sameKeys_eq (hρ : Function.Injective ρ) : ∀ {xs xs' ys ys' : List Host},
    Twins ρ xs xs' → Twins ρ ys ys' → sameKeys xs ys = sameKeys xs' ys'
  | _, _, _, _, .nil, .nil | _, _, _, _, .nil, .cons _ _ | _, _, _, _, .cons _ _, .nil => rfl
  | _, _, _, _, .cons hx hxs, .cons hy hys => by
    simp only [sameKeys, hx.sameKey_eq hρ hy, hxs.sameKeys_eq hρ hys]

end

/-! ## Members and items -/

theorem TwinEntries.find (hρ : Function.Injective ρ) {k l : Host} (hk : Twin ρ k l) :
    ∀ {es fs : List (Host × Host)}, TwinEntries ρ es fs →
      Option.Rel (Twin ρ) ((es.find? fun e => k.sameKey e.1).map Prod.snd)
        ((fs.find? fun e => l.sameKey e.1).map Prod.snd)
  | _, _, .nil => .none
  | _, _, .cons hkey hx hs => by
    simp only [List.find?_cons, hk.sameKey_eq hρ hkey]
    split
    · exact .some hx
    · exact hs.find hρ hk

theorem TwinEntries.lookup (hρ : Function.Injective ρ) {k l : Host} (hk : Twin ρ k l)
    {es fs : List (Host × Host)} (hs : TwinEntries ρ es fs) :
    Option.Rel (Twin ρ) (lookup? k es) (lookup? l fs) := by
  unfold lookup?
  rw [hk.isKey_eq]
  split
  · exact hs.find hρ hk
  · exact .none

theorem TwinEntries.keys : ∀ {es fs : List (Host × Host)}, TwinEntries ρ es fs →
    List.Forall₂ (Twin ρ) (es.map Prod.fst) (fs.map Prod.fst)
  | _, _, .nil => .nil
  | _, _, .cons hk _ hs => .cons hk hs.keys

theorem Twin.entries {h h' : Host} (ht : Twin ρ h h') :
    Option.Rel (TwinEntries ρ) h.entries? h'.entries? := by
  cases ht with
  | dict _ hs => exact .some hs
  | @object i o o' ha hc hat =>
    obtain ⟨c, _, _, _, _, _⟩ := o
    obtain ⟨c', _, _, _, _, _⟩ := o'
    replace hc : TwinContent ρ c c' := hc
    cases hc with
    | mapping broken hs =>
      cases broken with
      | false => exact .some hs
      | true => exact .some .nil
    | _ => exact .none
  | _ => exact .none

/-- What an object has under a name, whether it is to be seen or not. -/
theorem HostObject.Alike.lookup {o o' : HostObject Host} (ha : o.Alike o')
    (hat : ∀ name x y, isPublic name = true → o.attributes.lookup name = some x →
      o'.attributes.lookup name = some y → Twin ρ x y) {name : Text} (hp : isPublic name = true) :
    Option.Rel (Twin ρ) (o.attributes.lookup name) (o'.attributes.lookup name) := by
  have hsome := ha.attributes name hp
  cases hx : o.attributes.lookup name <;> cases hy : o'.attributes.lookup name
  · exact .none
  · rw [hx, hy] at hsome; cases hsome
  · rw [hx, hy] at hsome; cases hsome
  · exact .some (hat name _ _ hp hx hy)

theorem integerMember_twin (n : Int) (name : Text) :
    Option.Rel (Twin ρ) (integerMember? n name) (integerMember? n name) := by
  unfold integerMember?
  repeat' split
  all_goals first | exact .none | exact .some (.integer _)

theorem Twin.attribute {h h' : Host} (ht : Twin ρ h h') (rendering : Rendering) (name : Text) :
    Option.Rel (Twin ρ) (h.attribute? rendering name) (h'.attribute? rendering name) := by
  cases hp : isPublic name with
  | false => simp only [attribute?, hp]; exact .none
  | true =>
    have htwin := ht
    simp only [attribute?, hp]
    cases ht with
    | boolean b => exact integerMember_twin _ name
    | integer n => exact integerMember_twin n name
    | float i x =>
      simp only [Bool.not_true, Bool.false_eq_true, if_false]
      split
      · exact .some htwin
      split
      · exact .some (.float .fresh 0)
      · exact .none
    | range i a b c =>
      simp only [Bool.not_true, Bool.false_eq_true, if_false]
      repeat' split
      all_goals first | exact .none | exact .some (.integer _)
    | @object i o o' ha hc hat =>
      simp only [Bool.not_true, Bool.false_eq_true, if_false, ha.raises name hp,
        ha.watches name hp]
      split
      · exact .none
      split
      · exact .some (.text _)
      -- only private attributes differ, and the name is public
      have hlookup := HostObject.Alike.lookup ha hat hp
      cases hx : o.attributes.lookup name with
      | none =>
        rw [hx] at hlookup
        cases hy : o'.attributes.lookup name with
        | none => split <;> split <;> exact .none
        | some y => rw [hy] at hlookup; cases hlookup
      | some x =>
        rw [hx] at hlookup
        rw [ha.methods name hp (.inl (by rw [hx]; rfl))]
        split
        · exact .none
        · exact hlookup
    | _ => exact .none

theorem Twin.member (hρ : Function.Injective ρ) {h h' : Host} (ht : Twin ρ h h')
    (rendering : Rendering) (name : Text) :
    Option.Rel (Twin ρ) (h.member? rendering name) (h'.member? rendering name) := by
  have hentry : Option.Rel (Twin ρ) (h.entries?.bind (lookup? (.text name)))
      (h'.entries?.bind (lookup? (.text name))) := by
    have hentries := ht.entries
    revert hentries
    generalize h.entries? = o
    generalize h'.entries? = o'
    rintro (hs | _)
    · exact hs.lookup hρ (.text name)
    · exact .none
  unfold member?
  revert hentry
  generalize h.entries?.bind (lookup? (.text name)) = o
  generalize h'.entries?.bind (lookup? (.text name)) = o'
  rintro (hx | _)
  · exact .some hx
  · exact ht.attribute rendering name

structure Items.Alike (ρ : Nat → Nat) (a a' : Items) : Prop where
  size : a.size = a'.size
  item : ∀ i, Option.Rel (Twin ρ) (a.item i) (a'.item i)

theorem Twins.items {xs ys : List Host} (hs : Twins ρ xs ys) :
    Items.Alike ρ ⟨xs.length, fun i => xs[i]?⟩ ⟨ys.length, fun i => ys[i]?⟩ :=
  ⟨hs.forall₂.length_eq, related_getElem? hs.forall₂⟩

theorem Twin.sequence {h h' : Host} (ht : Twin ρ h h') :
    Option.Rel (Items.Alike ρ) h.sequence? h'.sequence? := by
  cases ht with
  | list _ hs | tuple _ hs => exact .some hs.items
  | range _ a b c => exact .some ⟨rfl, fun i => .some (.integer _)⟩
  | @object i o o' ha hc hat =>
    obtain ⟨c, _, _, _, _, _⟩ := o
    obtain ⟨c', _, _, _, _, _⟩ := o'
    replace hc : TwinContent ρ c c' := hc
    cases hc with
    | sequence hs => exact .some hs.items
    | _ => exact .none
  | _ => exact .none

theorem Twin.overlong {h h' : Host} (ht : Twin ρ h h') (index : Int) :
    h.overlong index = h'.overlong index := by
  have hsequence := ht.sequence
  unfold Host.overlong
  revert hsequence
  generalize h.sequence? = o
  generalize h'.sequence? = o'
  rintro (hs | _)
  · simp only [Option.any_some, hs.size]
  · rfl

theorem Twin.item (hρ : Function.Injective ρ) {h h' k k' : Host} (ht : Twin ρ h h')
    (hk : Twin ρ k k') (index : Int) :
    Option.Rel (Twin ρ) (h.item? k index) (h'.item? k' index) := by
  have hsequence := ht.sequence
  unfold item?
  revert hsequence
  generalize h.sequence? = o
  generalize h'.sequence? = o'
  rintro (hs | _)
  · simp only [hs.size]
    split
    · exact hs.item _
    · exact .none
  · have hentries := ht.entries
    revert hentries
    generalize h.entries? = o
    generalize h'.entries? = o'
    rintro (hs | _)
    · exact hs.lookup hρ hk
    · exact .none

theorem forall₂_integers (ns : List Nat) (f : Nat → Int) :
    List.Forall₂ (Twin ρ) (ns.map fun i => .integer (f i)) (ns.map fun i => .integer (f i)) := by
  induction ns with
  | nil => exact .nil
  | cons n ns ih => exact .cons (.integer _) ih

theorem Twin.iteration {h h' : Host} (ht : Twin ρ h h') :
    Option.Rel (Iteration.Paired (Twin ρ) (Identity.map ρ)) h.iteration? h'.iteration? := by
  cases ht with
  | list _ hs | tuple _ hs | set _ hs => exact .some (.always hs.forall₂)
  | dict _ hs => exact .some (.always hs.keys)
  | range _ a b c => exact .some (.always (forall₂_integers _ (rangeItem a c)))
  | @object i o o' ha hc hat =>
    obtain ⟨c, _, _, _, _, _⟩ := o
    obtain ⟨c', _, _, _, _, _⟩ := o'
    replace hc : TwinContent ρ c c' := hc
    cases hc with
    | plain => exact .none
    | iterable hs | sequence hs => exact .some (.always hs.forall₂)
    | iterator hs => exact .some (.once hs.forall₂)
    | mapping _ hs => exact .some (.always hs.keys)
  | _ => exact .none

/-! ## Values and filters -/

theorem Twin.ofObject {h h' : Host} (ht : Twin ρ h h') (calls : Nat) :
    Paired (Value.Paired (Twin ρ)) (Value.ofObject calls h) (Value.ofObject calls h') := by
  have hdisplay := ht.display_eq calls
  have hshown : Paired (Value.Paired (Twin ρ))
      (do return ⟨.ofDisplay (← h.display calls), h⟩)
      (do return ⟨.ofDisplay (← h'.display calls), h'⟩) := by
    rw [hdisplay]
    cases h'.display calls with
    | ok t => exact .ok ⟨rfl, ht⟩
    | error fault => exact .error fault
  cases ht with
  | null => exact .ok ⟨rfl, .null⟩
  | _ => exact hshown

theorem Twin.ofHost {h h' : Host} (calls : Nat) (ht : Twin ρ h h') :
    Paired (Value.Paired (Twin ρ)) (Value.ofHost calls h) (Value.ofHost calls h') := by
  have hobject := ht.ofObject (calls - 2)
  cases ht with
  | boolean b => exact .ok ⟨rfl, .boolean b⟩
  | integer n => exact .ok ⟨rfl, .integer _⟩
  | float i x => exact .ok ⟨rfl, .float i x⟩
  | text t => exact .ok ⟨rfl, .text t⟩
  | _ => exact hobject

theorem Twin.textArgument {h h' : Host} (ht : Twin ρ h h') (position : Nat) :
    Filter.textArgument position h = Filter.textArgument position h' := by
  have htype := ht.typeName_eq
  cases ht with
  | null | text => rfl
  | _ => simp only [Filter.textArgument, htype]

theorem Twin.bytesArgument {h h' : Host} (ht : Twin ρ h h') :
    Filter.bytesArgument h = Filter.bytesArgument h' := by
  have htype := ht.typeName_eq
  cases ht with
  | bytes => rfl
  | _ => simp only [Filter.bytesArgument, htype]

theorem Twin.replace {v v' o o' n n' : Host} (hv : Twin ρ v v') (ho : Twin ρ o o')
    (hn : Twin ρ n n') :
    Paired (Twin ρ) (Filter.replaceIn v o n) (Filter.replaceIn v' o' n') := by
  have htype := hv.typeName_eq
  cases hv with
  | text t =>
    simp only [Filter.replaceIn, ho.textArgument, hn.textArgument]
    cases Filter.textArgument 1 o' with
    | error e => exact .error e
    | ok old =>
      cases Filter.textArgument 2 n' with
      | error e => exact .error e
      | ok new => exact .ok (.text _)
  | bytes i content =>
    simp only [Filter.replaceIn, ho.bytesArgument, hn.bytesArgument]
    cases Filter.bytesArgument o' with
    | error e => exact .error e
    | ok old =>
      cases Filter.bytesArgument n' with
      | error e => exact .error e
      | ok new =>
        simp only [ok_bind]
        split
        · exact .ok (.bytes .fresh _)
        · exact .ok (.bytes i content)
  | @object i o o' ha hc hat =>
    have hp : isPublic "replace".toList = true := rfl
    simp only [Filter.replaceIn, ha.raises _ hp, ha.watches _ hp, htype]
    split
    · exact .error _
    split
    · exact .error _
    · have hlookup := HostObject.Alike.lookup ha hat hp
      revert hlookup
      generalize List.lookup "replace".toList o.attributes = x
      generalize List.lookup "replace".toList o'.attributes = y
      rintro (hx | _)
      · simp only [hx.typeName_eq]
        exact .error _
      · exact .error _
  | _ => simp only [Filter.replaceIn, htype]; exact .error _

/-- No access tells twins apart. -/
theorem simulation_twin (hρ : Function.Injective ρ) :
    Simulation (Twin ρ) (Identity.map ρ) where
  injective := Identity.map_injective hρ
  text := .text
  integer := .integer
  float := .float .fresh
  boolean := .boolean
  ofHost := Twin.ofHost
  identical := Twin.identical_eq hρ
  member rendering name h := h.member hρ rendering name
  item index h hk := h.item hρ hk index
  overlong index h := h.overlong index
  iteration := Twin.iteration
  replace := Twin.replace

end

end Host

end Stencil
