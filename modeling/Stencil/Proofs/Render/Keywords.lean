import Stencil.Proofs.Block.Reading
import Stencil.Proofs.Host.Entries
import Stencil.Proofs.Render.FreeNames

/-!
# Keywords

A template is rendered with keywords as with a plain mapping that holds them over the entries of the
data. The attributes of the data do not come along.
-/

namespace Stencil

namespace Template

section
variable {data : Host} {entries : List (Host × Host)} {keywords : List (Text × Host)}

def keywordEntries (keywords : List (Text × Host)) : List (Host × Host) :=
  keywords.map fun (name, value) => (Host.text name, value)

theorem distinct_keywordEntries (h : (keywords.map Prod.fst).Nodup) :
    Host.Distinct (keywordEntries keywords) := by
  refine List.pairwise_map.mpr ((List.pairwise_map.mp h).imp fun {a b} hne => ?_)
  exact beq_eq_false_iff_ne.mpr hne

theorem lookup_keywordEntries (name : Text) :
    Host.lookup? (.text name) (keywordEntries keywords) = keywords.lookup name := by
  induction keywords with
  | nil => rfl
  | cons k keywords ih =>
    obtain ⟨key, value⟩ := k
    show Host.lookup? (.text name) ((.text key, value) :: keywordEntries keywords) = _
    rw [Host.lookup_cons, List.lookup_cons, ih]
    show (if (name == key) = true then _ else _) = _
    cases name == key <;> rfl

theorem merge_eq (h : data.HasEntries entries) (hne : keywords ≠ []) :
    merge data keywords =
      .ok (.dict .fresh (Host.ofEntries (entries ++ keywordEntries keywords))) := by
  obtain ⟨k, ks, rfl⟩ := List.exists_cons_of_ne_nil hne
  cases h with
  | dict => rfl
  | object hc => simp only [merge, hc]; rfl

theorem render_merge {t : Template} {root : Host} (h : merge data keywords = .ok root)
    (stack : Stack) (progress : Progress) :
    t.render stack data keywords progress = t.render stack root [] progress := by
  unfold render
  rw [h]
  rfl

theorem member_merged (hd : Host.Distinct entries)
    (hk : (keywords.map Prod.fst).Nodup) {i : Identity} (rendering : Rendering) (name : Text) :
    (Host.dict i (Host.ofEntries (entries ++ keywordEntries keywords))).member? rendering name =
      (keywords.lookup name).or (Host.lookup? (.text name) entries) := by
  have hattribute : (Host.dict i (Host.ofEntries (entries ++ keywordEntries keywords))).attribute?
      rendering name = none := by
    unfold Host.attribute?
    split <;> rfl
  rw [Host.HasEntries.dict.member_eq, hattribute, Option.or_none,
    Host.lookup_ofEntries hd (distinct_keywordEntries hk), lookup_keywordEntries]

end

/-- **Keywords only add or override names**, but hide the attributes of the data. A name stands for
its keyword or else for the entry of the data, as it does without keywords. -/
theorem render_keywords (stack : Stack) (t : Template) {data : Host} {entries : List (Host × Host)}
    {keywords : List (Text × Host)} (hdata : data.HasEntries entries)
    (hdistinct : Host.Distinct entries) (hkeywords : (keywords.map Prod.fst).Nodup) :
    ∃ root, merge data keywords = .ok root ∧
      (∀ progress,
        t.render stack data keywords progress = t.render stack root [] progress) ∧
      (keywords ≠ [] → ∀ name, root.member? (.active t.name) name =
        (keywords.lookup name).or (Host.lookup? (.text name) entries)) ∧
      ((∀ name ∈ Block.allFreeNames t.blocks, keywords.lookup name = none →
          Host.lookup? (.text name) entries = none →
            data.attribute? (.active t.name) name = none) →
        (∀ name ∈ Block.allFreeNames t.blocks, root.member? (.active t.name) name =
          (keywords.lookup name).or (data.member? (.active t.name) name)) ∧
        ((∀ name ∈ Block.allFreeNames t.blocks, keywords.lookup name = none) → ∀ progress,
          (t.render stack data keywords progress).1 = (t.render stack data [] progress).1 ∧
            ∀ i, (t.render stack data keywords progress).2.taken i =
              (t.render stack data [] progress).2.taken i)) := by
  -- without keywords the data are the root themselves, and keep their attributes
  obtain ⟨root, hmerge, hplain, hempty⟩ : ∃ root, merge data keywords = .ok root ∧
      (keywords ≠ [] → ∀ name, root.member? (.active t.name) name =
        (keywords.lookup name).or (Host.lookup? (.text name) entries)) ∧
      (keywords = [] → root = data) := by
    by_cases hne : keywords = []
    · exact ⟨data, by rw [hne]; rfl, fun h => absurd hne h, fun _ => rfl⟩
    · exact ⟨_, merge_eq hdata hne, fun _ => member_merged hdistinct hkeywords _,
        fun h => absurd h hne⟩
  refine ⟨root, hmerge, render_merge hmerge stack, hplain, fun hattributes => ?_⟩
  have hmember : ∀ name ∈ Block.allFreeNames t.blocks, root.member? (.active t.name) name =
      (keywords.lookup name).or (data.member? (.active t.name) name) := by
    intro name hname
    by_cases hne : keywords = []
    · rw [hempty hne, hne]
      rfl
    rw [hplain hne, hdata.member_eq]
    cases hkeyword : keywords.lookup name with
    | some value => rfl
    | none =>
      cases hentry : Host.lookup? (.text name) entries with
      | some value => rfl
      | none => exact (hattributes name hname hkeyword hentry).symm
  refine ⟨hmember, fun hfree progress => ?_⟩
  rw [render_merge hmerge stack]
  -- roots that agree on the free names render alike
  refine paired_render simulation_eq stack t (fun name hname => ?_) fun _ => rfl
  rw [hmember name hname, hfree name hname, Option.none_or]
  exact related_eq _

theorem render_keywords_entry :
    let t : Template := ⟨"\x7b\x7ba\x7d\x7d".toList, none, [.output ⟨0, 5⟩ (.symbol ⟨2, 3⟩ ['a'])]⟩
    let entries : List (Host × Host) := [(.text ['a'], .integer 1)]
    let data : Host :=
      .object (.known 0) ⟨.mapping entries false, [], [(['b'], .text ['v'])], [], [], []⟩
    let keywords : List (Text × Host) := [(['x'], .integer 9)]
    (data.HasEntries entries ∧ Host.Distinct entries ∧ (keywords.map Prod.fst).Nodup) ∧
      (t.render .least data keywords .empty).1 = (t.render .least data [] .empty).1 := by
  intro t entries data keywords
  have hdata : data.HasEntries entries := .object rfl
  have hdistinct : Host.Distinct entries := List.pairwise_singleton _ _
  have hkeywords : (keywords.map Prod.fst).Nodup := by decide
  obtain ⟨_, -, -, -, hunchanged⟩ := render_keywords .least t hdata hdistinct hkeywords
  have hnames : ∀ name ∈ Block.allFreeNames t.blocks, name = ['a'] := by decide
  refine ⟨⟨hdata, hdistinct, hkeywords⟩, ((hunchanged ?_).2 ?_ .empty).1⟩
  · intro name hname _ hentry
    rw [hnames name hname] at hentry
    cases hentry
  · intro name hname
    rw [hnames name hname]
    rfl

/-- A keyword that the template does not name hides an attribute that it does name. -/
theorem render_keywords_attribute :
    let source := "\x7b\x7bb\x7d\x7d".toList
    let t : Template := ⟨source, none, [.output ⟨0, 5⟩ (.symbol ⟨2, 3⟩ ['b'])]⟩
    let entries : List (Host × Host) := [(.text ['a'], .integer 1)]
    let data : Host :=
      .object (.known 0) ⟨.mapping entries false, [], [(['b'], .text ['v'])], [], [], []⟩
    let keywords : List (Text × Host) := [(['x'], .integer 9)]
    Template.ofText .least source none = .ok t ∧ Block.allFreeNames t.blocks = [['b']] ∧
      data.HasEntries entries ∧ (t.render .least data [] .empty).1 = .ok ['v'] ∧
      (t.render .least data keywords .empty).1 = .ok [] := by
  intro source t entries data keywords
  have hparse : parse .least source = .ok t.blocks := by
    subst source t
    with_unfolding_all rfl
  exact ⟨by rw [Template.ofText, hparse], by decide, .object rfl, rfl, rfl⟩

end Template

end Stencil
