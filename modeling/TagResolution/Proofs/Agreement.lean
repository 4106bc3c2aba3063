import TagResolution.Merge
import TagResolution.Proofs.Preorder
import TagResolution.Proofs.Registration
import TagResolution.Proofs.Showing

/-!
# Universes that agree

Two universes may differ and still say the same about some types: about those that a scan or a climb comes
to from a type. What it answers is then the same in both. What is read of a type is its `outline`, the
declaration without its reserved tags; `TagOverlap` says that two universes have the same outlines of some
types and that the tags on these lead to such types only, and `Overlap` says this of all links. The numbers
of types may differ, so all bounds are traded for a common one first.

The main statements are `TagOverlap.scan_eq`, `Overlap.hierarchy_eq`, `Overlap.mergedAttributes_eq` and
`Overlap.reach_eq`.
-/

namespace TagResolution

/-- Elements with the same results lead to the same first result. -/
theorem findSome?_congr {α β : Type} {f g : α → Option β} {l : List α} (hfg : ∀ a ∈ l, f a = g a) :
    l.findSome? f = l.findSome? g := by
  rw [← List.head?_filterMap, ← List.head?_filterMap, List.filterMap_congr hfg]

namespace Universe

/-! ## Outlines -/

/-- What scans and searches read of a type: its declaration without the reserved tags. -/
def outline (u : Universe) (h : Handle) : Option Declaration :=
  (u.get? h).map fun d => { d with tags := u.openTags h }

section Outline

variable (u v : Universe) (h : Handle)

theorem openTags_outline : u.openTags h = ((u.outline h).map (·.tags)).getD [] := by
  unfold outline
  cases hd : u.get? h with
  | none => simp [openTags, tags, hd]
  | some d => rfl

theorem interfaces_outline : u.interfaces h = ((u.outline h).map (·.interfaces)).getD [] := by
  unfold outline interfaces
  cases u.get? h <;> rfl

theorem parent?_outline : u.parent? h = (u.outline h).bind (·.parent) := by
  show (u.get? h).bind (·.parent) = _
  unfold outline
  cases u.get? h <;> rfl

theorem enclosing?_outline : u.enclosing? h = (u.outline h).bind (·.enclosing) := by
  show (u.get? h).bind (·.enclosing) = _
  unfold outline
  cases u.get? h <;> rfl

theorem declares_outline : u.declares h = (u.outline h).isSome := by
  unfold outline declares
  cases u.get? h <;> rfl

theorem isTagType_outline : u.isTagType h = (u.outline h).any (·.isTagType) := by
  show (u.get? h).any (·.isTagType) = _
  unfold outline
  cases u.get? h <;> rfl

theorem displayType_outline : u.displayType h = ((u.outline h).map (·.name)).getD h.render := by
  unfold outline displayType Registry.displayType get?
  cases u.registry.get? h <;> rfl

theorem fallbacks_outline : u.fallbacks h = ((u.outline h).map (·.fallbacks)).getD [] := by
  unfold outline fallbacks
  cases u.get? h <;> rfl

theorem redirected_outline (composed : Tag) : u.redirected h composed
    = ((u.outline composed.type).map (·.redirected h composed)).getD [] := by
  unfold outline redirected
  cases u.get? composed.type <;> rfl

/-- The reserved tag types are the same in all universes, by `isReserved_iff`. -/
theorem isReserved_eq : u.isReserved h = v.isReserved h := by
  rw [Bool.eq_iff_iff, u.isReserved_iff, v.isReserved_iff]

theorem outline_eq_of_get?_eq {u v : Universe} {h : Handle} (hget : u.get? h = v.get? h) :
    u.outline h = v.outline h := by
  have htags : u.openTags h = v.openTags h := by
    simp only [openTags, tags, hget, u.isReserved_eq v]
  rw [outline, outline, hget, htags]

/-- Declarations with one `outline` differ in their tags at most. -/
theorem get?_of_outline_eq {u v : Universe} {h : Handle} (houtline : u.outline h = v.outline h) :
    (u.get? h = none ∧ v.get? h = none) ∨
      ∃ d written, u.get? h = some d ∧ v.get? h = some { d with tags := written } := by
  unfold outline at houtline
  cases hd : u.get? h with
  | none =>
      rw [hd] at houtline
      exact .inl ⟨rfl, Option.map_eq_none_iff.1 houtline.symm⟩
  | some d =>
      rw [hd] at houtline
      obtain ⟨e, he, hsame⟩ := Option.map_eq_some_iff.1 houtline.symm
      refine .inr ⟨d, e.tags, rfl, he.trans (congrArg some ?_)⟩
      cases d
      cases e
      simp_all

/-- What `synthesize` reads are the attributes of a tag type and the name of the origin. -/
theorem synthesize_eq {u v : Universe} {tagType origin : Handle} (attributes : Attributes)
    (htype : u.outline tagType = v.outline tagType) (horigin : u.outline origin = v.outline origin) :
    u.synthesize attributes tagType origin = v.synthesize attributes tagType origin := by
  have hname : u.displayType origin = v.displayType origin := by
    rw [displayType_outline, displayType_outline, horigin]
  unfold synthesize
  rcases get?_of_outline_eq htype with ⟨hu, hv⟩ | ⟨d, written, hu, hv⟩
  · rw [hu, hv]
    rfl
  · rw [hu, hv, hname]
    cases hkind : d.isTagType with
    | false =>
        rw [Option.filter_some_neg hkind, Option.filter_some_neg]
        exact hkind
    | true =>
        rw [Option.filter_some_pos hkind, Option.filter_some_pos]
        · rfl
        · exact hkind

end Outline

/-! ## Scans -/

variable {u v : Universe} {P : Handle → Prop}

theorem outward_add (a b : Nat) (near : List Sighting) :
    u.outward (a + b) near = u.outward a near ++ u.outward b (u.ring near a) := by
  induction a generalizing near with
  | zero => rw [Nat.zero_add]; rfl
  | succ a ih =>
      rw [Nat.succ_add, outward_succ, outward_succ, ih, ring_flatMap, List.append_assoc]

/-- A bound beyond `size` shows no more than `scan`. -/
theorem outward_of_size_le {bound : Nat} (hbound : u.size ≤ bound) (h : Handle) :
    u.outward (bound + 1) (u.present h) = u.scan h := by
  -- The rings behind the bound of a scan are empty.
  have hempty := u.ring_present_eq_nil h (Nat.le_succ u.size)
  obtain ⟨more, rfl⟩ := Nat.exists_eq_add_of_le hbound
  have hsplit : u.size + more + 1 = (u.size + 1) + more := by omega
  rw [hsplit, outward_add, hempty, scan]
  cases more <;> simp [outward]

/-- Two universes have the same `outline` of each of some types, and the tags on these lead to such types
only. -/
structure TagOverlap (u v : Universe) (P : Handle → Prop) : Prop where
  outline : ∀ {h}, P h → u.outline h = v.outline h
  tag : ∀ {h t}, P h → t ∈ u.openTags h → P t.type

namespace TagOverlap

variable (ho : u.TagOverlap v P)

include ho

theorem openTags_eq {h : Handle} (hh : P h) : u.openTags h = v.openTags h := by
  rw [openTags_outline, openTags_outline, ho.outline hh]

theorem beyond_eq {s : Sighting} (hs : P s.tag.type) : u.beyond s = v.beyond s := by
  rw [beyond, beyond, ho.openTags_eq hs]

theorem outward_eq (bound : Nat) {near : List Sighting} (hnear : ∀ s ∈ near, P s.tag.type) :
    u.outward bound near = v.outward bound near := by
  induction bound generalizing near with
  | zero => rfl
  | succ bound ih =>
      have hbeyond : near.flatMap u.beyond = near.flatMap v.beyond :=
        List.flatMap_congr fun s hs => ho.beyond_eq (hnear s hs)
      rw [outward_succ, outward_succ, ← hbeyond, ih]
      intro s' hs'
      obtain ⟨s, hs, hs'⟩ := List.mem_flatMap.1 hs'
      obtain ⟨t, ht, -, rfl⟩ := u.mem_beyond.1 hs'
      exact ho.tag (hnear s hs) ht

/-- From a type of a `TagOverlap` the `scan` shows the same sightings in both. -/
theorem scan_eq {h : Handle} (hh : P h) : u.scan h = v.scan h := by
  have hpresent : u.present h = v.present h := by rw [present, present, ho.openTags_eq hh]
  have hnear : ∀ s ∈ u.present h, P s.tag.type := by
    intro s hs
    obtain ⟨t, ht, rfl⟩ := u.mem_present.1 hs
    exact ho.tag hh ht
  rw [← outward_of_size_le (Nat.le_max_left u.size v.size) h,
    ← outward_of_size_le (Nat.le_max_right u.size v.size) h, ho.outward_eq _ hnear, hpresent]

/-- Whatever is seen from a type of a `TagOverlap`, and whatever it is seen through, is of a type of it. -/
theorem types_of_mem_scan {h : Handle} {s : Sighting} (hh : P h) (hs : s ∈ u.scan h) :
    ∀ g ∈ s.types, P g :=
  (u.mem_scan.1 hs).forall_types (fun _ ht => ho.tag hh ht) fun _ hg _ ht => ho.tag hg ht

/-! ## Merged attributes -/

omit ho in
theorem withFallbacks_eq {t : Tag} (ht : u.outline t.type = v.outline t.type) :
    u.withFallbacks t = v.withFallbacks t := by
  rw [withFallbacks, withFallbacks, fallbacks_outline, fallbacks_outline, ht]

theorem merge_eq {s : Sighting} (hs : ∀ g ∈ s.types, P g) : u.merge s = v.merge s := by
  unfold merge
  rw [withFallbacks_eq (ho.outline (hs _ (.head _)))]
  generalize v.withFallbacks s.tag = merged
  have hthrough : ∀ t ∈ s.through, P t.type := fun t ht =>
    hs _ (List.mem_cons_of_mem _ (List.mem_map_of_mem ht))
  refine List.foldl_ext _ _ merged fun merged t ht => ?_
  rw [redirected_outline, redirected_outline, ho.outline (hthrough t ht)]

theorem nearest?_eq {h : Handle} (hh : P h) (tagType : Handle) :
    u.nearest? h tagType = v.nearest? h tagType := by
  rw [nearest?, nearest?, ho.scan_eq hh]

theorem types_of_nearest? {h tagType : Handle} {s : Sighting} (hh : P h)
    (hs : u.nearest? h tagType = some s) : ∀ g ∈ s.types, P g :=
  ho.types_of_mem_scan hh (List.mem_of_find?_eq_some hs)

theorem nearestAmong_eq (tagType : Handle) (best : Option Sighting) {l : List Handle}
    (hl : ∀ h ∈ l, P h) : u.nearestAmong tagType best l = v.nearestAmong tagType best l := by
  induction l generalizing best with
  | nil => rfl
  | cons h rest ih =>
      have hrest : ∀ best, u.nearestAmong tagType best rest = v.nearestAmong tagType best rest :=
        fun best => ih best fun g hg => hl g (.tail _ hg)
      simp only [nearestAmong, ho.nearest?_eq (hl h (.head _)), hrest]

theorem types_of_nearestAmong {tagType : Handle} {l : List Handle} {s : Sighting} (hl : ∀ h ∈ l, P h)
    (hs : u.nearestAmong tagType none l = some s) : ∀ g ∈ s.types, P g := by
  obtain ⟨h, hh, hnear⟩ := exists_of_nearestAmong hs
  exact ho.types_of_nearest? (hl h hh) hnear

/-! ## Repeated tags -/

theorem repeatedIn_eq {tagType : Handle} {s : Sighting} (houtline : u.outline tagType = v.outline tagType)
    (hcontainer : u.container? tagType = v.container? tagType) (hs : ∀ g ∈ s.types, P g) :
    u.repeatedIn tagType s = v.repeatedIn tagType s := by
  have hfilled : ∀ l : List Tag,
      ((l.filter (·.type = tagType)).map fun t => (⟨t.type, u.withFallbacks t⟩ : Tag))
        = (l.filter (·.type = tagType)).map fun t => ⟨t.type, v.withFallbacks t⟩ := by
    intro l
    refine List.map_congr_left fun t ht => ?_
    have htype : t.type = tagType := by simpa using (List.mem_filter.1 ht).2
    rw [withFallbacks_eq (u := u) (v := v) (htype ▸ houtline)]
  simp only [repeatedIn, ho.merge_eq hs, hcontainer, hfilled]

theorem repeatedTags_eq {h tagType : Handle} (houtline : u.outline tagType = v.outline tagType)
    (hcontainer : u.container? tagType = v.container? tagType) (hh : P h) :
    u.repeatedTags h tagType = v.repeatedTags h tagType := by
  have hshown : (u.scan h).flatMap (u.repeatedIn tagType) = (u.scan h).flatMap (v.repeatedIn tagType) :=
    List.flatMap_congr fun s hs =>
      ho.repeatedIn_eq houtline hcontainer (ho.types_of_mem_scan hh hs)
  rw [repeatedTags, repeatedTags, hshown, ho.scan_eq hh]

end TagOverlap

/-! ## Hierarchies -/

/-- Two universes have the same `outline` of each of some types, and these lead to such types only, the
universal root apart. -/
structure Overlap (u v : Universe) (P : Handle → Prop) : Prop extends TagOverlap u v P where
  supertype : ∀ {h g}, P h → g ∈ u.supertypes true h → g ≠ .object → P g

namespace Overlap

variable (ho : u.Overlap v P)

include ho

theorem supertypes_eq {h : Handle} (hh : P h) (withEnclosing : Bool) :
    u.supertypes withEnclosing h = v.supertypes withEnclosing h := by
  simp only [supertypes, interfaces_outline, parent?_outline, enclosing?_outline, ho.outline hh]

theorem of_mem_supertypes {h g : Handle} {withEnclosing : Bool} (hh : P h)
    (hg : g ∈ u.supertypes withEnclosing h) (hne : g ≠ .object) : P g := by
  refine ho.supertype hh ?_ hne
  unfold supertypes at hg ⊢
  cases withEnclosing with
  | true => exact hg
  | false => exact List.mem_append_left _ (by simpa using hg)

theorem walk_eq (withEnclosing : Bool) (bound : Nat) {h : Handle} (hh : h ≠ .object → P h) :
    u.walk withEnclosing bound h = v.walk withEnclosing bound h := by
  induction bound generalizing h with
  | zero => rfl
  | succ bound ih =>
      by_cases hobject : h = .object
      · simp [walk, listable, hobject]
      · have hlist : u.listable h = v.listable h := by
          simp only [listable, declares_outline, ho.outline (hh hobject)]
        have hup : (u.supertypes withEnclosing h).flatMap (u.walk withEnclosing bound)
            = (u.supertypes withEnclosing h).flatMap (v.walk withEnclosing bound) :=
          List.flatMap_congr fun g hg => ih fun hne => ho.of_mem_supertypes (hh hobject) hg hne
        rw [walk, walk, hlist, hup, ho.supertypes_eq (hh hobject)]

/-- Types of an `Overlap` have the same `hierarchy` in both universes. -/
theorem hierarchy_eq {h : Handle} (hh : h ≠ .object → P h) (withEnclosing : Bool) :
    u.hierarchy h withEnclosing = v.hierarchy h withEnclosing := by
  have hu : u.rank h < max u.size v.size + 1 := by have := u.rank_le h; omega
  have hv : v.rank h < max u.size v.size + 1 := by have := v.rank_le h; omega
  rw [hierarchy_eq_eraseDups, hierarchy_eq_eraseDups, ← walk_eq_preorder hu, ← walk_eq_preorder hv,
    ho.walk_eq withEnclosing _ hh]

theorem of_mem_hierarchy {h g : Handle} {withEnclosing : Bool} (hh : h ≠ .object → P h)
    (hg : g ∈ u.hierarchy h withEnclosing) : P g := by
  -- The climb never comes to the universal root, about which nothing is known.
  have hnever : ∀ {f}, u.listable f = true → f ≠ .object := by
    rintro f hf rfl
    simp [listable] at hf
  obtain ⟨hlist, hclimb⟩ := u.mem_hierarchy.1 hg
  induction hclimb with
  | refl => exact hh (hnever hlist)
  | tail hclimb hstep ih =>
      exact ho.of_mem_supertypes (ih (u.mem_hierarchy.2 ⟨hlist, hclimb⟩)) hstep.1 (hnever hstep.2)

/-- For a root in an `Overlap` both universes have the same `mergedAttributes`. -/
theorem mergedAttributes_eq {root : Handle} (hroot : root ≠ .object → P root) (tagType : Handle) :
    u.mergedAttributes root tagType = v.mergedAttributes root tagType := by
  have htypes : ∀ g ∈ u.hierarchy root false, P g := fun g => ho.of_mem_hierarchy hroot
  rw [mergedAttributes, mergedAttributes, ← ho.hierarchy_eq hroot, ← ho.nearestAmong_eq tagType none htypes]
  cases hs : u.nearestAmong tagType none (u.hierarchy root false) with
  | none => rfl
  | some s =>
      rw [Option.map_some, Option.map_some, ho.merge_eq (ho.types_of_nearestAmong htypes hs)]

theorem nesting?_eq {h : Handle} (hh : h ≠ .object → P h) : u.nesting? h = v.nesting? h := by
  have htypes : ∀ g ∈ u.hierarchy h true, P g := fun g => ho.of_mem_hierarchy hh
  have hfirst : (u.hierarchy h true).findSome? (fun g => u.nearest? g .nestedConfiguration)
      = (u.hierarchy h true).findSome? fun g => v.nearest? g .nestedConfiguration :=
    findSome?_congr fun g hg => ho.nearest?_eq (htypes g hg) _
  rw [nesting?, nesting?, ← ho.hierarchy_eq hh, ← hfirst]
  cases hs : (u.hierarchy h true).findSome? fun g => u.nearest? g .nestedConfiguration with
  | none => rfl
  | some s =>
      obtain ⟨g, hg, hs⟩ := List.exists_of_findSome?_eq_some hs
      rw [Option.bind_some, Option.bind_some, ho.merge_eq (ho.types_of_nearest? (htypes g hg) hs)]

/-- A type of an `Overlap` has the same `reach` in both universes. -/
theorem reach_eq {h : Handle} (hh : h ≠ .object → P h) (nesting : Nesting) :
    u.reach nesting h = v.reach nesting h := by
  rw [reach, reach, ho.nesting?_eq hh]

end Overlap

end Universe

end TagResolution
