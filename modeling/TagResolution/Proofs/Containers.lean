import TagResolution.Proofs.Gathering
import TagResolution.Proofs.Locality
import TagResolution.Proofs.Recording

/-!
# Repeated tags in containers

Tags of a type that may be written several times stand alone or together in a container. A scan shows the
container where it would show the tags, and behind neither of them anything else, so the gathered tags
come in the same order. Reserved tags are the exception, as a scan shows none: whoever names a reserved tag
type for the container, or collects tags of a reserved type, sees only one of the two forms.

The main statement is `Resolver.repeated_in_container`; `Universe.repeatedTags_documented` is the case of a
reserved container.
-/

namespace TagResolution

/-- The tag of a container that holds some tags. -/
def Tag.collecting (container : Handle) (items : List Tag) : Tag :=
  (Tag.plain container).set "value" (.array (items.map Tag.toValue))

/-- The tags of an array of tags. -/
theorem Value.tags_array (items : List Tag) : (Value.array (items.map Tag.toValue)).tags = items := by
  simp [tags, List.filterMap_map, Function.comp_def]

namespace Universe

/-- Two universes that differ in the tags on one type only, which is no tag type: where the first has a run
of tags of one type there, the second has the container of the run, by `Tag.collecting`. -/
structure Boxed (u v : Universe) (h tagType box : Handle) (before items after : List Tag) : Prop where
  elsewhere : ∀ g, g ≠ h → u.get? g = v.get? g
  /-- The declarations of the type itself are the same but for the run and its container. -/
  written : ∃ d : Declaration, d.kind ≠ .tagType ∧
    u.get? h = some { d with tags := before ++ items ++ after } ∧
    v.get? h = some { d with tags := before ++ [.collecting box items] ++ after }
  items_ne_nil : items ≠ []
  type_of_mem : ∀ t ∈ items, t.type = tagType
  contained : u.container? tagType = some box
  box_ne : box ≠ tagType
  /-- Only reserved tags are written on the tag type and on the container. -/
  bare : ∀ g, g = tagType ∨ g = box → ∀ t ∈ u.tags g, u.isReserved t.type = true

/-! ## Lists of written tags -/

/-- The sightings of some tags where they are written, as `present` lists them. -/
def sighted (u : Universe) (written : List Tag) : List Sighting :=
  (written.filter fun t => !u.isReserved t.type).map fun t => ⟨t, []⟩

section Sighted

variable (u v : Universe)

theorem sighted_append (l l' : List Tag) : u.sighted (l ++ l') = u.sighted l ++ u.sighted l' := by
  simp [sighted]

theorem sighted_eq (l : List Tag) : u.sighted l = v.sighted l := by
  simp only [sighted, u.isReserved_eq v]

theorem sighted_of_reserved {l : List Tag} (hl : ∀ t ∈ l, u.isReserved t.type = true) :
    u.sighted l = [] := by
  simpa [sighted] using hl

theorem sighted_of_open {l : List Tag} (hl : ∀ t ∈ l, u.isReserved t.type = false) :
    u.sighted l = l.map fun t => ⟨t, []⟩ := by
  have hkept : l.filter (fun t => !u.isReserved t.type) = l := by simpa using hl
  rw [sighted, hkept]

/-- All types of a sighting that a type `Sees` are tag types. -/
theorem Sees.isTagType {u : Universe} {h : Handle} {s : Sighting} (hs : u.Sees h s) :
    ∀ g ∈ s.types, u.isTagType g = true := by
  have htags : ∀ g, ∀ t ∈ u.openTags g, u.isTagType t.type = true := fun _ _ ht =>
    u.isTagType_of_mem_tags (u.mem_openTags.1 ht).1
  exact hs.forall_types (htags h) fun g _ => htags g

/-- What `scan` shows at the type itself, and what `outward` shows beyond. -/
theorem scan_eq_sighted (h : Handle) {bound : Nat} (hbound : u.size ≤ bound) : u.scan h
    = u.sighted (u.tags h) ++ u.outward bound ((u.sighted (u.tags h)).flatMap u.beyond) := by
  rw [← outward_of_size_le hbound, outward_succ]
  rfl

end Sighted

namespace Boxed

variable {u v : Universe} {h tagType box : Handle} {before items after : List Tag}
  (hb : u.Boxed v h tagType box before items after)

include hb

theorem tags_left : u.tags h = before ++ items ++ after := by
  obtain ⟨d, -, hd, -⟩ := hb.written
  rw [tags, hd]
  rfl

theorem tags_right : v.tags h = before ++ [.collecting box items] ++ after := by
  obtain ⟨d, -, -, hd⟩ := hb.written
  rw [tags, hd]
  rfl

omit hb in
theorem ne_of_isTagType {g : Handle} {d : Declaration} (hd : u.get? h = some d) (hkind : d.kind ≠ .tagType)
    (hg : u.isTagType g = true) : g ≠ h := by
  rintro rfl
  obtain ⟨e, he, hetag⟩ := Universe.isTagType_iff.1 hg
  cases he.symm.trans hd
  exact hkind hetag

theorem get?_eq_of_left {g : Handle} (hg : u.isTagType g = true) : u.get? g = v.get? g := by
  obtain ⟨d, hkind, hd, -⟩ := hb.written
  exact hb.elsewhere g (ne_of_isTagType hd hkind hg)

theorem get?_eq_of_right {g : Handle} (hg : v.isTagType g = true) : u.get? g = v.get? g := by
  obtain ⟨d, hkind, -, hd⟩ := hb.written
  exact hb.elsewhere g (ne_of_isTagType hd hkind hg)

/-- Universes that are `Boxed` say the same about all tag types. -/
theorem tagOverlap : u.TagOverlap v (u.isTagType · = true) where
  outline hg := outline_eq_of_get?_eq (hb.get?_eq_of_left hg)
  tag _ ht := u.isTagType_of_mem_tags (u.mem_openTags.1 ht).1

theorem isTagType_tagType : u.isTagType tagType = true := by
  obtain ⟨t, ht⟩ := List.exists_mem_of_ne_nil items hb.items_ne_nil
  rw [← hb.type_of_mem t ht]
  refine u.isTagType_of_mem_tags (h := h) ?_
  simp [hb.tags_left, ht]

theorem container?_eq : u.container? tagType = v.container? tagType := by
  simp only [container?, tag?, tags, hb.get?_eq_of_left hb.isTagType_tagType]

theorem isTagType_of_right {g : Handle} (hg : v.isTagType g = true) : u.isTagType g = true := by
  rw [isTagType_outline, outline_eq_of_get?_eq (hb.get?_eq_of_right hg), ← isTagType_outline]
  exact hg

/-! ### The run and its container -/

theorem beyond_eq_nil {s : Sighting} (hs : s.tag.type = tagType ∨ s.tag.type = box) :
    u.beyond s = [] := by
  refine List.eq_nil_iff_forall_not_mem.2 fun s' hs' => ?_
  obtain ⟨t, ht, -⟩ := u.mem_beyond.1 hs'
  obtain ⟨ht, hopen⟩ := u.mem_openTags.1 ht
  rw [hb.bare _ hs t ht] at hopen
  cases hopen

/-- Nothing is seen `beyond` a run of tags or their container. -/
theorem flatMap_beyond :
    (u.sighted items).flatMap u.beyond = (u.sighted [.collecting box items]).flatMap u.beyond := by
  have hitems : (u.sighted items).flatMap u.beyond = [] := by
    refine List.flatMap_eq_nil_iff.2 fun s hs => ?_
    obtain ⟨t, ht, rfl⟩ := List.mem_map.1 hs
    exact hb.beyond_eq_nil (.inl (hb.type_of_mem t (List.mem_filter.1 ht).1))
  have hbox : (u.sighted [.collecting box items]).flatMap u.beyond = [] := by
    refine List.flatMap_eq_nil_iff.2 fun s hs => ?_
    obtain ⟨t, ht, rfl⟩ := List.mem_map.1 hs
    rw [List.mem_singleton.1 (List.mem_filter.1 ht).1]
    exact hb.beyond_eq_nil (.inr rfl)
  rw [hitems, hbox]

/-- To `repeatedIn` the container contributes the tags that it holds, each with the fallbacks of its type. -/
theorem repeatedIn_collecting : u.repeatedIn tagType ⟨.collecting box items, []⟩
    = items.map fun t => ⟨tagType, u.withFallbacks t⟩ := by
  have hvalue : (u.merge ⟨.collecting box items, []⟩).find? "value"
      = some (.array (items.map Tag.toValue)) := by
    show ((u.fallbacks box).overlay [("value", _)]).find? "value" = _
    rw [Dictionary.find?_overlay]
    rfl
  have hitems : items.filter (·.type = tagType) = items := by
    simpa using hb.type_of_mem
  have hne : (Tag.collecting box items).type ≠ tagType := hb.box_ne
  have hbox : some (Tag.collecting box items).type = u.container? tagType := hb.contained.symm
  rw [repeatedIn, if_neg hne, if_pos hbox, hvalue]
  show ((Value.array (items.map Tag.toValue)).tags.filter _).map _ = _
  rw [Value.tags_array, hitems]
  exact List.map_congr_left fun t ht => by rw [hb.type_of_mem t ht]

/-- A run of tags and their container contribute the same tags to `repeatedIn`, in the same order. -/
theorem flatMap_repeatedIn (hreserved : u.isReserved tagType = u.isReserved box) :
    (u.sighted items).flatMap (u.repeatedIn tagType)
      = (u.sighted [.collecting box items]).flatMap (u.repeatedIn tagType) := by
  have hitems : ∀ t ∈ items, u.isReserved t.type = u.isReserved tagType :=
    fun t ht => congrArg u.isReserved (hb.type_of_mem t ht)
  have hbox : ∀ t ∈ [Tag.collecting box items], u.isReserved t.type = u.isReserved box :=
    fun t ht => by rw [List.mem_singleton.1 ht]; rfl
  cases hr : u.isReserved tagType with
  | true =>
      rw [u.sighted_of_reserved fun t ht => (hitems t ht).trans hr,
        u.sighted_of_reserved fun t ht => (hbox t ht).trans (hreserved.symm.trans hr)]
  | false =>
      rw [u.sighted_of_open fun t ht => (hitems t ht).trans hr,
        u.sighted_of_open fun t ht => (hbox t ht).trans (hreserved.symm.trans hr)]
      have halone : ∀ t ∈ items, u.repeatedIn tagType ⟨t, []⟩ = [⟨tagType, u.withFallbacks t⟩] :=
        fun t ht => if_pos (hb.type_of_mem t ht)
      rw [List.flatMap_map, List.flatMap_congr halone, List.map_singleton, List.flatMap_singleton,
        hb.repeatedIn_collecting, ← List.map_eq_flatMap]

/-! ### Gathering -/

/-- Beyond the tags on the type itself, the `scan` of both universes shows the same. -/
theorem scan_right : v.scan h = u.sighted (v.tags h)
    ++ u.outward (max u.size v.size) ((u.sighted (v.tags h)).flatMap u.beyond) := by
  -- From its first step on a scan stays among tag types, and these are the same in both.
  have hbeyond : (u.sighted (v.tags h)).flatMap v.beyond = (u.sighted (v.tags h)).flatMap u.beyond := by
    refine List.flatMap_congr fun s hs => ?_
    obtain ⟨t, ht, rfl⟩ := List.mem_map.1 hs
    have htag := v.isTagType_of_mem_tags (List.mem_filter.1 ht).1
    exact (hb.tagOverlap.beyond_eq (hb.isTagType_of_right htag)).symm
  have hnear : ∀ s ∈ (u.sighted (v.tags h)).flatMap u.beyond, u.isTagType s.tag.type = true := by
    intro s' hs'
    obtain ⟨s, -, hs'⟩ := List.mem_flatMap.1 hs'
    obtain ⟨t, ht, -, rfl⟩ := u.mem_beyond.1 hs'
    exact u.isTagType_of_mem_tags (u.mem_openTags.1 ht).1
  rw [v.scan_eq_sighted h (Nat.le_max_right u.size v.size), v.sighted_eq u, hbeyond,
    hb.tagOverlap.outward_eq _ hnear]

/-- What is seen in one universe contributes the same in the other, by `repeatedIn`. -/
theorem repeatedTags_right :
    v.repeatedTags h tagType = ((v.scan h).flatMap (u.repeatedIn tagType)).eraseDups := by
  have hcontributes : ∀ s ∈ v.scan h, u.repeatedIn tagType s = v.repeatedIn tagType s := by
    intro s hs
    have htypes := (v.mem_scan.1 hs).isTagType
    exact hb.tagOverlap.repeatedIn_eq (hb.tagOverlap.outline hb.isTagType_tagType) hb.container?_eq
      fun g hg => hb.isTagType_of_right (htypes g hg)
  rw [repeatedTags, List.flatMap_congr hcontributes]

/-- The `repeatedTags` are the same, in the same order. -/
theorem repeatedTags_eq (hreserved : u.isReserved tagType = u.isReserved box) :
    u.repeatedTags h tagType = v.repeatedTags h tagType := by
  rw [hb.repeatedTags_right, repeatedTags, hb.scan_right,
    u.scan_eq_sighted h (Nat.le_max_left u.size v.size), hb.tags_left, hb.tags_right]
  simp only [sighted_append, List.flatMap_append, hb.flatMap_beyond, hb.flatMap_repeatedIn hreserved]

omit hb in
/-- Two drafts are `Boxed` in which different tags are written on one type in the end, by `Draft.tagged`. -/
theorem of_edits {base : List Draft.Edit} {e : Declaration}
    (hu : u.registry
      = (Draft.empty.run (base ++ Draft.tagged h (before ++ items ++ after))).registry)
    (hv : v.registry
      = (Draft.empty.run (base ++ Draft.tagged h (before ++ [.collecting box items] ++ after))).registry)
    (he : (Draft.empty.run base).registry.get? h = some e) (hkind : e.kind ≠ .tagType)
    (hclean : e.tags = []) (hne : items ≠ []) (htype : ∀ t ∈ items, t.type = tagType)
    (hcontained : u.container? tagType = some box) (hbox : box ≠ tagType)
    (hbare : ∀ g ∈ [tagType, box], ∀ t ∈ u.tags g, u.isReserved t.type = true) :
    u.Boxed v h tagType box before items after where
  elsewhere g hg := by
    rw [get?, get?, hu, hv, Draft.run_append, Draft.run_append, Draft.get?_run_tagged,
      Draft.get?_run_tagged, if_neg hg.symm, if_neg hg.symm]
  written := by
    refine ⟨e, hkind, ?_, ?_⟩
    · rw [get?, hu, Draft.run_append, Draft.get?_run_tagged, if_pos rfl, he]
      simp [hclean]
    · rw [get?, hv, Draft.run_append, Draft.get?_run_tagged, if_pos rfl, he]
      simp [hclean]
  items_ne_nil := hne
  type_of_mem := htype
  contained := hcontained
  box_ne := hbox
  bare g hg := hbare g (by simpa using hg)

end Boxed

end Universe

/-! ## Searches -/

namespace Resolver

variable {σ τ : Type}

/-- Where a type has `repeatedTags` of its own, `findRepeated` finds them there. -/
theorem findRepeated_of_shown {u : Universe} (source : ReachSource σ) {h tagType : Handle}
    {tags : List Tag} (hchecked : (ofSource u source).checkTagType tagType = .ok ())
    (hobject : h ≠ .object) (hshown : u.repeatedTags h tagType = tags) (hne : tags ≠ []) (memory : σ) :
    (((ofSource u source).findRepeated h tagType).run memory).1
      = .ok (some ⟨.here h, tagType, tags, hne⟩) := by
  have hhere : (Query.repeated u.repeatedTags tagType).here? h = some ⟨tags, hne⟩ := by
    subst hshown
    exact dif_pos hne
  refine Resolution.run_checked_eq_ok_iff.2 ⟨hchecked, ?_⟩
  rw [run_repeatedFrom]
  show Except.ok ((Search.find u source (.repeated u.repeatedTags tagType) h memory).1.map _) = _
  rw [Search.find_of_runs (.here hobject hhere)]
  rfl

theorem findRepeated_object {u : Universe} (source : ReachSource σ) {tagType : Handle}
    (hchecked : (ofSource u source).checkTagType tagType = .ok ()) (memory : σ) :
    (((ofSource u source).findRepeated .object tagType).run memory).1 = .ok none := by
  refine Resolution.run_checked_eq_ok_iff.2 ⟨hchecked, ?_⟩
  rw [run_repeatedFrom]
  show Except.ok ((Search.find u source (.repeated u.repeatedTags tagType) .object memory).1.map _) = _
  rw [Search.find_of_runs .object]
  rfl

/-- Tags that may be repeated are the same alone and in their container, if the types of both are reserved
or neither is: in universes that are `Boxed`, with a run of tags in one and their container in its place in
the other, `repeatedTags` gathers the same tags at the type, in the same order, and `findRepeated` answers
with the same match or the same error, whatever the sources of reaches answer. -/
theorem repeated_in_container {u v : Universe} {h tagType box : Handle} {before items after : List Tag}
    (hb : u.Boxed v h tagType box before items after)
    (hreserved : u.isReserved tagType = u.isReserved box) :
    u.repeatedTags h tagType = v.repeatedTags h tagType ∧
    ∀ (source : ReachSource σ) (source' : ReachSource τ) memory memory',
      (((ofSource u source).findRepeated h tagType).run memory).1
        = (((ofSource v source').findRepeated h tagType).run memory').1 := by
  have hsame := hb.repeatedTags_eq hreserved
  refine ⟨hsame, fun source source' memory memory' => ?_⟩
  have hcheck : (ofSource u source).checkTagType tagType = (ofSource v source').checkTagType tagType :=
    checkTagType_eq source source' (hb.tagOverlap.outline hb.isTagType_tagType)
  cases hchecked : (ofSource u source).checkTagType tagType with
  | error e =>
      rw [findRepeated, findRepeated, Resolution.run_checked, Resolution.run_checked, ← hcheck, hchecked]
  | ok _ =>
      by_cases hobject : h = .object
      · subst hobject
        rw [findRepeated_object source hchecked, findRepeated_object source' (hcheck.symm.trans hchecked)]
      · -- The first tag of the run is gathered, so the search ends where it begins.
        have hne : u.repeatedTags h tagType ≠ [] := by
          obtain ⟨t, ht⟩ := List.exists_mem_of_ne_nil items hb.items_ne_nil
          have htype := hb.type_of_mem t ht
          have hopen := ((ofSource u source).checkTagType_eq_ok_iff.1 hchecked).2
          have hwritten : t ∈ u.openTags h :=
            u.mem_openTags.2 ⟨by simp [hb.tags_left, ht], by rw [htype]; exact hopen⟩
          apply List.ne_nil_of_mem
          exact Universe.mem_repeatedTags.2 ⟨_, .present hwritten, by
            rw [Universe.repeatedIn, if_pos htype]
            exact .head _⟩
        rw [findRepeated_of_shown source hchecked hobject rfl hne,
          findRepeated_of_shown source' (hcheck.symm.trans hchecked) hobject hsame.symm hne]

/-- Declarations of an item and its containers, with a class that has no tags yet. Stock shows an item in a
container. -/
def stall (box : Handle) : List Draft.Edit :=
  [.declare .tagType "a::Item", .declare .tagType "a::Crate", .declare .tagType "a::Stock",
    .declare .classType "a::Stall", .collect (.ofIndex 16) box,
    .write (.ofIndex 16) (.declares ⟨"sort", some (.str "pear")⟩),
    .write (.ofIndex 18) (.tag (.collecting box [(Tag.plain (.ofIndex 16)).set "sort" (.str "plum")]))]

/-- Two items, of which one names its sort. -/
def items : List Tag := [.plain (.ofIndex 16), (Tag.plain (.ofIndex 16)).set "sort" (.str "plum")]

/-- The class of `stall` has stock and two items. -/
def loose : Universe :=
  Draft.ofEdits (stall (.ofIndex 17) ++ Draft.tagged (.ofIndex 19) ([.plain (.ofIndex 18)] ++ items ++ []))
    (by decide +kernel) (by decide +kernel)

/-- The class of `stall` has stock and a crate of two items. -/
def packed : Universe :=
  Draft.ofEdits
    (stall (.ofIndex 17) ++ Draft.tagged (.ofIndex 19)
      ([.plain (.ofIndex 18)] ++ [.collecting (.ofIndex 17) items] ++ []))
    (by decide +kernel) (by decide +kernel)

theorem boxed_packed :
    loose.Boxed packed (.ofIndex 19) (.ofIndex 16) (.ofIndex 17) [.plain (.ofIndex 18)] items [] := by
  have hstall : (Draft.empty.run (stall (.ofIndex 17))).registry.get? (.ofIndex 19)
      = some (.plain "a::Stall" .classType) := by decide +kernel
  exact .of_edits (Draft.registry_ofEdits _ _ _) (Draft.registry_ofEdits _ _ _) hstall nofun rfl nofun
    (by decide) (by decide +kernel) (by decide) (by decide +kernel)

/-- The crate of `packed` shows both items, the plum of the stock only once. -/
theorem repeated_in_container_packed :
    let source : ReachSource Unit := .ofFunction fun _ => .hierarchy
    loose.Boxed packed (.ofIndex 19) (.ofIndex 16) (.ofIndex 17) [.plain (.ofIndex 18)] items [] ∧
      loose.isReserved (.ofIndex 16) = loose.isReserved (.ofIndex 17) ∧
      loose.repeatedTags (.ofIndex 19) (.ofIndex 16) = packed.repeatedTags (.ofIndex 19) (.ofIndex 16) ∧
      (packed.repeatedTags (.ofIndex 19) (.ofIndex 16)).length = 2 ∧
      (((ofSource loose source).findRepeated (.ofIndex 19) (.ofIndex 16)).run ()).1
        = (((ofSource packed source).findRepeated (.ofIndex 19) (.ofIndex 16)).run ()).1 := by
  intro source
  have hreserved : loose.isReserved (.ofIndex 16) = loose.isReserved (.ofIndex 17) := by decide +kernel
  obtain ⟨hshown, hfound⟩ := repeated_in_container boxed_packed hreserved
  exact ⟨boxed_packed, hreserved, hshown, by decide +kernel, hfound source source () ()⟩

end Resolver

/-! ## Reserved containers -/

namespace Universe

/-- As `Resolver.loose`, but the items are collected by a reserved tag type. -/
def looseDocumented : Universe :=
  Draft.ofEdits (Resolver.stall .documented ++ Draft.tagged (.ofIndex 19) ([] ++ Resolver.items ++ []))
    (by decide +kernel) (by decide +kernel)

def packedDocumented : Universe :=
  Draft.ofEdits
    (Resolver.stall .documented ++ Draft.tagged (.ofIndex 19)
      ([] ++ [.collecting .documented Resolver.items] ++ []))
    (by decide +kernel) (by decide +kernel)

/-- The `scan` passes over a container whose type is reserved, with the items in it, so that `repeatedTags`
differ. -/
theorem repeatedTags_documented :
    looseDocumented.Boxed packedDocumented (.ofIndex 19) (.ofIndex 16) .documented [] Resolver.items [] ∧
      looseDocumented.repeatedTags (.ofIndex 19) (.ofIndex 16)
        ≠ packedDocumented.repeatedTags (.ofIndex 19) (.ofIndex 16) := by
  have hstall : (Draft.empty.run (Resolver.stall .documented)).registry.get? (.ofIndex 19)
      = some (.plain "a::Stall" .classType) := by decide +kernel
  refine ⟨?_, by decide +kernel⟩
  exact .of_edits (Draft.registry_ofEdits _ _ _) (Draft.registry_ofEdits _ _ _) hstall nofun rfl nofun
    (by decide) (by decide +kernel) (by decide) (by decide +kernel)

end Universe

end TagResolution
