import TagResolution.Proofs.Completion
import TagResolution.Proofs.Gathering
import TagResolution.Proofs.MergedTags

/-!
# Complete tags

A tag is made from attributes by filling in every attribute that its type declares, which fails at an
attribute that has neither value nor fallback, or at a value that no attribute is declared for. In a
universe where tags and aliases keep to what is declared neither can happen. Merged attributes are then
those that the type declares, no more and no fewer, so that nothing is left to fill in and they make a tag
as they are.

The main statement is `Resolver.synthesizes_of_wellSchemed`.
-/

namespace TagResolution

open Relation

variable {σ : Type}

/-! ## Universes that keep to what is declared -/

theorem mapM_eq_ok {β γ ε : Type} {f : β → Except ε γ} {g : β → γ} {l : List β}
    (hf : ∀ b ∈ l, f b = .ok (g b)) : l.mapM f = .ok (l.map g) := by
  induction l with
  | nil => rfl
  | cons b rest ih =>
      rw [List.mapM_cons, hf b (.head _), ih fun c hc => hf c (.tail _ hc)]
      rfl

namespace Universe

/-- The tags on all declarations keep to what their types declare, and aliases set only what is declared. -/
structure WellSchemed (u : Universe) : Prop where
  tags : ∀ h d, u.get? h = some d → ∀ t ∈ d.tags, ∀ e ∈ u.get? t.type, e.Admits t.attributes
  aliases : ∀ h d, u.get? h = some d → ∀ a ∈ d.aliases, ∀ e ∈ u.get? a.target,
    (e.attribute? a.targetAttribute).isSome

instance (u : Universe) : Decidable u.WellSchemed :=
  decidable_of_iff (∀ entry ∈ u.toList,
      (∀ t ∈ entry.2.tags, ∀ e ∈ u.get? t.type, e.Admits t.attributes) ∧
        ∀ a ∈ entry.2.aliases, ∀ e ∈ u.get? a.target, (e.attribute? a.targetAttribute).isSome)
    ⟨fun hall => ⟨fun h d hd => (hall (h, d) ((Registry.mem_toList u.sound).2 hd)).1,
        fun h d hd => (hall (h, d) ((Registry.mem_toList u.sound).2 hd)).2⟩,
      fun hu entry hmem =>
        have hd := (Registry.mem_toList u.sound).1 hmem
        ⟨hu.tags entry.1 entry.2 hd, hu.aliases entry.1 entry.2 hd⟩⟩

variable {u : Universe} {h tagType origin : Handle} {d : Declaration} {s : Sighting}

/-! ### Merging -/

/-- What a composed tag sets, as `redirected` lists it, is declared. -/
theorem WellSchemed.redirected (hu : u.WellSchemed) (hd : u.get? h = some d) {composed : Tag} {name : String}
    (hname : name ∈ Dictionary.names (u.redirected h composed)) : (d.attribute? name).isSome := by
  obtain ⟨entry, hentry, rfl⟩ := List.mem_map.1 hname
  unfold Universe.redirected at hentry
  cases hc : u.get? composed.type with
  | none =>
      rw [hc] at hentry
      cases hentry
  | some c =>
      rw [hc] at hentry
      obtain ⟨a, ha, hvalue⟩ := List.mem_filterMap.1 hentry
      obtain ⟨ha, htarget⟩ := List.mem_filter.1 ha
      obtain ⟨v, -, rfl⟩ := Option.map_eq_some_iff.1 hvalue
      have htarget : a.target = h := by simpa using htarget
      exact hu.aliases _ c hc a ha d (htarget ▸ hd)

/-- The attributes of `merge` are those that the type of the tag declares. -/
theorem WellSchemed.mem_names_merge (hu : u.WellSchemed) (hs : u.Sees h s)
    (hd : u.get? s.tag.type = some d) {name : String} :
    name ∈ (u.merge s).names ↔ (d.attribute? name).isSome := by
  obtain ⟨g, -, ht⟩ := hs.exists_declaring
  obtain ⟨e, he, ht⟩ := u.mem_tags.1 (u.mem_openTags.1 ht).1
  have hbase : ∀ name, name ∈ (u.withFallbacks s.tag).names ↔ (d.attribute? name).isSome := by
    intro name
    rw [withFallbacks, fallbacks_of_get? hd]
    exact (hu.tags g e he s.tag ht d hd).mem_names_overlay
  unfold merge
  generalize u.withFallbacks s.tag = merged at hbase
  -- An alias overlays only names that are there already.
  induction s.through generalizing merged with
  | nil => exact hbase name
  | cons composed rest ih =>
      refine ih _ fun name => ?_
      rw [Dictionary.mem_names_overlay, hbase name]
      exact ⟨fun hname => hname.elim id fun hset => hu.redirected hd hset, .inl⟩

/-! ### Synthesis -/

/-- The attributes of `merge` make a tag by `synthesize` as they are. -/
theorem WellSchemed.synthesize_merge (hu : u.WellSchemed) (hs : u.Sees h s) (origin : Handle) :
    u.synthesize (u.merge s) s.tag.type origin = .ok ⟨s.tag.type, u.merge s⟩ := by
  obtain ⟨g, -, ht⟩ := hs.exists_declaring
  obtain ⟨d, hd, hkind⟩ := Universe.isTagType_iff.1 (u.isTagType_of_mem_tags (u.mem_openTags.1 ht).1)
  have hadmits : d.Admits (u.merge s) :=
    ⟨fun _ hname => (hu.mem_names_merge hs hd).1 hname, fun a ha _ =>
      (hu.mem_names_merge hs hd).2 (Declaration.isSome_attribute?_iff.2 ⟨a, ha, rfl⟩)⟩
  have hmade := synthesize_of_admits origin (u.ordered_merge s) hd ((flagged_of_get? hd).tagType.2 hkind)
    hadmits
  rwa [overlay_fallbacks_merge] at hmade

theorem sees_of_nearest? (hs : u.nearest? h tagType = some s) : u.Sees h s ∧ s.tag.type = tagType :=
  ⟨u.mem_scan.1 (List.mem_of_find?_eq_some hs), by simpa using List.find?_some hs⟩

/-- The `mergedAttributes` are merged for a tag that some type `Sees`. -/
theorem exists_sees_of_mergedAttributes {merged : Attributes}
    (hmerged : u.mergedAttributes h tagType = some merged) :
    ∃ g s, u.Sees g s ∧ s.tag.type = tagType ∧ u.merge s = merged := by
  obtain ⟨s, hs, hmerge⟩ := Option.map_eq_some_iff.1 hmerged
  obtain ⟨g, -, hnear⟩ := exists_of_nearestAmong hs
  obtain ⟨hsees, htype⟩ := sees_of_nearest? hnear
  exact ⟨g, s, hsees, htype, hmerge⟩

theorem WellSchemed.synthesize_mergedAttributes (hu : u.WellSchemed) {merged : Attributes}
    (hmerged : u.mergedAttributes h tagType = some merged) (origin : Handle) :
    u.synthesize merged tagType origin = .ok ⟨tagType, merged⟩ := by
  obtain ⟨g, s, hs, rfl, rfl⟩ := exists_sees_of_mergedAttributes hmerged
  exact hu.synthesize_merge hs origin

/-- If merged attributes make a tag as they are at each sighting of a type, then its `localMergedTags` are
what is merged there. -/
theorem localMergedTags_eq_of_synthesize (hmade : ∀ s ∈ u.scan h, s.tag.type = tagType →
      u.synthesize (u.merge s) tagType h = .ok ⟨tagType, u.merge s⟩) :
    u.localMergedTags h tagType = .ok
      (((u.scan h).filter (·.tag.type = tagType)).map fun s => ⟨tagType, u.merge s⟩).eraseDups := by
  unfold localMergedTags
  rw [mapM_eq_ok (g := fun s => ⟨tagType, u.merge s⟩)]
  · rfl
  · intro s hs
    obtain ⟨hscan, htype⟩ := List.mem_filter.1 hs
    exact hmade s hscan (by simpa using htype)

theorem WellSchemed.localMergedTags_eq (hu : u.WellSchemed) (h tagType : Handle) :
    u.localMergedTags h tagType = .ok
      (((u.scan h).filter (·.tag.type = tagType)).map fun s => ⟨tagType, u.merge s⟩).eraseDups := by
  refine localMergedTags_eq_of_synthesize fun s hs htype => ?_
  subst htype
  exact hu.synthesize_merge (u.mem_scan.1 hs) h

theorem WellSchemed.exists_firstMergedTags (hu : u.WellSchemed) (tagType : Handle) (l : List Handle) :
    ∃ tags, u.firstMergedTags tagType l = .ok tags := by
  induction l with
  | nil => exact ⟨[], rfl⟩
  | cons h rest ih =>
      unfold firstMergedTags
      rw [hu.localMergedTags_eq h tagType]
      split
      · next hfailed => cases hfailed
      · exact ih
      · exact ⟨_, rfl⟩

end Universe

/-! ## Resolvers -/

namespace Resolver

variable {r : Resolver σ} {memory : σ}

/-- A search by `findTag` fails for other reasons than synthesis. -/
theorem findTag_ne_synthesis (h tagType : Handle) (e : SynthesisError) :
    ((r.findTag h tagType).run memory).1 ≠ .error (.synthesis e) := by
  intro hfailed
  rw [run_findTag] at hfailed
  cases hcheck : r.checkTagType tagType with
  | error failure =>
      rw [hcheck] at hfailed
      cases hfailed
      unfold checkTagType at hcheck
      split at hcheck
      · cases hcheck
      · split at hcheck <;> cases hcheck
  | ok _ =>
      rw [hcheck] at hfailed
      dsimp only at hfailed
      rw [run_tagFrom] at hfailed
      split at hfailed
      · cases hfailed
      · next hit _ _ =>
        unfold typed at hfailed
        split at hfailed <;> cases hfailed

/-- In a universe that is `WellSchemed` the `mergedAttributes` make a tag by `synthesize` as they are, for
whatever type; the `localMergedTags` of a type can all be made; and no match is refused for lack of a
complete tag. -/
theorem synthesizes_of_wellSchemed (u : Universe) (hu : u.WellSchemed) :
    (∀ root tagType origin merged, u.mergedAttributes root tagType = some merged →
      u.synthesize merged tagType origin = .ok ⟨tagType, merged⟩) ∧
    (∀ h tagType, ∃ tags, u.localMergedTags h tagType = .ok tags) ∧
    ∀ {σ : Type} (source : ReachSource σ) (memory : σ),
      (∀ h tagType e,
        (((ofSource u source).findMerged h tagType).run memory).1 ≠ .error (.synthesis e)) ∧
      (∀ m, u.Given m → (ofSource u source).synthesize m = .ok ⟨m.tag.type, m.merged⟩) ∧
      ∀ m, ∃ tags, (((ofSource u source).allMergedTags m).run memory).1 = .ok tags := by
  have hgiven : ∀ {σ : Type} (source : ReachSource σ) m, u.Given m →
      (ofSource u source).synthesize m = .ok ⟨m.tag.type, m.merged⟩ := by
    intro σ source m hm
    have hmade := hu.synthesize_mergedAttributes hm.mergedAttributes m.place.root
    exact congrArg (Except.mapError ResolveError.synthesis) hmade
  refine ⟨fun root tagType origin merged hmerged => hu.synthesize_mergedAttributes hmerged origin,
    fun h tagType => ⟨_, hu.localMergedTags_eq h tagType⟩, fun source memory => ⟨?_, hgiven source, ?_⟩⟩
  · intro h tagType e hfailed
    unfold findMerged at hfailed
    rw [Resolution.run_bind] at hfailed
    cases hfound : ((ofSource u source).findTag h tagType).run memory with
    | mk found after =>
        rw [hfound] at hfailed
        rcases found with failure | _ | m
        · cases hfailed
          exact findTag_ne_synthesis h tagType e (congrArg Prod.fst hfound)
        · cases hfailed
        · -- What is found is completed, and that does not fail.
          have hm : u.Given m := .searched (.found (congrArg Prod.fst hfound))
          dsimp only at hfailed
          rw [Resolution.run_map, Resolution.run_liftExcept, hgiven source m hm] at hfailed
          cases hfailed
  · intro m
    obtain ⟨tags, htags⟩ := hu.exists_firstMergedTags m.tag.type (u.hierarchy m.place.root
      (decide ((source m.place.root memory).1 = .enclosing)))
    refine ⟨tags, ?_⟩
    rw [run_allMergedTags]
    exact congrArg (Except.mapError ResolveError.synthesis) htags

/-- The container of items declares its content twice, once without fallback, and a mark sets it for the
container behind it. -/
def stocked : Universe :=
  Draft.ofEdits
    [.declare .tagType "a::Item", .declare .tagType "a::Items", .declare .tagType "a::Mark",
      .declare .classType "a::Class", .write (.ofIndex 17) (.declares ⟨"value", none⟩),
      .collect (.ofIndex 16) (.ofIndex 17), .write (.ofIndex 18) (.declares ⟨"held", none⟩),
      .write (.ofIndex 18) (.aliases ⟨"held", .ofIndex 17, "value"⟩),
      .write (.ofIndex 18) (.tag ((Tag.plain (.ofIndex 17)).set "value" (.array []))),
      .write (.ofIndex 19) (.tag ((Tag.plain (.ofIndex 18)).set "held" (.int 1)))]
    (by decide +kernel) (by decide +kernel)

/-- What the class of `stocked` shows in the container behind its mark makes a container. -/
theorem synthesizes_of_wellSchemed_stocked :
    stocked.WellSchemed ∧
      stocked.synthesize [("value", .int 1)] (.ofIndex 17) (.ofIndex 19)
        = .ok ⟨.ofIndex 17, [("value", .int 1)]⟩ := by
  have hu : stocked.WellSchemed := by decide +kernel
  refine ⟨hu, (synthesizes_of_wellSchemed stocked hu).1 (.ofIndex 19) _ _ _ ?_⟩
  decide +kernel

end Resolver

end TagResolution
