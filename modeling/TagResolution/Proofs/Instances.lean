import TagResolution.Proofs.Synthesis

/-!
# Instances of a tag type

The tags of a type that can be seen from a type are listed in two ways. Once merged attributes are checked
against what the tag type declares and rebuilt from it, attribute by attribute; once they are taken as they
are, and containers are opened. Rebuilding changes nothing where it succeeds: then no attribute is merged that
is not declared, and none that is declared is missing, for a fallback would have been merged.

The main statement is `localMergedTags_agree`.
-/

namespace TagResolution

/-! ## Lists -/

theorem nodup_eraseDups {α : Type} [BEq α] [LawfulBEq α] (l : List α) : l.eraseDups.Nodup := by
  -- The last element is kept only if it is not among those before it.
  induction l using List.reverseRecOn with
  | nil => simp
  | append_singleton l a ih =>
      rw [List.eraseDups_append, List.nodup_append]
      by_cases ha : a ∈ l
      · simp [List.removeAll, ha, ih]
      · refine ⟨ih, by simp [List.removeAll, ha, List.eraseDups_cons], fun b hb c hc heq => ha ?_⟩
        have hc : c = a := by simpa [List.removeAll, ha, List.eraseDups_cons] using hc
        exact hc ▸ heq ▸ List.mem_eraseDups.1 hb

theorem exists_eq_ok_of_mapM {β γ ε : Type} {f : β → Except ε γ} {l : List β} {done : List γ}
    (hdone : l.mapM f = .ok done) : ∀ b ∈ l, ∃ c, f b = .ok c := by
  induction l generalizing done with
  | nil => simp
  | cons b rest ih =>
      rw [List.mapM_cons] at hdone
      cases hb : f b with
      | error e =>
          rw [hb] at hdone
          cases hdone
      | ok c =>
          rw [hb] at hdone
          cases hrest : rest.mapM f with
          | error e =>
              rw [hrest] at hdone
              cases hdone
          | ok _ => exact List.forall_mem_cons.2 ⟨⟨c, hb⟩, ih hrest⟩

theorem flatMap_eq_map_filter {β γ : Type} {p : β → Bool} {f : β → List γ} {g : β → γ} {l : List β}
    (hf : ∀ b ∈ l, f b = if p b then [g b] else []) : l.flatMap f = (l.filter p).map g := by
  induction l with
  | nil => rfl
  | cons b rest ih =>
      rw [List.flatMap_cons, hf b (.head _), ih fun c hc => hf c (.tail _ hc)]
      by_cases hb : p b <;> simp [hb]

namespace Universe

variable {u : Universe} {h tagType origin : Handle} {s : Sighting} {t : Tag}

/-! ## Rebuilding attributes -/

/-- The attributes of `merge` that make a tag by `synthesize` make it as they are. -/
theorem eq_of_synthesize_merge (ht : u.synthesize (u.merge s) s.tag.type origin = .ok t) :
    t = ⟨s.tag.type, u.merge s⟩ := by
  obtain ⟨d, hd, htype, hadmits⟩ := exists_admits_of_synthesize (u.ordered_merge s) ht
  have hmade := synthesize_of_admits origin (u.ordered_merge s) hd htype hadmits
  rw [overlay_fallbacks_merge] at hmade
  cases ht.symm.trans hmade
  rfl

/-! ## Both listings -/

/-- A sighted instance contributes itself to `repeatedIn`. -/
theorem repeatedIn_of_type_eq (htype : s.tag.type = tagType) :
    u.repeatedIn tagType s = [⟨tagType, u.merge s⟩] :=
  if_pos htype

theorem type_eq_of_mem_repeatedIn (ht : t ∈ u.repeatedIn tagType s) : t.type = tagType := by
  unfold repeatedIn at ht
  split at ht
  · simp_all
  · split at ht
    · obtain ⟨t', ht', rfl⟩ := List.mem_map.1 ht
      simpa using (List.mem_filter.1 ht').2
    · cases ht

/-- If `localMergedTags` can complete every sighted instance, all are as they were merged. -/
theorem synthesize_merge_of_localMergedTags {tags : List Tag}
    (htags : u.localMergedTags h tagType = .ok tags) (hs : s ∈ u.scan h) (htype : s.tag.type = tagType) :
    u.synthesize (u.merge s) tagType h = .ok ⟨tagType, u.merge s⟩ := by
  unfold localMergedTags at htags
  cases hdone : ((u.scan h).filter (·.tag.type = tagType)).mapM fun s =>
      u.synthesize (u.merge s) tagType h with
  | error e =>
      rw [hdone] at htags
      cases htags
  | ok done =>
      obtain ⟨t, ht⟩ := exists_eq_ok_of_mapM hdone s (List.mem_filter.2 ⟨hs, by simpa using htype⟩)
      subst htype
      rw [ht, eq_of_synthesize_merge ht]

/-- Where `container?` finds none, nothing else contributes to `repeatedTags`. -/
theorem repeatedTags_eq_of_container?_eq_none (hnone : u.container? tagType = none) (h : Handle) :
    u.repeatedTags h tagType =
      (((u.scan h).filter (·.tag.type = tagType)).map fun s => ⟨tagType, u.merge s⟩).eraseDups := by
  refine congrArg List.eraseDups (flatMap_eq_map_filter fun s _ => ?_)
  simp [repeatedIn, hnone]

/-- Where the instances of a tag type can all be completed, `localMergedTags` and `repeatedTags` both take
every instance as it was merged. Neither has a tag twice. What is completed is also found along with the
elements of containers, and without a container the listings are the same. -/
theorem localMergedTags_agree (u : Universe) (h tagType : Handle) {tags : List Tag}
    (htags : u.localMergedTags h tagType = .ok tags) :
    (∀ s ∈ u.scan h, s.tag.type = tagType →
      u.synthesize (u.merge s) tagType h = .ok ⟨tagType, u.merge s⟩ ∧
        u.repeatedIn tagType s = [⟨tagType, u.merge s⟩]) ∧
    tags.Nodup ∧ (∀ t ∈ tags, t ∈ u.repeatedTags h tagType) ∧
    (u.repeatedTags h tagType).Nodup ∧ (∀ t ∈ u.repeatedTags h tagType, t.type = tagType) ∧
    (u.container? tagType = none → tags = u.repeatedTags h tagType) := by
  refine ⟨fun s hs htype =>
    ⟨synthesize_merge_of_localMergedTags htags hs htype, repeatedIn_of_type_eq htype⟩, ?_⟩
  have hmerged := localMergedTags_eq_of_synthesize fun s hs htype =>
    synthesize_merge_of_localMergedTags htags hs htype
  cases htags.symm.trans hmerged
  refine ⟨nodup_eraseDups _, fun t ht => ?_, nodup_eraseDups _, fun t ht => ?_, fun hnone => ?_⟩
  · obtain ⟨s, hs, rfl⟩ := List.mem_map.1 (List.mem_eraseDups.1 ht)
    obtain ⟨hscan, htype⟩ := List.mem_filter.1 hs
    refine mem_repeatedTags.2 ⟨s, u.mem_scan.1 hscan, ?_⟩
    simp [repeatedIn_of_type_eq (u := u) (of_decide_eq_true htype)]
  · obtain ⟨s, -, hmem⟩ := mem_repeatedTags.1 ht
    exact type_eq_of_mem_repeatedIn hmem
  · exact (repeatedTags_eq_of_container?_eq_none hnone h).symm

/-- The label of an item is declared twice, and a mark sets it for the item behind it. A class has an item
in a container, one of its own, and a mark. -/
def shelved : Universe :=
  Draft.ofEdits
    [.declare .tagType "a::Item", .declare .tagType "a::Items", .declare .tagType "a::Mark",
      .declare .classType "a::Class", .collect (.ofIndex 16) (.ofIndex 17),
      .write (.ofIndex 16) (.declares ⟨"label", some (.int 1)⟩),
      .write (.ofIndex 16) (.declares ⟨"label", none⟩),
      .write (.ofIndex 18) (.declares ⟨"title", none⟩),
      .write (.ofIndex 18) (.aliases ⟨"title", .ofIndex 16, "label"⟩),
      .write (.ofIndex 18) (.tag (.plain (.ofIndex 16))),
      .write (.ofIndex 19)
        (.tag ((Tag.plain (.ofIndex 17)).set "value" (.array [(Tag.plain (.ofIndex 16)).toValue]))),
      .write (.ofIndex 19) (.tag (.plain (.ofIndex 16))),
      .write (.ofIndex 19) (.tag ((Tag.plain (.ofIndex 18)).set "title" (.int 2)))]
    (by decide +kernel) (by decide +kernel)

/-- The element of the container in `shelved` is the same tag as the item on the class, and is listed once;
the item behind the mark has its title for a label. -/
theorem localMergedTags_agree_shelved :
    let own : Tag := ⟨.ofIndex 16, [("label", .int 1)]⟩
    let behind : Tag := ⟨.ofIndex 16, [("label", .int 2)]⟩
    shelved.localMergedTags (.ofIndex 19) (.ofIndex 16) = .ok [own, behind] ∧
      [own, behind].Nodup ∧ ∀ t ∈ [own, behind], t ∈ shelved.repeatedTags (.ofIndex 19) (.ofIndex 16) := by
  intro own behind
  have htags : shelved.localMergedTags (.ofIndex 19) (.ofIndex 16) = .ok [own, behind] := by
    decide +kernel
  obtain ⟨-, hnodup, hmem, -⟩ := localMergedTags_agree shelved (.ofIndex 19) (.ofIndex 16) htags
  exact ⟨htags, hnodup, hmem⟩

end Universe

end TagResolution
