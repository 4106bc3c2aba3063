import TagResolution.Proofs.DirectMatches

/-!
# Merged tags of a match

A match for a tag type says that a tag of the type is sighted in the hierarchy of its root, enclosing types
left out. The merged tags come from the first type with any in a hierarchy that may go on to enclosing types
and lists the types in another order. It lists all types of the smaller one, and whatever is sighted from
a type is among the merged tags there, so there are some unless one of them cannot be completed.

The main statement is `Resolver.allMergedTags_ne_nil`, for all matches that a resolver may be asked about.
-/

namespace TagResolution

open Relation

variable {σ : Type}

namespace Universe

variable {u : Universe} {tagType h g : Handle}

/-! ## What merged attributes say -/

theorem exists_sighted_of_mergedAttributes {merged : Attributes}
    (hmerged : u.mergedAttributes h tagType = some merged) :
    ∃ g ∈ u.hierarchy h false, (u.nearest? g tagType).isSome := by
  obtain ⟨s, hs, -⟩ := Option.map_eq_some_iff.1 hmerged
  have hsome : (u.nearestAmong tagType none (u.hierarchy h false)).isSome := by
    rw [hs]
    rfl
  exact isSome_nearestAmong_iff.1 hsome

/-- The `mergedAttributes` exist only for types that a hierarchy may list. -/
theorem listable_of_mergedAttributes {merged : Attributes}
    (hmerged : u.mergedAttributes h tagType = some merged) : u.listable h = true := by
  obtain ⟨g, hg, -⟩ := exists_sighted_of_mergedAttributes hmerged
  exact (u.mem_hierarchy.1 hg).1

/-- There are no `mergedAttributes` for reserved tag types. -/
theorem isReserved_of_mergedAttributes {merged : Attributes}
    (hmerged : u.mergedAttributes h tagType = some merged) : u.isReserved tagType = false := by
  obtain ⟨g, -, hsighted⟩ := exists_sighted_of_mergedAttributes hmerged
  obtain ⟨_, -, t, ht, rfl⟩ := TransGen.tail'_iff.1 (u.isSome_nearest?_iff.1 hsighted)
  exact (u.mem_openTags.1 ht).2

/-- A tag that is written on a type counts there before all others in `mergedAttributes`. -/
theorem mergedAttributes_of_tag? {t : Tag} {merged : Attributes}
    (hmerged : u.mergedAttributes h tagType = some merged) (ht : u.tag? h tagType = some t) :
    merged = u.merge ⟨t, []⟩ := by
  have hnearest := nearest?_of_tag? (isReserved_of_mergedAttributes hmerged) ht
  obtain ⟨rest, hrest⟩ := exists_hierarchy_eq_cons (listable_of_mergedAttributes hmerged) false
  have hamong : u.nearestAmong tagType none (u.hierarchy h false) = some ⟨t, []⟩ := by
    rw [hrest, ← List.nil_append (h :: rest)]
    exact nearestAmong_of_first nofun hnearest rfl
  rw [mergedAttributes, hamong] at hmerged
  exact (Option.some.inj hmerged).symm

/-! ## Merged tags -/

/-- The `nearest?` sighting makes the first tag of `localMergedTags`. -/
theorem exists_cons_of_localMergedTags {s : Sighting} {tags : List Tag}
    (hs : u.nearest? h tagType = some s) (htags : u.localMergedTags h tagType = .ok tags) :
    ∃ t rest, tags = t :: rest ∧ u.synthesize (u.merge s) tagType h = .ok t := by
  have hhead : ((u.scan h).filter (·.tag.type = tagType)).head? = some s := by
    rw [List.head?_filter]
    exact hs
  obtain ⟨rest, hrest⟩ := List.head?_eq_some_iff.1 hhead
  unfold localMergedTags at htags
  rw [hrest, List.mapM_cons] at htags
  cases hfirst : u.synthesize (u.merge s) tagType h with
  | error e =>
      rw [hfirst] at htags
      cases htags
  | ok t =>
      rw [hfirst] at htags
      cases hothers : rest.mapM fun s => u.synthesize (u.merge s) tagType h with
      | error e =>
          rw [hothers] at htags
          cases htags
      | ok others =>
          rw [hothers] at htags
          cases htags
          exact ⟨t, _, List.eraseDups_cons, rfl⟩

theorem localMergedTags_ne_nil (hsighted : (u.nearest? h tagType).isSome) :
    u.localMergedTags h tagType ≠ .ok [] := by
  intro htags
  obtain ⟨s, hs⟩ := Option.isSome_iff_exists.1 hsighted
  obtain ⟨t, rest, hcons, -⟩ := exists_cons_of_localMergedTags hs htags
  cases hcons

/-- The `firstMergedTags` are the `localMergedTags` at the first type with any, and there are none only if
no type has any. -/
theorem of_firstMergedTags_eq_ok {l : List Handle} {tags : List Tag}
    (htags : u.firstMergedTags tagType l = .ok tags) :
    (tags = [] ∧ ∀ g ∈ l, u.localMergedTags g tagType = .ok []) ∨
      ∃ before g after, l = before ++ g :: after ∧ u.localMergedTags g tagType = .ok tags ∧ tags ≠ [] ∧
        ∀ f ∈ before, u.localMergedTags f tagType = .ok [] := by
  induction l with
  | nil =>
      cases htags
      exact .inl ⟨rfl, nofun⟩
  | cons h rest ih =>
      unfold firstMergedTags at htags
      cases hhere : u.localMergedTags h tagType with
      | error e =>
          rw [hhere] at htags
          cases htags
      | ok here =>
          rw [hhere] at htags
          cases here with
          | cons t others =>
              cases htags
              exact .inr ⟨[], h, rest, rfl, hhere, nofun, nofun⟩
          | nil =>
              rcases ih htags with ⟨hnil, hnone⟩ | ⟨before, g, after, hsplit, hg, hne, hbefore⟩
              · exact .inl ⟨hnil, List.forall_mem_cons.2 ⟨hhere, hnone⟩⟩
              · exact .inr ⟨h :: before, g, after, congrArg _ hsplit, hg, hne,
                  List.forall_mem_cons.2 ⟨hhere, hbefore⟩⟩

theorem firstMergedTags_ne_nil {l : List Handle} (hg : g ∈ l) (hsighted : (u.nearest? g tagType).isSome) :
    u.firstMergedTags tagType l ≠ .ok [] := by
  intro htags
  rcases of_firstMergedTags_eq_ok htags with ⟨-, hnone⟩ | ⟨-, -, -, -, -, hne, -⟩
  · exact localMergedTags_ne_nil hsighted (hnone g hg)
  · exact hne rfl

/-- If a tag is sighted from the first of some types, the `nearest?` sighting makes the first merged tag. -/
theorem exists_cons_of_firstMergedTags {rest : List Handle} {s : Sighting} {tags : List Tag}
    (hs : u.nearest? h tagType = some s) (htags : u.firstMergedTags tagType (h :: rest) = .ok tags) :
    ∃ t others, tags = t :: others ∧ u.synthesize (u.merge s) tagType h = .ok t := by
  have hsighted : (u.nearest? h tagType).isSome := by
    rw [hs]
    rfl
  rcases of_firstMergedTags_eq_ok htags with ⟨-, hnone⟩ | ⟨before, g, after, hsplit, hg, -, hbefore⟩
  · exact absurd (hnone h (.head _)) (localMergedTags_ne_nil hsighted)
  · cases before with
    | nil =>
        cases hsplit
        exact exists_cons_of_localMergedTags hs hg
    | cons f before =>
        cases hsplit
        exact absurd (hbefore h (.head _)) (localMergedTags_ne_nil hsighted)

/-- Where a type has a tag of its own, by `tag?`, the `mergedAttributes` of the type make the first merged
tag, whether or not enclosing types count. -/
theorem synthesize_of_firstMergedTags {t : Tag} {merged : Attributes} {withEnclosing : Bool}
    {tags : List Tag} (hmerged : u.mergedAttributes h tagType = some merged)
    (ht : u.tag? h tagType = some t)
    (htags : u.firstMergedTags tagType (u.hierarchy h withEnclosing) = .ok tags) :
    ∃ first rest, tags = first :: rest ∧ u.synthesize merged tagType h = .ok first := by
  have hnearest := nearest?_of_tag? (isReserved_of_mergedAttributes hmerged) ht
  obtain ⟨others, hself⟩ :=
    exists_hierarchy_eq_cons (listable_of_mergedAttributes hmerged) withEnclosing
  rw [hself] at htags
  rw [mergedAttributes_of_tag? hmerged ht]
  exact exists_cons_of_firstMergedTags hnearest htags

/-! ## Matches that are given -/

/-- The matches for a tag type that searches give, whatever the source of reaches is: what `findTag` or
`nextTag` answers, and what `findCandidate` or `nextCandidate` answers, as a match for its tag type by
`typedMatch`. -/
inductive Searched (u : Universe) : TagMatch → Prop where
  | found {σ : Type} {source : ReachSource σ} {h tagType : Handle} {memory : σ} {m : TagMatch} :
      (((Resolver.ofSource u source).findTag h tagType).run memory).1 = .ok (some m) → Searched u m
  | next {σ : Type} {source : ReachSource σ} {below : TagMatch} {memory : σ} {m : TagMatch} :
      (((Resolver.ofSource u source).nextTag below).run memory).1 = .ok (some m) → Searched u m
  | foundCandidate {σ : Type} {source : ReachSource σ} {h : Handle} {candidates : List Handle}
      {memory : σ} {c : CandidateMatch} {m : TagMatch} :
      (((Resolver.ofSource u source).findCandidate h candidates).run memory).1 = .ok (some c) →
      (Resolver.ofSource u source).typedMatch c = .ok m → Searched u m
  | nextCandidate {σ : Type} {source : ReachSource σ} {below c : CandidateMatch} {memory : σ}
      {m : TagMatch} :
      (((Resolver.ofSource u source).nextCandidate below).run memory).1 = .ok (some c) →
      (Resolver.ofSource u source).typedMatch c = .ok m → Searched u m

/-- The matches for a tag type that there can be: those that are `Searched`, and whatever record of a
candidate `typedMatch` takes as a match for its tag type. -/
inductive Given (u : Universe) : TagMatch → Prop where
  | searched {m : TagMatch} : u.Searched m → Given u m
  | typed {σ : Type} {source : ReachSource σ} {c : CandidateMatch} {m : TagMatch} :
      (Resolver.ofSource u source).typedMatch c = .ok m → Given u m

end Universe

namespace Resolver

variable {r : Resolver σ} {memory : σ} {m : TagMatch}

theorem of_typedMatch_eq_ok {c : CandidateMatch} (hm : r.typedMatch c = .ok m) :
    m.place = c.place ∧ m.tag = c.tag ∧
      r.types.mergedAttributes c.place.root c.tag.type = some m.merged := by
  refine r.of_typed_eq_ok ?_
  unfold typedMatch at hm
  cases hchecked : r.checkTagType c.tag.type with
  | error e =>
      rw [hchecked] at hm
      cases hm
  | ok _ =>
      rw [hchecked] at hm
      exact hm

theorem of_tagFrom_eq_ok {tagType : Handle} {start : Option Handle}
    (hm : ((r.tagFrom tagType start).run memory).1 = .ok (some m)) :
    r.types.tag? m.place.declaring m.tag.type = some m.tag ∧
      r.types.mergedAttributes m.place.root m.tag.type = some m.merged := by
  obtain ⟨hit, hf, htyped⟩ := r.exists_typed_of_tagFrom hm
  obtain ⟨hplace, htag, hmerged⟩ := r.of_typed_eq_ok htyped
  obtain ⟨-, -, -, -, -, hfound⟩ := exists_justified_of_hitFrom hf
  rw [hplace, htag]
  refine ⟨?_, hmerged⟩
  rw [(Query.of_single_eq_some hfound).2]
  exact hfound

theorem of_candidateFrom_eq_ok {candidates : List Handle} {start : Option Handle} {c : CandidateMatch}
    (hc : ((r.candidateFrom candidates start).run memory).1 = .ok (some c))
    (hm : r.typedMatch c = .ok m) :
    r.types.tag? m.place.declaring m.tag.type = some m.tag ∧
      r.types.mergedAttributes m.place.root m.tag.type = some m.merged := by
  obtain ⟨hit, hf, rfl⟩ := r.exists_hit_of_candidateFrom hc
  obtain ⟨hplace, htag, hmerged⟩ := of_typedMatch_eq_ok hm
  obtain ⟨-, -, -, -, -, hfound⟩ := exists_justified_of_hitFrom hf
  rw [hplace, htag]
  exact ⟨Universe.tag?_eq_some_iff.2 (Query.of_anyOf_eq_some hfound).1, hmerged⟩

end Resolver

namespace Universe

variable {u : Universe} {m : TagMatch}

/-- A match that is `Searched` has the first tag of its type on what declares it, with `mergedAttributes`. -/
theorem Searched.spec (hm : u.Searched m) : u.tag? m.place.declaring m.tag.type = some m.tag ∧
    u.mergedAttributes m.place.root m.tag.type = some m.merged := by
  cases hm with
  | found hm => exact Resolver.of_tagFrom_eq_ok (Resolution.run_checked_eq_ok_iff.1 hm).2
  | next hm =>
      obtain ⟨_, _, hfound⟩ := Resolver.exists_of_above _ hm
      exact Resolver.of_tagFrom_eq_ok hfound
  | foundCandidate hc hm =>
      exact Resolver.of_candidateFrom_eq_ok (Resolution.run_checked_eq_ok_iff.1 hc).2 hm
  | nextCandidate hc hm =>
      obtain ⟨_, -, habove⟩ := Resolver.exists_above_of_nextCandidate _ hc
      obtain ⟨_, _, hfound⟩ := Resolver.exists_of_above _ habove
      exact Resolver.of_candidateFrom_eq_ok hfound hm

theorem Given.mergedAttributes (hm : u.Given m) :
    u.mergedAttributes m.place.root m.tag.type = some m.merged := by
  cases hm with
  | searched hm => exact hm.spec.2
  | typed hm =>
      obtain ⟨hplace, htag, hmerged⟩ := Resolver.of_typedMatch_eq_ok hm
      rw [hplace, htag]
      exact hmerged

end Universe

namespace Resolver

theorem run_allMergedTags (r : Resolver σ) (m : TagMatch) (memory : σ) :
    ((r.allMergedTags m).run memory).1
      = (r.types.firstMergedTags m.tag.type (r.types.hierarchy m.place.root
          (decide ((r.source m.place.root memory).1 = .enclosing)))).mapError .synthesis := by
  unfold allMergedTags
  rw [Resolution.run_bind]
  exact congrArg Prod.fst (Resolution.run_liftExcept _ _)

/-- The merged tags that `allMergedTags` gathers for a `Given` match are never none: one of them cannot be
completed, or there is one at least. If the match is declared at its root, as a search finds it there, then
the first merged tag is the one that the match itself makes by `synthesize`. -/
theorem allMergedTags_ne_nil (u : Universe) {m : TagMatch} (hm : u.Given m) (source : ReachSource σ)
    (memory : σ) :
    ((∃ e, (((ofSource u source).allMergedTags m).run memory).1 = .error (.synthesis e)) ∨
      ∃ t rest, (((ofSource u source).allMergedTags m).run memory).1 = .ok (t :: rest)) ∧
    (u.Searched m → m.place.declaring = m.place.root → ∀ tags,
      (((ofSource u source).allMergedTags m).run memory).1 = .ok tags →
        ∃ t rest, tags = t :: rest ∧ (ofSource u source).synthesize m = .ok t) := by
  have hmerged := hm.mergedAttributes
  obtain ⟨g, hg, hsighted⟩ := Universe.exists_sighted_of_mergedAttributes hmerged
  let enclosing : Bool := decide ((source m.place.root memory).1 = .enclosing)
  have hrun : (((ofSource u source).allMergedTags m).run memory).1
      = (u.firstMergedTags m.tag.type (u.hierarchy m.place.root enclosing)).mapError .synthesis :=
    run_allMergedTags (ofSource u source) m memory
  have hne : u.firstMergedTags m.tag.type (u.hierarchy m.place.root enclosing) ≠ .ok [] :=
    Universe.firstMergedTags_ne_nil (Universe.hierarchy_subset enclosing hg) hsighted
  rw [hrun]
  cases hgiven : u.firstMergedTags m.tag.type (u.hierarchy m.place.root enclosing) with
  | error e => exact ⟨.inl ⟨e, rfl⟩, fun _ _ _ htags => nomatch htags⟩
  | ok given =>
      cases given with
      | nil => exact absurd hgiven hne
      | cons t rest =>
          refine ⟨.inr ⟨t, rest, rfl⟩, ?_⟩
          rintro hsearched hlocal _ ⟨⟩
          obtain ⟨first, others, hcons, hfirst⟩ := Universe.synthesize_of_firstMergedTags hmerged
            (hlocal ▸ hsearched.spec.1) hgiven
          exact ⟨first, others, hcons, congrArg (Except.mapError ResolveError.synthesis) hfirst⟩

/-- A house has a mark on its declaration and another one through a tag; a room in the house has none. -/
def signed : Universe :=
  Draft.ofEdits
    [.declare .tagType "a::Mark", .declare .tagType "a::Meta", .declare .classType "a::House",
      .declare .classType "a::Room", .write (.ofIndex 16) (.declares ⟨"value", some (.int 1)⟩),
      .write (.ofIndex 17) (.tag (.plain (.ofIndex 16))),
      .write (.ofIndex 18) (.tag (.plain (.ofIndex 17))),
      .write (.ofIndex 18) (.tag ((Tag.plain (.ofIndex 16)).set "value" (.int 2))),
      .write (.ofIndex 19) (.enclosing (.ofIndex 18))]
    (by decide +kernel) (by decide +kernel)

/-- From the room of `signed` the mark on the house is found, and it comes before the other one. -/
theorem allMergedTags_ne_nil_signed :
    let source : ReachSource Unit := .ofFunction fun _ => .enclosing
    let mark (value : Int64) : Tag := (Tag.plain (.ofIndex 16)).set "value" (.int value)
    let m : TagMatch := ⟨.here (.ofIndex 18), mark 2, [("value", .int 2)]⟩
    signed.Searched m ∧
      (((ofSource signed source).allMergedTags m).run ()).1 = .ok [mark 2, mark 1] ∧
      (ofSource signed source).synthesize m = .ok (mark 2) := by
  intro source mark m
  have hfound : (((ofSource signed source).findTag (.ofIndex 19) (.ofIndex 16)).run ()).1
      = .ok (some m) := by
    decide +kernel
  have htags : (((ofSource signed source).allMergedTags m).run ()).1 = .ok [mark 2, mark 1] := by
    decide +kernel
  have hsearched : signed.Searched m := .found hfound
  obtain ⟨-, hlocal⟩ := allMergedTags_ne_nil signed (.searched hsearched) source ()
  obtain ⟨_, _, ⟨⟩, hfirst⟩ := hlocal hsearched rfl _ htags
  exact ⟨hsearched, htags, hfirst⟩

end Resolver

end TagResolution
