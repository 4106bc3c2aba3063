import TagResolution.Proofs.Coherence
import TagResolution.Proofs.Merging
import TagResolution.Proofs.Provenance

/-!
# Repeated tags at the root

All tags of a type that can be seen from a type are gathered there, so a search for them should never
need the tags on the type to find more. It does need them in three cases: an alias empties the container
that is seen, a container is hidden behind a tag of its own type, or the type of a tag is nested and
its enclosing type is searched. A universe where a type shows whatever its tags lead to gathers the
tags; there, and for a source that only depends on the type nowhere else, every match is declared at its
root.

The main statement is `Resolver.repeated_at_root_iff`. `Resolver.findRepeated_emptied` shows a match
that is found through a tag, as an alias empties the container.
-/

namespace TagResolution

open Relation

variable {σ α : Type}

/-! ## Roots -/

/-- Past interfaces a trail that goes on behind its root, by `Anchored`, does so over a tag. -/
theorem Universe.Anchored.eq_or_exists_tag {u : Universe} {opens : Handle → Prop}
    {h root g : Handle} {rise rest : List Hop} (hsplit : u.Anchored false opens h root g rise rest) :
    g = root ∨ ∃ t rest', rest = .tag t :: rest' ∧ root ≠ .object ∧ t ∈ u.openTags root ∧
      u.Reachable false opens t.type g := by
  obtain ⟨-, -, honward, hanchors⟩ := hsplit
  cases honward with
  | here => exact .inl rfl
  | @hop _ _ x rest hne hx hrest =>
      cases x with
      | tag t => exact .inr ⟨t, rest, rfl, hne, u.mem_openTags.2 hx, rest, hrest⟩
      | interface i => cases hx.1
      | parent p => cases hanchors _ rfl
      | enclosing e => cases hanchors _ rfl

namespace Search

variable {u : Universe} {source : ReachSource σ} {q : Query α}

/-- Either what `visitWithin` finds is declared at its root, or the root has nothing of what is looked for. -/
theorem place_of_visitWithin {bound : Nat} {h : Handle} {p p' : Progress σ} {hit : Hit α}
    (hv : visitWithin u source q bound h p = (some hit, p')) :
    hit.place = .here hit.place.root ∨ q.here? hit.place.root = none := by
  induction bound generalizing h p p' hit with
  | zero => cases hv
  | succ bound ih =>
      obtain ⟨-, ⟨hplace, -⟩ | ⟨hhere, x, -, before, entered, inner, -, -, hgo, rfl⟩⟩ :=
        of_visitWithin_eq_some hv
      · rw [hplace]
        exact .inl rfl
      -- A hop either anchors the hit here or leaves its place.
      · cases x with
        | tag t => exact .inr hhere
        | interface i => exact .inr hhere
        | parent g => exact ih hgo
        | enclosing e => exact ih hgo

theorem place_of_find {h : Handle} {memory : σ} {hit : Hit α}
    (hf : (find u source q h memory).1 = some hit) :
    hit.place = .here hit.place.root ∨ q.here? hit.place.root = none := by
  obtain ⟨p, hv⟩ := exists_visitWithin_of_find hf
  exact place_of_visitWithin hv

/-- Past interfaces `find` finds something through a tag exactly where the root has nothing itself, and only
then it is declared elsewhere. -/
theorem declared_at_root_iff (hq : q.throughInterfaces = false) {h : Handle} {memory : σ} {hit : Hit α}
    (hf : (find u source q h memory).1 = some hit) :
    (hit.place.composed = none ↔ q.here? hit.place.root ≠ none) ∧
      (hit.place.declaring = hit.place.root ↔ q.here? hit.place.root ≠ none) := by
  obtain ⟨rise, rest, hjustified, hfound⟩ := exists_justified_of_find hf
  have hdeclaring : hit.place.declaring = hit.place.root → q.here? hit.place.root ≠ none := by
    intro heq
    rw [← heq, hfound]
    exact Option.some_ne_none _
  rcases place_of_find hf with hhere | hnone
  · have hroot := hdeclaring (congrArg Place.declaring hhere)
    exact ⟨iff_of_true (congrArg Place.composed hhere) hroot,
      iff_of_true (congrArg Place.declaring hhere) hroot⟩
  · have hcomposed : hit.place.composed = none → q.here? hit.place.root ≠ none := by
      intro hcomposed
      have hnotag := hjustified.composed_eq_none_iff.1 hcomposed
      rcases (hq ▸ hjustified.anchored).eq_or_exists_tag with heq | ⟨t, rest', rfl, -⟩
      · exact hdeclaring heq
      · cases hnotag (.tag t) (List.mem_append_right rise (.head _))
    exact ⟨⟨hcomposed, fun hroot => absurd hnone hroot⟩,
      ⟨hdeclaring, fun hroot => absurd hnone hroot⟩⟩

end Search

/-! ## Universes that gather repeated tags -/

namespace Universe

variable (u : Universe)

/-- A type shows `repeatedTags` if anything does that its tags lead to. -/
def Gathers (opens : Handle → Prop) (tagType : Handle) : Prop :=
  ∀ root t g, root ≠ .object → t ∈ u.openTags root → u.Reachable false opens t.type g →
    u.repeatedTags g tagType ≠ [] → u.repeatedTags root tagType ≠ []

/-- Nothing stands between a type and the repeated tags behind its tags: the enclosing types of tag
types stay closed, no alias sets what containers hold, and no container is behind itself. -/
structure Plain (opens : Handle → Prop) (tagType : Handle) : Prop where
  enclosing : ∀ h e, u.isTagType h = true → u.enclosing? h = some e → ¬ opens h
  aliases : ∀ h d a, u.get? h = some d → a ∈ d.aliases → u.container? tagType = some a.target →
    a.targetAttribute ≠ "value"
  acyclic : ∀ c, u.container? tagType = some c → ¬ TransGen u.TagLeads c c

variable {u} {opens : Handle → Prop} {tagType : Handle}

/-! ### What is behind tags -/

/-- Only `TagLeads` leads on from a tag type whose enclosing type is closed. -/
theorem Plain.tagLeads (hplain : u.Plain opens tagType) {h g : Handle} {hops : List Hop}
    (htrail : u.Trail false opens h hops g) (hh : u.isTagType h = true) :
    ReflTransGen u.TagLeads h g := by
  induction htrail with
  | here => exact .refl
  | @hop h _ x _ _ hx _ ih =>
      cases x with
      | tag t => exact .head ⟨t, u.mem_openTags.2 hx, rfl⟩ (ih (u.isTagType_of_mem_tags hx.1))
      | interface i => cases hx.1
      | parent p => cases (parent?_of_isTagType hh).symm.trans hx
      | enclosing e => exact absurd hx.2 (hplain.enclosing h e hh hx.1)

/-- Whatever a sighting looks through leads, by `TagLeads`, to the tag that is seen. -/
theorem Sees.tagLeads_of_mem_types {h : Handle} {s : Sighting} (hs : u.Sees h s) :
    ∀ g ∈ s.types, ReflTransGen u.TagLeads g s.tag.type := by
  induction hs with
  | present _ =>
      intro g hg
      rw [List.mem_singleton.1 hg]
  | beyond _ ht _ ih =>
      intro g hg
      rcases List.mem_cons.1 hg with rfl | hg
      · exact .refl
      · exact (ih g hg).tail ⟨_, ht, rfl⟩

/-- What a type `Sees` is written on it or on one that its tags lead to. -/
theorem Sees.exists_declaring {h : Handle} {s : Sighting} (hs : u.Sees h s) :
    ∃ d, ReflTransGen u.TagLeads h d ∧ s.tag ∈ u.openTags d := by
  cases hs with
  | present ht => exact ⟨h, .refl, ht⟩
  | beyond hs ht _ => exact ⟨_, hs.transGen.to_reflTransGen, ht⟩

/-- A type `Sees` a tag on a type that its tags lead to, unless that tag is behind itself. -/
theorem exists_sees_of_tagLeads {h d : Handle} {t : Tag} (hd : TransGen u.TagLeads h d)
    (ht : t ∈ u.openTags d) (hacyclic : ¬ TransGen u.TagLeads t.type t.type) :
    ∃ s, u.Sees h s ∧ s.tag = t := by
  obtain ⟨s, hs, rfl⟩ := u.exists_sighting_iff.2 hd
  refine ⟨_, .beyond hs ht fun hloop => hacyclic ?_, rfl⟩
  exact .tail' (hs.tagLeads_of_mem_types t.type hloop) ⟨t, ht, rfl⟩

/-! ### What containers hold -/

/-- An attribute that no alias sets is taken into `merge` as `withFallbacks` has it. -/
theorem find?_merge {name : String} (s : Sighting)
    (hfree : ∀ h d a, u.get? h = some d → a ∈ d.aliases → a.target = s.tag.type →
      a.targetAttribute ≠ name) :
    (u.merge s).find? name = (u.withFallbacks s.tag).find? name := by
  have hreadings : ∀ composed : Tag, u.readings s.tag.type name composed = [] := by
    intro composed
    unfold readings
    cases hd : u.get? composed.type with
    | none => rfl
    | some d =>
        have hsources : d.sources s.tag.type name = [] := by
          refine List.map_eq_nil_iff.2 (List.filter_eq_nil_iff.2 fun a ha => ?_)
          simpa using hfree composed.type d a hd ha
        simp [hsources]
  have himposed : s.through.reverse.findSome? (u.imposed? s.tag.type name) = none :=
    List.findSome?_eq_none_iff.2 fun composed _ => by simp [imposed?, hreadings composed]
  rw [find?_merge_eq, himposed, withFallbacks, Dictionary.find?_overlay, find?_fallbacks]
  rfl

theorem mem_repeatedTags {h : Handle} {t : Tag} :
    t ∈ u.repeatedTags h tagType ↔ ∃ s, u.Sees h s ∧ t ∈ u.repeatedIn tagType s := by
  rw [repeatedTags, List.mem_eraseDups, List.mem_flatMap]
  simp only [mem_scan]

/-- Two sightings of one tag contribute the same type of tags to `repeatedIn`. -/
theorem Plain.exists_mem_repeatedIn (hplain : u.Plain opens tagType) {s s' : Sighting} {t : Tag}
    (ht : t ∈ u.repeatedIn tagType s) (htag : s'.tag = s.tag) : ∃ t', t' ∈ u.repeatedIn tagType s' := by
  unfold repeatedIn at ht ⊢
  rw [htag]
  split
  · exact ⟨_, .head _⟩
  · next hne =>
    rw [if_neg hne] at ht
    split
    · next hcontainer =>
      rw [if_pos hcontainer] at ht
      have hfree : ∀ h d a, u.get? h = some d → a ∈ d.aliases → a.target = s.tag.type →
          a.targetAttribute ≠ "value" := fun h d a hd ha htarget =>
        hplain.aliases h d a hd ha (htarget ▸ hcontainer.symm)
      rw [find?_merge s' (htag ▸ hfree), htag, ← find?_merge s hfree]
      exact ⟨t, ht⟩
    · next hother =>
      rw [if_neg hother] at ht
      cases ht

/-- What contributes to `repeatedIn` is a tag of the type itself or of its `container?`. -/
theorem type_of_mem_repeatedIn {s : Sighting} {t : Tag} (ht : t ∈ u.repeatedIn tagType s) :
    s.tag.type = tagType ∨ u.container? tagType = some s.tag.type := by
  unfold repeatedIn at ht
  split at ht
  · next heq => exact .inl heq
  · split at ht
    · next hcontainer => exact .inr hcontainer.symm
    · cases ht

theorem Plain.gathers (hplain : u.Plain opens tagType) : u.Gathers opens tagType := by
  intro root t g _ ht hreach hg
  obtain ⟨r, hr⟩ := List.exists_mem_of_ne_nil _ hg
  obtain ⟨s, hs, hr⟩ := mem_repeatedTags.1 hr
  obtain ⟨hops, htrail⟩ := hreach
  have hlead : TransGen u.TagLeads root g :=
    .head' ⟨t, ht, rfl⟩ (hplain.tagLeads htrail (u.isTagType_of_mem_tags (u.mem_openTags.1 ht).1))
  suffices hseen : ∃ s', u.Sees root s' ∧ ∃ r', r' ∈ u.repeatedIn tagType s' by
    obtain ⟨s', hs', r', hr'⟩ := hseen
    exact List.ne_nil_of_mem (mem_repeatedTags.2 ⟨s', hs', hr'⟩)
  rcases type_of_mem_repeatedIn hr with htype | hcontainer
  · -- Any sighting of the type itself contributes.
    obtain ⟨s', hs', htype'⟩ := u.exists_sighting_iff.2 (hlead.trans hs.transGen)
    refine ⟨s', hs', ⟨tagType, u.merge s'⟩, ?_⟩
    rw [repeatedIn, if_pos (htype'.trans htype)]
    exact .head _
  · obtain ⟨d, hd, hdeclared⟩ := hs.exists_declaring
    obtain ⟨s', hs', htag⟩ := exists_sees_of_tagLeads (hlead.trans_left hd) hdeclared
      (hplain.acyclic _ hcontainer)
    exact ⟨s', hs', hplain.exists_mem_repeatedIn hr htag⟩

end Universe

/-! ## Repeated matches -/

theorem Query.repeated_ne_none_iff {collect : Handle → Handle → List Tag} {tagType g : Handle} :
    (repeated collect tagType).here? g ≠ none ↔ collect g tagType ≠ [] :=
  not_congr repeated_eq_none_iff

namespace Search

variable {u : Universe} {source : ReachSource σ} {tagType h : Handle} {memory : σ}
  {hit : Hit { tags : List Tag // tags ≠ [] }}

theorem repeatedTags_ne_nil_of_gathers (hgathers : u.Gathers source.Opens tagType)
    (hf : (find u source (.repeated u.repeatedTags tagType) h memory).1 = some hit) :
    u.repeatedTags hit.place.root tagType ≠ [] := by
  obtain ⟨rise, rest, hjustified, hfound⟩ := exists_justified_of_find hf
  have hdeclaring : u.repeatedTags hit.place.declaring tagType ≠ [] := by
    rw [← Query.repeated_ne_none_iff, hfound]
    exact Option.some_ne_none _
  have hanchored : u.Anchored false _ h hit.place.root hit.place.declaring rise rest :=
    hjustified.anchored
  rcases hanchored.eq_or_exists_tag with heq | ⟨t, rest', -, hne, ht, hops, htrail⟩
  · exact heq ▸ hdeclaring
  · exact hgathers _ t _ hne ht ⟨hops, htrail.mono fun _ ho => ho.opens⟩ hdeclaring

/-- Under `ReachSource.ofFunction` every match is at its root only if the universe `Gathers`: the types show
whatever their tags lead to. -/
theorem gathers_of_repeatedTags_ne_nil (reach : Handle → Reach) (memory : σ)
    (hroot : ∀ h hit, (find u (.ofFunction reach) (.repeated u.repeatedTags tagType) h memory).1
      = some hit → u.repeatedTags hit.place.root tagType ≠ []) :
    u.Gathers (reach · = .enclosing) tagType := by
  rintro root t g hne ht ⟨hops, htrail⟩ hg
  have hx : u.Offers false (reach · = .enclosing) root (.tag t) := u.mem_openTags.1 ht
  have hmatch : ((Query.repeated u.repeatedTags tagType).here? g).isSome :=
    Option.isSome_iff_ne_none.2 (Query.repeated_ne_none_iff.2 hg)
  obtain ⟨hit, hf, heq⟩ := find_root (q := .repeated u.repeatedTags tagType) memory hne hx rfl
    htrail hmatch
  exact heq ▸ hroot root hit hf

end Search

namespace Resolver

variable {r : Resolver σ} {tagType : Handle}

/-- A match that `findRepeated` gives from a type on, or `nextRepeated` above another match. -/
def Gives (r : Resolver σ) (tagType : Handle) (m : RepeatedMatch) : Prop :=
  (∃ h memory, ((r.findRepeated h tagType).run memory).1 = .ok (some m)) ∨
    ∃ below memory, below.tagType = tagType ∧
      ((r.nextRepeated below).run memory).1 = .ok (some m)

theorem exists_find_of_repeatedFrom {start : Option Handle} {memory : σ} {m : RepeatedMatch}
    (hm : ((r.repeatedFrom tagType start).run memory).1 = .ok (some m)) :
    ∃ h hit, (Search.find r.types r.source (.repeated r.collect tagType) h memory).1 = some hit ∧
      m.place = hit.place := by
  obtain ⟨hit, hhit, rfl⟩ := r.exists_hit_of_repeatedFrom hm
  cases start with
  | none => cases hhit
  | some h => exact ⟨h, hit, hhit, rfl⟩

/-- Every match that a resolver `Gives` comes from a hit of `Search.find`. -/
theorem Gives.exists_hit {m : RepeatedMatch} (hm : r.Gives tagType m) :
    ∃ h memory hit,
      (Search.find r.types r.source (.repeated r.collect tagType) h memory).1 = some hit ∧
        m.place = hit.place := by
  rcases hm with ⟨h, memory, hm⟩ | ⟨below, memory, rfl, hm⟩
  · obtain ⟨-, hm⟩ := Resolution.run_checked_eq_ok_iff.1 hm
    obtain ⟨h, hit, hf, hplace⟩ := exists_find_of_repeatedFrom hm
    exact ⟨h, memory, hit, hf, hplace⟩
  · obtain ⟨start, later, hm⟩ := r.exists_of_above hm
    obtain ⟨h, hit, hf, hplace⟩ := exists_find_of_repeatedFrom hm
    exact ⟨h, later, hit, hf, hplace⟩

/-- What `Search.find` finds from a type on is given, if the tag type passes the check. -/
theorem gives_of_find (htagType : r.checkTagType tagType = .ok ()) {h : Handle} {memory : σ}
    {hit : Hit { tags : List Tag // tags ≠ [] }}
    (hf : (Search.find r.types r.source (.repeated r.collect tagType) h memory).1 = some hit) :
    r.Gives tagType ⟨hit.place, tagType, hit.found.1, hit.found.2⟩ := by
  refine .inl ⟨h, memory, Resolution.run_checked_eq_ok_iff.2 ⟨htagType, ?_⟩⟩
  rw [run_repeatedFrom]
  exact congrArg (fun found => Except.ok (Option.map _ found)) hf

/-- A match for repeated tags is reached through a tag, and declared elsewhere than at its root, exactly
where the root shows no `repeatedTags`. This never happens in a universe that `Gathers` them, as a `Plain`
one does, and for a source that only depends on the type it never happens in no other. -/
theorem repeated_at_root_iff (u : Universe) (source : ReachSource σ) (tagType : Handle) :
    (∀ m, (ofSource u source).Gives tagType m →
      (m.place.composed = none ↔ u.repeatedTags m.place.root tagType ≠ []) ∧
        (m.place.declaring = m.place.root ↔ u.repeatedTags m.place.root tagType ≠ [])) ∧
    (u.Gathers source.Opens tagType → ∀ m, (ofSource u source).Gives tagType m →
      m.place.composed = none ∧ m.place.declaring = m.place.root) ∧
    (u.Plain source.Opens tagType → u.Gathers source.Opens tagType) ∧
    (∀ reach, σ → source = .ofFunction reach →
      u.isTagType tagType = true ∧ u.isReserved tagType = false →
      (∀ m, (ofSource u source).Gives tagType m → m.place.composed = none) →
      u.Gathers (reach · = .enclosing) tagType) := by
  have hroot : ∀ m, (ofSource u source).Gives tagType m →
      (m.place.composed = none ↔ u.repeatedTags m.place.root tagType ≠ []) ∧
        (m.place.declaring = m.place.root ↔ u.repeatedTags m.place.root tagType ≠ []) := by
    intro m hm
    obtain ⟨h, memory, hit, hf, hplace⟩ := hm.exists_hit
    have hdeclared := Search.declared_at_root_iff (q := .repeated u.repeatedTags tagType) rfl hf
    rw [Query.repeated_ne_none_iff] at hdeclared
    rw [hplace]
    exact hdeclared
  refine ⟨hroot, fun hgathers m hm => ?_, Universe.Plain.gathers, ?_⟩
  · obtain ⟨h, memory, hit, hf, hplace⟩ := hm.exists_hit
    have hne := Search.repeatedTags_ne_nil_of_gathers hgathers hf
    rw [← hplace] at hne
    exact ⟨(hroot m hm).1.2 hne, (hroot m hm).2.2 hne⟩
  · rintro reach memory rfl htagType hlocal
    have hchecked := (ofSource u (.ofFunction (σ := σ) reach)).checkTagType_eq_ok_iff.2 htagType
    refine Search.gathers_of_repeatedTags_ne_nil reach memory fun h hit hf => ?_
    have hgiven := gives_of_find hchecked hf
    exact (hroot _ hgiven).1.1 (hlocal _ hgiven)

/-- A class has a tag, and on the type of that tag an item stands in a container. -/
def contained : Universe :=
  Draft.ofEdits
    [.declare .tagType "a::Item", .declare .tagType "a::Items", .declare .tagType "a::Mark",
      .declare .classType "a::Class", .collect (.ofIndex 16) (.ofIndex 17),
      .write (.ofIndex 18)
        (.tag ((Tag.plain (.ofIndex 17)).set "value" (.array [(Tag.plain (.ofIndex 16)).toValue]))),
      .write (.ofIndex 19) (.tag (.plain (.ofIndex 18)))]
    (by decide +kernel) (by decide +kernel)

/-- In the container behind its tag the class of `contained` shows the item itself. -/
theorem repeated_at_root_iff_contained :
    let source : ReachSource Unit := .ofFunction fun _ => .hierarchy
    let m : RepeatedMatch := ⟨.here (.ofIndex 19), .ofIndex 16, [.plain (.ofIndex 16)], nofun⟩
    contained.Plain source.Opens (.ofIndex 16) ∧ (ofSource contained source).Gives (.ofIndex 16) m ∧
      contained.repeatedTags (.ofIndex 19) (.ofIndex 16) ≠ [] ∧
      m.place.composed = none ∧ m.place.declaring = m.place.root := by
  intro source m
  have hplain : contained.Plain source.Opens (.ofIndex 16) := by
    refine ⟨?_, ?_, ?_⟩
    · rintro h e - - ⟨_, hopen⟩
      cases hopen
    · intro h d a hd ha
      have hnone : ∀ entry ∈ contained.toList, entry.2.aliases = [] := by decide +kernel
      rw [hnone (h, d) ((Registry.mem_toList contained.sound).2 hd)] at ha
      cases ha
    · intro c hc hloop
      have hcontainer : contained.container? (.ofIndex 16) = some (.ofIndex 17) := by decide +kernel
      have hnone : contained.openTags (.ofIndex 17) = [] := by decide +kernel
      cases hcontainer.symm.trans hc
      obtain ⟨_, ⟨t, ht, -⟩, -⟩ := TransGen.head'_iff.1 hloop
      rw [hnone] at ht
      cases ht
  have hgiven : (ofSource contained source).Gives (.ofIndex 16) m :=
    .inl ⟨.ofIndex 19, (), by decide +kernel⟩
  obtain ⟨hroot, hlocal, hgathers, -⟩ := repeated_at_root_iff contained source (.ofIndex 16)
  exact ⟨hplain, hgiven, (hroot m hgiven).1.1 rfl, hlocal (hgathers hplain) m hgiven⟩

/-- As in `contained`, but the tag on the class empties the container. -/
def emptied : Universe :=
  Draft.ofEdits
    [.declare .tagType "a::Item", .declare .tagType "a::Items", .declare .tagType "a::Mark",
      .declare .classType "a::Class", .collect (.ofIndex 16) (.ofIndex 17),
      .write (.ofIndex 18) (.declares ⟨"held", none⟩),
      .write (.ofIndex 18) (.aliases ⟨"held", .ofIndex 17, "value"⟩),
      .write (.ofIndex 18)
        (.tag ((Tag.plain (.ofIndex 17)).set "value" (.array [(Tag.plain (.ofIndex 16)).toValue]))),
      .write (.ofIndex 19) (.tag ((Tag.plain (.ofIndex 18)).set "held" (.array [])))]
    (by decide +kernel) (by decide +kernel)

/-- The class of `emptied` shows no item, and `findRepeated` finds one at the type of its tag. -/
theorem findRepeated_emptied :
    let composed := (Tag.plain (.ofIndex 18)).set "held" (.array [])
    emptied.repeatedTags (.ofIndex 19) (.ofIndex 16) = [] ∧
    (((ofReach (σ := Unit) emptied fun _ => .hierarchy).findRepeated (.ofIndex 19)
        (.ofIndex 16)).run ()).1
      = .ok (some ⟨⟨.ofIndex 19, .ofIndex 18, some composed⟩, .ofIndex 16, [.plain (.ofIndex 16)],
          nofun⟩) := by
  decide +kernel

end Resolver

end TagResolution
