import TagResolution.Proofs.Inheritance
import TagResolution.Proofs.Preorder
import TagResolution.Proofs.Showing

/-!
# Inherited configurations

The nested configuration of a type is looked up in its hierarchy, over all enclosing types. A search goes on
to an enclosing type only where the configuration of the nested type says so. Nevertheless a search finds
the tag of a configuration that lets it go on: climbing comes to the type of that tag on a way along which
the lookup ends, from every type on, at the same type, so that the search may take the same way.

The main statement is `Resolver.inherited_configuration_found`.
-/

namespace TagResolution

open Relation

variable {σ : Type}

/-- Repetitions do not matter for what comes first. -/
theorem find?_eraseDups (p : Handle → Bool) (l : List Handle) : l.eraseDups.find? p = l.find? p := by
  induction l using List.reverseRecOn with
  | nil => rfl
  | append_singleton l h ih =>
      rw [List.eraseDups_append, List.find?_append, List.find?_append, ih]
      by_cases hold : h ∈ l
      · have hagain : p h = true → (l.find? p).isSome := fun hp => List.find?_isSome.2 ⟨h, hold, hp⟩
        have hdropped : [h].removeAll l = [] := by simp [List.removeAll, hold]
        rw [hdropped, List.find?_singleton]
        cases hp : p h with
        | false => rfl
        | true =>
            obtain ⟨g, hg⟩ := Option.isSome_iff_exists.1 (hagain hp)
            rw [hg]
            rfl
      · have hkept : [h].removeAll l = [h] := by simp [List.removeAll, hold]
        rw [hkept]
        rfl

namespace Universe

variable {u : Universe} {shown : Handle → Bool} {h g d : Handle}

/-! ## Ways of a climb -/

/-- The hops to the `supertypes` of a type, in the order in which a hierarchy lists them. -/
def climbs (u : Universe) (h : Handle) : List Hop :=
  (u.interfaces h).map .interface ++ (u.parent? h).toList.map .parent
    ++ (u.enclosing? h).toList.map .enclosing

theorem map_target_climbs (u : Universe) (h : Handle) :
    (u.climbs h).map Hop.target = u.supertypes true h := by
  simp [climbs, supertypes, Function.comp_def, Hop.target]

theorem offers_of_mem_climbs {opens : Handle → Prop} {x : Hop} (hx : x ∈ u.climbs h) (hopen : opens h) :
    u.Offers true opens h x ∧ x.isTag = false := by
  unfold climbs at hx
  rcases List.mem_append.1 hx with hx | hx
  · rcases List.mem_append.1 hx with hx | hx
    · obtain ⟨i, hi, rfl⟩ := List.mem_map.1 hx
      exact ⟨⟨rfl, hi⟩, rfl⟩
    · obtain ⟨p, hp, rfl⟩ := List.mem_map.1 hx
      exact ⟨Option.mem_toList.1 hp, rfl⟩
  · obtain ⟨e, he, rfl⟩ := List.mem_map.1 hx
    exact ⟨⟨Option.mem_toList.1 he, hopen⟩, rfl⟩

/-- The way on which climbing, hop by hop of `climbs`, first comes to a type with a property: from every
type without it the first hop behind which there is such a type. -/
inductive Traces (u : Universe) (shown : Handle → Bool) : Handle → List Hop → Handle → Prop where
  | here {h : Handle} : u.listable h = true → shown h = true → Traces u shown h [] h
  | hop {h d : Handle} {x : Hop} {before after rest : List Hop} :
      u.listable h = true → shown h = false → u.climbs h = before ++ x :: after →
      (∀ y ∈ before, (u.hierarchy y.target true).find? shown = none) →
      Traces u shown x.target rest d → Traces u shown h (x :: rest) d

/-- The first type with a property in the `hierarchy` of a type is the type itself or else the first one in
the hierarchy of the first type, among those it is built on, that has such a type in its own. -/
theorem find?_hierarchy (hlist : u.listable h = true) (shown : Handle → Bool) :
    (u.hierarchy h true).find? shown = if shown h then some h
      else (u.climbs h).findSome? fun x => (u.hierarchy x.target true).find? shown := by
  simp only [hierarchy_eq_eraseDups, find?_eraseDups]
  rw [preorder_of_listable hlist, List.find?_cons, List.find?_flatMap, ← map_target_climbs,
    List.findSome?_map]
  cases shown h <;> rfl

theorem Traces.find? {hops : List Hop} (htrace : u.Traces shown h hops d) :
    (u.hierarchy h true).find? shown = some d := by
  induction htrace with
  | here hlist hshown => rw [find?_hierarchy hlist, if_pos hshown]
  | hop hlist hshown hsplit hbefore _ ih =>
      rw [find?_hierarchy hlist, if_neg (by simp [hshown])]
      exact List.findSome?_eq_some_iff.2 ⟨_, _, _, hsplit, ih, hbefore⟩

/-- A way `Traces` leads to the first type of a `hierarchy` that has a property. -/
theorem exists_traces (hd : (u.hierarchy h true).find? shown = some d) :
    ∃ hops, u.Traces shown h hops d := by
  -- Every step up has a lower rank.
  induction hrank : u.rank h using Nat.strongRecOn generalizing h with
  | ind rank ih =>
      have hlist : u.listable h = true := (u.mem_hierarchy.1 (List.mem_of_find?_eq_some hd)).1
      rw [find?_hierarchy hlist] at hd
      split at hd
      · next hshown =>
        cases hd
        exact ⟨[], .here hlist hshown⟩
      · next hshown =>
        obtain ⟨before, x, after, hsplit, hx, hbefore⟩ := List.findSome?_eq_some_iff.1 hd
        have hlower : u.rank x.target < rank := by
          have hmem : x.target ∈ u.supertypes true h := by
            rw [← map_target_climbs, hsplit]
            exact List.mem_map_of_mem (by simp)
          exact hrank ▸ u.rank_lt_of_linked (u.linked_of_mem_supertypes hmem)
        obtain ⟨rest, hrest⟩ := ih _ hlower hx rfl
        exact ⟨x :: rest, .hop hlist (by simpa using hshown) hsplit hbefore hrest⟩

/-- From every type on a way of `Traces` the first type is the same. -/
theorem Traces.find?_of_mem {hops : List Hop} (htrace : u.Traces shown h hops d)
    (hg : g ∈ h :: hops.map Hop.target) : (u.hierarchy g true).find? shown = some d := by
  induction htrace with
  | here hlist hshown =>
      rw [List.mem_singleton.1 hg]
      exact (Traces.here hlist hshown).find?
  | hop hlist hshown hsplit hbefore hrest ih =>
      rcases List.mem_cons.1 hg with rfl | hg
      · exact (Traces.hop hlist hshown hsplit hbefore hrest).find?
      · exact ih hg

theorem Traces.listable {hops : List Hop} (htrace : u.Traces shown h hops d) : u.listable d = true := by
  induction htrace with
  | here hlist _ => exact hlist
  | hop _ _ _ _ _ ih => exact ih

theorem Traces.isShown {hops : List Hop} (htrace : u.Traces shown h hops d) : shown d = true := by
  induction htrace with
  | here _ hshown => exact hshown
  | hop _ _ _ _ _ ih => exact ih

/-- A search may take a way of `Traces` if it may leave the types on it for their enclosing types. -/
theorem Traces.trail {opens : Handle → Prop} {hops tags : List Hop} (htrace : u.Traces shown h hops d)
    (hopens : ∀ g ∈ h :: hops.map Hop.target, opens g) (htags : u.Trail true opens d tags g) :
    u.Trail true opens h (hops ++ tags) g := by
  induction htrace with
  | here _ _ => exact htags
  | hop hlist _ hsplit _ _ ih =>
      obtain ⟨hopen, hopens⟩ := List.forall_mem_cons.1 hopens
      have hx := offers_of_mem_climbs (hsplit ▸ List.mem_append_right _ (.head _)) hopen
      exact .hop (u.ne_object_of_listable hlist) hx.1 (ih hopens htags)

/-! ## Nested configurations -/

/-- Whether a nested configuration is sighted from a type. -/
def showsNesting (u : Universe) (h : Handle) : Bool := (u.nearest? h .nestedConfiguration).isSome

theorem nesting?_eq (u : Universe) (h : Handle) :
    u.nesting? h = ((u.hierarchy h true).find? u.showsNesting).bind fun d =>
      ((u.nearest? d .nestedConfiguration).bind fun s =>
        (((u.merge s).find? "value").bind Value.constant?).bind Nesting.ofConstant?) := by
  have hfirst : ∀ l : List Handle, (l.findSome? fun g => u.nearest? g .nestedConfiguration)
      = (l.find? u.showsNesting).bind fun d => u.nearest? d .nestedConfiguration := by
    intro l
    induction l with
    | nil => rfl
    | cons g rest ih =>
        rw [List.findSome?_cons, List.find?_cons, ih]
        cases hg : u.nearest? g .nestedConfiguration <;> simp [showsNesting, hg]
  rw [nesting?, hfirst, Option.bind_assoc]

/-- A configuration, by `nesting?`, comes from the first type of the hierarchy from which one is sighted, on
a way along which every type has it. -/
theorem exists_traces_of_nesting? {n : Nesting} (hn : u.nesting? h = some n) :
    ∃ d hops, u.Traces u.showsNesting h hops d ∧ ∀ g ∈ h :: hops.map Hop.target,
      (u.hierarchy g true).find? u.showsNesting = some d ∧ u.nesting? g = some n := by
  have hvalue := hn
  rw [nesting?_eq, Option.bind_eq_some_iff] at hvalue
  obtain ⟨d, hd, hvalue⟩ := hvalue
  obtain ⟨hops, htrace⟩ := exists_traces hd
  refine ⟨d, hops, htrace, fun g hg => ?_⟩
  have hfirst := htrace.find?_of_mem hg
  refine ⟨hfirst, ?_⟩
  rw [nesting?_eq, hfirst]
  exact hvalue

theorem isTagType_nestedConfiguration (u : Universe) : u.isTagType .nestedConfiguration = true := by
  obtain ⟨d, hd, -, hkind⟩ := u.sound.builtin .nestedConfiguration
  exact Universe.isTagType_iff.2 ⟨d, hd, hkind⟩

theorem isReserved_nestedConfiguration (u : Universe) : u.isReserved .nestedConfiguration = false := by
  refine Bool.eq_false_iff.2 fun hreserved => ?_
  obtain ⟨d, hd, -, hstart⟩ := isReserved_iff_exists.1 hreserved
  obtain ⟨e, he, hname, -⟩ := u.sound.builtin .nestedConfiguration
  cases he.symm.trans hd
  have hopen : Builtin.nestedConfiguration.name.startsWith reservedTagNamespace = false := by decide +kernel
  simp [hname, hopen] at hstart

theorem reach_eq_enclosing_iff {u : Universe} {h : Handle} :
    u.reach .override h = .enclosing ↔ u.nesting? h = some .inherit := by
  unfold reach
  cases u.nesting? h with
  | none => exact ⟨nofun, nofun⟩
  | some n =>
      cases n with
      | inherit => exact ⟨fun _ => rfl, fun _ => rfl⟩
      | override => exact ⟨nofun, nofun⟩

end Universe

namespace Resolver

/-- Where a tag of a candidate can be reached, `findCandidate` finds one, with every source of reaches that
answers by type. -/
theorem exists_findCandidate_of_answers {u : Universe} {source : ReachSource σ} {reach : Handle → Reach}
    {memory : σ} (ha : source.Answers reach memory) {candidates : List Handle}
    (hchecked : (ofSource u source).checkCandidates candidates = .ok ()) {h g : Handle} {t : Tag}
    (hreach : u.Reachable true (reach · = .enclosing) h g) (ht : t ∈ u.tags g)
    (hmem : t.type ∈ candidates) :
    ∃ m, (((ofSource u source).findCandidate h candidates).run memory).1 = .ok (some m) := by
  rw [findCandidate_of_answers ha, hchecked]
  cases hfound : Search.found u reach (.anyOf u candidates) h with
  | some hit => exact ⟨_, rfl⟩
  | none =>
      have hnone := (Search.find_eq_none_iff_reachable u reach _ h ()).1 hfound g hreach
      exact absurd hmem (Query.anyOf_eq_none_iff.1 hnone t ht)

theorem checkCandidates_nestedConfiguration (r : Resolver σ) :
    r.checkCandidates [.nestedConfiguration] = .ok () := by
  refine r.checkCandidates_eq_ok_iff.2 ⟨nofun, fun c hc => ?_⟩
  rw [List.mem_singleton.1 hc]
  exact ⟨r.types.isTagType_nestedConfiguration, r.types.isReserved_nestedConfiguration⟩

/-- Where a type inherits from its enclosing type by a nested configuration (`nesting?`), and no search goes
on to an enclosing type by default, `findCandidate` finds the tag of a nested configuration, with a cache,
whatever it was asked before, as without one. Climbing comes to the first type from which that tag is
sighted on a way of `Traces` along which every type has the same configuration, from the same type. So a
search that may go on to the enclosing type where a type inherits can take that way and, from its end, the
tags to where the tag is written. -/
theorem inherited_configuration_found (u : Universe) {h : Handle} (hn : u.nesting? h = some .inherit) :
    (∃ d hops, u.Traces u.showsNesting h hops d ∧
      (∀ g ∈ h :: hops.map Hop.target,
        (u.hierarchy g true).find? u.showsNesting = some d ∧ u.nesting? g = some .inherit) ∧
      ∃ tags g, u.Trail true (u.nesting? · = some .inherit) h (hops ++ tags) g ∧
        (∀ x ∈ tags, x.isTag = true) ∧ ∃ t ∈ u.tags g, t.type = .nestedConfiguration) ∧
    (∀ memory : σ, ∃ m, (((ofReach u (u.reach .override)).findCandidate h
      [.nestedConfiguration]).run memory).1 = .ok (some m)) ∧
    ∀ capacity c, (u.cachedReach .override).Later (.ofCapacity capacity) c →
      ∃ m, (((cached u .override).findCandidate h [.nestedConfiguration]).run c).1 = .ok (some m) := by
  obtain ⟨d, hops, htrace, hway⟩ := u.exists_traces_of_nesting? hn
  have hshown : TransGen u.TagLeads d .nestedConfiguration :=
    u.isSome_nearest?_iff.1 htrace.isShown
  obtain ⟨tags, g, htags, htagged, t, ht, htype⟩ :
      ∃ tags g, u.Trail true (u.nesting? · = some .inherit) d tags g ∧
        (∀ x ∈ tags, x.isTag = true) ∧ ∃ t ∈ u.tags g, t.type = .nestedConfiguration :=
    Universe.exists_trail_of_transGen (u.ne_object_of_listable htrace.listable) hshown
  have htrail := htrace.trail (fun f hf => (hway f hf).2) htags
  have hreach : u.Reachable true (u.reach .override · = .enclosing) h g :=
    ⟨_, htrail.mono fun _ ho => Universe.reach_eq_enclosing_iff.2 ho⟩
  have hmem : t.type ∈ [Handle.nestedConfiguration] := List.mem_singleton.2 htype
  refine ⟨⟨d, hops, htrace, hway, tags, g, htrail, htagged, t, ht, htype⟩, fun memory => ?_, ?_⟩
  · exact exists_findCandidate_of_answers (.ofFunction _ memory)
      (checkCandidates_nestedConfiguration _) hreach ht hmem
  · intro capacity c hc
    have ha := u.answers_cachedReach .override (Cache.faithful_ofCapacity _ capacity)
    exact exists_findCandidate_of_answers (ha.of_later hc) (checkCandidates_nestedConfiguration _)
      hreach ht hmem

/-- A closet in a room in a house. The house is open by a tag whose type is tagged with the configuration,
and what the house extends is configured otherwise. -/
def furnished : Universe :=
  Draft.ofEdits
    [.declare .tagType "a::Open", .declare .classType "a::Base", .declare .classType "a::House",
      .declare .classType "a::Porch", .declare .classType "a::Room", .declare .classType "a::Closet",
      .write (.ofIndex 16) (.tag ((Tag.plain .nestedConfiguration).set "value" (.enum "Inherit"))),
      .write (.ofIndex 17) (.tag ((Tag.plain .nestedConfiguration).set "value" (.enum "Override"))),
      .write (.ofIndex 18) (.parent (.ofIndex 17)), .write (.ofIndex 18) (.tag (.plain (.ofIndex 16))),
      .write (.ofIndex 20) (.parent (.ofIndex 19)), .write (.ofIndex 20) (.enclosing (.ofIndex 18)),
      .write (.ofIndex 21) (.enclosing (.ofIndex 20))]
    (by decide +kernel) (by decide +kernel)

/-- From the closet of `furnished` the way leads over the room to the house, and the configuration is found,
also with a cache for one type that remembers what the house extends. -/
theorem inherited_configuration_found_furnished :
    let closet : Handle := .ofIndex 21
    let cache := (furnished.cachedReach .override (.ofIndex 17) (.ofCapacity 1)).2
    furnished.nesting? closet = some .inherit ∧
      (∃ hops, furnished.Traces furnished.showsNesting closet hops (.ofIndex 18) ∧
        ∀ g ∈ closet :: hops.map Hop.target, furnished.nesting? g = some .inherit) ∧
      (∃ m, (((ofReach furnished (furnished.reach .override)).findCandidate closet
        [.nestedConfiguration]).run ()).1 = .ok (some m)) ∧
      ∃ m, (((cached furnished .override).findCandidate closet [.nestedConfiguration]).run cache).1
        = .ok (some m) := by
  intro closet cache
  have hn : furnished.nesting? closet = some .inherit := by decide +kernel
  obtain ⟨⟨d, hops, htrace, hway, -⟩, huncached, hcached⟩ := inherited_configuration_found furnished hn
  have hfirst : (furnished.hierarchy closet true).find? furnished.showsNesting = some (.ofIndex 18) := by
    decide +kernel
  obtain rfl : d = .ofIndex 18 := Option.some.inj (htrace.find?.symm.trans hfirst)
  exact ⟨hn, ⟨hops, htrace, fun g hg => (hway g hg).2⟩, huncached (), hcached 1 cache (.ask _ _)⟩

end Resolver

end TagResolution
