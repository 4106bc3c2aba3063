import TagResolution.Proofs.Coherence
import TagResolution.Proofs.Preorder
import TagResolution.Proofs.Provenance
import TagResolution.Proofs.Termination

/-!
# Matches that need no tag

A match for one tag type tells its tag, and next to it the attributes that were merged for the type
anew: a search goes from type to type and over tags on the way, a merge lists the hierarchy of the root
first and then looks for the nearest sighting. For a match that was reached over no tag both end at the
same tag. What the search has passed by then are types of the hierarchy with nothing behind their
tags, whatever the source of reaches remembers, so the merge passes them too.

The main statement is `Resolver.merged_of_composed_eq_none`.
-/

namespace TagResolution

open Relation

variable {σ α : Type}

/-! ## Searches in vain -/

namespace Search

/-- The reach with which a search stays in the hierarchies that it is in. -/
def inward : Handle → Reach := fun _ => .hierarchy

/-- A `Task` is spent when nothing is left to be found by it, enclosing types aside. -/
def Spent (u : Universe) (q : Query α) (visited : TagSet) : Task → Prop
  | .visit h => Barren u inward q visited h
  | .hops h left => ∀ x ∈ left, Exhausted u inward q visited h x

variable {u : Universe} {source : ReachSource σ} {q : Query α} {path : List Tag} {h : Handle}
  {x : Hop} {p p₁ p₂ : Progress σ}

/-- A tag whose hop `enter` takes is put on the path. -/
theorem settled_of_enter (hs : Settled u inward q p.visited path)
    (he : enter source h x p = (true, p₁)) :
    Settled u inward q p₁.visited (x.tag?.toList ++ path) := by
  cases x with
  | tag t =>
      by_cases ht : t ∈ p.visited
      · cases (enter_visited ht).symm.trans he
      · cases (enter_new ht).symm.trans he
        exact hs.enter t
  | _ =>
      have hvisited : p.visited = p₁.visited := congrArg (fun entered => entered.2.visited) he
      exact hvisited ▸ hs

/-- Behind a hop that was taken in vain nothing is left to be found: its type is `Barren`. -/
theorem settled_of_missed (hs : Settled u inward q p₂.visited (x.tag?.toList ++ path))
    (hb : Barren u inward q p₂.visited x.target) (he : enter source h x p = (true, p₁))
    (hsub : ∀ t ∈ p₁.visited, t ∈ p₂.visited) :
    Settled u inward q p₂.visited path ∧ Exhausted u inward q p₂.visited h x := by
  cases x with
  | tag t =>
      by_cases ht : t ∈ p.visited
      · cases (enter_visited ht).symm.trans he
      · cases (enter_new ht).symm.trans he
        exact ⟨hs.leave hb, hsub t (TagSet.mem_insert.2 (.inl rfl))⟩
  | interface i => exact ⟨hs, hb⟩
  | parent g => exact ⟨hs, hb⟩
  | enclosing e => exact ⟨hs, nofun⟩

/-- A hop that `enter` refuses leads over an old tag or to an enclosing type. -/
theorem exhausted_of_refused (he : enter source h x p = (false, p₁)) :
    p.visited = p₁.visited ∧ Exhausted u inward q p₁.visited h x := by
  have hvisited : ∀ y, enter source h y p = (false, p₁) → (∀ t, y ≠ .tag t) →
      p.visited = p₁.visited := by
    intro y he hy
    cases y with
    | tag t => exact absurd rfl (hy t)
    | _ => exact congrArg (fun entered => entered.2.visited) he
  cases x with
  | tag t =>
      by_cases ht : t ∈ p.visited
      · cases (enter_visited ht).symm.trans he
        exact ⟨rfl, ht⟩
      · cases (enter_new ht).symm.trans he
  | interface i => cases he
  | parent g => cases he
  | enclosing e => exact ⟨hvisited _ he nofun, nofun⟩

/-- Whatever the source of reaches answers, a task that `Runs` in vain is `Spent`. -/
theorem Runs.spent {task : Task} {answer : Option (Hit α) × Progress σ}
    (hr : Runs u source q task p answer) (hnone : answer.1 = none)
    (hs : Settled u inward q p.visited path) :
    Settled u inward q answer.2.visited path ∧ Spent u q answer.2.visited task := by
  induction hr generalizing path with
  | object => exact ⟨hs, barren_object⟩
  | here _ _ => cases hnone
  | onward _ hhere _ ih =>
      obtain ⟨hs, hspent⟩ := ih hnone hs
      exact ⟨hs, barren_of_exhausted hhere hspent⟩
  | exhausted => exact ⟨hs, nofun⟩
  | refused he hleft ih =>
      obtain ⟨hvisited, hexhausted⟩ := exhausted_of_refused (u := u) (q := q) he
      obtain ⟨hs, hspent⟩ := ih hnone (hvisited ▸ hs)
      exact ⟨hs, List.forall_mem_cons.2 ⟨hexhausted.mono hleft.visited, hspent⟩⟩
  | missed he hvisit hleft ihvisit ihleft =>
      obtain ⟨hs, hbarren⟩ := ihvisit rfl (settled_of_enter hs he)
      obtain ⟨hs, hexhausted⟩ := settled_of_missed hs hbarren he hvisit.visited
      obtain ⟨hs, hspent⟩ := ihleft hnone hs
      exact ⟨hs, List.forall_mem_cons.2 ⟨hexhausted.mono hleft.visited, hspent⟩⟩
  | found _ _ _ => cases hnone

/-! ## Searches with a hit -/

/-- A hit over some hops comes from the search behind one of them; those before were tried in vain. -/
theorem Runs.exists_call {left : List Hop} {hit : Hit α} {p' : Progress σ}
    (hr : Runs u source q (.hops h left) p (some hit, p')) :
    ∃ tried x rest p₁ p₂ inner, left = tried ++ x :: rest ∧
      Runs u source q (.hops h tried) p (none, p₁) ∧ enter source h x p₁ = (true, p₂) ∧
      Runs u source q (.visit x.target) p₂ (some inner, p') ∧ hit = inner.after h x := by
  induction left generalizing p with
  | nil => cases hr
  | cons x left ih =>
      cases hr with
      | refused he hleft =>
          obtain ⟨tried, y, rest, p₁, p₂, inner, rfl, htried, hcall⟩ := ih hleft
          exact ⟨x :: tried, y, rest, p₁, p₂, inner, rfl, .refused he htried, hcall⟩
      | missed he hvisit hleft =>
          obtain ⟨tried, y, rest, p₁, p₂, inner, rfl, htried, hcall⟩ := ih hleft
          exact ⟨x :: tried, y, rest, p₁, p₂, inner, rfl, .missed he hvisit htried, hcall⟩
      | found he hvisit => exact ⟨[], x, left, p, _, _, rfl, .exhausted, he, hvisit, rfl⟩

/-- A hit of a search that `Runs` from a type without parent and enclosing type is anchored there. -/
theorem Runs.root_eq {hit : Hit α} {p' : Progress σ}
    (hr : Runs u source q (.visit h) p (some hit, p')) (hparent : u.parent? h = none)
    (henclosing : u.enclosing? h = none) : hit.place.root = h := by
  cases hr with
  | here _ _ => rfl
  | onward _ _ hhops =>
      obtain ⟨tried, x, rest, p₁, p₂, inner, hsplit, -, -, -, rfl⟩ := hhops.exists_call
      have hoffer := Universe.mem_hops.1 (hsplit ▸ List.mem_append_right tried (.head rest))
      cases x with
      | tag t => rfl
      | interface i => rfl
      | parent g => cases hparent.symm.trans hoffer
      | enclosing e => cases henclosing.symm.trans hoffer.1

end Search

/-! ## Hits in hierarchies -/

namespace Universe

variable {u : Universe} {h i : Handle}

/-- No interface is nested in another type. -/
def InterfacesUnnested (u : Universe) : Prop :=
  ∀ h d, u.get? h = some d → d.kind = .interface → d.enclosing = none

theorem InterfacesUnnested.enclosing? (hflat : u.InterfacesUnnested) (hi : i ∈ u.interfaces h) :
    u.enclosing? i = none := by
  obtain ⟨e, he, hmem⟩ := u.mem_interfaces.1 hi
  obtain ⟨d, hd, hkind⟩ := (u.wellLinked h e he).interfaces i hmem
  have hget : u.enclosing? i = (u.registry.get? i).bind (·.enclosing) := rfl
  rw [hget, hd]
  exact hflat i d hd hkind

/-- Before the hop to an interface come those over all tags and those to the interfaces before it. -/
theorem hops_split_interface {tried rest : List Hop}
    (hhops : u.hops true h = tried ++ .interface i :: rest) :
    (∀ t ∈ u.openTags h, .tag t ∈ tried) ∧
      ∃ front back, u.interfaces h = front ++ i :: back ∧ ∀ j ∈ front, .interface j ∈ tried := by
  let above : List Hop := (u.parent? h).toList.map .parent ++ (u.enclosing? h).toList.map .enclosing
  have hsplit : (u.openTags h).map .tag ++ ((u.interfaces h).map .interface ++ above)
      = tried ++ .interface i :: rest := by
    rw [← hhops]
    simp [hops, above]
  have habove : .interface i ∉ above := by simp [above]
  -- The hop is not one over a tag, so all of these come before it.
  obtain ⟨middle, rfl, hmiddle⟩ : ∃ middle, tried = (u.openTags h).map .tag ++ middle ∧
      (u.interfaces h).map .interface ++ above = middle ++ .interface i :: rest := by
    rcases List.append_eq_append_iff.1 hsplit with ⟨middle, htried, hmiddle⟩ | ⟨late, htags, hlate⟩
    · exact ⟨middle, htried, hmiddle⟩
    · cases late with
      | nil => exact ⟨[], by simpa using htags.symm, hlate.symm⟩
      | cons x late =>
          cases hlate
          have hmem : .interface i ∈ (u.openTags h).map Hop.tag := by simp [htags]
          simp at hmem
  refine ⟨fun t ht => List.mem_append_left _ (List.mem_map_of_mem ht), ?_⟩
  -- Nor does it lead to the parent or the enclosing type, so it is one of those to interfaces.
  rcases List.append_eq_append_iff.1 hmiddle with ⟨late, -, hlate⟩ | ⟨late, hinterfaces, hlate⟩
  · exact absurd (by simp [hlate]) habove
  · cases late with
    | nil =>
        rw [List.nil_append] at hlate
        exact absurd (hlate ▸ List.mem_cons_self) habove
    | cons x late =>
        cases hlate
        obtain ⟨front, back, hfront, rfl, hback⟩ := List.map_eq_append_iff.1 hinterfaces
        obtain ⟨j, back, rfl, hj, -⟩ := List.map_eq_cons_iff.1 hback
        cases hj
        exact ⟨front, back, hfront, fun j hj =>
          List.mem_append_right _ (List.mem_map_of_mem hj)⟩

end Universe

namespace Search

variable {u : Universe} {source : ReachSource σ} {q : Query α} {visited : TagSet}

/-- All types in the `preorder` of a `Barren` one are `Barren`. -/
theorem Barren.of_mem_preorder {g h : Handle} (hq : q.throughInterfaces = true)
    (hb : Barren u inward q visited h) (hg : g ∈ u.preorder false h) :
    Barren u inward q visited g := by
  obtain ⟨hlist, hreach⟩ := Universe.mem_preorder.1 hg
  clear hg
  induction hreach using ReflTransGen.head_induction_on with
  | refl => exact hb
  | head hstep _ ih =>
      obtain ⟨x, rfl, hlink, hx⟩ := Universe.exists_offers_of_ascends hstep
      have hoffer : u.Offers q.throughInterfaces (inward · = .enclosing) _ x :=
        hq ▸ hx.mono fun _ => False.elim
      exact ih (hb.next (u.ne_object_of_listable hlist) hoffer hlink) hstep.2

/-- Before its declaring type the `preorder` walk from the root of a hit meets only types that have nothing
of what is looked for, and whose tags have been visited. -/
def Foremost (u : Universe) (q : Query α) (visited : TagSet) (place : Place) : Prop :=
  ∃ before after, u.preorder false place.root = before ++ place.declaring :: after ∧
    ∀ g ∈ before, q.here? g = none ∧ ∀ t ∈ u.openTags g, t ∈ visited

theorem Foremost.self {h : Handle} (hlist : u.listable h = true) :
    Foremost u q visited (.here h) := by
  refine ⟨[], _, u.preorder_of_listable hlist, nofun⟩

/-- A match that is taken over from an interface stands in the walk from the type behind the walks from the
interfaces before it, so it stays `Foremost`. -/
theorem Foremost.interface {h i : Handle} {front back : List Handle} {place : Place}
    (hq : q.throughInterfaces = true) (hf : Foremost u q visited place) (hroot : place.root = i)
    (hlist : u.listable h = true) (hinterfaces : u.interfaces h = front ++ i :: back)
    (hhere : q.here? h = none) (htags : ∀ t ∈ u.openTags h, t ∈ visited)
    (hfront : ∀ j ∈ front, Barren u inward q visited j) :
    Foremost u q visited (place.after h (.interface i)) := by
  obtain ⟨before, after, hwalk, hbefore⟩ := hf
  have hup : u.supertypes false h = front ++ i :: (back ++ (u.parent? h).toList) := by
    simp [Universe.supertypes, hinterfaces]
  refine ⟨h :: front.flatMap (u.preorder false) ++ before,
    after ++ (back ++ (u.parent? h).toList).flatMap (u.preorder false), ?_, ?_⟩
  · show u.preorder false h = _
    rw [Universe.preorder_of_listable hlist, hup, List.flatMap_append, List.flatMap_cons, ← hroot,
      hwalk]
    simp [Place.after]
  · intro g hg
    rcases List.mem_append.1 hg with hg | hg
    · rcases List.mem_cons.1 hg with rfl | hg
      · exact ⟨hhere, htags⟩
      · obtain ⟨j, hj, hg⟩ := List.mem_flatMap.1 hg
        have hne := u.ne_object_of_listable (Universe.listable_of_mem_preorder hg)
        exact ((hfront j hj).of_mem_preorder hq hg).here hne
    · exact hbefore g hg

/-- A hit that was reached over no tag is `Foremost`: either it is at the type itself, or the search passed
the tags and the interfaces before the one that leads to it in vain. -/
theorem Runs.foremost {tagType h : Handle} {path : List Tag} {p p' : Progress σ} {hit : Hit Tag}
    (hflat : u.InterfacesUnnested)
    (hr : Runs u source (.single u tagType) (.visit h) p (some hit, p'))
    (hcomposed : hit.place.composed = none)
    (hs : Settled u inward (.single u tagType) p.visited path) :
    ∃ visited, (∀ t ∈ p.visited, t ∈ visited) ∧
      Settled u inward (.single u tagType) visited path ∧
      Foremost u (.single u tagType) visited hit.place := by
  -- A search is called with less left to do, so the induction is on the calls.
  induction hcaller : (h, p) using
    (wellFounded_calls u source (Query.single u tagType)).induction generalizing h p hit with
  | _ caller ih =>
      subst hcaller
      cases hr with
      | here hne hfound =>
          obtain ⟨hmem, -⟩ := Query.of_single_eq_some hfound
          exact ⟨_, fun _ ht => ht, hs, .self (u.listable_of_mem_tags hne hmem)⟩
      | onward hne hhere hhops =>
          obtain ⟨tried, x, rest, p₁, p₂, inner, hsplit, htried, he, hvisit, rfl⟩ := hhops.exists_call
          have hcall := Calls.call hne hhere hsplit htried he
          obtain ⟨hs₁, hspent⟩ := htried.spent rfl hs
          have hs₂ := settled_of_enter hs₁ he
          have hoffer := Universe.mem_hops.1 (hsplit ▸ List.mem_append_right tried (.head rest))
          have hsub : ∀ t ∈ p.visited, t ∈ p₂.visited := fun t ht =>
            visited_of_enter he t (htried.visited t ht)
          cases x with
          | tag t => cases hcomposed
          | parent g =>
              obtain ⟨visited, hgrows, hresult⟩ := ih _ hcall hvisit hcomposed hs₂ rfl
              exact ⟨visited, fun t ht => hgrows t (hsub t ht), hresult⟩
          | enclosing e =>
              obtain ⟨visited, hgrows, hresult⟩ := ih _ hcall hvisit hcomposed hs₂ rfl
              exact ⟨visited, fun t ht => hgrows t (hsub t ht), hresult⟩
          | interface i =>
              obtain ⟨visited, hgrows, hs', hforemost⟩ := ih _ hcall hvisit hcomposed hs₂ rfl
              have hgrows₁ : ∀ t ∈ p₁.visited, t ∈ visited := fun t ht =>
                hgrows t (visited_of_enter he t ht)
              have hroot := hvisit.root_eq (Universe.parent?_of_mem_interfaces hoffer.2)
                (hflat.enclosing? hoffer.2)
              obtain ⟨htags, front, back, hinterfaces, hfront⟩ := Universe.hops_split_interface hsplit
              have hlist := u.listable_of_linked hne (u.linked_of_mem_interfaces hoffer.2)
              refine ⟨visited, fun t ht => hgrows t (hsub t ht), hs', ?_⟩
              refine hforemost.interface rfl hroot hlist hinterfaces hhere ?_ ?_
              · exact fun t ht => hgrows₁ t (hspent _ (htags t ht))
              · exact fun j hj => Barren.mono hgrows₁ (hspent _ (hfront j hj))

/-- Nothing is sighted from a type without match whose tags have been visited in vain. -/
theorem not_tagLeads_of_settled {tagType g : Handle}
    (hs : Settled u inward (.single u tagType) visited [])
    (hhere : (Query.single u tagType).here? g = none) (htags : ∀ t ∈ u.openTags g, t ∈ visited) :
    ¬ TransGen u.TagLeads g tagType := by
  intro hleads
  induction hleads using TransGen.head_induction_on with
  | single hstep =>
      obtain ⟨t, ht, htype⟩ := hstep
      exact Query.single_eq_none_iff.1 hhere t (u.mem_openTags.1 ht).1 htype
  | head hstep _ ih =>
      obtain ⟨t, ht, rfl⟩ := hstep
      have hne := u.ne_object_of_isTagType (u.isTagType_of_mem_tags (u.mem_openTags.1 ht).1)
      obtain ⟨hnext, hnextTags⟩ := (hs t (htags t ht) nofun).here hne
      exact ih hnext hnextTags

end Search

/-! ## The nearest sighting -/

namespace Universe

variable {u : Universe} {tagType h : Handle} {t : Tag}

/-- The first tag of a type on a declaration, by `tag?`, is `nearest?` from there. -/
theorem nearest?_of_tag? (hopen : u.isReserved tagType = false) (ht : u.tag? h tagType = some t) :
    u.nearest? h tagType = some ⟨t, []⟩ := by
  have hfirst : (u.openTags h).find? (·.type = tagType) = some t := by
    have hpass : (fun s : Tag => decide ((!u.isReserved s.type) = true ∧ decide (s.type = tagType) = true))
        = fun s => decide (s.type = tagType) := by
      funext s
      by_cases htype : s.type = tagType <;> simp [htype, hopen]
    rw [openTags, List.find?_filter, hpass]
    exact ht
  have hpresent : (u.present h).find? (·.tag.type = tagType) = some ⟨t, []⟩ := by
    rw [present, List.find?_map]
    simp only [Function.comp_def, hfirst, Option.map_some]
  rw [nearest?, scan, outward_succ, List.find?_append, hpresent]
  rfl

/-- For `nearestAmong` a tag that is present counts as soon as it is met, if nothing was sighted before. -/
theorem nearestAmong_of_first {d : Handle} {before after : List Handle} {s : Sighting}
    (hbefore : ∀ g ∈ before, u.nearest? g tagType = none) (hd : u.nearest? d tagType = some s)
    (hpresent : s.distance = 0) : u.nearestAmong tagType none (before ++ d :: after) = some s := by
  induction before with
  | nil =>
      rw [List.nil_append, nearestAmong, hd]
      exact if_pos hpresent
  | cons g rest ih =>
      rw [List.cons_append, nearestAmong, hbefore g (.head _)]
      exact ih fun f hf => hbefore f (.tail _ hf)

end Universe

namespace Search

variable {u : Universe} {source : ReachSource σ} {tagType : Handle}

/-- A hit that was reached over no tag stands in the `hierarchy` of its root at the first type from which a
tag is sighted, and the tag is `nearest?` from there. -/
theorem exists_hierarchy_split_of_find (hflat : u.InterfacesUnnested)
    (hopen : u.isReserved tagType = false) {h : Handle} {memory : σ} {hit : Hit Tag}
    (hf : (find u source (.single u tagType) h memory).1 = some hit)
    (hcomposed : hit.place.composed = none) :
    u.nearest? hit.place.declaring tagType = some ⟨hit.found, []⟩ ∧
      ∃ before after, u.hierarchy hit.place.root false = before ++ hit.place.declaring :: after ∧
        ∀ g ∈ before, u.nearest? g tagType = none := by
  obtain ⟨-, -, -, hfound⟩ := exists_justified_of_find hf
  have hnearest : u.nearest? hit.place.declaring tagType = some ⟨hit.found, []⟩ :=
    Universe.nearest?_of_tag? hopen hfound
  obtain ⟨p, hv⟩ := exists_visitWithin_of_find hf
  have hrun : Runs u source (.single u tagType) (.visit h) ⟨.empty, memory⟩ (some hit, p) :=
    hv ▸ runs_visitWithin (load_lt_searchBound .empty h)
  have hempty : Settled u inward (.single u tagType) .empty [] := fun t ht =>
    absurd ht (TagSet.not_mem_empty t)
  obtain ⟨visited, -, hs, before, after, hwalk, hbefore⟩ := hrun.foremost hflat hcomposed hempty
  have hnone : ∀ g ∈ before, u.nearest? g tagType = none := by
    intro g hg
    obtain ⟨hhere, htags⟩ := hbefore g hg
    rw [← Option.not_isSome_iff_eq_none, u.isSome_nearest?_iff]
    exact not_tagLeads_of_settled hs hhere htags
  have hfirst : hit.place.declaring ∉ before := fun hmem =>
    nomatch hnearest.symm.trans (hnone _ hmem)
  obtain ⟨before', after', hsplit, hsub⟩ := Universe.exists_hierarchy_split hwalk hfirst
  exact ⟨hnearest, before', after', hsplit, fun g hg => hnone g (hsub g hg)⟩

end Search

/-! ## Merged attributes of a match -/

namespace Resolver

/-- The attributes of a match that `findTag` reached over no tag are the `fallbacks` of the tag type,
overlaid by what is written on its own tag. The merge finds this tag by `nearestAmong`: it is the first one
of the type on the declaring type, and from no type before that one in the hierarchy of the root a tag is
sighted. -/
theorem merged_of_composed_eq_none (u : Universe) (hflat : u.InterfacesUnnested)
    (source : ReachSource σ) {h tagType : Handle} {memory : σ} {m : TagMatch}
    (hm : (((ofSource u source).findTag h tagType).run memory).1 = .ok (some m))
    (hcomposed : m.place.composed = none) :
    m.merged = (u.fallbacks tagType).overlay m.tag.attributes ∧
      u.FirstTag m.place.declaring tagType m.tag ∧
      u.nearestAmong tagType none (u.hierarchy m.place.root false) = some ⟨m.tag, []⟩ ∧
      ∃ before after, u.hierarchy m.place.root false = before ++ m.place.declaring :: after ∧
        ∀ g ∈ before, u.nearest? g tagType = none := by
  obtain ⟨hchecked, -⟩ := Resolution.run_checked_eq_ok_iff.1 hm
  obtain ⟨-, hopen⟩ := (ofSource u source).checkTagType_eq_ok_iff.1 hchecked
  obtain ⟨hit, hf, htyped⟩ := (ofSource u source).exists_typed_of_findTag hm
  obtain ⟨hplace, htag, hmerged⟩ := (ofSource u source).of_typed_eq_ok htyped
  obtain ⟨-, -, -, hfound⟩ := Search.exists_justified_of_find hf
  have hfirst : u.FirstTag hit.place.declaring tagType hit.found :=
    Universe.tag?_eq_some_iff.1 hfound
  obtain ⟨-, -, -, htype, -⟩ := id hfirst
  obtain ⟨hnearest, before, after, hsplit, hbefore⟩ :=
    Search.exists_hierarchy_split_of_find hflat hopen hf (hplace ▸ hcomposed)
  have hamong : u.nearestAmong tagType none (u.hierarchy hit.place.root false)
      = some ⟨hit.found, []⟩ := by
    rw [hsplit]
    exact Universe.nearestAmong_of_first hbefore hnearest rfl
  have hattributes : m.merged = u.merge ⟨hit.found, []⟩ := by
    have hsame : u.mergedAttributes hit.place.root tagType = some (u.merge ⟨hit.found, []⟩) :=
      congrArg (Option.map u.merge) hamong
    rw [htype] at hmerged
    exact Option.some.inj (hmerged.symm.trans hsame)
  rw [hplace, htag]
  refine ⟨?_, hfirst, hamong, before, after, hsplit, hbefore⟩
  rw [hattributes, ← htype]
  rfl

/-- A class extends one that has a tag and implements two interfaces, of which the second one has a tag
of the same type and the first one another tag. -/
def overtaken : Universe :=
  Draft.ofEdits
    [.declare .tagType "a::Mark", .declare .tagType "a::Other", .declare .interface "a::First",
      .declare .interface "a::Second", .declare .classType "a::Base",
      .declare .classType "a::Derived",
      .write (.ofIndex 16) (.declares ⟨"level", some (.int 1)⟩),
      .write (.ofIndex 18) (.tag (.plain (.ofIndex 17))),
      .write (.ofIndex 19) (.tag ((Tag.plain (.ofIndex 16)).set "text" (.str "near"))),
      .write (.ofIndex 20) (.tag ((Tag.plain (.ofIndex 16)).set "text" (.str "far"))),
      .write (.ofIndex 21) (.parent (.ofIndex 20)),
      .write (.ofIndex 21) (.interface (.ofIndex 18)),
      .write (.ofIndex 21) (.interface (.ofIndex 19))]
    (by decide +kernel) (by decide +kernel)

/-- The match in `overtaken` has the text of the second interface and the level that the tag type falls back
to. -/
theorem merged_of_composed_eq_none_overtaken :
    let source : ReachSource Unit := .ofFunction fun _ => .hierarchy
    let m : TagMatch := ⟨⟨.ofIndex 21, .ofIndex 19, none⟩,
      (Tag.plain (.ofIndex 16)).set "text" (.str "near"), [("level", .int 1), ("text", .str "near")]⟩
    overtaken.InterfacesUnnested ∧
      (((ofSource overtaken source).findTag (.ofIndex 21) (.ofIndex 16)).run ()).1 = .ok (some m) ∧
      m.merged = (overtaken.fallbacks (.ofIndex 16)).overlay m.tag.attributes := by
  intro source m
  have hflat : overtaken.InterfacesUnnested := by
    intro h d hd _
    have hnone : ∀ entry ∈ overtaken.toList, entry.2.enclosing = none := by decide +kernel
    exact hnone (h, d) ((Registry.mem_toList overtaken.sound).2 hd)
  have hm : (((ofSource overtaken source).findTag (.ofIndex 21) (.ofIndex 16)).run ()).1
      = .ok (some m) := by
    decide +kernel
  obtain ⟨hmerged, -⟩ := merged_of_composed_eq_none overtaken hflat source hm rfl
  exact ⟨hflat, hm, hmerged⟩

end Resolver

end TagResolution
