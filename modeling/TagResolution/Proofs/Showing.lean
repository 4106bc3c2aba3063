import Mathlib.Data.List.MinMax
import TagResolution.Proofs.Hierarchy
import TagResolution.Proofs.Sighting
import TagResolution.Proofs.Trail
import TagResolution.Merge

/-!
# What merging sees

Merging looks at the hierarchy of a root, enclosing types left out, and from there through tags. It
thus follows trails, but only such that take all interfaces and parents before the first tag: a root
`Shows` what such a trail leads to. The main statement is `isSome_mergedAttributes_iff`.
-/

namespace TagResolution.Universe

open Relation

variable (u : Universe)

/-- From a root, a trail leads to a tag of a type over interfaces and parents, and then over tags. -/
def Shows (root tagType : Handle) : Prop :=
  ∃ links tags g, u.Trail true (fun _ => False) root (links ++ tags) g ∧
    (∀ x ∈ links, x.isTag = false) ∧ (∀ x ∈ tags, x.isTag = true) ∧ ∃ t ∈ u.tags g, t.type = tagType

/-! ## Types that a hierarchy lists -/

theorem ne_object_of_isTagType {h : Handle} (hh : u.isTagType h = true) : h ≠ .object := by
  rintro rfl
  obtain ⟨d, hd, hkind⟩ := Universe.isTagType_iff.1 hh
  obtain ⟨e, he, -, hobject⟩ := u.sound.builtin .object
  cases hd.symm.trans he
  cases hkind.symm.trans hobject

theorem listable_of_mem_tags {h : Handle} {t : Tag} (hne : h ≠ .object) (ht : t ∈ u.tags h) :
    u.listable h = true := by
  obtain ⟨d, hd, -⟩ := u.mem_tags.1 ht
  simp [listable, declares, hne, get?, hd]

theorem listable_of_linked {g h : Handle} (hne : g ≠ .object) (hl : u.registry.Linked g h) :
    u.listable g = true := by
  simp [listable, declares, hne, get?, hl.isSome_left]

theorem ne_object_of_listable {h : Handle} (hlist : u.listable h = true) : h ≠ .object := by
  rintro rfl
  cases hlist

/-! ## Trails over tags -/

variable {u}

theorem transGen_tagLeads_of_trail {opens : Handle → Prop} {h g : Handle} {hops : List Hop} {t : Tag}
    (htrail : u.Trail true opens h hops g) (htags : ∀ x ∈ hops, x.isTag = true)
    (ht : t ∈ u.openTags g) : TransGen u.TagLeads h t.type := by
  induction htrail with
  | here _ => exact .single ⟨t, ht, rfl⟩
  | @hop _ _ x _ _ hx _ ih =>
      cases x with
      | tag s =>
          have hrest := ih (fun y hy => htags y (.tail _ hy)) ht
          exact .head ⟨s, u.mem_openTags.2 hx, rfl⟩ hrest
      | _ => cases htags _ (.head _)

theorem exists_trail_of_transGen {opens : Handle → Prop} {h tagType : Handle} (hne : h ≠ .object)
    (hleads : TransGen u.TagLeads h tagType) :
    ∃ tags g, u.Trail true opens h tags g ∧ (∀ x ∈ tags, x.isTag = true) ∧
      ∃ t ∈ u.tags g, t.type = tagType := by
  induction hleads using TransGen.head_induction_on with
  | single hstep =>
      obtain ⟨t, ht, rfl⟩ := hstep
      exact ⟨[], _, .here hne, nofun, t, (u.mem_openTags.1 ht).1, rfl⟩
  | head hstep _ ih =>
      obtain ⟨t, ht, rfl⟩ := hstep
      have hoffer := u.mem_openTags.1 ht
      obtain ⟨tags, g, htrail, htags, hfound⟩ :=
        ih (u.ne_object_of_isTagType (u.isTagType_of_mem_tags hoffer.1))
      refine ⟨.tag t :: tags, g, .hop hne hoffer htrail, ?_, hfound⟩
      exact List.forall_mem_cons.2 ⟨rfl, htags⟩

/-! ## Trails over interfaces and parents -/

theorem ascends_of_offers {h : Handle} {x : Hop} (hx : u.Offers true (fun _ => False) h x)
    (hlink : x.isTag = false) (hlist : u.listable x.target = true) : u.Ascends false h x.target := by
  refine ⟨?_, hlist⟩
  unfold supertypes
  cases x with
  | tag t => cases hlink
  | interface i => exact List.mem_append_left _ (List.mem_append_left _ hx.2)
  | parent p => exact List.mem_append_left _ (List.mem_append_right _ (Option.mem_toList.2 hx))
  | enclosing e => exact hx.2.elim

theorem exists_offers_of_ascends {g h : Handle} (hstep : u.Ascends false g h) :
    ∃ x : Hop, x.target = h ∧ x.isTag = false ∧ u.Offers true (fun _ => False) g x := by
  have hmem : h ∈ (u.interfaces g ++ (u.parent? g).toList) ++ [] := hstep.1
  rw [List.append_nil] at hmem
  rcases List.mem_append.1 hmem with hi | hp
  · exact ⟨.interface h, rfl, rfl, rfl, hi⟩
  · exact ⟨.parent h, rfl, rfl, Option.mem_toList.1 hp⟩

theorem listable_of_trail {opens : Handle → Prop} {h g : Handle} {hops : List Hop} {t : Tag}
    (htrail : u.Trail true opens h hops g) (ht : t ∈ u.tags g) : u.listable h = true := by
  cases htrail with
  | here hne => exact u.listable_of_mem_tags hne ht
  | @hop _ _ x _ hne hx _ =>
      cases x with
      | tag s => exact u.listable_of_mem_tags hne hx.1
      | interface i => exact u.listable_of_linked hne (u.linked_of_mem_interfaces hx.2)
      | parent p => exact u.listable_of_linked hne (u.linked_of_parent? hx)
      | enclosing e => exact u.listable_of_linked hne (u.linked_of_enclosing? hx.1)

/-! ## Merged attributes -/

/-- A root `Shows` exactly the tags that are sighted from a type of its `hierarchy`. -/
theorem shows_iff {root tagType : Handle} (hopen : u.isReserved tagType = false) :
    u.Shows root tagType ↔ ∃ g ∈ u.hierarchy root false, TransGen u.TagLeads g tagType := by
  simp only [mem_hierarchy]
  constructor
  · rintro ⟨links, tags, g, htrail, hlinks, htags, t, ht, rfl⟩
    -- The climb ends where the first tag is taken, so the induction is on the links before it.
    have hseen : t ∈ u.openTags g := u.mem_openTags.2 ⟨ht, hopen⟩
    have hlist := listable_of_trail htrail ht
    induction links generalizing root with
    | nil => exact ⟨root, ⟨hlist, .refl⟩, transGen_tagLeads_of_trail htrail htags hseen⟩
    | cons x links ih =>
        cases htrail with
        | hop hne hx hrest =>
            have hnext := listable_of_trail hrest ht
            obtain ⟨m, ⟨-, hclimb⟩, hleads⟩ := ih hrest (fun y hy => hlinks y (.tail _ hy)) hnext
            have hstep := ascends_of_offers hx (hlinks x (.head _)) hnext
            exact ⟨m, ⟨hlist, .head hstep hclimb⟩, hleads⟩
  · rintro ⟨m, ⟨hlist, hclimb⟩, hleads⟩
    induction hclimb using ReflTransGen.head_induction_on with
    | refl =>
        obtain ⟨tags, g, htrail, htags, hfound⟩ :=
          exists_trail_of_transGen (u.ne_object_of_listable hlist) hleads
        exact ⟨[], tags, g, htrail, nofun, htags, hfound⟩
    | head hstep _ ih =>
        obtain ⟨links, tags, g, htrail, hlinks, htags, hfound⟩ := ih hstep.2
        obtain ⟨x, rfl, hlink, hx⟩ := exists_offers_of_ascends hstep
        have hne := u.ne_object_of_listable hlist
        refine ⟨x :: links, tags, g, .hop hne hx htrail, ?_, htags, hfound⟩
        exact List.forall_mem_cons.2 ⟨hlink, hlinks⟩

/-! ### The sighting that is kept -/

/-- The nearer of two sightings is one of them. -/
theorem nearer_eq (best : Option Sighting) (s : Sighting) : nearer best s = some s ∨ nearer best s = best := by
  cases best with
  | none => exact .inl rfl
  | some b =>
      by_cases hlt : s.distance < b.distance
      · exact .inl (if_pos hlt)
      · exact .inr (if_neg hlt)

theorem nearer_of_lt {best : Option Sighting} {s : Sighting} (hlt : ∀ b ∈ best, s.distance < b.distance) :
    nearer best s = some s := by
  cases best with
  | none => rfl
  | some b => exact if_pos (hlt b rfl)

/-- Nothing is nearer than a tag on a type. -/
theorem foldl_nearer_of_distance_eq_zero {s : Sighting} (hzero : s.distance = 0) (l : List Sighting) :
    l.foldl nearer (some s) = some s := by
  induction l with
  | nil => rfl
  | cons b rest ih =>
      have hkept : nearer (some s) b = some s := if_neg (by omega)
      rw [List.foldl_cons, hkept, ih]

/-- Without stopping at a tag on a type, as `nearestAmong` does, the same sighting is kept in the end. The
one from before must be of a tag that is not on its type, for there the search would have stopped. -/
theorem nearestAmong_eq_foldl {tagType : Handle} {best : Option Sighting} (hbest : ∀ b ∈ best, 0 < b.distance)
    (l : List Handle) :
    u.nearestAmong tagType best l = (l.filterMap (u.nearest? · tagType)).foldl nearer best := by
  induction l generalizing best with
  | nil => rfl
  | cons h rest ih =>
      unfold nearestAmong
      cases hnear : u.nearest? h tagType with
      | none => simp [hnear, ih hbest]
      | some first =>
          have hcons : (h :: rest).filterMap (u.nearest? · tagType)
              = first :: rest.filterMap (u.nearest? · tagType) := List.filterMap_cons_some hnear
          rw [hcons, List.foldl_cons]
          dsimp only
          split
          · next hzero =>
            -- The search stops, and going on would keep this sighting.
            rw [nearer_of_lt (hzero ▸ hbest), foldl_nearer_of_distance_eq_zero hzero]
          · next hpos =>
            refine ih fun b hb => ?_
            rcases nearer_eq best first with hfirst | hkept
            · cases hfirst.symm.trans hb
              exact Nat.pos_of_ne_zero hpos
            · exact hbest b (hkept ▸ hb)

/-- Of the nearest sightings from some types `nearestAmong` keeps the first one at the least distance. -/
theorem nearestAmong_eq_argmin (tagType : Handle) (l : List Handle) :
    u.nearestAmong tagType none l = (l.filterMap (u.nearest? · tagType)).argmin Sighting.distance := by
  have hnearer : nearer = List.argAux fun s b : Sighting => s.distance < b.distance := by
    funext best s
    cases best <;> rfl
  rw [nearestAmong_eq_foldl (by simp), hnearer]
  rfl

theorem isSome_nearestAmong_iff {tagType : Handle} {l : List Handle} :
    (u.nearestAmong tagType none l).isSome ↔ ∃ h ∈ l, (u.nearest? h tagType).isSome := by
  rw [nearestAmong_eq_argmin, Option.isSome_iff_ne_none, ne_eq, List.argmin_eq_none, List.filterMap_eq_nil_iff]
  simp [Option.isSome_iff_ne_none]

/-- The nearest sighting among those from some types is the nearest one from one of them. -/
theorem exists_of_nearestAmong {tagType : Handle} {l : List Handle} {s : Sighting}
    (hs : u.nearestAmong tagType none l = some s) : ∃ h ∈ l, u.nearest? h tagType = some s := by
  rw [nearestAmong_eq_argmin] at hs
  exact List.mem_filterMap.1 (List.argmin_mem hs)

/-- The `mergedAttributes` of a root are there exactly if it `Shows` a tag of the type. -/
theorem isSome_mergedAttributes_iff {root tagType : Handle} (hopen : u.isReserved tagType = false) :
    (u.mergedAttributes root tagType).isSome ↔ u.Shows root tagType := by
  rw [mergedAttributes, Option.isSome_map, isSome_nearestAmong_iff, shows_iff hopen]
  simp [isSome_nearest?_iff]

end TagResolution.Universe
