import TagResolution.Proofs.Rank
import TagResolution.Sighting

/-!
# What a scan lists

A sighting is a chain of tags that goes through no tag type twice, so a chain is never longer than
the universe has types, and the bound of a scan is never reached. The main statements are `mem_scan`
(a scan lists exactly the sightings) and `exists_sighting_iff` (a tag type is sighted exactly if its
tags can be reached over tags that are not reserved, in circles or not).
-/

namespace TagResolution.Universe

open Relation

variable (u : Universe)

/-- The sightings from a type: the tags written on it, and beyond every sighting the tags on the
declaration of its type, unless their type was looked through. -/
inductive Sees (h : Handle) : Sighting → Prop where
  | present {t : Tag} : t ∈ u.openTags h → Sees h ⟨t, []⟩
  | beyond {s : Sighting} {t : Tag} : Sees h s → t ∈ u.openTags s.tag.type → t.type ∉ s.types →
      Sees h ⟨t, s.tag :: s.through⟩

theorem mem_present {h : Handle} {s : Sighting} :
    s ∈ u.present h ↔ ∃ t ∈ u.openTags h, s = ⟨t, []⟩ := by
  simp [present, eq_comm]

theorem mem_beyond {s s' : Sighting} : s' ∈ u.beyond s ↔
    ∃ t ∈ u.openTags s.tag.type, t.type ∉ s.types ∧ s' = ⟨t, s.tag :: s.through⟩ := by
  have hnew : ∀ t : Tag, (!s.involves t.type) = true ↔ t.type ∉ s.types := fun t => by
    rw [← Sighting.involves_iff, Bool.not_eq_true', Bool.not_eq_true]
  unfold beyond
  simp only [List.mem_map, List.mem_filter, hnew, and_assoc]
  exact ⟨fun ⟨t, ht, hn, he⟩ => ⟨t, ht, hn, he.symm⟩, fun ⟨t, ht, hn, he⟩ => ⟨t, ht, hn, he.symm⟩⟩

/-! ## Sightings by distance -/

/-- The sightings that are a number of steps `beyond` others. -/
def ring (near : List Sighting) : Nat → List Sighting
  | 0 => near
  | k + 1 => (ring near k).flatMap u.beyond

theorem ring_flatMap (near : List Sighting) (k : Nat) :
    u.ring (near.flatMap u.beyond) k = u.ring near (k + 1) := by
  induction k with
  | zero => rfl
  | succ k ih =>
      rw [ring, ih]
      rfl

/-- The sightings at a distance are listed by `outward` before all beyond them. -/
theorem outward_succ (bound : Nat) (near : List Sighting) :
    u.outward (bound + 1) near = near ++ u.outward bound (near.flatMap u.beyond) := by
  cases near with
  | nil => cases bound <;> rfl
  | cons s rest => rfl

theorem mem_outward {bound : Nat} {near : List Sighting} {s : Sighting} :
    s ∈ u.outward bound near ↔ ∃ k < bound, s ∈ u.ring near k := by
  induction bound generalizing near with
  | zero => simp [outward]
  | succ bound ih =>
      rw [outward_succ, List.mem_append, ih]
      simp only [ring_flatMap]
      constructor
      · rintro (hs | ⟨k, hk, hs⟩)
        · exact ⟨0, Nat.succ_pos _, hs⟩
        · exact ⟨k + 1, Nat.succ_lt_succ hk, hs⟩
      · rintro ⟨_ | k, hk, hs⟩
        · exact .inl hs
        · exact .inr ⟨k, Nat.lt_of_succ_lt_succ hk, hs⟩

theorem mem_ring_present {h : Handle} {k : Nat} {s : Sighting} :
    s ∈ u.ring (u.present h) k ↔ u.Sees h s ∧ s.distance = k := by
  induction k generalizing s with
  | zero =>
      rw [ring, mem_present]
      constructor
      · rintro ⟨t, ht, rfl⟩
        exact ⟨.present ht, rfl⟩
      · rintro ⟨hs, hk⟩
        cases hs with
        | present ht => exact ⟨_, ht, rfl⟩
        | beyond => cases hk
  | succ k ih =>
      rw [ring, List.mem_flatMap]
      constructor
      · rintro ⟨s', hs', hs⟩
        obtain ⟨hsees, hk⟩ := ih.1 hs'
        obtain ⟨t, ht, hnew, rfl⟩ := u.mem_beyond.1 hs
        exact ⟨.beyond hsees ht hnew, congrArg Nat.succ hk⟩
      · rintro ⟨hs, hk⟩
        cases hs with
        | present => cases hk
        | beyond hsees ht hnew =>
            exact ⟨_, ih.2 ⟨hsees, Nat.succ.inj hk⟩, u.mem_beyond.2 ⟨_, ht, hnew, rfl⟩⟩

/-! ## The bound of a scan -/

theorem isSome_get?_of_mem_openTags {h : Handle} {t : Tag} (ht : t ∈ u.openTags h) :
    (u.registry.get? t.type).isSome := by
  obtain ⟨e, he, -⟩ := isTagType_iff.1 (u.isTagType_of_mem_tags (u.mem_openTags.1 ht).1)
  exact Option.isSome_of_eq_some he

theorem Sees.types_nodup {u : Universe} {h : Handle} {s : Sighting} (hs : u.Sees h s) : s.types.Nodup := by
  induction hs with
  | present => exact List.nodup_cons.2 ⟨List.not_mem_nil, .nil⟩
  | beyond _ _ hnew ih => exact List.nodup_cons.2 ⟨hnew, ih⟩

/-- Whatever holds of the types that `openTags` lead to, from the start and from each other, holds of all
types of a sighting. -/
theorem Sees.forall_types {u : Universe} {h : Handle} {s : Sighting} {P : Handle → Prop} (hs : u.Sees h s)
    (hstart : ∀ t ∈ u.openTags h, P t.type) (hnext : ∀ g, P g → ∀ t ∈ u.openTags g, P t.type) :
    ∀ g ∈ s.types, P g := by
  induction hs with
  | present ht =>
      intro g hg
      rw [List.mem_singleton.1 hg]
      exact hstart _ ht
  | beyond _ ht _ ih =>
      intro g hg
      rcases List.mem_cons.1 hg with rfl | hg
      · exact hnext _ (ih _ (.head _)) _ ht
      · exact ih g hg

theorem Sees.types_declared {u : Universe} {h : Handle} {s : Sighting} (hs : u.Sees h s) :
    ∀ g ∈ s.types, g ∈ u.registry.handles := by
  have hdeclared : ∀ g, ∀ t ∈ u.openTags g, t.type ∈ u.registry.handles := fun _ _ ht =>
    (Registry.mem_handles u.sound).2 (u.isSome_get?_of_mem_openTags ht)
  exact hs.forall_types (hdeclared h) fun g _ => hdeclared g

theorem Sees.distance_lt {u : Universe} {h : Handle} {s : Sighting} (hs : u.Sees h s) : s.distance < u.size := by
  have hle := (List.subperm_of_subset hs.types_nodup hs.types_declared).length_le
  rw [Registry.length_handles, Sighting.types, List.length_cons, List.length_map] at hle
  exact hle

/-- No sighting is as far away as there are types: such a `ring` is empty. -/
theorem ring_present_eq_nil (h : Handle) {k : Nat} (hk : u.size ≤ k) : u.ring (u.present h) k = [] := by
  refine List.eq_nil_iff_forall_not_mem.2 fun s hs => ?_
  obtain ⟨hsees, rfl⟩ := u.mem_ring_present.1 hs
  exact Nat.not_lt.2 hk hsees.distance_lt

/-- By `scan` exactly the sightings are listed that the type `Sees`. -/
theorem mem_scan {h : Handle} {s : Sighting} : s ∈ u.scan h ↔ u.Sees h s := by
  unfold scan
  rw [mem_outward]
  constructor
  · rintro ⟨k, -, hs⟩
    exact (u.mem_ring_present.1 hs).1
  · intro hs
    exact ⟨s.distance, Nat.lt_succ_of_lt hs.distance_lt, u.mem_ring_present.2 ⟨hs, rfl⟩⟩

/-! ## Types that are sighted -/

/-- One step over a tag that is not reserved, to its type. -/
def TagLeads (g h : Handle) : Prop := ∃ t ∈ u.openTags g, t.type = h

/-- Whatever a sighting looks through is sighted itself. -/
theorem Sees.exists_of_mem_types {u : Universe} {h : Handle} {s : Sighting} (hs : u.Sees h s) :
    ∀ g ∈ s.types, ∃ s', u.Sees h s' ∧ s'.tag.type = g := by
  induction hs with
  | present ht =>
      intro g hg
      exact ⟨_, .present ht, (List.mem_singleton.1 hg).symm⟩
  | beyond hs ht hnew ih =>
      intro g hg
      rcases List.mem_cons.1 hg with rfl | hg
      · exact ⟨_, .beyond hs ht hnew, rfl⟩
      · exact ih g hg

theorem Sees.transGen {u : Universe} {h : Handle} {s : Sighting} (hs : u.Sees h s) :
    TransGen u.TagLeads h s.tag.type := by
  induction hs with
  | present ht => exact .single ⟨_, ht, rfl⟩
  | beyond _ ht _ ih => exact ih.tail ⟨_, ht, rfl⟩

/-- A type is sighted exactly if `TagLeads` leads to it. -/
theorem exists_sighting_iff {h tagType : Handle} :
    (∃ s, u.Sees h s ∧ s.tag.type = tagType) ↔ TransGen u.TagLeads h tagType := by
  constructor
  · rintro ⟨s, hs, rfl⟩
    exact hs.transGen
  · intro hreach
    induction hreach with
    | single hstep =>
        obtain ⟨t, ht, rfl⟩ := hstep
        exact ⟨_, .present ht, rfl⟩
    | tail _ hstep ih =>
        obtain ⟨s, hs, rfl⟩ := ih
        obtain ⟨t, ht, rfl⟩ := hstep
        -- A chain that comes back to a type it looks through is cut there.
        by_cases hloop : t.type ∈ s.types
        · exact hs.exists_of_mem_types t.type hloop
        · exact ⟨_, .beyond hs ht hloop, rfl⟩

theorem isSome_nearest?_iff {h tagType : Handle} :
    (u.nearest? h tagType).isSome ↔ TransGen u.TagLeads h tagType := by
  rw [← exists_sighting_iff, nearest?, List.find?_isSome]
  simp [mem_scan]

end TagResolution.Universe
