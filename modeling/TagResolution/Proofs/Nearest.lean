import Mathlib.Data.Prod.Lex
import TagResolution.Proofs.Chains
import TagResolution.Proofs.Showing

/-!
# The nearest of all sightings

Merged attributes come from one sighting of a tag type. The types of a hierarchy are gone through in order,
of each only the nearest sighting is looked at, a tag that is written on a type ends the search at once, and
else the nearest sighting so far is kept. As a scan lists near sightings first nothing is overlooked: of all
sightings it is the first one by distance, then by the place of its type in the hierarchy, then by its own
place in the scan.

The main statement is `mergedAttributes_eq_some_iff_decides`.
-/

namespace TagResolution

/-! ## Lists -/

theorem exists_append_of_mem_argmin {α : Type} [DecidableEq α] {f : α → ℕ} {a : α} {l : List α}
    (ha : a ∈ l.argmin f) :
    ∃ before after, l = before ++ a :: after ∧ (∀ b ∈ before, f a < f b) ∧ ∀ b ∈ after, f a ≤ f b := by
  obtain ⟨hmem, hle, hfirst⟩ := List.mem_argmin_iff.1 ha
  obtain ⟨before, after, rfl, hnew⟩ := List.eq_append_cons_of_mem hmem
  refine ⟨before, after, rfl, fun b hb => ?_, fun b hb => hle b (by simp [hb])⟩
  by_contra hge
  have hidx := hfirst b (by simp [hb]) (not_lt.1 hge)
  rw [List.idxOf_append_of_notMem hnew, List.idxOf_cons_self, List.idxOf_append_of_mem hb] at hidx
  have := List.idxOf_lt_length_iff.2 hb
  omega

theorem exists_append_of_filterMap_eq {α β : Type} {f : α → Option β} {l : List α} {before after : List β}
    {b : β} (hl : l.filterMap f = before ++ b :: after) :
    ∃ front a back, l = front ++ a :: back ∧ front.filterMap f = before ∧ f a = some b ∧
      back.filterMap f = after := by
  obtain ⟨front, rest, rfl, hfront, hrest⟩ := List.filterMap_eq_append_iff.1 hl
  obtain ⟨skipped, a, back, rfl, hskipped, ha, hback⟩ := List.filterMap_eq_cons_iff.1 hrest
  refine ⟨front ++ skipped, a, back, by simp, ?_, ha, hback⟩
  rw [List.filterMap_append, hfront, List.filterMap_eq_nil_iff.2 hskipped, List.append_nil]

namespace Universe

/-! ## Sightings from a hierarchy -/

variable (u : Universe)

/-- A sighting of a tag type from the type at place `i` of the hierarchy of a root, at place `j` of the scan of
this type. -/
def Occurs (root tagType : Handle) (i j : Nat) (s : Sighting) : Prop :=
  ∃ g, (u.hierarchy root false)[i]? = some g ∧ (u.scan g)[j]? = some s ∧ s.tag.type = tagType

/-- What sightings are compared by: the distance, then the place of the type, then that in the scan. -/
def precedence (i j : Nat) (s : Sighting) : ℕ ×ₗ ℕ ×ₗ ℕ := toLex (s.distance, toLex (i, j))

/-- A sighting that `Occurs` and comes before all others of its tag type by `precedence`. -/
structure Decides (root tagType : Handle) (i j : Nat) (s : Sighting) : Prop where
  occurs : u.Occurs root tagType i j s
  least : ∀ i' j' s', u.Occurs root tagType i' j' s' → precedence i j s ≤ precedence i' j' s'

variable {u} {root tagType g : Handle} {i i' j j' : Nat} {s s' : Sighting}

theorem precedence_le_iff : precedence i j s ≤ precedence i' j' s' ↔
    s.distance < s'.distance ∨ s.distance = s'.distance ∧ (i < i' ∨ i = i' ∧ j ≤ j') := by
  simp [precedence, Prod.Lex.toLex_le_toLex]

/-- The places of a sighting that `Decides` are fixed, and so is the sighting. -/
theorem Decides.unique (hs : u.Decides root tagType i j s) (hs' : u.Decides root tagType i' j' s') :
    s = s' := by
  have hle := precedence_le_iff.1 (hs.least i' j' s' hs'.occurs)
  have hge := precedence_le_iff.1 (hs'.least i j s hs.occurs)
  obtain ⟨g, hg, hj, -⟩ := hs.occurs
  obtain ⟨g', hg', hj', -⟩ := hs'.occurs
  obtain ⟨rfl, rfl⟩ : i = i' ∧ j = j' := by omega
  cases hg.symm.trans hg'
  exact Option.some.inj (hj.symm.trans hj')

/-! ## One type -/

/-- The sighting that `nearest?` keeps of a scan is the first one of its tag type, and at the least
distance. -/
theorem exists_place_of_nearest? (hs : u.nearest? g tagType = some s) :
    ∃ j : Nat, (u.scan g)[j]? = some s ∧ s.tag.type = tagType ∧ ∀ (j' : Nat) (s' : Sighting),
      (u.scan g)[j']? = some s' → s'.tag.type = tagType → s.distance ≤ s'.distance ∧ j ≤ j' := by
  obtain ⟨htype, before, after, hsplit, hbefore⟩ := List.find?_eq_some_iff_append.1 hs
  have hsorted := u.pairwise_distance_scan g
  rw [hsplit] at hsorted ⊢
  refine ⟨before.length, by simp, by simpa using htype, fun j' s' hj' htype' => ?_⟩
  -- A sighting of the type is not among those that come before the first one.
  have hle : before.length ≤ j' := by
    by_contra hlt
    rw [List.getElem?_append_left (by omega)] at hj'
    simpa [htype'] using hbefore s' (List.mem_of_getElem? hj')
  rw [List.getElem?_append_right hle] at hj'
  obtain ⟨-, hafter, -⟩ := List.pairwise_append.1 hsorted
  refine ⟨?_, hle⟩
  rcases List.mem_cons.1 (List.mem_of_getElem? hj') with rfl | hmem
  · exact le_rfl
  · exact (List.pairwise_cons.1 hafter).1 s' hmem

theorem isSome_nearest?_of_mem_scan (hs : s ∈ u.scan g) (htype : s.tag.type = tagType) :
    (u.nearest? g tagType).isSome := by
  rw [nearest?, List.find?_isSome]
  exact ⟨s, hs, by simpa using htype⟩

/-! ## All types -/

/-- The types before the one of the kept sighting show the tag at a greater distance, if at all, and those
after it at no smaller one. -/
theorem exists_place_of_nearestAmong {l : List Handle} (hs : u.nearestAmong tagType none l = some s) :
    ∃ (i : Nat) (g : Handle), l[i]? = some g ∧ u.nearest? g tagType = some s ∧
      ∀ (i' : Nat) (g' : Handle), l[i']? = some g' → ∀ s' ∈ u.nearest? g' tagType,
        s.distance < s'.distance ∨ s.distance = s'.distance ∧ i ≤ i' := by
  rw [nearestAmong_eq_argmin] at hs
  obtain ⟨before, after, hsplit, hbefore, hafter⟩ := exists_append_of_mem_argmin hs
  obtain ⟨front, g, back, rfl, rfl, hnear, rfl⟩ := exists_append_of_filterMap_eq hsplit
  refine ⟨front.length, g, by simp, hnear, fun i' g' hi' s' hs' => ?_⟩
  rcases Nat.lt_or_ge i' front.length with hlt | hge
  · rw [List.getElem?_append_left hlt] at hi'
    exact .inl (hbefore s' (List.mem_filterMap.2 ⟨g', List.mem_of_getElem? hi', hs'⟩))
  · rw [List.getElem?_append_right hge] at hi'
    have hle : s.distance ≤ s'.distance := by
      rcases List.mem_cons.1 (List.mem_of_getElem? hi') with rfl | hback
      · cases hnear.symm.trans hs'
        exact le_rfl
      · exact hafter s' (List.mem_filterMap.2 ⟨g', hback, hs'⟩)
    omega

/-- What is kept in the end decides. -/
theorem exists_decides_of_nearestAmong
    (hs : u.nearestAmong tagType none (u.hierarchy root false) = some s) :
    ∃ i j, u.Decides root tagType i j s := by
  obtain ⟨i, g, hi, hnear, hleast⟩ := exists_place_of_nearestAmong hs
  obtain ⟨j, hj, htype, hfirst⟩ := exists_place_of_nearest? hnear
  refine ⟨i, j, ⟨g, hi, hj, htype⟩, ?_⟩
  rintro i' j' s' ⟨g', hi', hj', htype'⟩
  -- The nearest sighting from the other type stands between the two.
  obtain ⟨m, hm⟩ := Option.isSome_iff_exists.1
    (isSome_nearest?_of_mem_scan (List.mem_of_getElem? hj') htype')
  obtain ⟨_, -, -, hfirst'⟩ := exists_place_of_nearest? hm
  have hbetween := hleast i' g' hi' m hm
  have hnearer := (hfirst' j' s' hj' htype').1
  rw [precedence_le_iff]
  by_cases heq : i = i'
  · subst heq
    cases hi.symm.trans hi'
    have := hfirst j' s' hj' htype'
    omega
  · omega

/-- The `mergedAttributes` are merged for the sighting that `Decides`, the one before all others of the tag
type, though only one sighting of each type is looked at and a tag on a type ends the search; there are none
only if none `Occurs`. -/
theorem mergedAttributes_eq_some_iff_decides (u : Universe) (root tagType : Handle) :
    (u.mergedAttributes root tagType = none ↔ ∀ i j s, ¬ u.Occurs root tagType i j s) ∧
    ∀ merged, u.mergedAttributes root tagType = some merged ↔
      ∃ i j s, u.Decides root tagType i j s ∧ u.merge s = merged := by
  have hsome : ∀ {merged}, u.mergedAttributes root tagType = some merged →
      ∃ i j s, u.Decides root tagType i j s ∧ u.merge s = merged := by
    intro merged hmerged
    obtain ⟨s, hs, hmerge⟩ := Option.map_eq_some_iff.1 hmerged
    obtain ⟨i, j, hdecides⟩ := exists_decides_of_nearestAmong hs
    exact ⟨i, j, s, hdecides, hmerge⟩
  have hoccurs : ∀ {i j s}, u.Occurs root tagType i j s → (u.mergedAttributes root tagType).isSome := by
    rintro i j s ⟨g, hi, hj, htype⟩
    rw [mergedAttributes, Option.isSome_map, isSome_nearestAmong_iff]
    exact ⟨g, List.mem_of_getElem? hi, isSome_nearest?_of_mem_scan (List.mem_of_getElem? hj) htype⟩
  refine ⟨⟨fun hnone i j s hs => ?_, fun hall => ?_⟩, fun merged => ⟨hsome, ?_⟩⟩
  · have := hoccurs hs
    simp [hnone] at this
  · cases hmerged : u.mergedAttributes root tagType with
    | none => rfl
    | some merged =>
        obtain ⟨i, j, s, hdecides, -⟩ := hsome hmerged
        exact absurd hdecides.occurs (hall i j s)
  · rintro ⟨i, j, s, hdecides, rfl⟩
    obtain ⟨merged, hmerged⟩ := Option.isSome_iff_exists.1 (hoccurs hdecides.occurs)
    obtain ⟨i', j', s', hdecides', rfl⟩ := hsome hmerged
    rw [hmerged, hdecides.unique hdecides']

end Universe

end TagResolution
