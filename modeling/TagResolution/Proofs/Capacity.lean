import TagResolution.Proofs.Recency

/-!
# Caches of different capacities

The same accesses to a smaller and to a larger cache are answered differently: a type that only the larger
one remembers moves to the front there, is computed anew in the smaller one, and may drive another type out
of it. Still the larger cache remembers whatever the smaller one does. As lists, the types of the smaller
cache stand in the list of the larger one in the same order; and the smaller cache is full unless it remembers
as many types as the larger one, so that a type never leaves the larger cache alone.

The main statement is `Cache.accessAll_covered`.
-/

namespace TagResolution

namespace Cache

/-- Whether an access computes, if it does, without using the cache. -/
def Access.Direct : Access → Prop
  | .compute _ _ during => during = []
  | _ => True

/-- Whether an access was answered from what was remembered. -/
def Answer.isHit : Answer → Bool
  | .inspect => false
  | .get r => r.isSome
  | .contains held => held
  | .compute _ ran => !ran

end Cache

namespace Recents

variable {l small large : Recents} {h : Handle}

/-! ## Types of a list -/

/-- The types of the pairs, the one that was used last in front. -/
def types (l : Recents) : List Handle := l.pairs.map (·.1)

theorem isSome_reach?_iff : (l.reach? h).isSome = true ↔ h ∈ l.types := by
  simp [reach?, types]

theorem reach?_eq_none_iff : l.reach? h = none ↔ h ∉ l.types := by
  rw [← isSome_reach?_iff, Bool.not_eq_true, Option.isSome_eq_false_iff, Option.isNone_iff_eq_none]

theorem types_get?_of_mem (hmem : h ∈ l.types) :
    (l.get? h).2.types = h :: l.types.filter (· ≠ h) := by
  obtain ⟨r, hr⟩ := Option.isSome_iff_exists.1 (isSome_reach?_iff.2 hmem)
  rw [get?_of_some hr]
  simp [types, List.filter_map, Function.comp_def]

theorem types_get?_of_not_mem (hout : h ∉ l.types) : (l.get? h).2.types = l.types := by
  rw [get?_of_none (reach?_eq_none_iff.2 hout)]
  rfl

theorem capacity_get? (l : Recents) (h : Handle) : (l.get? h).2.capacity = l.capacity := by
  cases hr : l.reach? h with
  | none => rw [get?_of_none hr]; rfl
  | some r => rw [get?_of_some hr]; rfl

theorem types_add (l : Recents) (h : Handle) (r : Reach) : (l.add h r).types =
    if l.types.length < l.capacity then h :: l.types else (h :: l.types).dropLast := by
  simp only [add, types, List.length_cons, List.length_map, Nat.succ_le_iff]
  split <;> simp

/-- Asking for a type by `get?` changes the order of the types at most. -/
theorem perm_types_get? (hdistinct : l.types.Nodup) (h : Handle) : (l.get? h).2.types.Perm l.types := by
  by_cases hmem : h ∈ l.types
  · rw [types_get?_of_mem hmem]
    have hmoved : (h :: l.types.filter (· ≠ h)).Nodup := List.nodup_cons.2 ⟨by simp, hdistinct.filter _⟩
    refine (List.perm_ext_iff_of_nodup hmoved hdistinct).2 fun g => ?_
    by_cases hg : g = h <;> simp [hg, hmem]
  · rw [types_get?_of_not_mem hmem]

/-! ## A list in a larger one -/

theorem sublist_dropLast {l m : List Handle} (h : l.Sublist m) : l.dropLast.Sublist m.dropLast := by
  have htail := h.reverse.tail
  rwa [List.tail_reverse, List.tail_reverse, List.reverse_sublist] at htail

/-- The types of a list stand in a larger list in the same order, and there are as many as there may be. -/
structure Within (small large : Recents) : Prop where
  sublist : small.types.Sublist large.types
  distinct : large.types.Nodup
  capacity_le : small.capacity ≤ large.capacity
  /-- Only what leaves the smaller list can make it shorter. -/
  length_eq : small.types.length = min small.capacity large.types.length
  /-- A miss is asked for again, and adds a pair; so it takes more time. -/
  ticks_le : large.ticks ≤ small.ticks

namespace Within

theorem ofCapacity {capacity capacity' : Nat} (hle : capacity ≤ capacity') :
    Within (.ofCapacity capacity) (.ofCapacity capacity') where
  sublist := .slnil
  distinct := .nil
  capacity_le := by simp only [Recents.ofCapacity]; omega
  length_eq := by simp [Recents.ofCapacity, types]
  ticks_le := Nat.le_refl _

theorem mem (hw : small.Within large) (hmem : h ∈ small.types) : h ∈ large.types :=
  hw.sublist.subset hmem

/-- A list that lacks a type of the larger one, within which it stands, has as many types as its `capacity`. -/
theorem full (hw : small.Within large) (hout : h ∉ small.types) (hmem : h ∈ large.types) :
    small.types.length = small.capacity := by
  have hlt : small.types.length < large.types.length := by
    refine Nat.lt_of_le_of_ne hw.sublist.length_le fun heq => hout ?_
    rw [hw.sublist.eq_of_length heq]
    exact hmem
  have := hw.length_eq
  omega

theorem tick (hw : small.Within large) : small.tick.Within large.tick where
  sublist := hw.sublist
  distinct := hw.distinct
  capacity_le := hw.capacity_le
  length_eq := hw.length_eq
  ticks_le := Nat.succ_le_succ hw.ticks_le

theorem tick_left (hw : small.Within large) : small.tick.Within large where
  sublist := hw.sublist
  distinct := hw.distinct
  capacity_le := hw.capacity_le
  length_eq := hw.length_eq
  ticks_le := Nat.le_succ_of_le hw.ticks_le

theorem sublist_filter (hw : small.Within large) (hout : h ∉ small.types) :
    small.types.Sublist (large.types.filter (· ≠ h)) := by
  have hkept : small.types.filter (· ≠ h) = small.types := by
    refine List.filter_eq_self.2 fun g hg => decide_eq_true ?_
    rintro rfl
    exact hout hg
  rw [← hkept]
  exact hw.sublist.filter _

theorem sublist_get? (hw : small.Within large) (h : Handle) :
    (small.get? h).2.types.Sublist (large.get? h).2.types := by
  by_cases hlarge : h ∈ large.types
  · rw [types_get?_of_mem hlarge]
    by_cases hsmall : h ∈ small.types
    · rw [types_get?_of_mem hsmall]
      exact (hw.sublist.filter _).cons_cons h
    · rw [types_get?_of_not_mem hsmall]
      exact (hw.sublist_filter hsmall).cons h
  · have hsmall : h ∉ small.types := fun hmem => hlarge (hw.mem hmem)
    rw [types_get?_of_not_mem hlarge, types_get?_of_not_mem hsmall]
    exact hw.sublist

/-- A type that is asked for by `get?` moves to the front, in both lists or in the larger one only. -/
theorem get? (hw : small.Within large) (h : Handle) : (small.get? h).2.Within (large.get? h).2 where
  sublist := hw.sublist_get? h
  distinct := (perm_types_get? hw.distinct h).nodup_iff.2 hw.distinct
  capacity_le := by
    rw [capacity_get?, capacity_get?]
    exact hw.capacity_le
  length_eq := by
    rw [(perm_types_get? (hw.distinct.sublist hw.sublist) h).length_eq,
      (perm_types_get? hw.distinct h).length_eq, capacity_get?]
    exact hw.length_eq
  ticks_le := by
    rw [ticks_get?, ticks_get?]
    exact Nat.succ_le_succ hw.ticks_le

/-- By `add` a new type comes to the front of both lists. Where a type leaves the larger one then, the
smaller one is full too. -/
theorem add (hw : small.Within large) (hout : h ∉ large.types) (r : Reach) :
    (small.add h r).Within (large.add h r) where
  sublist := by
    have hcons : (h :: small.types).Sublist (h :: large.types) := hw.sublist.cons_cons h
    have hlength := hw.length_eq
    have hcapacity := hw.capacity_le
    rw [types_add, types_add]
    -- While the smaller list has room, it has as many types as the larger one, which then has room too.
    split
    · next hsmall =>
      rw [if_pos (by omega)]
      exact hcons
    · split
      · exact (List.dropLast_sublist _).trans hcons
      · exact sublist_dropLast hcons
  distinct := by
    have hcons : (h :: large.types).Nodup := List.nodup_cons.2 ⟨hout, hw.distinct⟩
    rw [types_add]
    split
    · exact hcons
    · exact hcons.sublist (List.dropLast_sublist _)
  capacity_le := hw.capacity_le
  length_eq := by
    have hlength := hw.length_eq
    have hcapacity := hw.capacity_le
    have hsame : (small.add h r).capacity = small.capacity := rfl
    rw [types_add, types_add, hsame]
    split <;> split <;> simp only [List.length_cons, List.length_dropLast] <;> omega
  ticks_le := Nat.succ_le_succ hw.ticks_le

/-- A type that only the larger list has is new to the smaller one, which is full. -/
theorem add_get? (hw : small.Within large) (hout : h ∉ small.types) (hmem : h ∈ large.types) (r : Reach) :
    (small.add h r).Within (large.get? h).2 where
  sublist := by
    rw [types_get?_of_mem hmem, types_add, if_neg (by have := hw.full hout hmem; omega)]
    exact (List.dropLast_sublist _).trans ((hw.sublist_filter hout).cons_cons h)
  distinct := (hw.get? h).distinct
  capacity_le := (capacity_get? large h).symm ▸ hw.capacity_le
  length_eq := by
    have hfull := hw.full hout hmem
    have hlength := hw.length_eq
    have hsame : (small.add h r).capacity = small.capacity := rfl
    rw [(perm_types_get? hw.distinct h).length_eq, types_add, if_neg (by omega), hsame,
      List.length_dropLast, List.length_cons]
    omega
  ticks_le := by
    rw [ticks_get?]
    exact Nat.succ_le_succ hw.ticks_le

end Within

/-! ## Accesses -/

theorem access_compute_direct_of_mem (hmem : h ∈ l.types) (r : Reach) :
    ∃ known, access (.compute h r []) l = ([(.compute known false, (l.get? h).2)], (l.get? h).2) := by
  obtain ⟨known, hknown⟩ := Option.isSome_iff_exists.1 (isSome_reach?_iff.2 hmem)
  exact ⟨known, access_compute_of_some hknown r []⟩

theorem access_compute_direct_of_not_mem (hout : h ∉ l.types) (r : Reach) :
    access (.compute h r []) l =
      ([(.compute r true, l.tick.tick.add h r)], l.tick.tick.add h r) := by
  have hnone : l.reach? h = none := reach?_eq_none_iff.2 hout
  have hnone' : l.tick.reach? h = none := hnone
  simp only [access_compute_of_none hnone, get?_of_none hnone, accessAll, publish_of_none hnone',
    List.nil_append]

/-- One `access` to both lists has one answer from each, and what the smaller one answers from memory, so
does the larger one. -/
theorem within_access {a : Cache.Access} (hw : small.Within large) (ha : a.Direct) :
    ∃ now now', access a small = ([now], now.2) ∧ access a large = ([now'], now'.2) ∧
      (now.1.isHit → now'.1.isHit) ∧ now.2.Within now'.2 := by
  cases a with
  | inspect => exact ⟨(.inspect, small), (.inspect, large), by rw [access], by rw [access], id, hw⟩
  | contains g =>
      refine ⟨(.contains (small.reach? g).isSome, small), (.contains (large.reach? g).isSome, large),
        by rw [access], by rw [access], fun hhit => ?_, hw⟩
      exact isSome_reach?_iff.2 (hw.mem (isSome_reach?_iff.1 hhit))
  | get g =>
      refine ⟨(.get (small.get? g).1, (small.get? g).2), (.get (large.get? g).1, (large.get? g).2),
        by rw [access], by rw [access], fun hhit => ?_, hw.get? g⟩
      rw [fst_get?] at hhit ⊢
      exact isSome_reach?_iff.2 (hw.mem (isSome_reach?_iff.1 hhit))
  | compute g r during =>
      obtain rfl : during = [] := ha
      by_cases hsmall : g ∈ small.types
      · obtain ⟨known, hsmall'⟩ := access_compute_direct_of_mem hsmall r
        obtain ⟨known', hlarge'⟩ := access_compute_direct_of_mem (hw.mem hsmall) r
        exact ⟨_, _, hsmall', hlarge', fun _ => rfl, hw.get? g⟩
      · have hsmall' := access_compute_direct_of_not_mem hsmall r
        -- Here the two may part: the larger list moves a pair that the smaller one has to add.
        by_cases hlarge : g ∈ large.types
        · obtain ⟨known', hlarge'⟩ := access_compute_direct_of_mem hlarge r
          refine ⟨_, _, hsmall', hlarge', nofun, ?_⟩
          exact hw.tick_left.tick_left.add_get? hsmall hlarge r
        · have hlarge' := access_compute_direct_of_not_mem hlarge r
          exact ⟨_, _, hsmall', hlarge', nofun, hw.tick.tick.add hlarge r⟩

end Recents

namespace Cache

variable {small large : Recents} {c c' : Cache} {capacity capacity' : Nat}

theorem Represents.contains_iff {l : Recents} (hc : Represents capacity l c) {h : Handle} :
    c.contains h = true ↔ h ∈ l.types := by
  rw [hc.contains_eq, Recents.isSome_reach?_iff]

/-- What a first cache answers from memory (`Answer.isHit`), a second one does, and the second one remembers
all types that the first one remembers. -/
def CoveredBy (now now' : Answer × Cache) : Prop :=
  (now.1.isHit → now'.1.isHit) ∧ ∀ h, now.2.contains h → now'.2.contains h

theorem coveredBy_of_inStep {x x' : List (Answer × Cache) × Cache} {now now' : Answer × Recents}
    (hx : InStep capacity x ([now], now.2)) (hx' : InStep capacity' x' ([now'], now'.2))
    (hhit : now.1.isHit → now'.1.isHit) (hw : now.2.Within now'.2) :
    List.Forall₂ CoveredBy x.1 x'.1 := by
  obtain ⟨shown, _, ⟨hanswer, hshown⟩, hnil, heq⟩ := List.forall₂_cons_right_iff.1 hx.1
  obtain ⟨shown', _, ⟨hanswer', hshown'⟩, hnil', heq'⟩ := List.forall₂_cons_right_iff.1 hx'.1
  cases hnil
  cases hnil'
  rw [heq, heq']
  refine .cons ⟨by rw [hanswer, hanswer']; exact hhit, fun h hmem => ?_⟩ .nil
  exact hshown'.contains_iff.2 (hw.mem (hshown.contains_iff.1 hmem))

/-- As long as the list of one cache stands `Within` that of another one, each answer of the first is
`CoveredBy` that of the second. -/
theorem coveredBy_accessAll {accesses : List Access} (hdirect : ∀ a ∈ accesses, a.Direct)
    (hw : small.Within large) (hc : Represents capacity small c) (hc' : Represents capacity' large c')
    (hticks : (Recents.accessAll accesses small).2.ticks < UInt64.size) :
    List.Forall₂ CoveredBy (accessAll accesses c).1 (accessAll accesses c').1 := by
  induction accesses generalizing small large c c' with
  | nil =>
      rw [accessAll, accessAll]
      exact .nil
  | cons a rest ih =>
      obtain ⟨ha, hrest⟩ := List.forall_mem_cons.1 hdirect
      obtain ⟨now, now', hsmall, hlarge, hhit, hw'⟩ := Recents.within_access hw ha
      rw [Recents.accessAll, hsmall] at hticks
      -- The clock of the larger cache is not ahead of that of the smaller one.
      have hsoon : now.2.ticks < UInt64.size :=
        Nat.lt_of_le_of_lt (Recents.ticks_le_accessAll rest now.2) hticks
      have hstep : InStep capacity (access a c) ([now], now.2) :=
        hsmall ▸ access_inStep a hc (hsmall ▸ hsoon)
      have hstep' : InStep capacity' (access a c') ([now'], now'.2) :=
        hlarge ▸ access_inStep a hc' (hlarge ▸ Nat.lt_of_le_of_lt hw'.ticks_le hsoon)
      rw [accessAll, accessAll]
      exact List.rel_append (coveredBy_of_inStep hstep hstep' hhit hw')
        (ih hrest hw' hstep.2 hstep'.2 hticks)

/-- The same accesses to two new caches, of which the second may remember more types: what the first one
answers from memory, so does the second one, and after every access the second one remembers all types that
the first one remembers. This holds for accesses that compute, if they do, without using the cache, and as long
as the first cache has asked its tables and added to them less than `2 ^ 64` times, so that its clock has not
begun anew; the second one does so no more often. -/
theorem accessAll_covered {capacity capacity' : Nat} (hle : capacity ≤ capacity') {accesses : List Access}
    (hdirect : ∀ a ∈ accesses, a.Direct)
    (hticks : (Recents.accessAll accesses (.ofCapacity capacity)).2.ticks < UInt64.size) :
    List.Forall₂ (fun now now' => (now.1.isHit → now'.1.isHit) ∧
        ∀ h, now.2.contains h → now'.2.contains h)
      (accessAll accesses (ofCapacity capacity)).1 (accessAll accesses (ofCapacity capacity')).1 :=
  coveredBy_accessAll hdirect (.ofCapacity hle) (.ofCapacity capacity) (.ofCapacity capacity') hticks

/-- Four types in turn, where the first one is asked for before the fourth one comes. -/
def rotation : List Access :=
  [.compute (.ofIndex 16) .enclosing [], .compute (.ofIndex 17) .enclosing [],
    .compute (.ofIndex 18) .hierarchy [], .get (.ofIndex 16), .compute (.ofIndex 19) .hierarchy [],
    .contains (.ofIndex 17), .get (.ofIndex 18), .compute (.ofIndex 16) .hierarchy []]

/-- In `rotation` a cache for three types finds the first type again, which keeps it there and lets the
second one go; a cache for two types has lost both by then, and the two orders differ. -/
theorem accessAll_covered_rotation :
    let small := accessAll rotation (ofCapacity 2)
    let large := accessAll rotation (ofCapacity 3)
    (∀ a ∈ rotation, a.Direct) ∧
    (Recents.accessAll rotation (.ofCapacity 2)).2.ticks < UInt64.size ∧
    small.1.map (·.1.isHit) = [false, false, false, false, false, false, true, false] ∧
    large.1.map (·.1.isHit) = [false, false, false, true, false, false, true, true] ∧
    List.Forall₂ (fun now now' => (now.1.isHit → now'.1.isHit) ∧
      ∀ h, now.2.contains h → now'.2.contains h) small.1 large.1 := by
  intro small large
  have hdirect : ∀ a ∈ rotation, a.Direct := by simp [rotation, Access.Direct]
  have hticks : (Recents.accessAll rotation (.ofCapacity 2)).2.ticks < UInt64.size := by decide +kernel
  exact ⟨hdirect, hticks, by decide +kernel, by decide +kernel,
    accessAll_covered (by omega) hdirect hticks⟩

end Cache

end TagResolution
