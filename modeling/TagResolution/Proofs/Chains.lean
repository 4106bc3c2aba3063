import Mathlib.Data.List.Shortlex
import TagResolution.Proofs.Sighting

/-!
# Chains of tags

A chain starts with a tag on a type and goes on with a tag on the type of the tag before, at a place each. It
is simple if it goes through no reserved tag type and through none twice. A scan lists the simple chains from
a type, short ones first and among equally long ones in the order of their places. Tags that are equal but
stand at two places belong to two chains.

A scan is given by distance, one ring after the other. Taking sightings from a queue to which what is beyond
them is added comes to the same, and the queue runs empty (`iterate_advance`).

The main statement is `scan_lists_chains`.
-/

namespace TagResolution

namespace Sighting

/-- The tags from the one on the scanned type to the one that is seen. -/
def chain (s : Sighting) : List Tag := s.through.reverse ++ [s.tag]

theorem chain_cons (t c : Tag) (through : List Tag) :
    (⟨t, c :: through⟩ : Sighting).chain = through.reverse ++ [c, t] := by
  simp [chain]

theorem mem_types_iff {s : Sighting} {h : Handle} : h ∈ s.types ↔ h ∈ s.chain.map (·.type) := by
  simp [types, chain, or_comm]

end Sighting

namespace Universe

open Relation

variable (u : Universe)

/-! ## Chains -/

/-- Each tag stands at its place on the type of the tag before it, the first one on `h`. -/
inductive Follows : Handle → List Nat → List Tag → Prop
  | nil {h : Handle} : Follows h [] []
  | cons {h : Handle} {i : Nat} {t : Tag} {places : List Nat} {tags : List Tag} :
      (u.tags h)[i]? = some t → Follows t.type places tags → Follows h (i :: places) (t :: tags)

/-- A chain that `Follows` tags and meets neither a reserved tag type nor one tag type twice. -/
structure SimpleChain (h : Handle) (places : List Nat) (chain : List Tag) : Prop where
  follows : u.Follows h places chain
  unreserved : ∀ t ∈ chain, u.isReserved t.type = false
  nodup : (chain.map (·.type)).Nodup

variable {u} {h : Handle} {places : List Nat} {chain path : List Tag} {t t' : Tag} {i : Nat}

theorem Follows.length_eq (hf : u.Follows h places chain) : places.length = chain.length := by
  induction hf with
  | nil => rfl
  | cons _ _ ih => rw [List.length_cons, List.length_cons, ih]

theorem follows_singleton_iff : u.Follows h places [t] ↔ ∃ i, places = [i] ∧ (u.tags h)[i]? = some t := by
  constructor
  · rintro (_ | ⟨hi, ⟨⟩⟩)
    exact ⟨_, rfl, hi⟩
  · rintro ⟨i, rfl, hi⟩
    exact .cons hi .nil

/-- The last tag of a chain stands on the type of the tag before it. -/
theorem follows_append_pair_iff : u.Follows h places (path ++ [t, t']) ↔
    ∃ before i, places = before ++ [i] ∧ u.Follows h before (path ++ [t]) ∧
      (u.tags t.type)[i]? = some t' := by
  induction path generalizing h places with
  | nil =>
      constructor
      · rintro (_ | ⟨hi, hrest⟩)
        obtain ⟨j, rfl, hj⟩ := follows_singleton_iff.1 hrest
        exact ⟨[_], j, rfl, .cons hi .nil, hj⟩
      · rintro ⟨before, j, rfl, hbefore, hj⟩
        obtain ⟨i, rfl, hi⟩ := follows_singleton_iff.1 hbefore
        exact .cons hi (.cons hj .nil)
  | cons c path ih =>
      constructor
      · rintro (_ | ⟨hi, hrest⟩)
        obtain ⟨before, j, rfl, hbefore, hj⟩ := ih.1 hrest
        exact ⟨_ :: before, j, rfl, .cons hi hbefore, hj⟩
      · rintro ⟨before, j, rfl, hbefore, hj⟩
        cases hbefore with
        | cons hi hrest => exact .cons hi (ih.2 ⟨_, j, rfl, hrest, hj⟩)

theorem simpleChain_singleton_iff : u.SimpleChain h places [t] ↔
    ∃ i, places = [i] ∧ (u.tags h)[i]? = some t ∧ u.isReserved t.type = false := by
  constructor
  · intro hc
    obtain ⟨i, rfl, hi⟩ := follows_singleton_iff.1 hc.follows
    exact ⟨i, rfl, hi, hc.unreserved t (.head _)⟩
  · rintro ⟨i, rfl, hi, hopen⟩
    exact ⟨.cons hi .nil, by simpa using hopen, by simp⟩

/-- A simple chain is prolonged by the tags on the type of its last tag. -/
theorem simpleChain_append_pair_iff : u.SimpleChain h places (path ++ [t, t']) ↔
    ∃ before i, places = before ++ [i] ∧ u.SimpleChain h before (path ++ [t]) ∧
      (u.tags t.type)[i]? = some t' ∧ u.isReserved t'.type = false ∧
      t'.type ∉ (path ++ [t]).map (·.type) := by
  have hsplit : path ++ [t, t'] = (path ++ [t]) ++ [t'] := by simp
  constructor
  · intro hc
    obtain ⟨before, i, rfl, hbefore, hi⟩ := follows_append_pair_iff.1 hc.follows
    obtain ⟨-, hopen, hnodup⟩ := hc
    rw [hsplit, List.map_append, List.nodup_append] at hnodup
    refine ⟨before, i, rfl, ⟨hbefore, fun s hs => hopen s ?_, hnodup.1⟩, hi, hopen t' (by simp), ?_⟩
    · rw [hsplit]
      exact List.mem_append_left _ hs
    · intro hmem
      exact hnodup.2.2 _ hmem _ (by simp) rfl
  · rintro ⟨before, i, rfl, hc, hi, hopen, hnew⟩
    refine ⟨follows_append_pair_iff.2 ⟨before, i, rfl, hc.follows, hi⟩, fun s hs => ?_, ?_⟩
    · rw [hsplit] at hs
      rcases List.mem_append.1 hs with hs | hs
      · exact hc.unreserved s hs
      · rw [List.mem_singleton.1 hs]
        exact hopen
    · rw [hsplit, List.map_append, List.nodup_append]
      refine ⟨hc.nodup, by simp, ?_⟩
      rintro g hg _ hg' rfl
      rw [List.map_singleton, List.mem_singleton] at hg'
      exact hnew (hg' ▸ hg)

/-! ## Places of sightings -/

variable (u)

/-- The unreserved tags on `h` whose types are not left out, with their places. -/
def placed (h : Handle) (leftOut : Handle → Bool) : List (Tag × Nat) :=
  (u.tags h).zipIdx.filter fun entry => !u.isReserved entry.1.type && !leftOut entry.1.type

/-- The sightings of the tags on `h`, each with the places of its chain. -/
def presentAt (h : Handle) : List (List Nat × Sighting) :=
  (u.placed h fun _ => false).map fun entry => ([entry.2], ⟨entry.1, []⟩)

/-- What a sighting shows `beyond` itself, with the places of the chains. -/
def beyondAt (e : List Nat × Sighting) : List (List Nat × Sighting) :=
  (u.placed e.2.tag.type e.2.involves).map fun entry =>
    (e.1 ++ [entry.2], ⟨entry.1, e.2.tag :: e.2.through⟩)

/-- The sightings at a distance, by `beyondAt`, with the places of their chains. -/
def ringAt (h : Handle) : Nat → List (List Nat × Sighting)
  | 0 => u.presentAt h
  | k + 1 => (ringAt h k).flatMap u.beyondAt

/-- All sightings from a type, ring by ring (`ringAt`), with the places of their chains. -/
def scanAt (h : Handle) : List (List Nat × Sighting) := (List.range (u.size + 1)).flatMap (u.ringAt h)

variable {u} {leftOut : Handle → Bool} {k : Nat}

theorem mem_placed : (t, i) ∈ u.placed h leftOut ↔
    (u.tags h)[i]? = some t ∧ u.isReserved t.type = false ∧ leftOut t.type = false := by
  simp [placed, List.mem_zipIdx_iff_getElem?]

theorem pairwise_placed : (u.placed h leftOut).Pairwise fun a b => a.2 < b.2 := by
  have hplaces : ((u.tags h).zipIdx.map Prod.snd).Pairwise (· < ·) := by
    rw [List.zipIdx_map_snd]
    exact List.pairwise_lt_range' 1
  exact (List.pairwise_map.1 hplaces).filter _

/-- Without their places `placed` lists the tags that a scan follows. -/
theorem map_fst_placed :
    (u.placed h leftOut).map Prod.fst = (u.openTags h).filter fun t => !leftOut t.type := by
  have htags : (u.tags h).zipIdx.map Prod.fst = u.tags h := List.zipIdx_map_fst ..
  rw [openTags, List.filter_filter, ← htags, List.filter_map, placed]
  refine congrArg _ (List.filter_congr fun entry _ => ?_)
  exact Bool.and_comm ..

theorem map_snd_presentAt : (u.presentAt h).map Prod.snd = u.present h := by
  have htags : (u.placed h fun _ => false).map Prod.fst = u.openTags h := by
    rw [map_fst_placed]
    exact List.filter_eq_self.2 fun _ _ => rfl
  rw [presentAt, present, ← htags, List.map_map, List.map_map]
  rfl

theorem map_snd_beyondAt (e : List Nat × Sighting) : (u.beyondAt e).map Prod.snd = u.beyond e.2 := by
  rw [beyondAt, beyond, ← map_fst_placed, List.map_map, List.map_map]
  rfl

theorem map_snd_ringAt (k : Nat) : (u.ringAt h k).map Prod.snd = u.ring (u.present h) k := by
  induction k with
  | zero => exact map_snd_presentAt
  | succ k ih =>
      rw [ringAt, ring, ← ih, List.map_flatMap, List.flatMap_map]
      exact List.flatMap_congr fun e _ => map_snd_beyondAt e

/-- The `outward` part of a scan lists ring after ring. -/
theorem outward_eq_flatMap (bound : Nat) (near : List Sighting) :
    u.outward bound near = (List.range bound).flatMap (u.ring near) := by
  induction bound generalizing near with
  | zero => rfl
  | succ bound ih =>
      rw [outward_succ, ih, List.range_succ_eq_map, List.flatMap_cons, List.flatMap_map]
      refine congrArg _ (List.flatMap_congr fun k _ => ?_)
      exact u.ring_flatMap near k

theorem map_snd_scanAt : (u.scanAt h).map Prod.snd = u.scan h := by
  rw [scan, outward_eq_flatMap, scanAt, List.map_flatMap]
  exact List.flatMap_congr fun k _ => map_snd_ringAt k

theorem mem_presentAt {s : Sighting} : (places, s) ∈ u.presentAt h ↔
    ∃ t i, (u.tags h)[i]? = some t ∧ u.isReserved t.type = false ∧ places = [i] ∧ s = ⟨t, []⟩ := by
  simp only [presentAt, List.mem_map, Prod.exists, mem_placed, Prod.mk.injEq, and_true, and_assoc,
    eq_comm (a := places), eq_comm (a := s)]

theorem mem_beyondAt {before : List Nat} {s s' : Sighting} : (places, s') ∈ u.beyondAt (before, s) ↔
    ∃ t i, (u.tags s.tag.type)[i]? = some t ∧ u.isReserved t.type = false ∧ t.type ∉ s.types ∧
      places = before ++ [i] ∧ s' = ⟨t, s.tag :: s.through⟩ := by
  have hnew : ∀ t : Tag, s.involves t.type = false ↔ t.type ∉ s.types := fun t => by
    rw [← Sighting.involves_iff, Bool.not_eq_true]
  simp only [beyondAt, List.mem_map, Prod.exists, mem_placed, hnew, Prod.mk.injEq, and_assoc,
    eq_comm (a := places), eq_comm (a := s')]

/-- By `ringAt` the chains of one length are listed that are `SimpleChain`s. -/
theorem mem_ringAt {s : Sighting} :
    (places, s) ∈ u.ringAt h k ↔ s.distance = k ∧ u.SimpleChain h places s.chain := by
  induction k generalizing places s with
  | zero =>
      rw [ringAt, mem_presentAt]
      constructor
      · rintro ⟨t, i, hi, hopen, rfl, rfl⟩
        exact ⟨rfl, simpleChain_singleton_iff.2 ⟨i, rfl, hi, hopen⟩⟩
      · rintro ⟨hdistance, hchain⟩
        obtain ⟨t, _ | ⟨c, through⟩⟩ := s
        · obtain ⟨i, rfl, hi, hopen⟩ := simpleChain_singleton_iff.1 hchain
          exact ⟨t, i, hi, hopen, rfl, rfl⟩
        · cases hdistance
  | succ k ih =>
      rw [ringAt, List.mem_flatMap]
      constructor
      · rintro ⟨⟨before, s⟩, hs, hbeyond⟩
        obtain ⟨hdistance, hchain⟩ := ih.1 hs
        obtain ⟨t, i, hi, hopen, hnew, rfl, rfl⟩ := mem_beyondAt.1 hbeyond
        refine ⟨congrArg Nat.succ hdistance, ?_⟩
        rw [Sighting.chain_cons]
        rw [s.mem_types_iff] at hnew
        exact simpleChain_append_pair_iff.2 ⟨before, i, rfl, hchain, hi, hopen, hnew⟩
      · rintro ⟨hdistance, hchain⟩
        obtain ⟨t, _ | ⟨c, through⟩⟩ := s
        · cases hdistance
        · rw [Sighting.chain_cons] at hchain
          obtain ⟨before, i, rfl, hbefore, hi, hopen, hnew⟩ := simpleChain_append_pair_iff.1 hchain
          refine ⟨(before, ⟨c, through⟩), ih.2 ⟨Nat.succ.inj hdistance, hbefore⟩, ?_⟩
          have hbeyond : t.type ∉ Sighting.types ⟨c, through⟩ := fun hmem =>
            hnew (Sighting.mem_types_iff.1 hmem)
          exact mem_beyondAt.2 ⟨t, i, hi, hopen, hbeyond, rfl, rfl⟩

/-! ## Order -/

theorem lex_append {s t : List Nat} (hlex : List.Lex (· < ·) s t) (hlength : s.length = t.length)
    (a b : List Nat) : List.Lex (· < ·) (s ++ a) (t ++ b) := by
  induction hlex with
  | nil => cases hlength
  | rel hlt => exact .rel hlt
  | cons _ ih => exact .cons (ih (Nat.succ.inj hlength))

theorem length_of_mem_ringAt {e : List Nat × Sighting} (he : e ∈ u.ringAt h k) : e.1.length = k + 1 := by
  obtain ⟨hdistance, hchain⟩ := mem_ringAt.1 he
  rw [hchain.follows.length_eq, Sighting.chain, List.length_append, List.length_reverse]
  exact congrArg Nat.succ hdistance

/-- Within `ringAt` chains are listed in the order of their places. -/
theorem pairwise_ringAt (k : Nat) : (u.ringAt h k).Pairwise fun a b => List.Lex (· < ·) a.1 b.1 := by
  induction k with
  | zero =>
      rw [ringAt, presentAt, List.pairwise_map]
      exact pairwise_placed.imp fun hlt => .rel hlt
  | succ k ih =>
      rw [ringAt, List.pairwise_flatMap]
      constructor
      · intro e _
        rw [beyondAt, List.pairwise_map]
        exact pairwise_placed.imp fun hlt => .append_left _ (.rel hlt) e.1
      · refine ih.imp_of_mem fun {e e'} he he' hlex x hx y hy => ?_
        obtain ⟨a, -, rfl⟩ := List.mem_map.1 hx
        obtain ⟨b, -, rfl⟩ := List.mem_map.1 hy
        exact lex_append hlex ((length_of_mem_ringAt he).trans (length_of_mem_ringAt he').symm) _ _

/-- By `scanAt` chains are listed by length, and those of one length in the order of their places. -/
theorem pairwise_scanAt : (u.scanAt h).Pairwise fun a b => List.Shortlex (· < ·) a.1 b.1 := by
  rw [scanAt, List.pairwise_flatMap]
  constructor
  · intro k _
    refine (pairwise_ringAt k).imp_of_mem fun ha hb hlex => .of_lex ?_ hlex
    rw [length_of_mem_ringAt ha, length_of_mem_ringAt hb]
  · refine List.pairwise_lt_range.imp fun hlt a ha b hb => .of_length_lt ?_
    rw [length_of_mem_ringAt ha, length_of_mem_ringAt hb]
    exact Nat.succ_lt_succ hlt

theorem mem_scanAt {s : Sighting} : (places, s) ∈ u.scanAt h ↔ u.SimpleChain h places s.chain := by
  rw [scanAt, List.mem_flatMap]
  constructor
  · rintro ⟨k, -, hs⟩
    exact (mem_ringAt.1 hs).2
  · intro hchain
    have hs : (places, s) ∈ u.ringAt h s.distance := mem_ringAt.2 ⟨rfl, hchain⟩
    have hring : s ∈ u.ring (u.present h) s.distance := by
      rw [← map_snd_ringAt]
      exact List.mem_map.2 ⟨_, hs, rfl⟩
    have hsees := (u.mem_ring_present.1 hring).1
    exact ⟨s.distance, List.mem_range.2 (Nat.lt_succ_of_lt hsees.distance_lt), hs⟩

/-- A `scan` lists near sightings before far ones. -/
theorem pairwise_distance_scan (u : Universe) (h : Handle) :
    (u.scan h).Pairwise fun s s' => s.distance ≤ s'.distance := by
  rw [scan, outward_eq_flatMap, List.pairwise_flatMap]
  constructor
  · intro k _
    refine List.pairwise_of_forall_mem_list fun s hs s' hs' => ?_
    exact ((u.mem_ring_present.1 hs).2.trans (u.mem_ring_present.1 hs').2.symm).le
  · refine List.pairwise_lt_range.imp fun hlt s hs s' hs' => ?_
    rw [(u.mem_ring_present.1 hs).2, (u.mem_ring_present.1 hs').2]
    exact hlt.le

/-! ## Queues -/

/-- A queue and what was taken from it. Each step takes the first sighting, and what is `beyond` it goes to
the end of the queue. -/
def advance (u : Universe) : List Sighting × List Sighting → List Sighting × List Sighting
  | ([], taken) => ([], taken)
  | (s :: queue, taken) => (queue ++ u.beyond s, taken ++ [s])

/-- Taking all that is in the queue by `advance` puts there what is beyond it. -/
theorem iterate_advance_append (near later taken : List Sighting) :
    u.advance^[near.length] (near ++ later, taken) = (later ++ near.flatMap u.beyond, taken ++ near) := by
  induction near generalizing later taken with
  | nil => simp
  | cons s near ih =>
      rw [List.length_cons, Function.iterate_succ_apply, List.cons_append, advance, List.append_assoc, ih]
      simp

theorem iterate_advance_outward (bound : Nat) (near taken : List Sighting) :
    u.advance^[(u.outward bound near).length] (near, taken)
      = (u.ring near bound, taken ++ u.outward bound near) := by
  induction bound generalizing near taken with
  | zero => simp [outward, ring]
  | succ bound ih =>
      have hnear := u.iterate_advance_append near [] taken
      rw [List.append_nil, List.nil_append] at hnear
      rw [outward_succ, List.length_append, Nat.add_comm, Function.iterate_add_apply, hnear, ih,
        ring_flatMap, List.append_assoc]

/-- The queue of `advance` runs empty, and then what was taken from it is the `scan`. -/
theorem iterate_advance (u : Universe) (h : Handle) :
    u.advance^[(u.scan h).length] (u.present h, []) = ([], u.scan h) := by
  rw [scan, iterate_advance_outward, u.ring_present_eq_nil h (Nat.le_succ u.size), List.nil_append]

/-! ## Scans -/

/-- A `scan` comes to an end: the queue of `advance` runs empty. It lists each `SimpleChain` from a type,
with the tags that it goes through, by length and then by places, so none is listed twice. Whatever tag type
`TagLeads` leads to is the type of a tag that is listed, though circles are cut. -/
theorem scan_lists_chains (u : Universe) (h : Handle) :
    u.advance^[(u.scan h).length] (u.present h, []) = ([], u.scan h) ∧
    (∃ listing : List (List Nat × Sighting), listing.map Prod.snd = u.scan h ∧
      listing.Pairwise (fun a b => List.Shortlex (· < ·) a.1 b.1) ∧
      ∀ places path t, (places, ⟨t, path.reverse⟩) ∈ listing ↔ u.SimpleChain h places (path ++ [t])) ∧
    ∀ tagType, (∃ s ∈ u.scan h, s.tag.type = tagType) ↔ TransGen u.TagLeads h tagType := by
  refine ⟨u.iterate_advance h, ⟨u.scanAt h, map_snd_scanAt, pairwise_scanAt, fun places path t => ?_⟩,
    fun tagType => ?_⟩
  · rw [mem_scanAt, Sighting.chain, List.reverse_reverse]
  · simp only [mem_scan]
    exact u.exists_sighting_iff

end Universe

end TagResolution
