import Mathlib.Data.List.Forall2
import TagResolution.Proofs.Caching

/-!
# Caches as lists

A cache keeps two tables and tells earlier uses from later ones by its clock. As long as the clock
has not begun anew, it is no more than a list of types with their reaches, in which every use moves a
pair to the front and in which the last pair leaves when there are too many. This holds also for
computations that use the cache themselves: what they add or remove is found in the list when their
own result is added.

The main statement is `Cache.accessAll_shows`.
-/

namespace TagResolution

/-! ## Lists of recent pairs -/

/-- A bounded memory as a list, the pair that was used last in front. -/
structure Recents where
  capacity : Nat
  pairs : List (Handle × Reach)
  /-- How often a type was asked for or a pair was added. -/
  ticks : Nat

namespace Recents

def ofCapacity (capacity : Nat) : Recents := ⟨max capacity 1, [], 0⟩

def reach? (l : Recents) (h : Handle) : Option Reach := (l.pairs.find? (·.1 = h)).map (·.2)

def tick (l : Recents) : Recents := { l with ticks := l.ticks + 1 }

/-- The reach of a type, whose pair moves to the front. -/
def get? (l : Recents) (h : Handle) : Option Reach × Recents :=
  match l.reach? h with
  | none => (none, l.tick)
  | some r => (some r, { l.tick with pairs := (h, r) :: l.pairs.filter (·.1 ≠ h) })

/-- Puts a pair in front. If there are too many then, the last one is dropped. -/
def add (l : Recents) (h : Handle) (r : Reach) : Recents :=
  let pairs := (h, r) :: l.pairs
  { l.tick with pairs := if pairs.length ≤ l.capacity then pairs else pairs.dropLast }

def publish (l : Recents) (h : Handle) (r : Reach) : Reach × Recents :=
  match l.get? h with
  | (some known, l) => (known, l)
  | (none, l) => (r, l.add h r)

mutual

/-- Performs an access to the list, with the answers in the order in which `Cache.access` gives them. -/
def access : Cache.Access → Recents → List (Cache.Answer × Recents) × Recents
  | .inspect, l => ([(.inspect, l)], l)
  | .get h, l =>
    let (r, l) := l.get? h
    ([(.get r, l)], l)
  | .contains h, l => ([(.contains (l.reach? h).isSome, l)], l)
  | .compute h r during, l =>
    match l.get? h with
    | (some known, l) => ([(.compute known false, l)], l)
    | (none, l) =>
      let (trace, l) := accessAll during l
      let (r, l) := l.publish h r
      (trace ++ [(.compute r true, l)], l)

/-- Performs accesses one after the other, each by `access`. -/
def accessAll : List Cache.Access → Recents → List (Cache.Answer × Recents) × Recents
  | [], l => ([], l)
  | a :: rest, l =>
    let (trace, l) := access a l
    let (more, l) := accessAll rest l
    (trace ++ more, l)

end

variable {l : Recents} {h : Handle}

theorem get?_of_none (hnone : l.reach? h = none) : l.get? h = (none, l.tick) := by
  unfold get?
  rw [hnone]

theorem get?_of_some {r : Reach} (hr : l.reach? h = some r) :
    l.get? h = (some r, { l.tick with pairs := (h, r) :: l.pairs.filter (·.1 ≠ h) }) := by
  unfold get?
  rw [hr]

theorem fst_get? (l : Recents) (h : Handle) : (l.get? h).1 = l.reach? h := by
  cases hr : l.reach? h with
  | none => rw [get?_of_none hr]
  | some r => rw [get?_of_some hr]

theorem ticks_get? (l : Recents) (h : Handle) : (l.get? h).2.ticks = l.ticks + 1 := by
  cases hr : l.reach? h with
  | none => rw [get?_of_none hr]; rfl
  | some r => rw [get?_of_some hr]; rfl

theorem publish_of_none (hnone : l.reach? h = none) (r : Reach) :
    l.publish h r = (r, l.tick.add h r) := by
  unfold publish
  rw [get?_of_none hnone]

theorem publish_of_some {known : Reach} (hknown : l.reach? h = some known) (r : Reach) :
    l.publish h r = (known, (l.get? h).2) := by
  unfold publish
  rw [get?_of_some hknown]

theorem access_compute_of_some {known : Reach} (hknown : l.reach? h = some known) (r : Reach)
    (during : List Cache.Access) :
    access (.compute h r during) l =
      ([(.compute known false, (l.get? h).2)], (l.get? h).2) := by
  rw [access, get?_of_some hknown]

theorem access_compute_of_none (hnone : l.reach? h = none) (r : Reach)
    (during : List Cache.Access) :
    access (.compute h r during) l =
      let during := accessAll during (l.get? h).2
      let published := during.2.publish h r
      (during.1 ++ [(.compute published.1 true, published.2)], published.2) := by
  rw [access, get?_of_none hnone]

theorem ticks_le_publish (l : Recents) (h : Handle) (r : Reach) :
    l.ticks ≤ (l.publish h r).2.ticks := by
  cases hknown : l.reach? h with
  | none =>
      rw [publish_of_none hknown]
      exact Nat.le_add_right l.ticks 2
  | some known =>
      rw [publish_of_some hknown, ticks_get?]
      exact Nat.le_succ _

mutual

theorem ticks_le_access (a : Cache.Access) (l : Recents) : l.ticks ≤ (access a l).2.ticks := by
  match a with
  | .inspect => exact Nat.le_of_eq (by rw [access])
  | .contains h => exact Nat.le_of_eq (by rw [access])
  | .get h =>
      rw [access]
      exact (l.ticks_get? h).symm ▸ Nat.le_succ _
  | .compute h r during =>
      have hget := l.ticks_get? h
      cases hknown : l.reach? h with
      | some known =>
          rw [access_compute_of_some hknown]
          dsimp only
          omega
      | none =>
          have hduring := ticks_le_accessAll during (l.get? h).2
          have hpublish := ticks_le_publish (accessAll during (l.get? h).2).2 h r
          rw [access_compute_of_none hknown]
          dsimp only
          omega

theorem ticks_le_accessAll (accesses : List Cache.Access) (l : Recents) :
    l.ticks ≤ (accessAll accesses l).2.ticks := by
  match accesses with
  | [] => exact Nat.le_of_eq (by rw [accessAll])
  | a :: rest =>
      rw [accessAll]
      exact Nat.le_trans (ticks_le_access a l) (ticks_le_accessAll rest _)

end

end Recents

namespace Cache

variable {c : Cache} {h : Handle} {uses : List (Handle × CacheEntry)}

/-! ## Uses in the tables -/

/-- Both tables, `entries` and `recency`, hold the same uses of types, here in order, the latest one in
front. -/
structure Lists (c : Cache) (uses : List (Handle × CacheEntry)) : Prop where
  entries : ∀ h e, c.entries[h]? = some e ↔ (h, e) ∈ uses
  recency : ∀ (t : UInt64) h, c.recency[t]? = some h ↔ ∃ r, (h, ⟨r, t⟩) ∈ uses
  latestFirst : uses.Pairwise fun a b => b.2.used < a.2.used
  past : ∀ a ∈ uses, a.2.used ≤ c.clock

namespace Lists

theorem ofCapacity (capacity : Nat) : (Cache.ofCapacity capacity).Lists [] where
  entries h e := ⟨fun he => by (cases Std.TreeMap.getElem?_emptyc.symm.trans he), nofun⟩
  recency t h := ⟨fun ht => by (cases Std.TreeMap.getElem?_emptyc.symm.trans ht), nofun⟩
  latestFirst := .nil
  past := nofun

theorem eq_of_mem {e e' : CacheEntry} (hc : c.Lists uses) (he : (h, e) ∈ uses)
    (he' : (h, e') ∈ uses) : e = e' :=
  Option.some.inj (((hc.entries h e).2 he).symm.trans ((hc.entries h e').2 he'))

theorem distinct (hc : c.Lists uses) : (uses.map (·.1)).Nodup := by
  refine List.pairwise_map.2 (hc.latestFirst.imp_of_mem fun {a b} ha hb hlt heq => ?_)
  have hsame : a.2 = b.2 := hc.eq_of_mem (h := a.1) ha (heq ▸ hb)
  rw [hsame] at hlt
  exact UInt64.lt_irrefl _ hlt

theorem find? (hc : c.Lists uses) (h : Handle) :
    uses.find? (·.1 = h) = c.entries[h]?.map fun e => (h, e) := by
  cases hfind : uses.find? (·.1 = h) with
  | some a =>
      have hmem := List.mem_of_find?_eq_some hfind
      have heq : a.1 = h := by simpa using List.find?_some hfind
      rw [(hc.entries h a.2).2 (heq ▸ hmem), ← heq]
      rfl
  | none =>
      have hout := List.find?_eq_none.1 hfind
      cases he : c.entries[h]? with
      | none => rfl
      | some e => exact absurd (decide_eq_true rfl) (hout _ ((hc.entries h e).1 he))

theorem size_eq (hc : c.Lists uses) : c.size = uses.length := by
  have hentries : c.entries.toList.Nodup :=
    Std.TreeMap.distinct_keys_toList.imp fun {a b} hne heq =>
      hne (Std.LawfulEqCmp.compare_eq_iff_eq.2 (congrArg Prod.fst heq))
  have huses : uses.Nodup :=
    List.Pairwise.of_map _ (fun a b hne heq => hne (congrArg Prod.fst heq)) hc.distinct
  have hperm : c.entries.toList.Perm uses := by
    refine (List.perm_ext_iff_of_nodup hentries huses).2 fun a => ?_
    rw [← hc.entries a.1 a.2]
    exact Std.TreeMap.mem_toList_iff_getElem?_eq_some
  rw [← hperm.length_eq, Std.TreeMap.length_toList]
  rfl

/-- The table `recency` lists the uses from the first one on. -/
theorem toList_recency (hc : c.Lists uses) :
    c.recency.toList = (uses.map fun a => (a.2.used, a.1)).reverse := by
  have hasc : c.recency.toList.Pairwise fun a b => a.1 < b.1 :=
    Std.TreeMap.ordered_keys_toList.imp Std.compare_eq_lt.1
  have hdesc : (uses.map fun a => (a.2.used, a.1)).reverse.Pairwise fun a b => a.1 < b.1 :=
    List.pairwise_reverse.2 (List.pairwise_map.2 hc.latestFirst)
  have hne : ∀ {a b : UInt64 × Handle}, a.1 < b.1 → a ≠ b := by
    rintro a b hlt rfl
    exact UInt64.lt_irrefl _ hlt
  have hperm := (List.perm_ext_iff_of_nodup (hasc.imp hne) (hdesc.imp hne)).2 fun a => by
    rw [Std.TreeMap.mem_toList_iff_getElem?_eq_some, hc.recency, List.mem_reverse, List.mem_map]
    constructor
    · rintro ⟨r, hr⟩
      exact ⟨_, hr, rfl⟩
    · rintro ⟨⟨g, r, t⟩, hmem, rfl⟩
      exact ⟨r, hmem⟩
  exact hperm.eq_of_pairwise (fun a b _ _ hab hba => absurd hba (UInt64.lt_asymm hab)) hasc hdesc

/-- What a cache `Lists` depends only on what its tables answer and on its clock. -/
theorem congr {c' : Cache} (hc : c.Lists uses) (hentries : ∀ h : Handle, c'.entries[h]? = c.entries[h]?)
    (hrecency : ∀ t : UInt64, c'.recency[t]? = c.recency[t]?) (hclock : c'.clock = c.clock) :
    c'.Lists uses where
  entries h e := by rw [hentries]; exact hc.entries h e
  recency t h := by rw [hrecency]; exact hc.recency t h
  latestFirst := hc.latestFirst
  past := hclock ▸ hc.past

/-- A clock that does not begin anew shows a time after all uses. -/
theorem lt_tick (hc : c.Lists uses) (hclock : c.clock.toNat + 1 < UInt64.size) :
    ∀ a ∈ uses, a.2.used < c.tick.clock := by
  intro a ha
  have hpast := UInt64.le_iff_toNat_le.1 (hc.past a ha)
  have htick : c.tick.clock.toNat = c.clock.toNat + 1 := by
    show (c.clock + 1).toNat = _
    rw [UInt64.toNat_add]
    exact Nat.mod_eq_of_lt hclock
  rw [UInt64.lt_iff_toNat_lt, htick]
  exact Nat.lt_succ_of_le hpast

theorem tick (hc : c.Lists uses) (hclock : c.clock.toNat + 1 < UInt64.size) : c.tick.Lists uses where
  entries := hc.entries
  recency := hc.recency
  latestFirst := hc.latestFirst
  past a ha := UInt64.le_of_lt (hc.lt_tick hclock a ha)

/-- By `record` the use of a type that is not remembered comes in front. -/
theorem record (hc : c.Lists uses) (hnow : ∀ a ∈ uses, a.2.used < c.clock)
    (hnone : c.entries[h]? = none) (r : Reach) : (c.record h r).Lists ((h, ⟨r, c.clock⟩) :: uses) where
  entries g e := by
    rw [getElem?_entries_record, List.mem_cons]
    split
    · next heq =>
      subst heq
      have hout : (h, e) ∉ uses := fun hmem => by
        cases hnone.symm.trans ((hc.entries h e).2 hmem)
      simp [hout, eq_comm]
    · next hne => simp [hc.entries, Ne.symm hne]
  recency t g := by
    rw [getElem?_recency_record]
    simp only [List.mem_cons]
    split
    · next heq =>
      subst heq
      have hout : ∀ r, (g, ⟨r, c.clock⟩) ∉ uses := fun r hmem =>
        UInt64.lt_irrefl _ (hnow _ hmem)
      simp [hout, eq_comm]
    · next hne => simp [hc.recency, Ne.symm hne]
  latestFirst := List.pairwise_cons.2 ⟨hnow, hc.latestFirst⟩
  past := by
    intro a ha
    rcases List.mem_cons.1 ha with rfl | ha
    · exact UInt64.le_refl _
    · exact UInt64.le_of_lt (hnow a ha)

/-- A type that leaves both tables, by `unlist` and `forget`, takes its use along and no other. -/
theorem remove {e : CacheEntry} (hc : c.Lists uses) (he : c.entries[h]? = some e) :
    ((c.unlist e.used).forget h).Lists (uses.filter (·.1 ≠ h)) where
  entries g f := by
    rw [getElem?_entries_forget, List.mem_filter]
    split
    · next heq => simp [heq]
    · next hne =>
      have hsame : (c.unlist e.used).entries = c.entries := rfl
      simp [hsame, hc.entries, Ne.symm hne]
  recency t g := by
    have hunlist : ((c.unlist e.used).forget h).recency[t]? =
        if e.used = t then none else c.recency[t]? := getElem?_recency_unlist c e.used t
    rw [hunlist]
    simp only [List.mem_filter, decide_eq_true_eq]
    split
    · next heq =>
      -- At this time the removed type was used, so no other type was.
      subst heq
      have hlisted := (hc.recency e.used h).2 ⟨e.reach, (hc.entries h e).1 he⟩
      constructor
      · nofun
      · rintro ⟨r, hmem, hne⟩
        exact absurd (Option.some.inj (((hc.recency _ g).2 ⟨r, hmem⟩).symm.trans hlisted)) hne
    · next hne =>
      rw [hc.recency]
      constructor
      · rintro ⟨r, hmem⟩
        refine ⟨r, hmem, ?_⟩
        rintro rfl
        exact hne (congrArg (·.used) (hc.eq_of_mem ((hc.entries g e).1 he) hmem))
      · rintro ⟨r, hmem, -⟩
        exact ⟨r, hmem⟩
  latestFirst := hc.latestFirst.filter _
  past a ha := hc.past a (List.mem_filter.1 ha).1

/-- A remembered type that is used again, by `Cache.get?`, moves to the front. -/
theorem touch {e : CacheEntry} (hc : c.Lists uses) (hclock : c.clock.toNat + 1 < UInt64.size)
    (he : c.entries[h]? = some e) :
    (c.get? h).2.Lists ((h, ⟨e.reach, c.tick.clock⟩) :: uses.filter (·.1 ≠ h)) := by
  have hremoved := (hc.tick hclock).remove he
  have hnone : ((c.tick.unlist e.used).forget h).entries[h]? = none := by
    rw [getElem?_entries_forget, if_pos rfl]
  have hrecorded := hremoved.record
    (fun a ha => hc.lt_tick hclock a (List.mem_filter.1 ha).1) hnone e.reach
  rw [get?_of_some he]
  refine hrecorded.congr (fun g => ?_) (fun _ => rfl) rfl
  rw [getElem?_entries_record, getElem?_entries_record, getElem?_entries_forget]
  split <;> rfl

/-- What `recency` lists first, and `dropOldest` drops, is the last use. -/
theorem dropOldest (hc : c.Lists uses) : c.dropOldest.Lists uses.dropLast := by
  rcases List.eq_nil_or_concat uses with rfl | ⟨earlier, last, rfl⟩
  · have hempty : c.recency.toList = [] := hc.toList_recency
    unfold Cache.dropOldest
    rw [hempty]
    exact hc
  · have hlist : c.recency.toList.head? = some (last.2.used, last.1) := by
      rw [hc.toList_recency]
      simp
    have hlast : c.entries[last.1]? = some last.2 := (hc.entries _ _).2 (by simp)
    have hremoved := hc.remove hlast
    have hrest : (earlier.concat last).filter (·.1 ≠ last.1) = earlier := by
      have hdistinct := hc.distinct
      rw [List.concat_eq_append, List.map_append] at hdistinct
      have hout := (List.pairwise_append.1 hdistinct).2.2
      rw [List.concat_eq_append, List.filter_append, List.filter_eq_self.2]
      · simp
      · intro a ha
        simpa using hout a.1 (List.mem_map_of_mem ha) last.1 (by simp)
    unfold Cache.dropOldest
    rw [hlist]
    rw [hrest] at hremoved
    simpa using hremoved

end Lists

/-! ## The cache and the list -/

/-- A list holds the pairs of a cache in the order of their uses, and has counted in `ticks` what the clock
shows. -/
structure Represents (capacity : Nat) (l : Recents) (c : Cache) : Prop where
  lists : ∃ uses, c.Lists uses ∧ l.pairs = uses.map fun a => (a.1, a.2.reach)
  ticks : c.clock.toNat = l.ticks
  capacity_list : l.capacity = capacity
  capacity_cache : c.capacity = capacity
  sound : c.Sound

namespace Represents

variable {capacity : Nat} {l : Recents}

theorem ofCapacity (capacity : Nat) :
    Represents (max capacity 1) (.ofCapacity capacity) (Cache.ofCapacity capacity) where
  lists := ⟨[], .ofCapacity capacity, rfl⟩
  ticks := rfl
  capacity_list := rfl
  capacity_cache := rfl
  sound := sound_ofCapacity capacity

theorem reach?_eq (hc : Represents capacity l c) (h : Handle) : l.reach? h = c.entries[h]?.map (·.reach) := by
  obtain ⟨uses, hlists, hpairs⟩ := hc.lists
  have hfind := hlists.find? h
  unfold Recents.reach?
  rw [hpairs, List.find?_map]
  simp only [Function.comp_def, hfind, Option.map_map]

theorem entries_eq_none (hc : Represents capacity l c) (hnone : l.reach? h = none) :
    c.entries[h]? = none :=
  Option.map_eq_none_iff.1 ((hc.reach?_eq h).symm.trans hnone)

theorem exists_entry {r : Reach} (hc : Represents capacity l c) (hr : l.reach? h = some r) :
    ∃ e, c.entries[h]? = some e ∧ e.reach = r :=
  Option.map_eq_some_iff.1 ((hc.reach?_eq h).symm.trans hr)

theorem contains_eq (hc : Represents capacity l c) (h : Handle) : c.contains h = (l.reach? h).isSome := by
  rw [contains_eq_isSome, hc.reach?_eq, Option.isSome_map]

theorem fst_get? (hc : Represents capacity l c) (h : Handle) : (c.get? h).1 = (l.get? h).1 := by
  rw [Cache.fst_get?, Recents.fst_get?, hc.reach?_eq]

/-- The number that the clock shows after `Cache.tick`, unless it begins anew. -/
theorem toNat_clock_tick (hc : Represents capacity l c) (hticks : l.ticks + 1 < UInt64.size) :
    c.tick.clock.toNat = l.ticks + 1 := by
  show (c.clock + 1).toNat = _
  rw [UInt64.toNat_add, hc.ticks]
  exact Nat.mod_eq_of_lt hticks

theorem tick (hc : Represents capacity l c) (hticks : l.ticks + 1 < UInt64.size) :
    Represents capacity l.tick c.tick := by
  obtain ⟨uses, hlists, hpairs⟩ := hc.lists
  exact ⟨⟨uses, hlists.tick (hc.ticks ▸ hticks), hpairs⟩, hc.toNat_clock_tick hticks, hc.capacity_list,
    hc.capacity_cache, hc.sound.tick⟩

theorem get? (hc : Represents capacity l c) (h : Handle) (hticks : l.ticks + 1 < UInt64.size) :
    Represents capacity (l.get? h).2 (c.get? h).2 := by
  cases hr : l.reach? h with
  | none =>
      rw [Recents.get?_of_none hr, Cache.get?_of_none (hc.entries_eq_none hr)]
      exact hc.tick hticks
  | some r =>
      obtain ⟨e, he, rfl⟩ := hc.exists_entry hr
      obtain ⟨uses, hlists, hpairs⟩ := hc.lists
      have htouched := hlists.touch (hc.ticks ▸ hticks) he
      have hclock : (c.get? h).2.clock = c.tick.clock := by rw [Cache.get?_of_some he]; rfl
      rw [Recents.get?_of_some hr]
      refine ⟨⟨_, htouched, ?_⟩, ?_, hc.capacity_list, ?_, hc.sound.get? h⟩
      · simp only [hpairs, List.filter_map, List.map_cons, Function.comp_def]
      · rw [hclock]
        exact hc.toNat_clock_tick hticks
      · rw [capacity_get?]
        exact hc.capacity_cache

/-- By `add` the list and the cache have room for the same pairs, and the same one leaves. -/
theorem add (hc : Represents capacity l c) (hnone : l.reach? h = none) (r : Reach)
    (hticks : l.ticks + 1 < UInt64.size) : Represents capacity (l.add h r) (c.add h r) := by
  have hnone' : c.entries[h]? = none := hc.entries_eq_none hnone
  have hsound := hc.sound.add hnone' r
  have hclock := hc.toNat_clock_tick hticks
  obtain ⟨uses, hlists, hpairs⟩ := hc.lists
  have hticks' : c.clock.toNat + 1 < UInt64.size := hc.ticks ▸ hticks
  have hrecorded : (c.tick.record h r).Lists ((h, ⟨r, c.tick.clock⟩) :: uses) :=
    (hlists.tick hticks').record (hlists.lt_tick hticks') hnone' r
  have hsize : (c.tick.record h r).size = ((h, r) :: l.pairs).length := by
    rw [hrecorded.size_eq, hpairs]
    simp
  have hcapacity : (c.tick.record h r).capacity = l.capacity :=
    hc.capacity_cache.trans hc.capacity_list.symm
  have hadd : c.add h r =
      if ((h, r) :: l.pairs).length ≤ l.capacity then c.tick.record h r
      else (c.tick.record h r).dropOldest := by
    rw [← hsize, ← hcapacity]
    rfl
  rw [hadd] at hsound ⊢
  unfold Recents.add
  dsimp only
  split
  · next hroom =>
    rw [if_pos hroom] at hsound
    exact ⟨⟨_, hrecorded, by simp [hpairs]⟩, hclock, hc.capacity_list, hc.capacity_cache, hsound⟩
  · next hfull =>
    rw [if_neg hfull] at hsound
    have hsame : (c.tick.record h r).dropOldest.clock = c.tick.clock := by
      unfold Cache.dropOldest
      split <;> rfl
    refine ⟨⟨_, hrecorded.dropOldest, ?_⟩, hsame ▸ hclock, hc.capacity_list, ?_, hsound⟩
    · rw [List.map_dropLast, hpairs]
      rfl
    · rw [capacity_dropOldest]
      exact hc.capacity_cache

theorem publish (hc : Represents capacity l c) (h : Handle) (r : Reach)
    (hticks : (l.publish h r).2.ticks < UInt64.size) :
    (c.publish h r).1 = (l.publish h r).1 ∧ Represents capacity (l.publish h r).2 (c.publish h r).2 := by
  cases hr : l.reach? h with
  | none =>
      rw [Recents.publish_of_none hr] at hticks ⊢
      have hticks : l.ticks + 1 + 1 < UInt64.size := hticks
      have htick := hc.tick (by omega)
      unfold Cache.publish
      rw [Cache.get?_of_none (hc.entries_eq_none hr)]
      exact ⟨rfl, htick.add hr r hticks⟩
  | some known =>
      rw [Recents.publish_of_some hr] at hticks ⊢
      rw [Recents.ticks_get?] at hticks
      have hget := hc.get? h hticks
      obtain ⟨e, he, rfl⟩ := hc.exists_entry hr
      unfold Cache.publish
      rw [Cache.get?_of_some he] at hget ⊢
      exact ⟨rfl, hget⟩

end Represents

section Runs

variable {capacity : Nat} {l : Recents}

/-- The runs of a cache and of a list give the same answers, each time with the same pairs (`Represents`). -/
def InStep (capacity : Nat) (x : List (Answer × Cache) × Cache)
    (y : List (Answer × Recents) × Recents) : Prop :=
  List.Forall₂ (fun now shown => now.1 = shown.1 ∧ Represents capacity shown.2 now.2) x.1 y.1 ∧
    Represents capacity y.2 x.2

theorem InStep.single {a b : Answer} (hab : a = b) (hc : Represents capacity l c) :
    InStep capacity ([(a, c)], c) ([(b, l)], l) :=
  ⟨.cons ⟨hab, hc⟩ .nil, hc⟩

mutual

/-- What `Recents.access` does to the list, `Cache.access` does to the cache. -/
theorem access_inStep (a : Access) {l : Recents} {c : Cache} (hc : Represents capacity l c)
    (hticks : (Recents.access a l).2.ticks < UInt64.size) :
    InStep capacity (access a c) (Recents.access a l) := by
  match a with
  | .inspect =>
      rw [access, Recents.access]
      exact .single rfl hc
  | .contains h =>
      rw [access, Recents.access]
      exact .single (congrArg _ (hc.contains_eq h)) hc
  | .get h =>
      rw [Recents.access] at hticks
      have hget := hc.get? h ((l.ticks_get? h) ▸ hticks)
      rw [access, Recents.access]
      exact .single (congrArg _ (hc.fst_get? h)) hget
  | .compute h r during =>
      cases hr : l.reach? h with
      | some known =>
          rw [Recents.access_compute_of_some hr] at hticks ⊢
          have hget := hc.get? h ((l.ticks_get? h) ▸ hticks)
          obtain ⟨e, he, rfl⟩ := hc.exists_entry hr
          rw [access]
          unfold getOrCompute
          rw [Cache.get?_of_some he] at hget ⊢
          exact .single rfl hget
      | none =>
          rw [Recents.access_compute_of_none hr] at hticks ⊢
          -- The clock has not begun anew after the computation, so it has not before.
          have hpublish := Recents.ticks_le_publish (Recents.accessAll during (l.get? h).2).2 h r
          have hduring := Recents.ticks_le_accessAll during (l.get? h).2
          have hget := hc.get? h ((l.ticks_get? h) ▸ by dsimp only at hticks; omega)
          obtain ⟨htrace, hcomputed⟩ := accessAll_inStep during hget
            (by dsimp only at hticks; omega)
          obtain ⟨hknown, hpublished⟩ := hcomputed.publish h r hticks
          rw [access]
          unfold getOrCompute
          rw [Cache.get?_of_none (hc.entries_eq_none hr)] at htrace hknown hpublished ⊢
          exact ⟨List.rel_append htrace (.cons ⟨congrArg (Answer.compute · true) hknown, hpublished⟩ .nil),
            hpublished⟩

theorem accessAll_inStep (accesses : List Access) {l : Recents} {c : Cache} (hc : Represents capacity l c)
    (hticks : (Recents.accessAll accesses l).2.ticks < UInt64.size) :
    InStep capacity (accessAll accesses c) (Recents.accessAll accesses l) := by
  match accesses with
  | [] =>
      rw [accessAll, Recents.accessAll]
      exact ⟨.nil, hc⟩
  | a :: rest =>
      rw [Recents.accessAll] at hticks
      have hrest := Recents.ticks_le_accessAll rest (Recents.access a l).2
      obtain ⟨htrace, hnext⟩ := access_inStep a hc (by dsimp only at hticks; omega)
      obtain ⟨hmore, hlast⟩ := accessAll_inStep rest hnext hticks
      rw [accessAll, Recents.accessAll]
      exact ⟨List.rel_append htrace hmore, hlast⟩

end

/-- What `types`, `reach?` and `recency` show of a cache is what is seen of a list, which holds no type
twice and no more pairs than it may. -/
structure Shows (capacity : Nat) (l : Recents) (c : Cache) : Prop where
  capacity_eq : c.capacity = capacity
  size_eq : c.size = l.pairs.length
  contains_eq : ∀ h, c.contains h = (l.reach? h).isSome
  reach_eq : ∀ h, (c.get? h).1 = l.reach? h
  /-- The table by times lists the types of the list from its end. -/
  recency_eq : c.recency.toList.map (·.2) = (l.pairs.map (·.1)).reverse
  distinct : (l.pairs.map (·.1)).Nodup
  length_le : l.pairs.length ≤ capacity

theorem Represents.shows (hc : Represents capacity l c) : Shows capacity l c := by
  obtain ⟨uses, hlists, hpairs⟩ := hc.lists
  have hsize : c.size = l.pairs.length := by rw [hpairs, List.length_map, hlists.size_eq]
  have htypes : l.pairs.map (·.1) = uses.map (·.1) := by simp [hpairs]
  refine ⟨hc.capacity_cache, hsize, hc.contains_eq, fun h => ?_, ?_, ?_, ?_⟩
  · rw [hc.fst_get?, Recents.fst_get?]
  · rw [hlists.toList_recency, htypes]
    simp
  · rw [htypes]
    exact hlists.distinct
  · rw [← hsize, ← hc.capacity_cache]
    exact hc.sound.size_le

end Runs

/-- Whatever is asked of a new cache by `accessAll`, also by the computations themselves, and as long as its
clock has not begun anew: the answers are those of `Recents.accessAll`, and after each of them the cache
`Shows` the list. -/
theorem accessAll_shows (capacity : Nat) (accesses : List Access)
    (hticks : (Recents.accessAll accesses (.ofCapacity capacity)).2.ticks < UInt64.size) :
    List.Forall₂ (fun now shown => now.1 = shown.1 ∧ Shows (max capacity 1) shown.2 now.2)
        (accessAll accesses (ofCapacity capacity)).1
        (Recents.accessAll accesses (.ofCapacity capacity)).1 ∧
      Shows (max capacity 1) (Recents.accessAll accesses (.ofCapacity capacity)).2
        (accessAll accesses (ofCapacity capacity)).2 := by
  obtain ⟨htrace, hlast⟩ := accessAll_inStep accesses (.ofCapacity capacity) hticks
  exact ⟨htrace.imp fun _ _ hnow => ⟨hnow.1, hnow.2.shows⟩, hlast.shows⟩

/-- A computation that asks for a second type, whose computation asks for the first type again. -/
def reentrant : List Access :=
  [.compute (.ofIndex 16) .enclosing
      [.compute (.ofIndex 17) .enclosing [.compute (.ofIndex 16) .hierarchy []], .inspect],
    .compute (.ofIndex 18) .enclosing [], .contains (.ofIndex 17), .get (.ofIndex 16)]

/-- In `reentrant` the reach that became known first counts for both askers, and in a cache for two types
its last use keeps the first type when the third one comes. -/
theorem accessAll_shows_reentrant :
    let l := Recents.accessAll reentrant (.ofCapacity 2)
    l.2.ticks < UInt64.size ∧
    l.1.map (·.1) = [.compute .hierarchy true, .compute .enclosing true, .inspect,
      .compute .hierarchy true, .compute .enclosing true, .contains false, .get (some .hierarchy)] ∧
    l.2.pairs = [(.ofIndex 16, .hierarchy), (.ofIndex 18, .enclosing)] ∧
    List.Forall₂ (fun now shown => now.1 = shown.1 ∧ Shows 2 shown.2 now.2)
      (accessAll reentrant (ofCapacity 2)).1 l.1 ∧
    Shows 2 l.2 (accessAll reentrant (ofCapacity 2)).2 := by
  intro l
  have hticks : l.2.ticks < UInt64.size := by decide +kernel
  exact ⟨hticks, by decide +kernel, by decide +kernel, accessAll_shows 2 reentrant hticks⟩

end Cache

end TagResolution
