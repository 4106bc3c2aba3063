import TagResolution.Proofs.Simulation
import TagResolution.Resolver

/-!
# Cached reaches

A cache may forget reaches, but it makes none up. As long as it remembers only what was computed, the
source that asks it answers the reach of a type by its nested configuration, whatever the cache has
forgotten by then. Only a cache that was given other reaches can answer in two ways, with what it was
given and, once that is forgotten, with what is computed.

The main statement is `answers_cachedReach`.
-/

namespace TagResolution

namespace Cache

variable {reach : Handle → Reach} {c : Cache}

/-- A cache remembers no other reaches than those that types have. -/
def Faithful (reach : Handle → Reach) (c : Cache) : Prop :=
  ∀ h e, c.entries[h]? = some e → e.reach = reach h

theorem faithful_ofCapacity (reach : Handle → Reach) (capacity : Nat) :
    (ofCapacity capacity).Faithful reach := by
  intro h e he
  cases Std.TreeMap.getElem?_emptyc.symm.trans he

namespace Faithful

theorem record (hc : c.Faithful reach) (h : Handle) : (c.record h (reach h)).Faithful reach := by
  intro g e he
  rw [getElem?_entries_record] at he
  split at he
  · next heq =>
    cases he
    rw [heq]
  · exact hc g e he

theorem dropOldest (hc : c.Faithful reach) : c.dropOldest.Faithful reach := by
  unfold Cache.dropOldest
  split
  · exact hc
  · intro g e he
    rw [getElem?_entries_forget] at he
    split at he
    · cases he
    · exact hc g e he

/-- A reach that is remembered is the one of the type; the use of an entry leaves its reach. -/
theorem get? (hc : c.Faithful reach) (h : Handle) :
    (∀ r ∈ (c.get? h).1, r = reach h) ∧ (c.get? h).2.Faithful reach := by
  have htick : c.tick.Faithful reach := hc
  cases he : c.entries[h]? with
  | none =>
      rw [get?_of_none he]
      exact ⟨nofun, htick⟩
  | some e =>
      have hreach : e.reach = reach h := hc h e he
      rw [get?_of_some he, hreach]
      exact ⟨fun r hr => (Option.some.inj hr).symm, Faithful.record htick h⟩

theorem add (hc : c.Faithful reach) (h : Handle) : (c.add h (reach h)).Faithful reach := by
  have hrecord : (c.tick.record h (reach h)).Faithful reach := Faithful.record (c := c.tick) hc h
  unfold Cache.add
  dsimp only
  split
  · exact hrecord
  · exact hrecord.dropOldest

theorem publish (hc : c.Faithful reach) (h : Handle) :
    (c.publish h (reach h)).1 = reach h ∧ (c.publish h (reach h)).2.Faithful reach := by
  obtain ⟨hknown, hused⟩ := hc.get? h
  unfold Cache.publish
  cases hget : c.get? h with
  | mk known used =>
      rw [hget] at hknown hused
      cases known with
      | none => exact ⟨rfl, hused.add h⟩
      | some r => exact ⟨hknown r rfl, hused⟩

/-- What `getOrCompute` computes may use the cache, if it keeps it `Faithful`. -/
theorem getOrCompute {τ : Type} (hc : c.Faithful reach) (h : Handle)
    (compute : Cache → (Reach × τ) × Cache)
    (hcompute : ∀ c, c.Faithful reach → (compute c).1.1 = reach h ∧ (compute c).2.Faithful reach) :
    (c.getOrCompute h compute).1.1 = reach h ∧ (c.getOrCompute h compute).2.Faithful reach := by
  obtain ⟨hknown, hused⟩ := hc.get? h
  unfold Cache.getOrCompute
  cases hget : c.get? h with
  | mk known used =>
      rw [hget] at hknown hused
      cases known with
      | some r => exact ⟨hknown r rfl, hused⟩
      | none =>
          -- The type may have become known during the computation, but with the same reach.
          obtain ⟨hreach, hcomputed⟩ := hcompute used hused
          have hpublished := hcomputed.publish h
          rw [← hreach] at hpublished ⊢
          exact hpublished

end Faithful

/-! ## Room -/

/-- The table `recency` lists remembered types, each at the time of its last use. -/
def Recorded (c : Cache) : Prop :=
  ∀ (t : UInt64) (h : Handle), c.recency[t]? = some h →
    ∃ r, c.entries[h]? = some (⟨r, t⟩ : CacheEntry)

/-- Both tables fit together, and no more types are remembered than there is room for. This holds also when
the `clock` has begun anew. -/
structure Sound (c : Cache) : Prop where
  recorded : c.Recorded
  size_le : c.size ≤ c.capacity

@[simp] theorem capacity_get? (c : Cache) (h : Handle) : (c.get? h).2.capacity = c.capacity := by
  cases he : c.entries[h]? with
  | none => rw [get?_of_none he]; rfl
  | some e => rw [get?_of_some he]; rfl

@[simp] theorem capacity_dropOldest (c : Cache) : c.dropOldest.capacity = c.capacity := by
  unfold dropOldest
  split <;> rfl

@[simp] theorem capacity_add (c : Cache) (h : Handle) (r : Reach) :
    (c.add h r).capacity = c.capacity := by
  unfold add
  dsimp only
  split
  · rfl
  · exact capacity_dropOldest _

@[simp] theorem capacity_publish (c : Cache) (h : Handle) (r : Reach) :
    (c.publish h r).2.capacity = c.capacity := by
  have hcapacity := c.capacity_get? h
  unfold publish
  cases hget : c.get? h with
  | mk known used =>
      rw [hget] at hcapacity
      cases known with
      | none => exact (capacity_add used h r).trans hcapacity
      | some known => exact hcapacity

theorem capacity_getOrCompute {τ : Type} (c : Cache) (h : Handle)
    (compute : Cache → (Reach × τ) × Cache)
    (hcompute : ∀ c, (compute c).2.capacity = c.capacity) :
    (c.getOrCompute h compute).2.capacity = c.capacity := by
  have hget := c.capacity_get? h
  unfold getOrCompute
  cases hused : c.get? h with
  | mk known used =>
      rw [hused] at hget
      cases known with
      | some known => exact hget
      | none => exact (capacity_publish (compute used).2 h _).trans ((hcompute used).trans hget)

theorem sound_ofCapacity (capacity : Nat) : (ofCapacity capacity).Sound where
  recorded t h ht := by cases Std.TreeMap.getElem?_emptyc.symm.trans ht
  size_le := Nat.zero_le _

/-- What is recorded now is listed now, and everything else as before, if the type was not listed. -/
theorem Recorded.record {h : Handle} (hc : c.Recorded) (hnew : ∀ t : UInt64, c.recency[t]? ≠ some h)
    (r : Reach) : (c.record h r).Recorded := by
  intro t g hg
  rw [getElem?_recency_record] at hg
  split at hg
  · next ht =>
    cases hg
    exact ⟨r, by rw [getElem?_entries_record, if_pos rfl, ht]⟩
  · obtain ⟨s, hs⟩ := hc t g hg
    have hne : h ≠ g := fun he => hnew t (he ▸ hg)
    exact ⟨s, by rw [getElem?_entries_record, if_neg hne, hs]⟩

namespace Sound

variable {h : Handle}

theorem tick (hc : c.Sound) : c.tick.Sound := ⟨hc.recorded, hc.size_le⟩

theorem get? (hc : c.Sound) (h : Handle) : (c.get? h).2.Sound := by
  cases he : c.entries[h]? with
  | none =>
      rw [get?_of_none he]
      exact hc.tick
  | some e =>
      have hlisted : ∀ t g, (c.tick.unlist e.used).recency[t]? = some g →
          e.used ≠ t ∧ c.recency[t]? = some g := by
        intro t g hg
        rw [getElem?_recency_unlist] at hg
        split at hg
        · cases hg
        · next hne => exact ⟨hne, hg⟩
      have hunlisted : (c.tick.unlist e.used).Recorded :=
        fun t g hg => hc.recorded t g (hlisted t g hg).2
      rw [get?_of_some he]
      refine ⟨hunlisted.record (fun t ht => ?_) _, ?_⟩
      · -- The type was listed at the time of its entry only, which was taken off.
        obtain ⟨hne, hold⟩ := hlisted t h ht
        obtain ⟨r, hr⟩ := hc.recorded t h hold
        cases he.symm.trans hr
        exact hne rfl
      · have hsize := size_record_of_some (c := c.tick.unlist e.used) he e.reach
        exact Nat.le_trans (Nat.le_of_eq hsize) hc.size_le

/-- The type that `dropOldest` forgets was remembered, so that there is room again. -/
theorem dropOldest (hc : c.Recorded) (hsize : c.size ≤ c.capacity + 1) {t : UInt64}
    (ht : c.recency[t]? = some h) : c.dropOldest.Sound := by
  obtain ⟨oldest, g, hlisted, -, hdrop⟩ := exists_oldest ht
  obtain ⟨r, hr⟩ := hc oldest g hlisted
  rw [hdrop]
  refine ⟨fun t f hf => ?_, ?_⟩
  · have hold : (if oldest = t then none else c.recency[t]?) = some f :=
      (c.getElem?_recency_unlist oldest t).symm.trans hf
    split at hold
    · cases hold
    · next hne =>
      obtain ⟨s, hs⟩ := hc t f hold
      refine ⟨s, ?_⟩
      rw [getElem?_entries_forget, if_neg]
      · exact hs
      · rintro rfl
        cases hr.symm.trans hs
        exact hne rfl
  · have hsize' := size_forget_of_some (c := c.unlist oldest) hr
    have hsame : (c.unlist oldest).size = c.size := rfl
    show ((c.unlist oldest).forget g).size ≤ c.capacity
    omega

theorem add (hc : c.Sound) (hnone : c.entries[h]? = none) (r : Reach) : (c.add h r).Sound := by
  have hsize : (c.tick.record h r).size = c.size + 1 := size_record_of_none (c := c.tick) hnone r
  have hrecorded : (c.tick.record h r).Recorded := by
    refine hc.tick.recorded.record (fun t ht => ?_) r
    obtain ⟨s, hs⟩ := hc.recorded t h ht
    cases hnone.symm.trans hs
  unfold Cache.add
  dsimp only
  split
  · next hroom => exact ⟨hrecorded, hroom⟩
  · have hnow : (c.tick.record h r).recency[c.tick.clock]? = some h := by
      rw [getElem?_recency_record, if_pos rfl]
    refine dropOldest hrecorded ?_ hnow
    rw [hsize]
    exact Nat.succ_le_succ hc.size_le

theorem publish (hc : c.Sound) (h : Handle) (r : Reach) : (c.publish h r).2.Sound := by
  unfold Cache.publish
  cases he : c.entries[h]? with
  | none =>
      rw [get?_of_none he]
      exact hc.tick.add he r
  | some e =>
      have hused := hc.get? h
      rw [get?_of_some he] at hused ⊢
      exact hused

theorem getOrCompute {τ : Type} (hc : c.Sound) (h : Handle) (compute : Cache → (Reach × τ) × Cache)
    (hcompute : ∀ c, c.Sound → (compute c).2.Sound) : (c.getOrCompute h compute).2.Sound := by
  have hget := hc.get? h
  unfold Cache.getOrCompute
  cases hused : c.get? h with
  | mk known used =>
      rw [hused] at hget
      cases known with
      | some known => exact hget
      | none => exact (hcompute used hget).publish h _

end Sound

end Cache

namespace Universe

/-- Asking a `Faithful` cache leaves it so; hence `cachedReach` answers the reach of a type whenever it is
asked for. -/
theorem answers_cachedReach (u : Universe) (nesting : Nesting) {c : Cache}
    (hc : c.Faithful (u.reach nesting)) : (u.cachedReach nesting).Answers (u.reach nesting) c := by
  have hask : ∀ c : Cache, c.Faithful (u.reach nesting) → ∀ h,
      (u.cachedReach nesting h c).1 = u.reach nesting h ∧
        (u.cachedReach nesting h c).2.Faithful (u.reach nesting) := by
    intro c hc h
    exact hc.getOrCompute h (fun c => ((u.reach nesting h, ()), c)) fun _ hc => ⟨rfl, hc⟩
  exact .of_invariant hc hask

end Universe

end TagResolution
