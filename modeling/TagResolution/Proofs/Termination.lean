import Mathlib.Data.Finset.Card
import TagResolution.Proofs.Exhaustion

/-!
# Searches end

The search is computed with a bound on its depth. Here it is described without one: `Runs` says by
rules what a search at a type does, call by call, and `Calls` which searches it calls. A call inserts
a tag that was not visited before, or moves one hop over a link and forgets no tag (`Descends`). There
are finitely many tags and the links are acyclic, so either way the `load` of the search goes down,
and no search calls others for ever.

The main statement is `search_terminates`: every search has exactly one run, and the bounded search
computes it.
-/

namespace TagResolution.Search

variable {σ α : Type}

/-! ## Runs without bound -/

/-- What `visitWithin` has to do, without its bound. -/
inductive Task where
  /-- To search at a type. -/
  | visit (h : Handle)
  /-- To try hops from a type, one after the other. -/
  | hops (h : Handle) (left : List Hop)

/-- A `Task` is done from some progress with an answer. A derivation has one node for each step, so there is
none where a search goes on for ever. -/
inductive Runs (u : Universe) (source : ReachSource σ) (q : Query α) :
    Task → Progress σ → Option (Hit α) × Progress σ → Prop where
  | object {p : Progress σ} : Runs u source q (.visit .object) p (none, p)
  | here {h : Handle} {p : Progress σ} {found : α} : h ≠ .object → q.here? h = some found →
      Runs u source q (.visit h) p (some ⟨.here h, found⟩, p)
  | onward {h : Handle} {p : Progress σ} {answer : Option (Hit α) × Progress σ} : h ≠ .object →
      q.here? h = none → Runs u source q (.hops h (u.hops q.throughInterfaces h)) p answer →
      Runs u source q (.visit h) p answer
  | exhausted {h : Handle} {p : Progress σ} : Runs u source q (.hops h []) p (none, p)
  | refused {h : Handle} {x : Hop} {left : List Hop} {p p₁ : Progress σ}
      {answer : Option (Hit α) × Progress σ} : enter source h x p = (false, p₁) →
      Runs u source q (.hops h left) p₁ answer → Runs u source q (.hops h (x :: left)) p answer
  | missed {h : Handle} {x : Hop} {left : List Hop} {p p₁ p₂ : Progress σ}
      {answer : Option (Hit α) × Progress σ} : enter source h x p = (true, p₁) →
      Runs u source q (.visit x.target) p₁ (none, p₂) → Runs u source q (.hops h left) p₂ answer →
      Runs u source q (.hops h (x :: left)) p answer
  | found {h : Handle} {x : Hop} {left : List Hop} {p p₁ p₂ : Progress σ} {hit : Hit α} :
      enter source h x p = (true, p₁) → Runs u source q (.visit x.target) p₁ (some hit, p₂) →
      Runs u source q (.hops h (x :: left)) p (some (hit.after h x), p₂)

/-- A search at a type, from some progress, calls a search at another type, from the progress that it has
made by then: the hops tried before, by `Runs`, led to no match. -/
inductive Calls (u : Universe) (source : ReachSource σ) (q : Query α) :
    Handle × Progress σ → Handle × Progress σ → Prop where
  | call {h : Handle} {x : Hop} {tried left : List Hop} {p p₁ p₂ : Progress σ} : h ≠ .object →
      q.here? h = none → u.hops q.throughInterfaces h = tried ++ x :: left →
      Runs u source q (.hops h tried) p (none, p₁) → enter source h x p₁ = (true, p₂) →
      Calls u source q (h, p) (x.target, p₂)

/-- Between a search and one that it calls, no visited tag is forgotten, and a tag of the universe is
visited for the first time or one link is followed. -/
def Descends (u : Universe) (caller called : Handle × Progress σ) : Prop :=
  (∀ t ∈ caller.2.visited, t ∈ called.2.visited) ∧
    ((∃ t ∈ u.allTags, t ∉ caller.2.visited ∧ t ∈ called.2.visited ∧ t.type = called.1) ∨
      u.registry.Linked caller.1 called.1)

variable {u : Universe} {source : ReachSource σ} {q : Query α}

/-! ## Visited tags -/

theorem visited_of_enter {h : Handle} {x : Hop} {p p₁ : Progress σ} {taken : Bool}
    (he : enter source h x p = (taken, p₁)) : ∀ t ∈ p.visited, t ∈ p₁.visited := by
  intro t ht
  cases x with
  | tag s =>
      by_cases hs : s ∈ p.visited
      · cases (enter_visited hs).symm.trans he
        exact ht
      · cases (enter_new hs).symm.trans he
        exact TagSet.mem_insert.2 (.inr ht)
  | _ =>
      cases he
      exact ht

theorem Runs.visited {task : Task} {p : Progress σ} {answer : Option (Hit α) × Progress σ}
    (hr : Runs u source q task p answer) : ∀ t ∈ p.visited, t ∈ answer.2.visited := by
  induction hr with
  | object => exact fun _ ht => ht
  | here _ _ => exact fun _ ht => ht
  | onward _ _ _ ih => exact ih
  | exhausted => exact fun _ ht => ht
  | refused he _ ih => exact fun t ht => ih t (visited_of_enter he t ht)
  | missed he _ _ ihvisit ihleft =>
      exact fun t ht => ihleft t (ihvisit t (visited_of_enter he t ht))
  | found he _ ih => exact fun t ht => ih t (visited_of_enter he t ht)

/-- A hop that `enter` takes visits a new tag or follows a link. -/
theorem descends_of_enter {h : Handle} {x : Hop} {p p₁ : Progress σ}
    (hx : x ∈ u.hops q.throughInterfaces h) (he : enter source h x p = (true, p₁)) :
    Descends u (h, p) (x.target, p₁) := by
  refine ⟨visited_of_enter he, ?_⟩
  have hoffer := Universe.mem_hops.1 hx
  cases x with
  | tag t =>
      by_cases hold : t ∈ p.visited
      · cases (enter_visited hold).symm.trans he
      · cases (enter_new hold).symm.trans he
        have hmem := u.mem_allTags_of_mem_tags hoffer.1
        exact .inl ⟨t, hmem, hold, TagSet.mem_insert.2 (.inl rfl), rfl⟩
  | interface i => exact .inr (u.linked_of_mem_interfaces hoffer.2)
  | parent g => exact .inr (u.linked_of_parent? hoffer)
  | enclosing e => exact .inr (u.linked_of_enclosing? hoffer.1)

/-- What was visited in vain before a call only makes more tags old. -/
theorem Descends.of_visited {h g : Handle} {p p₁ p₂ : Progress σ}
    (hsub : ∀ t ∈ p.visited, t ∈ p₁.visited) (hd : Descends u (h, p₁) (g, p₂)) :
    Descends u (h, p) (g, p₂) := by
  obtain ⟨hkept, hnew | hlinked⟩ := hd
  · obtain ⟨t, hmem, hnew, hold, htype⟩ := hnew
    refine ⟨fun s hs => hkept s (hsub s hs), .inl ⟨t, hmem, fun ht => hnew (hsub t ht), hold, htype⟩⟩
  · exact ⟨fun s hs => hkept s (hsub s hs), .inr hlinked⟩

theorem Calls.descends {caller called : Handle × Progress σ} (hc : Calls u source q caller called) :
    Descends u caller called := by
  cases hc with
  | call _ _ hhops htried he =>
      refine .of_visited htried.visited (descends_of_enter (q := q) ?_ he)
      rw [hhops]
      exact List.mem_append_right _ (.head _)

/-! ## The load of a search -/

/-- How many tags of `Universe.allTags` were not visited. -/
def unvisited (u : Universe) (visited : TagSet) : Nat :=
  (u.allTags.toFinset.filter (· ∉ visited)).card

theorem unvisited_le {visited visited' : TagSet} (hsub : ∀ t ∈ visited, t ∈ visited') :
    unvisited u visited' ≤ unvisited u visited :=
  Finset.card_le_card (Finset.monotone_filter_right _ fun t _ hnew ht => hnew (hsub t ht))

theorem unvisited_lt {visited visited' : TagSet} (hsub : ∀ t ∈ visited, t ∈ visited') {t : Tag}
    (hmem : t ∈ u.allTags) (hnew : t ∉ visited) (hold : t ∈ visited') :
    unvisited u visited' < unvisited u visited := by
  refine Finset.card_lt_card (Finset.ssubset_iff_of_subset ?_ |>.2 ⟨t, ?_, ?_⟩)
  · exact Finset.monotone_filter_right _ fun s _ hs h => hs (hsub s h)
  · exact Finset.mem_filter.2 ⟨List.mem_toFinset.2 hmem, hnew⟩
  · exact fun ht => (Finset.mem_filter.1 ht).2 hold

theorem unvisited_le_tagCount (visited : TagSet) : unvisited u visited ≤ u.tagCount := by
  rw [← Universe.length_allTags]
  exact (Finset.card_filter_le _ _).trans (List.toFinset_card_le _)

/-- How many hops in a row a search can still take at a type, by its `unvisited` tags and its rank. -/
noncomputable def load (u : Universe) (visited : TagSet) (h : Handle) : Nat :=
  unvisited u visited * (u.size + 1) + u.rank h

theorem load_lt_searchBound (visited : TagSet) (h : Handle) : load u visited h < u.searchBound := by
  have hrank := u.rank_le h
  have htags := Nat.mul_le_mul_right (u.size + 1) (unvisited_le_tagCount (u := u) visited)
  rw [load, Universe.searchBound, Nat.add_mul, Nat.one_mul]
  omega

theorem Descends.load_lt {caller called : Handle × Progress σ} (hd : Descends u caller called) :
    load u called.2.visited called.1 < load u caller.2.visited caller.1 := by
  obtain ⟨hkept, ⟨t, hmem, hnew, hold, -⟩ | hlinked⟩ := hd
  · -- A tag less to be visited pays for every link that can be followed afterwards.
    have hrank := u.rank_le called.1
    have hless := Nat.mul_le_mul_right (u.size + 1) (unvisited_lt hkept hmem hnew hold)
    rw [Nat.succ_mul] at hless
    rw [load, load]
    omega
  · have hrank := u.rank_lt_of_linked hlinked
    have hless := Nat.mul_le_mul_right (u.size + 1) (unvisited_le (u := u) hkept)
    rw [load, load]
    omega

theorem wellFounded_calls (u : Universe) (source : ReachSource σ) (q : Query α) :
    WellFounded fun called caller => Calls u source q caller called :=
  Subrelation.wf (fun hc => hc.descends.load_lt)
    (InvImage.wf (fun s : Handle × Progress σ => load u s.2.visited s.1) Nat.lt_wfRel.wf)

/-! ## Runs exist and are unique -/

theorem Runs.unique {task : Task} {p : Progress σ} {answer other : Option (Hit α) × Progress σ}
    (hr : Runs u source q task p answer) (hother : Runs u source q task p other) :
    answer = other := by
  -- The type, the hop or what the earlier call found leave one rule only for the other run.
  induction hr generalizing other with
  | object =>
      cases hother with
      | object => rfl
      | here hne => exact absurd rfl hne
      | onward hne => exact absurd rfl hne
  | here hne hfound =>
      cases hother with
      | object => exact absurd rfl hne
      | here _ hfound' => cases hfound.symm.trans hfound'; rfl
      | onward _ hnone => cases hfound.symm.trans hnone
  | onward hne hnone _ ih =>
      cases hother with
      | object => exact absurd rfl hne
      | here _ hfound => cases hnone.symm.trans hfound
      | onward _ _ hhops => exact ih hhops
  | exhausted =>
      cases hother with
      | exhausted => rfl
  | refused he _ ih =>
      cases hother with
      | refused he' hleft => cases he.symm.trans he'; exact ih hleft
      | missed he' => cases he.symm.trans he'
      | found he' => cases he.symm.trans he'
  | missed he _ _ ihvisit ihleft =>
      cases hother with
      | refused he' => cases he.symm.trans he'
      | missed he' hvisit hleft =>
          cases he.symm.trans he'
          cases ihvisit hvisit
          exact ihleft hleft
      | found he' hvisit =>
          cases he.symm.trans he'
          cases ihvisit hvisit
  | found he _ ih =>
      cases hother with
      | refused he' => cases he.symm.trans he'
      | missed he' hvisit =>
          cases he.symm.trans he'
          cases ih hvisit
      | found he' hvisit =>
          cases he.symm.trans he'
          cases ih hvisit
          rfl

/-- Trying hops in turn, by `firstHit`, is a run if every search that it calls is one. -/
theorem runs_firstHit {go : Handle → Progress σ → Option (Hit α) × Progress σ} {h : Handle}
    {left : List Hop} {p : Progress σ}
    (hgo : ∀ x ∈ left, ∀ p₁ p₂, (∀ t ∈ p.visited, t ∈ p₁.visited) →
      enter source h x p₁ = (true, p₂) → Runs u source q (.visit x.target) p₂ (go x.target p₂)) :
    Runs u source q (.hops h left) p (firstHit (follow source go h) left p) := by
  induction left generalizing p with
  | nil => exact .exhausted
  | cons x left ih =>
      -- What is left is tried with more tags visited, where the calls of the hypothesis still run.
      have hleft : ∀ p₁ : Progress σ, (∀ t ∈ p.visited, t ∈ p₁.visited) →
          Runs u source q (.hops h left) p₁ (firstHit (follow source go h) left p₁) := by
        intro p₁ hsub
        refine ih fun y hy p₂ p₃ hsub' => hgo y (.tail _ hy) p₂ p₃ fun t ht => ?_
        exact hsub' t (hsub t ht)
      unfold firstHit
      cases he : enter source h x p with
      | mk taken p₁ =>
          cases taken with
          | false =>
              rw [follow_of_not_enter he]
              exact .refused he (hleft p₁ (visited_of_enter he))
          | true =>
              have hvisit := hgo x (.head _) p p₁ (fun _ ht => ht) he
              rw [follow_of_enter he]
              cases hgo₁ : go x.target p₁ with
              | mk found p₂ =>
                  rw [hgo₁] at hvisit
                  cases found with
                  | none =>
                      refine .missed he hvisit (hleft p₂ fun t ht => ?_)
                      exact hvisit.visited t (visited_of_enter he t ht)
                  | some hit => exact .found he hvisit

/-- A bound that exceeds the `load` does not cut a search by `visitWithin` short. -/
theorem runs_visitWithin {bound : Nat} {h : Handle} {p : Progress σ}
    (hbound : load u p.visited h < bound) :
    Runs u source q (.visit h) p (visitWithin u source q bound h p) := by
  induction bound generalizing h p with
  | zero => exact absurd hbound (Nat.not_lt_zero _)
  | succ bound ih =>
      unfold visitWithin visit
      split
      · next hobject =>
        subst hobject
        exact .object
      · next hne =>
        cases hfound : q.here? h with
        | some found => exact .here hne hfound
        | none =>
            -- A call has less load, so the bound that is left still exceeds it.
            refine .onward hne hfound (runs_firstHit fun x hx p₁ p₂ hsub he => ih ?_)
            have hless : load u p₂.visited x.target < load u p.visited h :=
              ((descends_of_enter hx he).of_visited hsub).load_lt
            omega

/-- What a run answers is what `find` finds. -/
theorem find_of_runs {h : Handle} {memory : σ} {answer : Option (Hit α) × Progress σ}
    (hrun : Runs u source q (.visit h) ⟨.empty, memory⟩ answer) :
    find u source q h memory = (answer.1, answer.2.memory) := by
  have hvisit : Runs u source q (.visit h) ⟨.empty, memory⟩
      (visitWithin u source q u.searchBound h ⟨.empty, memory⟩) :=
    runs_visitWithin (load_lt_searchBound .empty h)
  rw [find, hvisit.unique hrun]

/-- Every search ends, whatever the tags, links and enclosing types lead to and whatever the source of
reaches answers. What a search `Calls` is lower in `Descends`: a tag of the universe is visited for the
first time, or one of the acyclic links is followed without forgetting a tag, so there is no endless chain
of calls. A search has exactly one run by `Runs`, which knows no bound, and `find`, bounded by
`searchBound`, computes it. -/
theorem search_terminates (u : Universe) (source : ReachSource σ) (q : Query α) :
    (∀ caller called, Calls u source q caller called → Descends u caller called) ∧
    u.registry.Acyclic ∧
    (WellFounded fun called caller => Calls u source q caller called) ∧
    (∀ h p, ∃! answer, Runs u source q (.visit h) p answer) ∧
    ∀ h memory, ∃ visited, Runs u source q (.visit h) ⟨.empty, memory⟩
      ((find u source q h memory).1, ⟨visited, (find u source q h memory).2⟩) := by
  refine ⟨fun _ _ hc => hc.descends, u.acyclic, wellFounded_calls u source q, ?_, ?_⟩
  · intro h p
    have hrun : Runs u source q (.visit h) p (visitWithin u source q u.searchBound h p) :=
      runs_visitWithin (load_lt_searchBound p.visited h)
    exact ⟨_, hrun, fun _ hother => hother.unique hrun⟩
  · intro h memory
    have hrun : Runs u source q (.visit h) ⟨.empty, memory⟩
        (visitWithin u source q u.searchBound h ⟨.empty, memory⟩) :=
      runs_visitWithin (load_lt_searchBound .empty h)
    exact ⟨_, hrun⟩

end TagResolution.Search
