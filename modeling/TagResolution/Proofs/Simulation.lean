import TagResolution.Proofs.Exhaustion

/-!
# Searches in step

Two searches over a universe, one for a part of what the other one looks for, stay in step as long as
their sources of reaches let them take the same hops and neither of them finds anything. Sources do
that if their memories are coupled by a relation that every question keeps, above all if they give the
same answers to the same questions, whatever they remember.

The main statements are `find_eq_none_of_narrows`, `find_eq_some_of_narrows` and, where both look for
the same, `find_of_coupled`.
-/

namespace TagResolution

variable {σ τ α : Type}

namespace ReachSource

/-- From a memory on, a source answers the same reach whenever it is asked about a type. -/
def Answers (source : ReachSource σ) (reach : Handle → Reach) (memory : σ) : Prop :=
  ∀ later, source.Later memory later → ∀ h, (source h later).1 = reach h

/-- The memory of a source that was asked about some types, one after the other. -/
def memoryAfter (source : ReachSource σ) (asked : List Handle) (memory : σ) : σ :=
  asked.foldl (fun memory h => (source h memory).2) memory

/-- Two sources, each with its memory, give the same answers to the same questions, also after others
(`memoryAfter`). -/
def Alike (source : ReachSource σ) (memory : σ) (source' : ReachSource τ) (memory' : τ) : Prop :=
  ∀ asked h,
    (source h (source.memoryAfter asked memory)).1 = (source' h (source'.memoryAfter asked memory')).1

/-- Whatever two sources are asked while their memories are related, they answer the same, and their
memories stay related. -/
def Coupled (source : ReachSource σ) (source' : ReachSource τ) (coupling : σ → τ → Prop) : Prop :=
  ∀ h memory memory', coupling memory memory' →
    (source h memory).1 = (source' h memory').1 ∧ coupling (source h memory).2 (source' h memory').2

variable {source : ReachSource σ} {source' : ReachSource τ} {reach : Handle → Reach}
  {memory : σ} {memory' : τ}

theorem later_memoryAfter (source : ReachSource σ) (asked : List Handle) (memory : σ) :
    source.Later memory (source.memoryAfter asked memory) := by
  induction asked generalizing memory with
  | nil => exact .refl
  | cons h rest ih => exact (Later.ask memory h).trans (ih _)

namespace Alike

theorem refl (source : ReachSource σ) (memory : σ) : source.Alike memory source memory :=
  fun _ _ => rfl

theorem now (ha : source.Alike memory source' memory') (h : Handle) :
    (source h memory).1 = (source' h memory').1 :=
  ha [] h

theorem ask (ha : source.Alike memory source' memory') (h : Handle) :
    source.Alike (source h memory).2 source' (source' h memory').2 :=
  fun asked => ha (h :: asked)

end Alike

theorem coupled_alike (source : ReachSource σ) {source' : ReachSource τ} :
    source.Coupled source' (source.Alike · source' ·) :=
  fun h _ _ ha => ⟨ha.now h, ha.ask h⟩

namespace Answers

theorem now (ha : source.Answers reach memory) (h : Handle) : (source h memory).1 = reach h :=
  ha memory .refl h

theorem of_later {later : σ} (ha : source.Answers reach memory) (hl : source.Later memory later) :
    source.Answers reach later :=
  fun last hlast => ha last (hl.trans hlast)

theorem ofFunction (reach : Handle → Reach) (memory : σ) :
    (ReachSource.ofFunction (σ := σ) reach).Answers reach memory :=
  fun _ _ _ => rfl

/-- A source `Answers` by type if something holds of the memory whenever it is asked, and suffices for the
right answer. -/
theorem of_invariant {inv : σ → Prop} (hmemory : inv memory)
    (hask : ∀ memory, inv memory → ∀ h, (source h memory).1 = reach h ∧ inv (source h memory).2) :
    source.Answers reach memory := by
  intro later hlater h
  have hinv : inv later := by
    induction hlater with
    | refl => exact hmemory
    | tail _ hstep ih =>
        obtain ⟨g, rfl⟩ := hstep
        exact (hask _ ih g).2
  exact (hask later hinv h).1

/-- Sources that `Answers` says the same of are `Alike`. -/
theorem alike (ha : source.Answers reach memory) (ha' : source'.Answers reach memory') :
    source.Alike memory source' memory' := by
  intro asked h
  rw [ha _ (source.later_memoryAfter asked memory), ha' _ (source'.later_memoryAfter asked memory')]

end Answers

end ReachSource

namespace Query

/-- A query looks for a part of what another one looks for, and finds of it all that is `kept`. -/
structure Narrows (q q' : Query α) (kept : α → Prop) : Prop where
  interfaces : q.throughInterfaces = q'.throughInterfaces
  none : ∀ h, q'.here? h = none → q.here? h = none
  some : ∀ h found, q'.here? h = some found → kept found → q.here? h = some found

theorem Narrows.refl (q : Query α) : q.Narrows q fun _ => True :=
  ⟨rfl, fun _ hnone => hnone, fun _ _ hsome _ => hsome⟩

end Query

namespace Search

variable {u : Universe} {source : ReachSource σ} {source' : ReachSource τ}
  {related : Progress σ → Progress τ → Prop}

/-- An answer follows another one: without a hit where that has none, and with the same hit where
that has one that is kept. -/
def Tracks {γ π ρ : Type} (related : π → ρ → Prop) (kept : γ → Prop) (answer : Option γ × π) :
    Option γ × ρ → Prop
  | (none, p') => answer.1 = none ∧ related answer.2 p'
  | (some y, p') => kept y → answer.1 = some y ∧ related answer.2 p'

/-- With two sources `enter` takes the same hops, and the progress stays related. -/
def InStep (source : ReachSource σ) (source' : ReachSource τ)
    (related : Progress σ → Progress τ → Prop) : Prop :=
  ∀ h x p p', related p p' → (enter source h x p).1 = (enter source' h x p').1 ∧
    related (enter source h x p).2 (enter source' h x p').2

/-! ## One search follows another one -/

theorem tracks_follow {go : Handle → Progress σ → Option (Hit α) × Progress σ}
    {go' : Handle → Progress τ → Option (Hit α) × Progress τ} {kept : α → Prop} {h : Handle} {x : Hop}
    {p : Progress σ} {p' : Progress τ} (hstep : InStep source source' related)
    (hgo : ∀ p p', related p p' → Tracks related (kept ·.found) (go x.target p) (go' x.target p'))
    (hp : related p p') :
    Tracks related (kept ·.found) (follow source go h x p) (follow source' go' h x p') := by
  have hentered := hstep h x p p' hp
  cases he : enter source h x p with
  | mk taken p₁ =>
      cases he' : enter source' h x p' with
      | mk taken' p₁' =>
          rw [he, he'] at hentered
          obtain ⟨htaken, hp₁⟩ := hentered
          cases htaken
          cases taken with
          | false =>
              rw [follow_of_not_enter he, follow_of_not_enter he']
              exact ⟨rfl, hp₁⟩
          | true =>
              have hinner := hgo p₁ p₁' hp₁
              rw [follow_of_enter he, follow_of_enter he']
              -- The hop re-anchors a hit and leaves what was found.
              cases hgo' : go' x.target p₁' with
              | mk found p₂' =>
                  rw [hgo'] at hinner
                  cases found with
                  | none => exact ⟨by rw [hinner.1]; rfl, hinner.2⟩
                  | some hit =>
                      intro hkept
                      obtain ⟨hfound, hp₂⟩ := hinner hkept
                      exact ⟨by rw [hfound]; rfl, hp₂⟩

theorem tracks_firstHit {f : Hop → Progress σ → Option (Hit α) × Progress σ}
    {f' : Hop → Progress τ → Option (Hit α) × Progress τ} {kept : α → Prop} {l : List Hop}
    {p : Progress σ} {p' : Progress τ}
    (hf : ∀ x p p', related p p' → Tracks related (kept ·.found) (f x p) (f' x p'))
    (hp : related p p') :
    Tracks related (kept ·.found) (firstHit f l p) (firstHit f' l p') := by
  induction l generalizing p p' with
  | nil => exact ⟨rfl, hp⟩
  | cons x rest ih =>
      have hhead := hf x p p' hp
      unfold firstHit
      cases hx : f x p with
      | mk found p₁ =>
          cases hx' : f' x p' with
          | mk found' p₁' =>
              rw [hx, hx'] at hhead
              cases found' with
              | none =>
                  obtain ⟨hnone, hp₁⟩ := hhead
                  cases hnone
                  exact ih hp₁
              | some hit =>
                  intro hkept
                  obtain ⟨hsome, hp₁⟩ := hhead hkept
                  cases hsome
                  exact ⟨rfl, hp₁⟩

/-- A search for a part of what is looked for, as `Narrows` says, with a source `InStep`, follows the search
for all. -/
theorem tracks_visitWithin {q q' : Query α} {kept : α → Prop} (hq : q.Narrows q' kept)
    (hstep : InStep source source' related) (bound : Nat) (h : Handle) (p : Progress σ)
    (p' : Progress τ) (hp : related p p') :
    Tracks related (kept ·.found) (visitWithin u source q bound h p)
      (visitWithin u source' q' bound h p') := by
  induction bound generalizing h p p' with
  | zero => exact ⟨rfl, hp⟩
  | succ bound ih =>
      unfold visitWithin visit
      split
      · exact ⟨rfl, hp⟩
      · cases hfound : q'.here? h with
        | none =>
            -- The part has no match here either, so both go on over the same hops.
            rw [hq.none h hfound, hq.interfaces]
            exact tracks_firstHit (fun x p p' hp => tracks_follow hstep
              (ih x.target) hp) hp
        | some found =>
            intro hkept
            rw [hq.some h found hfound hkept]
            exact ⟨rfl, hp⟩

/-! ## Sources that are coupled -/

theorem inStep_of_coupled {coupling : σ → τ → Prop} (hcoupled : source.Coupled source' coupling) :
    InStep source source' fun p p' => p.visited = p'.visited ∧ coupling p.memory p'.memory := by
  rintro h x p p' ⟨hvisited, hmemory⟩
  cases x with
  | tag t =>
      by_cases ht : t ∈ p.visited
      · rw [enter_visited ht, enter_visited (hvisited ▸ ht)]
        exact ⟨rfl, hvisited, hmemory⟩
      · rw [enter_new ht, enter_new (hvisited ▸ ht), hvisited]
        exact ⟨rfl, rfl, hmemory⟩
  | interface i => exact ⟨rfl, hvisited, hmemory⟩
  | parent g => exact ⟨rfl, hvisited, hmemory⟩
  | enclosing e =>
      -- The only hop that asks the sources, and both of them the same.
      obtain ⟨hreach, hasked⟩ := hcoupled h _ _ hmemory
      refine ⟨?_, hvisited, hasked⟩
      show decide ((source h p.memory).1 = .enclosing) = decide ((source' h p'.memory).1 = .enclosing)
      rw [hreach]

variable {q q' : Query α} {kept : α → Prop} {memory : σ} {memory' : τ}

/-- A search by `find` for a part of what another one looks for `Tracks` it. -/
theorem tracks_find {coupling : σ → τ → Prop} (hq : q.Narrows q' kept)
    (hcoupled : source.Coupled source' coupling) (hmemory : coupling memory memory') (h : Handle) :
    Tracks coupling (kept ·.found) (find u source q h memory) (find u source' q' h memory') := by
  have htracks := tracks_visitWithin (u := u) hq (inStep_of_coupled hcoupled) u.searchBound h
    ⟨.empty, memory⟩ ⟨.empty, memory'⟩ ⟨rfl, hmemory⟩
  unfold find
  cases hfound : visitWithin u source' q' u.searchBound h ⟨.empty, memory'⟩ with
  | mk found p' =>
      rw [hfound] at htracks
      cases found with
      | none => exact ⟨htracks.1, htracks.2.2⟩
      | some hit =>
          intro hkept
          obtain ⟨hsame, -, hafter⟩ := htracks hkept
          exact ⟨hsame, hafter⟩

/-- With sources that are `Coupled` searches find the same and leave related memories. -/
theorem find_of_coupled {coupling : σ → τ → Prop} (hcoupled : source.Coupled source' coupling)
    (hmemory : coupling memory memory') (q : Query α) (h : Handle) :
    (find u source q h memory).1 = (find u source' q h memory').1 ∧
      coupling (find u source q h memory).2 (find u source' q h memory').2 := by
  have htracks := tracks_find (u := u) (.refl q) hcoupled hmemory h
  cases hfound : find u source' q h memory' with
  | mk found after =>
      rw [hfound] at htracks
      cases found with
      | none => exact htracks
      | some hit => exact htracks trivial

/-! ### Sources that are alike -/

theorem find_eq_none_of_narrows (hq : q.Narrows q' kept) (ha : source.Alike memory source' memory')
    {h : Handle} (hnone : (find u source' q' h memory').1 = none) :
    (find u source q h memory).1 = none := by
  have htracks := tracks_find (u := u) hq source.coupled_alike ha h
  cases hfound : find u source' q' h memory' with
  | mk found after =>
      rw [hfound] at hnone htracks
      cases hnone
      exact htracks.1

theorem find_eq_some_of_narrows (hq : q.Narrows q' kept) (ha : source.Alike memory source' memory')
    {h : Handle} {hit : Hit α} (hsome : (find u source' q' h memory').1 = some hit)
    (hkept : kept hit.found) : (find u source q h memory).1 = some hit := by
  have htracks := tracks_find (u := u) hq source.coupled_alike ha h
  cases hfound : find u source' q' h memory' with
  | mk found after =>
      rw [hfound] at hsome htracks
      cases hsome
      exact (htracks hkept).1

/-- Searches by `find` answer the same with sources that are `Alike`. -/
theorem find_eq_of_alike (ha : source.Alike memory source' memory') (q : Query α) (h : Handle) :
    (find u source q h memory).1 = (find u source' q h memory').1 :=
  (find_of_coupled source.coupled_alike ha q h).1

end Search

end TagResolution
