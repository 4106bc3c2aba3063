import TagResolution.Proofs.Exhaustion
import TagResolution.Proofs.Resolution

/-!
# Searches find what there is

A search without a match leaves nothing behind: no type that can be reached from its start matches.
What the visited tags keep the search from is reached some other way, or has been searched before.
With the converse, that every hit has a trail, this says when a search finds nothing, and so when
the operations of a resolver answer that there is no match.
-/

namespace TagResolution

variable {σ α : Type}

namespace Search

variable {u : Universe} {reach : Handle → Reach} {q : Query α}

/-- Where nothing is on the path, no trail leads from a `Barren` type to a match. -/
theorem here?_eq_none_of_barren {visited : TagSet} (hs : Settled u reach q visited [])
    {h g : Handle} {hops : List Hop} (hb : Barren u reach q visited h)
    (htrail : u.Trail q.throughInterfaces (reach · = .enclosing) h hops g) : q.here? g = none := by
  induction htrail with
  | here hne => exact (hb.here hne).1
  | hop hne hx _ ih => exact ih (hs.barren_of_exhausted hx nofun (hb.exhausted hne hx.mem_hops))

/-- A search finds nothing exactly if no type that is `Reachable` matches. -/
theorem find_eq_none_iff_reachable (u : Universe) (reach : Handle → Reach) (q : Query α)
    (h : Handle) (memory : σ) : (find u (.ofFunction reach) q h memory).1 = none ↔
      ∀ g, u.Reachable q.throughInterfaces (reach · = .enclosing) h g → q.here? g = none := by
  constructor
  · intro hf g hreach
    obtain ⟨hops, htrail⟩ := hreach
    obtain ⟨visited, hs, hb⟩ := barren_of_find_eq_none hf
    exact here?_eq_none_of_barren hs hb htrail
  · intro hnone
    -- A hit would have a trail to a type that matches.
    cases hf : (find u (.ofFunction reach) q h memory).1 with
    | none => rfl
    | some hit =>
        obtain ⟨hops, htrail, -, hfound⟩ := exists_trail_of_find hf
        have hreach : u.Reachable q.throughInterfaces (reach · = .enclosing) h hit.place.declaring :=
          ⟨hops, htrail.mono fun _ ho => ReachSource.eq_of_opens_ofFunction ho.opens⟩
        cases hfound.symm.trans (hnone _ hreach)

end Search

/-! ## What it means that a type does not match -/

namespace Query

theorem single_eq_none_iff {u : Universe} {tagType g : Handle} :
    (single u tagType).here? g = none ↔ ∀ t ∈ u.tags g, t.type ≠ tagType := by
  simp [single, Universe.tag?]

theorem anyOf_eq_none_iff {u : Universe} {candidates : List Handle} {g : Handle} :
    (anyOf u candidates).here? g = none ↔ ∀ t ∈ u.tags g, t.type ∉ candidates := by
  show candidates.findSome? (u.tag? g) = none ↔ _
  rw [List.findSome?_eq_none_iff]
  constructor
  · intro hnone t ht hmem
    exact single_eq_none_iff.1 (hnone t.type hmem) t ht rfl
  · intro hnone c hc
    refine single_eq_none_iff.2 fun t ht htype => hnone t ht ?_
    rw [htype]
    exact hc

theorem repeated_eq_none_iff {collect : Handle → Handle → List Tag} {tagType g : Handle} :
    (repeated collect tagType).here? g = none ↔ collect g tagType = [] := by
  simp [repeated]

end Query

/-! ## When there is no match -/

namespace Resolver

variable (u : Universe) (reach : Handle → Reach)

theorem findCandidate_eq_none_iff (h : Handle) (candidates : List Handle) (memory : σ) :
    (((ofReach u reach).findCandidate h candidates).run memory).1 = .ok none ↔
      (candidates ≠ [] ∧ ∀ c ∈ candidates, u.isTagType c = true ∧ u.isReserved c = false) ∧
        ∀ g, u.Reachable true (reach · = .enclosing) h g → ∀ t ∈ u.tags g, t.type ∉ candidates := by
  rw [findCandidate_eq_none_iff_hitFrom, checkCandidates_eq_ok_iff]
  refine and_congr_right fun _ => ?_
  have hfind := Search.find_eq_none_iff_reachable u reach (.anyOf u candidates) h memory
  simp only [Query.anyOf_eq_none_iff] at hfind
  exact hfind

theorem findRepeated_eq_none_iff (h tagType : Handle) (memory : σ) :
    (((ofReach u reach).findRepeated h tagType).run memory).1 = .ok none ↔
      (u.isTagType tagType = true ∧ u.isReserved tagType = false) ∧
        ∀ g, u.Reachable false (reach · = .enclosing) h g → u.repeatedTags g tagType = [] := by
  rw [findRepeated_eq_none_iff_hitFrom, checkTagType_eq_ok_iff]
  refine and_congr_right fun _ => ?_
  have hfind := Search.find_eq_none_iff_reachable u reach (.repeated u.repeatedTags tagType) h memory
  simp only [Query.repeated_eq_none_iff] at hfind
  exact hfind

/-- Nothing is found by `Search.find`, `findCandidate` or `findRepeated` exactly where there is nothing: no
`Reachable` type matches a query, has a tag of a candidate, or shows tags that may be repeated. -/
theorem finds_nothing_iff (h : Handle) (memory : σ) :
    (∀ (α : Type) (q : Query α), (Search.find u (.ofFunction reach) q h memory).1 = none ↔
      ∀ g, u.Reachable q.throughInterfaces (reach · = .enclosing) h g → q.here? g = none) ∧
    (∀ candidates, (((ofReach u reach).findCandidate h candidates).run memory).1 = .ok none ↔
      (candidates ≠ [] ∧ ∀ c ∈ candidates, u.isTagType c = true ∧ u.isReserved c = false) ∧
        ∀ g, u.Reachable true (reach · = .enclosing) h g → ∀ t ∈ u.tags g, t.type ∉ candidates) ∧
    (∀ tagType, (((ofReach u reach).findRepeated h tagType).run memory).1 = .ok none ↔
      (u.isTagType tagType = true ∧ u.isReserved tagType = false) ∧
        ∀ g, u.Reachable false (reach · = .enclosing) h g → u.repeatedTags g tagType = []) := by
  refine ⟨?_, ?_, ?_⟩
  · intro α q
    exact Search.find_eq_none_iff_reachable u reach q h memory
  · intro candidates
    exact findCandidate_eq_none_iff u reach h candidates memory
  · intro tagType
    exact findRepeated_eq_none_iff u reach h tagType memory

end Resolver

end TagResolution
