import TagResolution.Proofs.Provenance
import TagResolution.Proofs.Simulation

/-!
# Candidates

A search for several candidates takes the same hops as the searches for each of them, as long as it
finds nothing. So it finds nothing where none of them does, and otherwise it finds what the search for
the type of its match finds: this one ends at the same type, since a tag of the first candidate that
is declared there is the first tag of its own type. The searches for the other candidates may have
ended before or may go on.

The main statement is `findCandidate_agrees`, for matches and for the typed matches that are made of
them, errors included.
-/

namespace TagResolution

variable {σ : Type}

namespace Query

variable {u : Universe} {candidates : List Handle} {c : Handle}

/-- Looking for one of several candidates `Narrows` looking for all of them. -/
theorem single_narrows_anyOf (hc : c ∈ candidates) :
    (single u c).Narrows (anyOf u candidates) (·.type = c) where
  interfaces := rfl
  none := fun _ hnone => List.findSome?_eq_none_iff.1 hnone c hc
  some := by
    rintro h t ht rfl
    exact Universe.tag?_eq_some_iff.2 (of_anyOf_eq_some ht).1

theorem anyOf_singleton (u : Universe) (c : Handle) : anyOf u [c] = single u c := by
  have hhere : ∀ h, [c].findSome? (u.tag? h) = u.tag? h c := by
    intro h
    cases hc : u.tag? h c <;> simp [hc]
  exact congrArg (Query.mk · true) (funext hhere)

end Query

/-! ## Searches -/

namespace Search

variable {u : Universe} {source : ReachSource σ} {candidates : List Handle} {h : Handle}
  {memory memory' : σ} {hit : Hit Tag}

theorem mem_of_find_anyOf (hf : (find u source (.anyOf u candidates) h memory).1 = some hit) :
    hit.found.type ∈ candidates := by
  obtain ⟨-, -, -, hfound⟩ := exists_justified_of_find hf
  obtain ⟨-, before, after, hsplit, -⟩ := Query.of_anyOf_eq_some hfound
  rw [hsplit]
  exact List.mem_append_right before List.mem_cons_self

/-- What is found by `Query.anyOf` is found by `Query.single` for the type of the match. -/
theorem find_single_of_anyOf (ha : source.Alike memory' source memory)
    (hf : (find u source (.anyOf u candidates) h memory).1 = some hit) :
    (find u source (.single u hit.found.type) h memory').1 = some hit :=
  find_eq_some_of_narrows (Query.single_narrows_anyOf (mem_of_find_anyOf hf)) ha hf rfl

theorem find_anyOf_eq_none_iff (ha : source.Alike memory' source memory) :
    (find u source (.anyOf u candidates) h memory).1 = none ↔
      ∀ c ∈ candidates, (find u source (.single u c) h memory').1 = none := by
  constructor
  · intro hnone c hc
    exact find_eq_none_of_narrows (Query.single_narrows_anyOf hc) ha hnone
  · intro hnone
    cases hany : (find u source (.anyOf u candidates) h memory).1 with
    | none => rfl
    | some hit => cases (hnone _ (mem_of_find_anyOf hany)).symm.trans (find_single_of_anyOf ha hany)

end Search

/-! ## Typed matches -/

namespace Resolver

variable (r : Resolver σ) (h : Handle)

theorem typedMatch_of_checked (d : CandidateMatch) (hchecked : r.checkTagType d.tag.type = .ok ()) :
    r.typedMatch d = r.typed d.place d.tag := by
  unfold typedMatch
  rw [hchecked]
  rfl

/-- What `findTag` makes of what the search finds. -/
theorem findTag_of_checked {c : Handle} {memory : σ} (hchecked : r.checkTagType c = .ok ()) :
    ((r.findTag h c).run memory).1 =
      (Search.find r.types r.source (.single r.types c) h memory).1.mapM fun hit =>
        r.typed hit.place hit.found := by
  rw [run_findTag, hchecked]
  show ((r.tagFrom c (some h)).run memory).1 = _
  rw [run_tagFrom]
  show _ = (r.hitFrom (.single r.types c) (some h) memory).1.mapM _
  cases r.hitFrom (.single r.types c) (some h) memory with
  | mk found after => cases found <;> rfl

theorem checkCandidates_singleton (c : Handle) : r.checkCandidates [c] = r.checkTagType c := by
  show (r.checkTagType c >>= fun _ => .ok ()) = _
  cases r.checkTagType c <;> rfl

/-- Finding a tag type is `findCandidate` with it as the only candidate. -/
theorem findTag_eq_findCandidate (c : Handle) :
    r.findTag h c = (do
      match ← r.findCandidate h [c] with
      | none => return none
      | some d => return some (← liftExcept (r.typedMatch d))) := by
  refine funext fun memory => ?_
  change (r.findTag h c).run memory = (_ >>= _ : Resolution σ _).run memory
  rw [run_findTag, Resolution.run_bind]
  unfold findCandidate
  rw [Resolution.run_checked, checkCandidates_singleton]
  cases hchecked : r.checkTagType c with
  | error e => rfl
  | ok _ =>
      dsimp only
      rw [run_candidateFrom, run_tagFrom, Query.anyOf_singleton]
      cases hrun : r.hitFrom (.single r.types c) (some h) memory with
      | mk found after =>
          cases found with
          | none => rfl
          | some hit =>
              -- The match is of the type that was checked already, so its own check passes.
              have hf : (Search.find r.types r.source (.anyOf r.types [c]) h memory).1 = some hit := by
                rw [Query.anyOf_singleton]
                exact congrArg Prod.fst hrun
              have htype : hit.found.type = c := List.mem_singleton.1 (Search.mem_of_find_anyOf hf)
              have htyped := r.typedMatch_of_checked ⟨hit.place, hit.found, some [c]⟩
                (htype ▸ hchecked)
              show ((r.typed hit.place hit.found).map some, after) =
                (do return some (← liftExcept (r.typedMatch ⟨hit.place, hit.found, some [c]⟩)) :
                  Resolution σ _).run after
              rw [Resolution.run_map, Resolution.run_liftExcept, htyped]

/-- The match of `findCandidate` agrees with the match of each candidate alone. Candidates are never refused
if they are tag types that are not reserved, and they have no match exactly if none of them has one. The
match that they have is the one of its own tag type, with the same place and the same tag, and as a typed
match it is what `findTag` answers for that tag type, or the same error. The searches need not start with
the same memory of the source of reaches, as long as it answers both `Alike`. -/
theorem findCandidate_agrees {candidates : List Handle} {memory memory' : σ} (hne : candidates ≠ [])
    (hcandidates : ∀ c ∈ candidates, r.types.isTagType c = true ∧ r.types.isReserved c = false)
    (ha : r.source.Alike memory' r.source memory) :
    (∃ answer, ((r.findCandidate h candidates).run memory).1 = .ok answer) ∧
    (((r.findCandidate h candidates).run memory).1 = .ok none ↔
      ∀ c ∈ candidates, (Search.find r.types r.source (.single r.types c) h memory').1 = none) ∧
    (∀ d, ((r.findCandidate h candidates).run memory).1 = .ok (some d) →
      d.tag.type ∈ candidates ∧
      (Search.find r.types r.source (.single r.types d.tag.type) h memory').1
        = some ⟨d.place, d.tag⟩ ∧
      ((r.findTag h d.tag.type).run memory').1 = (r.typedMatch d).map some) ∧
    (∀ c, Query.anyOf r.types [c] = .single r.types c ∧
      r.findTag h c = (do
        match ← r.findCandidate h [c] with
        | none => return none
        | some d => return some (← liftExcept (r.typedMatch d)))) := by
  have hchecked : r.checkCandidates candidates = .ok () :=
    r.checkCandidates_eq_ok_iff.2 ⟨hne, hcandidates⟩
  refine ⟨?_, ?_, ?_, ?_⟩
  · have hrun := congrArg Prod.fst (r.run_candidateFrom candidates (some h) memory)
    exact ⟨_, Resolution.run_checked_eq_ok_iff.2 ⟨hchecked, hrun⟩⟩
  · rw [findCandidate_eq_none_iff_hitFrom, and_iff_right hchecked]
    exact Search.find_anyOf_eq_none_iff ha
  · intro d hd
    obtain ⟨hit, hany, rfl⟩ := r.exists_hit_of_findCandidate hd
    have hmem := Search.mem_of_find_anyOf hany
    have hsingle := Search.find_single_of_anyOf ha hany
    have htagType : r.checkTagType hit.found.type = .ok () :=
      r.checkTagType_eq_ok_iff.2 (hcandidates _ hmem)
    have htyped := r.typedMatch_of_checked ⟨hit.place, hit.found, some candidates⟩ htagType
    refine ⟨hmem, hsingle, ?_⟩
    rw [findTag_of_checked r h htagType, hsingle, htyped]
    rfl
  · exact fun c => ⟨Query.anyOf_singleton r.types c, r.findTag_eq_findCandidate h c⟩

/-- A class has a tag of one tag type and extends a class that has a tag of another one. -/
def rivals : Universe :=
  Draft.ofEdits
    [.declare .tagType "a::First", .declare .tagType "a::Second", .declare .classType "a::Base",
      .declare .classType "a::Derived",
      .write (.ofIndex 18) (.tag (.plain (.ofIndex 16))),
      .write (.ofIndex 19) (.tag (.plain (.ofIndex 17))),
      .write (.ofIndex 19) (.parent (.ofIndex 18))]
    (by decide +kernel) (by decide +kernel)

/-- The nearer of two candidates of `rivals` is found, though it is the second one, and it is found alone as
well. -/
theorem findCandidate_agrees_rivals :
    let r : Resolver Unit := ofReach rivals fun _ => .hierarchy
    let candidates : List Handle := [.ofIndex 16, .ofIndex 17]
    let d : CandidateMatch := ⟨.here (.ofIndex 19), .plain (.ofIndex 17), some candidates⟩
    (candidates ≠ [] ∧
      (∀ c ∈ candidates, rivals.isTagType c = true ∧ rivals.isReserved c = false) ∧
      r.source.Alike () r.source ()) ∧
    ((r.findCandidate (.ofIndex 19) candidates).run ()).1 = .ok (some d) ∧
    ((r.findTag (.ofIndex 19) (.ofIndex 17)).run ()).1 = (r.typedMatch d).map some := by
  intro r candidates d
  have hne : candidates ≠ [] := by decide
  have hcandidates : ∀ c ∈ candidates, rivals.isTagType c = true ∧ rivals.isReserved c = false := by
    decide +kernel
  have ha : r.source.Alike () r.source () := .refl r.source ()
  have hfound : ((r.findCandidate (.ofIndex 19) candidates).run ()).1 = .ok (some d) := by
    decide +kernel
  obtain ⟨-, -, hagrees, -⟩ := findCandidate_agrees r (.ofIndex 19) hne hcandidates ha
  obtain ⟨-, -, htyped⟩ := hagrees d hfound
  exact ⟨⟨hne, hcandidates, ha⟩, hfound, htyped⟩

end Resolver

end TagResolution
