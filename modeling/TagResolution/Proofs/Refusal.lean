import TagResolution.Proofs.Construction
import TagResolution.Proofs.Rank
import TagResolution.Proofs.Resolution

/-!
# Refused arguments

Arguments are checked before anything is searched. A request for candidates or for repeated tags fails exactly
where its arguments are refused, and then no reach has been asked for, so that the memory of their source is
what it was; nothing that comes after the check fails. In particular a list of repeated tags that a search
finds is never empty, so the check that `RepeatedMatch.ofTags` makes of it always passes.

The main statement is `Resolver.fails_iff_refused`.
-/

namespace TagResolution

variable {σ α β : Type}

/-! ## What is refused -/

namespace Universe

/-- Why `checkTagType` fails on a type. -/
inductive Refuses (u : Universe) : Handle → ResolveError → Prop where
  | notATagType {h : Handle} : u.isTagType h = false → Refuses u h (.notATagType h)
  | reserved {h : Handle} : u.isReserved h = true → Refuses u h (.reservedTagType h)

/-- Why `checkCandidates` fails on candidates: there are none, or one of them is not resolved, of which the
first one counts. -/
def RefusesAmong (u : Universe) (candidates : List Handle) (e : ResolveError) : Prop :=
  (candidates = [] ∧ e = .noCandidates) ∨
    ∃ before c after, candidates = before ++ c :: after ∧
      (∀ b ∈ before, u.isTagType b = true ∧ u.isReserved b = false) ∧ u.Refuses c e

/-- Why `nextCandidate` fails, by the candidates that were kept. -/
inductive RefusesNext (u : Universe) : Option (List Handle) → ResolveError → Prop where
  | notKept : RefusesNext u none .candidatesNotKept
  | among {candidates : List Handle} {e : ResolveError} :
      u.RefusesAmong candidates e → RefusesNext u (some candidates) e

end Universe

/-! ## Checks that fail -/

namespace Resolution

/-- A check of all elements by `forM` fails with the error of the first one that fails. -/
theorem forM_eq_error_iff {check : β → Except ResolveError Unit} {l : List β} {e : ResolveError} :
    l.forM check = .error e ↔ ∃ before b after, l = before ++ b :: after ∧
      (∀ a ∈ before, check a = .ok ()) ∧ check b = .error e := by
  induction l with
  | nil => exact ⟨nofun, by simp⟩
  | cons c rest ih =>
      have hstep : (c :: rest).forM check = (check c >>= fun _ => rest.forM check) := rfl
      rw [hstep]
      -- The first failure is at the head, or else within the rest.
      cases hc : check c with
      | error e' =>
          constructor
          · intro he
            cases he
            exact ⟨[], c, rest, rfl, nofun, hc⟩
          · rintro ⟨before, b, after, hsplit, hbefore, hb⟩
            cases before with
            | nil =>
                cases hsplit
                rw [← hb, hc]
                rfl
            | cons a before =>
                cases hsplit
                cases hc.symm.trans (hbefore c (.head _))
      | ok done =>
          show rest.forM check = .error e ↔ _
          rw [ih]
          constructor
          · rintro ⟨before, b, after, rfl, hbefore, hb⟩
            exact ⟨c :: before, b, after, rfl, List.forall_mem_cons.2 ⟨hc, hbefore⟩, hb⟩
          · rintro ⟨before, b, after, hsplit, hbefore, hb⟩
            cases before with
            | nil =>
                cases hsplit
                cases hc.symm.trans hb
            | cons a before =>
                cases hsplit
                exact ⟨before, b, after, rfl, (List.forall_mem_cons.1 hbefore).2, hb⟩

/-- Where nothing fails behind a check, the whole fails as the check does, before anything is run. -/
theorem run_checked_eq_error_iff {check : Except ResolveError Unit} {x : Resolution σ α}
    {memory after : σ} {e : ResolveError} (hx : ∃ a, (x.run memory).1 = .ok a) :
    (do liftExcept check; x : Resolution σ α).run memory = (.error e, after) ↔
      check = .error e ∧ after = memory := by
  rw [run_checked]
  cases check with
  | error e' =>
      show (Except.error e', memory) = (Except.error e, after) ↔ _
      rw [Prod.mk.injEq, Except.error.injEq, Except.error.injEq, eq_comm (a := memory)]
  | ok _ =>
      obtain ⟨a, ha⟩ := hx
      refine ⟨fun he => ?_, fun he => nomatch he.1⟩
      cases ha.symm.trans (congrArg Prod.fst he)

end Resolution

namespace Resolver

variable (r : Resolver σ)

theorem checkTagType_eq_error_iff {tagType : Handle} {e : ResolveError} :
    r.checkTagType tagType = .error e ↔ r.types.Refuses tagType e := by
  unfold checkTagType
  cases hkind : r.types.isTagType tagType with
  | false =>
      constructor
      · intro he
        cases he
        exact .notATagType hkind
      · rintro (_ | hreserved)
        · rfl
        · cases hkind.symm.trans (r.types.isTagType_of_isReserved hreserved)
  | true =>
      cases hreserved : r.types.isReserved tagType with
      | true =>
          constructor
          · intro he
            cases he
            exact .reserved hreserved
          · rintro (hnot | _)
            · cases hkind.symm.trans hnot
            · rfl
      | false =>
          constructor
          · nofun
          · rintro (hnot | hyes)
            · cases hkind.symm.trans hnot
            · cases hreserved.symm.trans hyes

theorem checkCandidates_eq_error_iff {candidates : List Handle} {e : ResolveError} :
    r.checkCandidates candidates = .error e ↔ r.types.RefusesAmong candidates e := by
  cases candidates with
  | nil =>
      constructor
      · intro he
        cases he
        exact .inl ⟨rfl, rfl⟩
      · rintro (⟨-, rfl⟩ | ⟨before, c, after, hsplit, -⟩)
        · rfl
        · simp at hsplit
  | cons c rest =>
      show (c :: rest).forM r.checkTagType = .error e ↔ _
      rw [Resolution.forM_eq_error_iff]
      simp only [checkTagType_eq_ok_iff, checkTagType_eq_error_iff]
      exact ⟨.inr, fun he => he.resolve_left fun hnone => nomatch hnone.1⟩

/-! ## Searches that answer -/

theorem exists_ok_candidateFrom (candidates : List Handle) (start : Option Handle) (memory : σ) :
    ∃ found, ((r.candidateFrom candidates start).run memory).1 = .ok found := by
  rw [run_candidateFrom]
  exact ⟨_, rfl⟩

theorem exists_ok_repeatedFrom (tagType : Handle) (start : Option Handle) (memory : σ) :
    ∃ found, ((r.repeatedFrom tagType start).run memory).1 = .ok found := by
  rw [run_repeatedFrom]
  exact ⟨_, rfl⟩

/-- Looking above a type by `above` does not fail if looking from a type on never does. -/
theorem exists_ok_above (root : Handle) {resolve : Option Handle → Resolution σ (Option α)}
    (hresolve : ∀ start memory, ∃ found, ((resolve start).run memory).1 = .ok found) (memory : σ) :
    ∃ found, ((r.above root resolve).run memory).1 = .ok found := by
  have hnever : ∀ start memory e, ((resolve start).run memory).1 ≠ .error e := by
    intro start memory e he
    obtain ⟨found, hfound⟩ := hresolve start memory
    cases hfound.symm.trans he
  refine Resolution.exists_ok fun e he => ?_
  rcases r.above_eq_error_iff.1 he with hparent | ⟨-, -, -, henclosing⟩
  · exact hnever _ _ e hparent
  · exact hnever _ _ e henclosing

theorem run_findCandidate_eq_error_iff {h : Handle} {candidates : List Handle} {memory after : σ}
    {e : ResolveError} : (r.findCandidate h candidates).run memory = (.error e, after) ↔
      r.types.RefusesAmong candidates e ∧ after = memory := by
  rw [← r.checkCandidates_eq_error_iff]
  exact Resolution.run_checked_eq_error_iff (r.exists_ok_candidateFrom candidates (some h) memory)

theorem run_findRepeated_eq_error_iff {h tagType : Handle} {memory after : σ} {e : ResolveError} :
    (r.findRepeated h tagType).run memory = (.error e, after) ↔
      r.types.Refuses tagType e ∧ after = memory := by
  rw [← r.checkTagType_eq_error_iff]
  exact Resolution.run_checked_eq_error_iff (r.exists_ok_repeatedFrom tagType (some h) memory)

theorem run_nextCandidate_eq_error_iff {m : CandidateMatch} {memory after : σ} {e : ResolveError} :
    (r.nextCandidate m).run memory = (.error e, after) ↔
      r.types.RefusesNext m.candidates e ∧ after = memory := by
  unfold nextCandidate
  cases hkept : m.candidates with
  | none =>
      constructor
      · intro he
        cases he
        exact ⟨.notKept, rfl⟩
      · rintro ⟨⟨⟩, rfl⟩
        rfl
  | some candidates =>
      have habove := r.exists_ok_above m.place.root (r.exists_ok_candidateFrom candidates) memory
      refine (Resolution.run_checked_eq_error_iff habove).trans (and_congr_left fun _ => ?_)
      rw [r.checkCandidates_eq_error_iff]
      exact ⟨.among, fun he => by cases he; assumption⟩

end Resolver

/-! ## Lists that are never empty -/

/-- A hit with something else found in its place. -/
def Hit.map (f : α → β) (hit : Hit α) : Hit β := ⟨hit.place, f hit.found⟩

namespace Search

variable {γ δ ι π : Type}

/-- The answer of a search with `f` of what was found. -/
def mapHit (f : α → β) (answer : Option (Hit α) × π) : Option (Hit β) × π :=
  (answer.1.map (Hit.map f), answer.2)

theorem firstHit_map {f : α → β} {go : ι → π → Option (Hit α) × π} {go' : ι → π → Option (Hit β) × π}
    (hgo : ∀ x p, go' x p = mapHit f (go x p)) (l : List ι) (p : π) :
    firstHit go' l p = mapHit f (firstHit go l p) := by
  induction l generalizing p with
  | nil => rfl
  | cons x rest ih =>
      rw [firstHit, firstHit, hgo]
      cases go x p with
      | mk hit after =>
          cases hit with
          | none => exact ih after
          | some hit => rfl

theorem follow_map {source : ReachSource σ} {f : α → β}
    {go : Handle → Progress σ → Option (Hit α) × Progress σ}
    {go' : Handle → Progress σ → Option (Hit β) × Progress σ}
    (hgo : ∀ h p, go' h p = mapHit f (go h p)) (h : Handle) (x : Hop) (p : Progress σ) :
    follow source go' h x p = mapHit f (follow source go h x p) := by
  unfold follow
  cases enter source h x p with
  | mk taken after =>
      cases taken with
      | false => rfl
      | true =>
          dsimp only
          rw [hgo]
          cases go x.target after with
          | mk hit later => cases hit <;> rfl

/-- Two queries that find the same, but for what `f` takes it for, have the same search. -/
theorem find_map {u : Universe} {source : ReachSource σ} {q : Query α} {q' : Query β} {f : α → β}
    (hhere : ∀ h, q'.here? h = (q.here? h).map f) (hthrough : q'.throughInterfaces = q.throughInterfaces)
    (h : Handle) (memory : σ) : find u source q' h memory = mapHit f (find u source q h memory) := by
  have hvisit : ∀ bound h (p : Progress σ),
      visitWithin u source q' bound h p = mapHit f (visitWithin u source q bound h p) := by
    intro bound
    induction bound with
    | zero => exact fun _ _ => rfl
    | succ bound ih =>
        intro h p
        rw [visitWithin, visitWithin, visit, visit, hhere, hthrough]
        split
        · rfl
        · cases q.here? h with
          | some found => rfl
          | none => exact firstHit_map (follow_map ih h) _ p
  unfold find
  rw [hvisit]
  rfl

end Search

namespace Query

/-- All tags of one type as a plain list, where an empty list is no match. It looks where `repeated` looks. -/
def gathered (collect : Handle → Handle → List Tag) (tagType : Handle) : Query (List Tag) where
  here? h := if (collect h tagType).isEmpty then none else some (collect h tagType)
  throughInterfaces := false

theorem here?_gathered (collect : Handle → Handle → List Tag) (tagType h : Handle) :
    (gathered collect tagType).here? h = ((repeated collect tagType).here? h).map (·.1) := by
  cases hc : collect h tagType <;> simp [gathered, repeated, hc]

end Query

/-- The match that a list of tags makes. A list without tags is refused with `ResolveError.noRepeated`. -/
def RepeatedMatch.ofTags (place : Place) (tagType : Handle) (tags : List Tag) :
    Except ResolveError RepeatedMatch :=
  if hne : tags ≠ [] then .ok ⟨place, tagType, tags, hne⟩ else .error .noRepeated

theorem RepeatedMatch.ofTags_of_ne_nil {place : Place} {tagType : Handle} {tags : List Tag}
    (hne : tags ≠ []) : ofTags place tagType tags = .ok ⟨place, tagType, tags, hne⟩ :=
  dif_pos hne

namespace Resolver

variable (r : Resolver σ)

/-- The tags of a type from a type on, where a search finds plain lists by `Query.gathered` and
`RepeatedMatch.ofTags` checks what it finds. -/
def gatheredFrom (tagType : Handle) (start : Option Handle) : Resolution σ (Option RepeatedMatch) := do
  match ← r.search (.gathered r.collect tagType) start with
  | some hit => return some (← liftExcept (RepeatedMatch.ofTags hit.place tagType hit.found))
  | none => return none

/-- Every list that a search finds passes the check of `RepeatedMatch.ofTags`. -/
theorem gatheredFrom_eq (tagType : Handle) : r.gatheredFrom tagType = r.repeatedFrom tagType := by
  funext start memory
  -- A search for lists and one for lists with a proof that they are not empty take the same way.
  have hhit : r.hitFrom (.gathered r.collect tagType) start memory
      = Search.mapHit (·.1) (r.hitFrom (.repeated r.collect tagType) start memory) := by
    cases start with
    | none => rfl
    | some h => exact Search.find_map (Query.here?_gathered r.collect tagType) rfl h memory
  show (r.gatheredFrom tagType start).run memory = (r.repeatedFrom tagType start).run memory
  rw [gatheredFrom, Resolution.run_bind, run_search, run_repeatedFrom, hhit]
  cases r.hitFrom (.repeated r.collect tagType) start memory with
  | mk hit after =>
      cases hit with
      | none => rfl
      | some hit =>
          show (do return some (← liftExcept (RepeatedMatch.ofTags hit.place tagType hit.found.1)) :
            Resolution σ (Option RepeatedMatch)).run after = _
          rw [RepeatedMatch.ofTags_of_ne_nil hit.found.2]
          rfl

theorem findRepeated_eq_gatheredFrom (h tagType : Handle) : r.findRepeated h tagType = (do
    liftExcept (r.checkTagType tagType)
    r.gatheredFrom tagType (some h)) := by
  rw [gatheredFrom_eq]
  rfl

theorem nextRepeated_eq_gatheredFrom (m : RepeatedMatch) :
    r.nextRepeated m = r.above m.place.root (r.gatheredFrom m.tagType) := by
  rw [gatheredFrom_eq]
  rfl

/-- Requests for candidates, for repeated tags and for the next match of candidates fail exactly where their
arguments are refused, and leave the memory of the source of reaches as it was. The next match of repeated tags
is looked for without failing. Both `findRepeated` and `nextRepeated` do the same as if they searched for plain
lists and then failed with `ResolveError.noRepeated` on an empty one: a list that is found always makes a match.
Where the tag type that is looked for, or that a match is typed by, is refused, that is the error of `findTag`
and of `typedMatch`, and the memory is left as it was too. -/
theorem fails_iff_refused (r : Resolver σ) (memory : σ) :
    (∀ h candidates e after, (r.findCandidate h candidates).run memory = (.error e, after) ↔
      r.types.RefusesAmong candidates e ∧ after = memory) ∧
    (∀ h tagType e after, (r.findRepeated h tagType).run memory = (.error e, after) ↔
      r.types.Refuses tagType e ∧ after = memory) ∧
    (∀ m e after, (r.nextCandidate m).run memory = (.error e, after) ↔
      r.types.RefusesNext m.candidates e ∧ after = memory) ∧
    (∀ m, ∃ found, ((r.nextRepeated m).run memory).1 = .ok found) ∧
    (∀ tagType start, r.gatheredFrom tagType start = r.repeatedFrom tagType start) ∧
    (∀ h tagType, r.findRepeated h tagType = do
      liftExcept (r.checkTagType tagType)
      r.gatheredFrom tagType (some h)) ∧
    (∀ m, r.nextRepeated m = r.above m.place.root (r.gatheredFrom m.tagType)) ∧
    (∀ tagType e, r.types.Refuses tagType e →
      (∀ h, (r.findTag h tagType).run memory = (.error e, memory)) ∧
      ∀ m : CandidateMatch, m.tag.type = tagType →
        (liftExcept (r.typedMatch m) : Resolution σ TagMatch).run memory = (.error e, memory)) := by
  refine ⟨fun h candidates e after => r.run_findCandidate_eq_error_iff,
    fun h tagType e after => r.run_findRepeated_eq_error_iff,
    fun m e after => r.run_nextCandidate_eq_error_iff,
    fun m => r.exists_ok_above m.place.root (r.exists_ok_repeatedFrom m.tagType) memory,
    fun tagType start => congrFun (r.gatheredFrom_eq tagType) start, r.findRepeated_eq_gatheredFrom,
    r.nextRepeated_eq_gatheredFrom, fun tagType e hrefused => ?_⟩
  have hcheck : r.checkTagType tagType = .error e := r.checkTagType_eq_error_iff.2 hrefused
  refine ⟨fun h => by rw [run_findTag, hcheck], ?_⟩
  rintro m rfl
  rw [Resolution.run_liftExcept, typedMatch, hcheck]
  rfl

/-- A house with a mark. -/
def posted : Universe :=
  Draft.ofEdits
    [.declare .tagType "a::Mark", .declare .classType "a::House",
      .write (.ofIndex 17) (.tag (.plain (.ofIndex 16)))]
    (by decide +kernel) (by decide +kernel)

/-- For `posted` a list with two wrong candidates is refused for the first one, and a match that kept no
candidates has no next one. A cache that remembers the house is left as it is, also where a reserved tag
type is looked for. -/
theorem fails_iff_refused_posted :
    let mark : Handle := .ofIndex 16
    let house : Handle := .ofIndex 17
    let r := cached posted .inherit
    let cache := (posted.cachedReach .inherit house (.ofCapacity 1)).2
    cache.contains house = true ∧
    posted.Refuses .retention (.reservedTagType .retention) ∧
    (r.findCandidate house [mark, house, .retention]).run cache = (.error (.notATagType house), cache) ∧
    (r.findRepeated house .retention).run cache = (.error (.reservedTagType .retention), cache) ∧
    (r.nextCandidate ⟨.here house, .plain mark, none⟩).run cache = (.error .candidatesNotKept, cache) ∧
    (r.findTag house .retention).run cache = (.error (.reservedTagType .retention), cache) ∧
    (∃ found, ((r.nextRepeated ⟨.here house, mark, [.plain mark], by simp⟩).run cache).1 = .ok found) := by
  intro mark house r cache
  obtain ⟨hcandidate, hrepeated, hnext, hnever, -, -, -, htyped⟩ := fails_iff_refused r cache
  have hreserved : posted.Refuses .retention (.reservedTagType .retention) := .reserved (by decide +kernel)
  have hamong : posted.RefusesAmong [mark, house, .retention] (.notATagType house) :=
    .inr ⟨[mark], house, [.retention], rfl, by decide +kernel, .notATagType (by decide +kernel)⟩
  exact ⟨by decide +kernel, hreserved, (hcandidate house _ _ cache).2 ⟨hamong, rfl⟩,
    (hrepeated house _ _ cache).2 ⟨hreserved, rfl⟩, (hnext _ _ cache).2 ⟨.notKept, rfl⟩,
    (htyped _ _ hreserved).1 house, hnever _⟩

end Resolver

end TagResolution
