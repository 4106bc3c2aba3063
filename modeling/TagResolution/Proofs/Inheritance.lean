import TagResolution.Proofs.Caching
import TagResolution.Proofs.Provenance

/-!
# What a type takes over

Where a type has nothing of what is looked for, neither itself nor behind its tags, it takes it over
from its interfaces, its parent or its enclosing type. What these contribute is what a search of its
own would find there: the tags that were visited before, at the type or at an interface that had
nothing to offer, do not get into the way.

The main statement is `matches_taken_over`, for candidates and for tags that may be repeated. It needs
a source of reaches that answers by type, as a cache does that remembers only what was computed;
`findCandidate_housed` shows a search over a cache that was given another reach and has forgotten it
again when it is asked for it.
-/

namespace TagResolution

variable {σ α β : Type}

namespace Universe

variable {u : Universe} {throughInterfaces : Bool} {opens : Handle → Prop} {h g : Handle}

theorem Reachable.here (hne : h ≠ .object) : u.Reachable throughInterfaces opens h h :=
  ⟨[], .here hne⟩

theorem Reachable.hop {x : Hop} (hne : h ≠ .object) (hx : u.Offers throughInterfaces opens h x)
    (hg : u.Reachable throughInterfaces opens x.target g) : u.Reachable throughInterfaces opens h g := by
  obtain ⟨hops, htrail⟩ := hg
  exact ⟨x :: hops, .hop hne hx htrail⟩

end Universe

/-! ## Hits that are taken over -/

namespace Search

/-- What a search finds from a type on, where the reach of types is a function. -/
def found (u : Universe) (reach : Handle → Reach) (q : Query α) (h : Handle) : Option (Hit α) :=
  (find u (.ofFunction (σ := Unit) reach) q h ()).1

variable {u : Universe} {reach : Handle → Reach} {q : Query α} {h : Handle}

theorem found_eq_plain {bound : Nat} (hbound : u.searchBound ≤ bound) :
    found u reach q h = plain u reach q bound [] h :=
  (agrees_find u reach q h () hbound).eq_fst.symm

/-- The search `plain` finds nothing where nothing that is `Reachable` matches. -/
theorem plain_eq_none_of_unreachable (bound : Nat) (path : List Tag)
    (hnone : ∀ g, u.Reachable q.throughInterfaces (reach · = .enclosing) h g → q.here? g = none) :
    plain u reach q bound path h = none := by
  induction bound generalizing path h with
  | zero => rfl
  | succ bound ih =>
      rw [plain_succ]
      split
      · rfl
      · next hne =>
        rw [hnone h (.here hne)]
        refine List.findSome?_eq_none_iff.2 fun x hx => plainHop_eq_none hx ?_
        intro longer _ hoffer _
        exact ih longer fun g hg => hnone g (.hop hne hoffer hg)

/-- Without a match at a type and behind its tags, what is `found` there is what is found at the first
interface with a match, re-anchored by `Hit.after`, or else at the parent, or else at the enclosing type. -/
theorem found_taken_over (hne : h ≠ .object) (hhere : q.here? h = none)
    (htags : ∀ t ∈ u.openTags h, ∀ g,
      u.Reachable q.throughInterfaces (reach · = .enclosing) t.type g → q.here? g = none) :
    found u reach q h =
      ((if q.throughInterfaces then
          (u.interfaces h).findSome? fun i => (found u reach q i).map (·.after h (.interface i))
        else none)
      <|> (u.parent? h).bind (found u reach q)
      <|> (if reach h = .enclosing then (u.enclosing? h).bind (found u reach q) else none)) := by
  have hplain : plain u reach q u.searchBound [] = found u reach q :=
    funext fun g => (found_eq_plain (Nat.le_refl _)).symm
  have hnotag : (u.openTags h).findSome? (plainHop reach (plain u reach q u.searchBound) [] h ∘ .tag)
      = none := by
    refine List.findSome?_eq_none_iff.2 fun t ht => ?_
    show plainHop reach (plain u reach q u.searchBound) [] h (.tag t) = none
    rw [plainHop, plain_eq_none_of_unreachable _ _ (htags t ht)]
    rfl
  have hparent : plainHop reach (plain u reach q u.searchBound) [] h ∘ .parent = found u reach q := by
    rw [← hplain]
    exact funext fun g => Option.map_id'
  have henclosing : (u.enclosing? h).bind
        (plainHop reach (plain u reach q u.searchBound) [] h ∘ .enclosing)
      = if reach h = .enclosing then (u.enclosing? h).bind (found u reach q) else none := by
    rw [← hplain]
    cases u.enclosing? h with
    | none => simp
    | some e =>
        show (if reach h = .enclosing then Option.map (fun hit => hit) _ else none) = _
        rw [Option.map_id']
        rfl
  -- A bound that is larger by one finds the same, so the hops lead to searches with the usual bound.
  rw [found_eq_plain (Nat.le_succ u.searchBound), plain_succ, if_neg hne, hhere]
  show List.findSome? _ _ = _
  rw [findSome?_hops, hnotag, hparent, henclosing, ← hplain]
  rfl

/-- What is made of the hits is taken over as they are. -/
theorem map_found_taken_over (f : Hit α → β) (reroot : β → β)
    (hreroot : ∀ hit i, f (hit.after h (.interface i)) = reroot (f hit)) (hne : h ≠ .object)
    (hhere : q.here? h = none)
    (htags : ∀ t ∈ u.openTags h, ∀ g,
      u.Reachable q.throughInterfaces (reach · = .enclosing) t.type g → q.here? g = none) :
    (found u reach q h).map f =
      ((if q.throughInterfaces then
          ((u.interfaces h).findSome? fun i => (found u reach q i).map f).map reroot
        else none)
      <|> (u.parent? h).bind (fun g => (found u reach q g).map f)
      <|> (if u.isNested h = true ∧ reach h = .enclosing then
          (u.enclosing? h).bind fun g => (found u reach q g).map f
        else none)) := by
  have horElse : ∀ a b : Option (Hit α), (a <|> b).map f = (a.map f <|> b.map f) := by
    rintro (_ | _) b <;> rfl
  have hinterfaces : ((u.interfaces h).findSome? fun i =>
        (found u reach q i).map (·.after h (.interface i))).map f
      = ((u.interfaces h).findSome? fun i => (found u reach q i).map f).map reroot := by
    simp only [List.map_findSome?, Function.comp_def, Option.map_map, hreroot]
  have henclosing : (if reach h = .enclosing then (u.enclosing? h).bind (found u reach q)
        else none).map f
      = if u.isNested h = true ∧ reach h = .enclosing then
          (u.enclosing? h).bind fun g => (found u reach q g).map f else none := by
    unfold Universe.isNested
    cases u.enclosing? h with
    | none => simp
    | some e => by_cases hopen : reach h = .enclosing <;> simp [hopen]
  have hparent : ((u.parent? h).bind (found u reach q)).map f
      = (u.parent? h).bind fun g => (found u reach q g).map f := Option.map_bind
  rw [found_taken_over hne hhere htags, horElse, horElse, hparent, henclosing]
  congr 1
  split
  · exact hinterfaces
  · rfl

end Search

/-! ## Matches that are taken over -/

namespace Resolver

section Answers

variable {u : Universe} {source : ReachSource σ} {reach : Handle → Reach} {memory : σ}

theorem findCandidate_of_answers (ha : source.Answers reach memory) (h : Handle)
    (candidates : List Handle) :
    (((ofSource u source).findCandidate h candidates).run memory).1
      = ((ofSource u source).checkCandidates candidates).map fun _ =>
        (Search.found u reach (.anyOf u candidates) h).map fun hit =>
          ⟨hit.place, hit.found, some candidates⟩ := by
  refine run_checked_ok ?_
  rw [run_candidateFrom]
  show Except.ok (Option.map _ (Search.find u source _ h memory).1) = _
  rw [Search.find_eq_of_alike (ha.alike (.ofFunction reach ()))]
  rfl

theorem findRepeated_of_answers (ha : source.Answers reach memory) (h tagType : Handle) :
    (((ofSource u source).findRepeated h tagType).run memory).1
      = ((ofSource u source).checkTagType tagType).map fun _ =>
        (Search.found u reach (.repeated u.repeatedTags tagType) h).map fun hit =>
          ⟨hit.place, tagType, hit.found.1, hit.found.2⟩ := by
  refine run_checked_ok ?_
  rw [run_repeatedFrom]
  show Except.ok (Option.map _ (Search.find u source _ h memory).1) = _
  rw [Search.find_eq_of_alike (ha.alike (.ofFunction reach ()))]
  rfl

theorem searchesEnclosing_of_answers (ha : source.Answers reach memory) (h : Handle) :
    (((ofSource u source).searchesEnclosing h).run memory).1
      = .ok (decide (u.isNested h = true ∧ reach h = .enclosing)) := by
  rw [run_searchesEnclosing]
  show (if u.isNested h = true then
    (Except.ok (decide ((source h memory).1 = .enclosing)), (source h memory).2)
    else (.ok false, memory)).1 = _
  rw [ha.now]
  split
  · next hnested => simp [hnested]
  · next hnested => simp [hnested]

end Answers

/-- A type without a match, neither at the type nor behind its tags, takes over the match of its first
interface that has one, anchored at the type itself, or else the match of its parent, or else, if its reach
allows, the match of its enclosing type. Each of these is what `findCandidate` or `findRepeated` answers
there, whenever and after whatever else it is asked for (`Later`). Tags that may be repeated are taken over
in the same way, but not from interfaces. The source of reaches has to answer by type (`Answers`). -/
theorem matches_taken_over (u : Universe) {source : ReachSource σ} {reach : Handle → Reach}
    {memory : σ} (ha : source.Answers reach memory) :
    (∀ later, source.Later memory later → ∀ h,
      (((ofSource u source).searchesEnclosing h).run later).1
        = .ok (decide (u.isNested h = true ∧ reach h = .enclosing))) ∧
    (∀ candidates, ∃ answer : Handle → Option CandidateMatch,
      (∀ later, source.Later memory later → ∀ h,
        (((ofSource u source).findCandidate h candidates).run later).1
          = ((ofSource u source).checkCandidates candidates).map fun _ => answer h) ∧
      ∀ h, h ≠ .object → (∀ t ∈ u.tags h, t.type ∉ candidates) →
        (∀ t ∈ u.openTags h, ∀ g, u.Reachable true (reach · = .enclosing) t.type g →
          ∀ s ∈ u.tags g, s.type ∉ candidates) →
        answer h =
          (((u.interfaces h).findSome? answer).map (fun m =>
            { m with place := { m.place with root := h } })
          <|> (u.parent? h).bind answer
          <|> (if u.isNested h = true ∧ reach h = .enclosing then (u.enclosing? h).bind answer
            else none))) ∧
    (∀ tagType, ∃ answer : Handle → Option RepeatedMatch,
      (∀ later, source.Later memory later → ∀ h,
        (((ofSource u source).findRepeated h tagType).run later).1
          = ((ofSource u source).checkTagType tagType).map fun _ => answer h) ∧
      ∀ h, h ≠ .object → u.repeatedTags h tagType = [] →
        (∀ t ∈ u.openTags h, ∀ g, u.Reachable false (reach · = .enclosing) t.type g →
          u.repeatedTags g tagType = []) →
        answer h =
          ((u.parent? h).bind answer
          <|> (if u.isNested h = true ∧ reach h = .enclosing then (u.enclosing? h).bind answer
            else none))) := by
  refine ⟨?_, ?_, ?_⟩
  · intro later hlater h
    exact searchesEnclosing_of_answers (ha.of_later hlater) h
  · intro candidates
    refine ⟨_, fun later hlater h => findCandidate_of_answers (ha.of_later hlater) h candidates, ?_⟩
    intro h hne hhere htags
    refine Search.map_found_taken_over (q := .anyOf u candidates) _ _ (fun _ _ => rfl) hne ?_ ?_
    · exact Query.anyOf_eq_none_iff.2 hhere
    · exact fun t ht g hg => Query.anyOf_eq_none_iff.2 (htags t ht g hg)
  · intro tagType
    refine ⟨_, fun later hlater h => findRepeated_of_answers (ha.of_later hlater) h tagType, ?_⟩
    intro h hne hhere htags
    refine Search.map_found_taken_over (q := .repeated u.repeatedTags tagType) _
      (fun m => { m with place := { m.place with root := h } }) (fun _ _ => rfl) hne ?_ ?_
    · exact Query.repeated_eq_none_iff.2 hhere
    · exact fun t ht g hg => Query.repeated_eq_none_iff.2 (htags t ht g hg)

/-- A room in a house, which is tagged, extends a porch in a hall. -/
def housed : Universe :=
  Draft.ofEdits
    [.declare .tagType "a::Mark", .declare .classType "a::Hall", .declare .classType "a::House",
      .declare .classType "a::Porch", .declare .classType "a::Room",
      .write (.ofIndex 18) (.tag (.plain (.ofIndex 16))),
      .write (.ofIndex 19) (.enclosing (.ofIndex 17)),
      .write (.ofIndex 20) (.enclosing (.ofIndex 18)),
      .write (.ofIndex 20) (.parent (.ofIndex 19))]
    (by decide +kernel) (by decide +kernel)

/-- Where types of `housed` inherit from what encloses them, the room has the match of the house: its porch
has none, since the hall has no tag. A cache for one type does. -/
theorem matches_taken_over_housed :
    let r := cached housed .inherit
    let empty := Cache.ofCapacity 1
    (housed.cachedReach .inherit).Answers (housed.reach .inherit) empty ∧
      ((r.findCandidate (.ofIndex 20) [.ofIndex 16]).run empty).1
        = ((r.findCandidate (.ofIndex 18) [.ofIndex 16]).run empty).1 := by
  intro r empty
  have ha : (housed.cachedReach .inherit).Answers (housed.reach .inherit) empty :=
    housed.answers_cachedReach .inherit (Cache.faithful_ofCapacity _ 1)
  obtain ⟨-, hcandidate, -⟩ := matches_taken_over housed ha
  obtain ⟨answer, hanswer, htakes⟩ := hcandidate [.ofIndex 16]
  have hchecked : (ofSource housed (housed.cachedReach .inherit)).checkCandidates [.ofIndex 16]
      = .ok () := by
    decide +kernel
  have hanswer' : ∀ h, ((r.findCandidate h [.ofIndex 16]).run empty).1 = .ok (answer h) := by
    intro h
    have hok := hanswer empty .refl h
    rw [hchecked] at hok
    exact hok
  have hporch : answer (.ofIndex 19) = none := by
    have hrun : ((r.findCandidate (.ofIndex 19) [.ofIndex 16]).run empty).1 = .ok none := by
      decide +kernel
    exact Except.ok.inj ((hanswer' _).symm.trans hrun)
  have hnotags : housed.tags (.ofIndex 20) = [] := by decide +kernel
  have hroom : answer (.ofIndex 20) = answer (.ofIndex 18) := by
    have hinterfaces : housed.interfaces (.ofIndex 20) = [] := by decide +kernel
    have hparent : housed.parent? (.ofIndex 20) = some (.ofIndex 19) := by decide +kernel
    have henclosing : housed.enclosing? (.ofIndex 20) = some (.ofIndex 18) := by decide +kernel
    have hreach : housed.reach .inherit (.ofIndex 20) = .enclosing := by decide +kernel
    rw [htakes (.ofIndex 20) (by decide) (by simp [hnotags])
      (by simp [Universe.openTags, hnotags]), hinterfaces, hparent, henclosing]
    simp [hporch, Universe.isNested, henclosing, hreach]
  exact ⟨ha, by rw [hanswer', hanswer', hroom]⟩

/-- A cache for one type, which is given another reach for the room than the room has, forgets it when the
search asks about the porch. So the room does not take over the match of the house, although each part of
the search, with the cache as it was given, speaks for that: the porch has no match for `findCandidate`, the
reach of the room allows to search the house, and the house has a match. -/
theorem findCandidate_housed :
    let r := cached housed .override
    let seeded := ((Cache.ofCapacity 1).getOrCompute (.ofIndex 20) fun c => ((.enclosing, ()), c)).2
    housed.tags (.ofIndex 20) = [] ∧ housed.interfaces (.ofIndex 20) = [] ∧
    housed.parent? (.ofIndex 20) = some (.ofIndex 19) ∧
    housed.enclosing? (.ofIndex 20) = some (.ofIndex 18) ∧
    ((r.findCandidate (.ofIndex 19) [.ofIndex 16]).run seeded).1 = .ok none ∧
    ((r.searchesEnclosing (.ofIndex 20)).run seeded).1 = .ok true ∧
    ((r.findCandidate (.ofIndex 18) [.ofIndex 16]).run seeded).1
      = .ok (some ⟨.here (.ofIndex 18), .plain (.ofIndex 16), some [.ofIndex 16]⟩) ∧
    ((r.findCandidate (.ofIndex 20) [.ofIndex 16]).run seeded).1 = .ok none := by
  decide +kernel

end Resolver

end TagResolution
