import TagResolution.Proofs.Caching
import TagResolution.Proofs.Resolution

/-!
# Requests

What a resolver is asked, request by request. Every answer threads the memory of the source of reaches
through searches, checks and errors. Two resolvers over one universe answer alike as long as their
memories are coupled, and a cache that remembers only what was computed is coupled with no memory at
all.

The main statement is `Resolver.answerAll_cached`.
-/

namespace TagResolution

variable {σ τ α β : Type}

/-! ## Asking a resolver -/

/-- A request to a `Resolver`, with its arguments. -/
inductive Request where
  | tag (h tagType : Handle)
  | candidate (h : Handle) (candidates : List Handle)
  | repeated (h tagType : Handle)
  | merged (h tagType : Handle)
  | next (m : Match)
  | allMerged (m : TagMatch)
  | reach (h : Handle)
  | searchesEnclosing (h : Handle)

/-- What a `Request` is answered. -/
inductive Reply where
  | found (m : Option Match)
  | merged (tag : Option Tag)
  | allMerged (tags : List Tag)
  | reach (reach : Reach)
  | searchesEnclosing (searched : Bool)
deriving DecidableEq

namespace Resolver

def answer (r : Resolver σ) : Request → Resolution σ Reply
  | .tag h tagType => return .found ((← r.findTag h tagType).map .tag)
  | .candidate h candidates => return .found ((← r.findCandidate h candidates).map .candidate)
  | .repeated h tagType => return .found ((← r.findRepeated h tagType).map .repeated)
  | .merged h tagType => return .merged (← r.findMerged h tagType)
  | .next m => return .found (← r.next m)
  | .allMerged m => return .allMerged (← r.allMergedTags m)
  | .reach h => return .reach (← r.reach h)
  | .searchesEnclosing h => return .searchesEnclosing (← r.searchesEnclosing h)

/-- The answers to requests made one after the other by `answer`, each with the memory that it leaves. A
request that fails does not keep the next one from being answered. -/
def answerAll (r : Resolver σ) : List Request → σ → List (Except ResolveError Reply × σ)
  | [], _ => []
  | q :: rest, memory => (r.answer q).run memory :: r.answerAll rest ((r.answer q).run memory).2

end Resolver

/-! ## Resolutions that agree -/

namespace Resolution

/-- From memories that are coupled two resolutions give the same answer, or the same error, and they
leave coupled memories. -/
def Agree (coupling : σ → τ → Prop) (x : Resolution σ α) (y : Resolution τ α) : Prop :=
  ∀ memory memory', coupling memory memory' →
    (x.run memory).1 = (y.run memory').1 ∧ coupling (x.run memory).2 (y.run memory').2

namespace Agree

variable {coupling : σ → τ → Prop}

theorem of_pure (a : α) : Agree coupling (pure a : Resolution σ α) (pure a : Resolution τ α) :=
  fun _ _ hmemory => ⟨rfl, hmemory⟩

theorem of_throw (e : ResolveError) :
    Agree coupling (throw e : Resolution σ α) (throw e : Resolution τ α) :=
  fun _ _ hmemory => ⟨rfl, hmemory⟩

theorem of_except (x : Except ResolveError α) :
    Agree coupling (liftExcept x : Resolution σ α) (liftExcept x : Resolution τ α) := by
  intro memory memory' hmemory
  rw [run_liftExcept, run_liftExcept]
  exact ⟨rfl, hmemory⟩

theorem bind {x : Resolution σ α} {y : Resolution τ α} {f : α → Resolution σ β}
    {g : α → Resolution τ β} (hx : Agree coupling x y) (hf : ∀ a, Agree coupling (f a) (g a)) :
    Agree coupling (x >>= f) (y >>= g) := by
  intro memory memory' hmemory
  obtain ⟨hsame, hafter⟩ := hx memory memory' hmemory
  rw [run_bind, run_bind]
  cases hrun : x.run memory with
  | mk answer after =>
      cases hrun' : y.run memory' with
      | mk answer' after' =>
          rw [hrun, hrun'] at hsame hafter
          cases hsame
          cases answer with
          | error e => exact ⟨rfl, hafter⟩
          | ok a => exact hf a after after' hafter

theorem map (f : α → β) {x : Resolution σ α} {y : Resolution τ α} (hx : Agree coupling x y) :
    Agree coupling (do return f (← x)) (do return f (← y)) :=
  hx.bind fun a => of_pure (f a)

end Agree

end Resolution

/-! ## Resolvers that agree -/

namespace Resolver

open Resolution

section Coupled

variable (u : Universe) (collect : Handle → Handle → List Tag) {source : ReachSource σ}
  {source' : ReachSource τ} {coupling : σ → τ → Prop} (hcoupled : source.Coupled source' coupling)

include hcoupled

theorem agree_reach (h : Handle) :
    Agree coupling (reach ⟨u, collect, source⟩ h) (reach ⟨u, collect, source'⟩ h) := by
  intro memory memory' hmemory
  obtain ⟨hreach, hafter⟩ := hcoupled h memory memory' hmemory
  exact ⟨congrArg Except.ok hreach, hafter⟩

theorem agree_searchesEnclosing (h : Handle) :
    Agree coupling (searchesEnclosing ⟨u, collect, source⟩ h)
      (searchesEnclosing ⟨u, collect, source'⟩ h) := by
  unfold searchesEnclosing
  split
  · exact (agree_reach u collect hcoupled h).map _
  · exact .of_pure false

theorem agree_search (q : Query α) (start : Option Handle) :
    Agree coupling (search ⟨u, collect, source⟩ q start) (search ⟨u, collect, source'⟩ q start) := by
  cases start with
  | none => exact .of_pure none
  | some h =>
      intro memory memory' hmemory
      obtain ⟨hfound, hafter⟩ := Search.find_of_coupled (u := u) hcoupled hmemory q h
      exact ⟨congrArg Except.ok hfound, hafter⟩

theorem agree_tagFrom (tagType : Handle) (start : Option Handle) :
    Agree coupling (tagFrom ⟨u, collect, source⟩ tagType start)
      (tagFrom ⟨u, collect, source'⟩ tagType start) := by
  refine (agree_search u collect hcoupled _ start).bind fun found => ?_
  cases found with
  | none => exact .of_pure none
  | some hit => exact (Agree.of_except _).map _

theorem agree_candidateFrom (candidates : List Handle) (start : Option Handle) :
    Agree coupling (candidateFrom ⟨u, collect, source⟩ candidates start)
      (candidateFrom ⟨u, collect, source'⟩ candidates start) :=
  (agree_search u collect hcoupled _ start).map _

theorem agree_repeatedFrom (tagType : Handle) (start : Option Handle) :
    Agree coupling (repeatedFrom ⟨u, collect, source⟩ tagType start)
      (repeatedFrom ⟨u, collect, source'⟩ tagType start) :=
  (agree_search u collect hcoupled _ start).map _

theorem agree_findTag (h tagType : Handle) :
    Agree coupling (findTag ⟨u, collect, source⟩ h tagType)
      (findTag ⟨u, collect, source'⟩ h tagType) :=
  (Agree.of_except _).bind fun _ => agree_tagFrom u collect hcoupled tagType (some h)

theorem agree_findCandidate (h : Handle) (candidates : List Handle) :
    Agree coupling (findCandidate ⟨u, collect, source⟩ h candidates)
      (findCandidate ⟨u, collect, source'⟩ h candidates) :=
  (Agree.of_except _).bind fun _ => agree_candidateFrom u collect hcoupled candidates (some h)

theorem agree_findRepeated (h tagType : Handle) :
    Agree coupling (findRepeated ⟨u, collect, source⟩ h tagType)
      (findRepeated ⟨u, collect, source'⟩ h tagType) :=
  (Agree.of_except _).bind fun _ => agree_repeatedFrom u collect hcoupled tagType (some h)

theorem agree_findMerged (h tagType : Handle) :
    Agree coupling (findMerged ⟨u, collect, source⟩ h tagType)
      (findMerged ⟨u, collect, source'⟩ h tagType) := by
  refine (agree_findTag u collect hcoupled h tagType).bind fun found => ?_
  cases found with
  | none => exact .of_pure none
  | some m => exact (Agree.of_except _).map _

theorem agree_allMergedTags (m : TagMatch) :
    Agree coupling (allMergedTags ⟨u, collect, source⟩ m) (allMergedTags ⟨u, collect, source'⟩ m) :=
  (agree_reach u collect hcoupled _).bind fun _ => .of_except _

/-- Resolutions that `Agree` from every type on agree above a type. -/
theorem agree_above (root : Handle) {resolve : Option Handle → Resolution σ (Option α)}
    {resolve' : Option Handle → Resolution τ (Option α)}
    (hresolve : ∀ start, Agree coupling (resolve start) (resolve' start)) :
    Agree coupling (above ⟨u, collect, source⟩ root resolve)
      (above ⟨u, collect, source'⟩ root resolve') := by
  refine (hresolve (u.parent? root)).bind fun found => ?_
  cases found with
  | some found => exact .of_pure _
  | none =>
      refine (agree_searchesEnclosing u collect hcoupled root).bind fun searched => ?_
      cases searched with
      | true => exact hresolve (u.enclosing? root)
      | false => exact .of_pure none

theorem agree_nextCandidate (m : CandidateMatch) :
    Agree coupling (nextCandidate ⟨u, collect, source⟩ m)
      (nextCandidate ⟨u, collect, source'⟩ m) := by
  unfold nextCandidate
  cases m.candidates with
  | none => exact .of_throw _
  | some candidates =>
      exact (Agree.of_except _).bind fun _ =>
        agree_above u collect hcoupled _ (agree_candidateFrom u collect hcoupled candidates)

theorem agree_next (m : Match) :
    Agree coupling (next ⟨u, collect, source⟩ m) (next ⟨u, collect, source'⟩ m) := by
  cases m with
  | tag m =>
      exact (agree_above u collect hcoupled _ (agree_tagFrom u collect hcoupled m.tag.type)).map _
  | candidate m => exact (agree_nextCandidate u collect hcoupled m).map _
  | repeated m =>
      exact (agree_above u collect hcoupled _ (agree_repeatedFrom u collect hcoupled m.tagType)).map _

/-- Whatever is asked by `answer`, resolvers with `Coupled` sources agree. -/
theorem agree_answer (q : Request) :
    Agree coupling (answer ⟨u, collect, source⟩ q) (answer ⟨u, collect, source'⟩ q) := by
  cases q with
  | tag h tagType => exact (agree_findTag u collect hcoupled h tagType).map _
  | candidate h candidates => exact (agree_findCandidate u collect hcoupled h candidates).map _
  | repeated h tagType => exact (agree_findRepeated u collect hcoupled h tagType).map _
  | merged h tagType => exact (agree_findMerged u collect hcoupled h tagType).map _
  | next m => exact (agree_next u collect hcoupled m).map _
  | allMerged m => exact (agree_allMergedTags u collect hcoupled m).map _
  | reach h => exact (agree_reach u collect hcoupled h).map _
  | searchesEnclosing h => exact (agree_searchesEnclosing u collect hcoupled h).map _

/-- By `answerAll` one request after the other is answered alike, and every answer leaves coupled memories. -/
theorem answerAll_of_coupled (requests : List Request) (memory : σ) (memory' : τ)
    (hmemory : coupling memory memory') :
    (answerAll ⟨u, collect, source⟩ requests memory).map (·.1) =
        (answerAll ⟨u, collect, source'⟩ requests memory').map (·.1) ∧
      ∀ x ∈ answerAll ⟨u, collect, source⟩ requests memory, ∃ memory', coupling x.2 memory' := by
  induction requests generalizing memory memory' with
  | nil => exact ⟨rfl, nofun⟩
  | cons q rest ih =>
      obtain ⟨hsame, hafter⟩ := agree_answer u collect hcoupled q memory memory' hmemory
      obtain ⟨hrest, hcoupledRest⟩ := ih _ _ hafter
      refine ⟨congrArg₂ List.cons hsame hrest, ?_⟩
      rintro x (_ | ⟨_, hx⟩)
      · exact ⟨_, hafter⟩
      · exact hcoupledRest x hx

end Coupled

/-! ## With and without a cache -/

/-- The source `cachedReach`, with a cache for so many types at most, is coupled with no memory at all. -/
theorem coupled_cachedReach (u : Universe) (nesting : Nesting) (capacity : Nat) :
    (u.cachedReach nesting).Coupled (.ofFunction (u.reach nesting)) fun c (_ : τ) =>
      c.Faithful (u.reach nesting) ∧ c.Sound ∧ c.capacity = capacity := by
  rintro h c _ ⟨hfaithful, hsound, hcapacity⟩
  let compute : Cache → (Reach × Unit) × Cache := fun c => ((u.reach nesting h, ()), c)
  obtain ⟨hreach, hafter⟩ := hfaithful.getOrCompute h compute fun _ hc => ⟨rfl, hc⟩
  exact ⟨hreach, hafter, hsound.getOrCompute h compute fun _ hc => hc,
    (c.capacity_getOrCompute h compute fun _ => rfl).trans hcapacity⟩

/-- Whatever `answerAll` is asked, the resolver `cached` answers as the one by `ofReach`, which looks up
every reach anew, also when the cache has forgotten types, and after every answer it remembers no more types
than it may. -/
theorem answerAll_cached (u : Universe) (s : Settings) (requests : List Request) (memory : σ) :
    ((cached u s.nesting).answerAll requests (.ofCapacity s.cacheCapacity)).map (·.1) =
        ((ofReach u (u.reach s.nesting)).answerAll requests memory).map (·.1) ∧
      ∀ x ∈ (cached u s.nesting).answerAll requests (.ofCapacity s.cacheCapacity),
        x.2.size ≤ max s.cacheCapacity 1 := by
  obtain ⟨hsame, hafter⟩ := answerAll_of_coupled u u.repeatedTags
    (coupled_cachedReach u s.nesting (max s.cacheCapacity 1)) requests
    (.ofCapacity s.cacheCapacity) memory
    ⟨Cache.faithful_ofCapacity _ s.cacheCapacity, Cache.sound_ofCapacity s.cacheCapacity, rfl⟩
  refine ⟨hsame, fun x hx => ?_⟩
  obtain ⟨-, -, hsound, hcapacity⟩ := hafter x hx
  exact hcapacity ▸ hsound.size_le

end Resolver

end TagResolution
