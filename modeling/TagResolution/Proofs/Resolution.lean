import TagResolution.Resolver

/-!
# What a resolver runs

A resolution either fails or answers, and threads the memory of the source of reaches through both.
Here is what each operation of a resolver runs, in terms of the search, so that statements about
resolvers need not open the operations again.
-/

namespace TagResolution

variable {σ α β : Type}

namespace Resolution

theorem run_bind (x : Resolution σ α) (f : α → Resolution σ β) (memory : σ) :
    (x >>= f).run memory =
      match x.run memory with
      | (.ok a, memory) => (f a).run memory
      | (.error e, memory) => (.error e, memory) := by
  rw [ExceptT.run_bind]
  show StateT.bind x.run _ memory = _
  unfold StateT.bind
  cases x.run memory with
  | mk a memory => cases a <;> rfl

theorem run_liftExcept (x : Except ResolveError α) (memory : σ) :
    (liftExcept x : Resolution σ α).run memory = (x, memory) := by
  cases x <;> rfl

theorem run_map (f : α → β) (x : Resolution σ α) (memory : σ) :
    (do return f (← x) : Resolution σ β).run memory
      = ((x.run memory).1.map f, (x.run memory).2) := by
  rw [run_bind]
  cases x.run memory with
  | mk a memory => cases a <;> rfl

/-- Where a check fails, what stands behind it in `do` is not run. -/
theorem run_checked (check : Except ResolveError Unit) (x : Resolution σ α) (memory : σ) :
    (do liftExcept check; x : Resolution σ α).run memory =
      match check with
      | .error e => (.error e, memory)
      | .ok _ => x.run memory := by
  rw [run_bind, run_liftExcept]
  cases check <;> rfl

theorem run_checked_eq_ok_iff {check : Except ResolveError Unit} {x : Resolution σ α} {memory : σ}
    {a : α} : ((do liftExcept check; x : Resolution σ α).run memory).1 = .ok a ↔
      check = .ok () ∧ (x.run memory).1 = .ok a := by
  rw [run_checked]
  cases check with
  | error e =>
      constructor
      · intro hok
        cases hok
      · rintro ⟨hok, _⟩
        cases hok
  | ok _ => exact ⟨fun hok => ⟨rfl, hok⟩, And.right⟩

theorem forM_eq_ok_iff {check : β → Except ResolveError Unit} {l : List β} :
    l.forM check = .ok () ↔ ∀ b ∈ l, check b = .ok () := by
  induction l with
  | nil => exact ⟨fun _ => nofun, fun _ => rfl⟩
  | cons b rest ih =>
      rw [List.forall_mem_cons, ← ih]
      show (check b >>= fun _ => rest.forM check) = .ok () ↔ _
      cases check b with
      | error e => exact ⟨nofun, fun hok => nomatch hok.1⟩
      | ok _ => exact ⟨fun hrest => ⟨rfl, hrest⟩, And.right⟩

theorem exists_ok {answer : Except ResolveError α} (hnever : ∀ e, answer ≠ .error e) :
    ∃ a, answer = .ok a := by
  cases answer with
  | error e => exact absurd rfl (hnever e)
  | ok a => exact ⟨a, rfl⟩

end Resolution

namespace Resolver

/-- The resolver over a universe that asks a given source for the reach of types. -/
def ofSource (u : Universe) (source : ReachSource σ) : Resolver σ := ⟨u, u.repeatedTags, source⟩

variable (r : Resolver σ)

/-- What `Search.find` answers from a type on, if there is a type. -/
def hitFrom (q : Query α) (start : Option Handle) (memory : σ) : Option (Hit α) × σ :=
  match start with
  | none => (none, memory)
  | some h => Search.find r.types r.source q h memory

theorem run_search (q : Query α) (start : Option Handle) (memory : σ) :
    (r.search q start).run memory
      = (.ok (r.hitFrom q start memory).1, (r.hitFrom q start memory).2) := by
  cases start <;> rfl

/-! ## Finding -/

theorem run_tagFrom (tagType : Handle) (start : Option Handle) (memory : σ) :
    (r.tagFrom tagType start).run memory =
      match r.hitFrom (.single r.types tagType) start memory with
      | (none, memory) => (.ok none, memory)
      | (some hit, memory) => ((r.typed hit.place hit.found).map some, memory) := by
  unfold tagFrom
  rw [Resolution.run_bind, run_search]
  cases r.hitFrom (.single r.types tagType) start memory with
  | mk found memory =>
      cases found with
      | none => rfl
      | some hit =>
          show (do return some (← liftExcept (r.typed hit.place hit.found)) :
            Resolution σ _).run memory = ((r.typed hit.place hit.found).map some, memory)
          rw [Resolution.run_map, Resolution.run_liftExcept]

theorem run_candidateFrom (candidates : List Handle) (start : Option Handle) (memory : σ) :
    (r.candidateFrom candidates start).run memory =
      (.ok ((r.hitFrom (.anyOf r.types candidates) start memory).1.map fun hit =>
        ⟨hit.place, hit.found, some candidates⟩),
        (r.hitFrom (.anyOf r.types candidates) start memory).2) := by
  unfold candidateFrom
  rw [Resolution.run_map, run_search]
  rfl

theorem run_repeatedFrom (tagType : Handle) (start : Option Handle) (memory : σ) :
    (r.repeatedFrom tagType start).run memory =
      (.ok ((r.hitFrom (.repeated r.collect tagType) start memory).1.map fun hit =>
        ⟨hit.place, tagType, hit.found.1, hit.found.2⟩),
        (r.hitFrom (.repeated r.collect tagType) start memory).2) := by
  unfold repeatedFrom
  rw [Resolution.run_map, run_search]
  rfl

theorem run_checked_ok {check : Except ResolveError Unit} {x : Resolution σ α} {memory : σ} {a : α}
    (hx : (x.run memory).1 = .ok a) :
    ((do liftExcept check; x : Resolution σ α).run memory).1 = check.map fun _ => a := by
  rw [Resolution.run_checked]
  cases check with
  | error e => rfl
  | ok _ => exact hx

/-- By `findTag` arguments are checked before anything is searched. -/
theorem run_findTag (h tagType : Handle) (memory : σ) :
    (r.findTag h tagType).run memory =
      match r.checkTagType tagType with
      | .error e => (.error e, memory)
      | .ok _ => (r.tagFrom tagType (some h)).run memory :=
  Resolution.run_checked _ _ memory

/-! ## Matches come from hits -/

theorem exists_typed_of_tagFrom {tagType : Handle} {start : Option Handle} {memory : σ} {m : TagMatch}
    (hm : ((r.tagFrom tagType start).run memory).1 = .ok (some m)) :
    ∃ hit, (r.hitFrom (.single r.types tagType) start memory).1 = some hit ∧
      r.typed hit.place hit.found = .ok m := by
  rw [run_tagFrom] at hm
  cases hf : r.hitFrom (.single r.types tagType) start memory with
  | mk found after =>
      rw [hf] at hm
      cases found with
      | none => cases hm
      | some hit =>
          refine ⟨hit, rfl, ?_⟩
          have htyped : (r.typed hit.place hit.found).map some = .ok (some m) := hm
          cases ht : r.typed hit.place hit.found with
          | error e =>
              rw [ht] at htyped
              cases htyped
          | ok m' =>
              rw [ht] at htyped
              cases htyped
              rfl

theorem exists_hit_of_candidateFrom {candidates : List Handle} {start : Option Handle} {memory : σ}
    {m : CandidateMatch} (hm : ((r.candidateFrom candidates start).run memory).1 = .ok (some m)) :
    ∃ hit, (r.hitFrom (.anyOf r.types candidates) start memory).1 = some hit ∧
      m = ⟨hit.place, hit.found, some candidates⟩ := by
  rw [run_candidateFrom, Except.ok.injEq, Option.map_eq_some_iff] at hm
  obtain ⟨hit, hhit, rfl⟩ := hm
  exact ⟨hit, hhit, rfl⟩

theorem exists_hit_of_repeatedFrom {tagType : Handle} {start : Option Handle} {memory : σ}
    {m : RepeatedMatch} (hm : ((r.repeatedFrom tagType start).run memory).1 = .ok (some m)) :
    ∃ hit, (r.hitFrom (.repeated r.collect tagType) start memory).1 = some hit ∧
      m = ⟨hit.place, tagType, hit.found.1, hit.found.2⟩ := by
  rw [run_repeatedFrom, Except.ok.injEq, Option.map_eq_some_iff] at hm
  obtain ⟨hit, hhit, rfl⟩ := hm
  exact ⟨hit, hhit, rfl⟩

theorem exists_typed_of_findTag {h tagType : Handle} {memory : σ} {m : TagMatch}
    (hm : ((r.findTag h tagType).run memory).1 = .ok (some m)) :
    ∃ hit, (Search.find r.types r.source (.single r.types tagType) h memory).1 = some hit ∧
      r.typed hit.place hit.found = .ok m :=
  r.exists_typed_of_tagFrom (Resolution.run_checked_eq_ok_iff.1 hm).2

/-- A match that `typed` makes says what was found, with the `mergedAttributes` of the root. -/
theorem of_typed_eq_ok {place : Place} {tag : Tag} {m : TagMatch} (hm : r.typed place tag = .ok m) :
    m.place = place ∧ m.tag = tag ∧ r.types.mergedAttributes place.root tag.type = some m.merged := by
  unfold typed at hm
  split at hm
  · next merged hmerged =>
    cases hm
    exact ⟨rfl, rfl, hmerged⟩
  · cases hm

theorem exists_hit_of_findTag {h tagType : Handle} {memory : σ} {m : TagMatch}
    (hm : ((r.findTag h tagType).run memory).1 = .ok (some m)) :
    ∃ hit, (Search.find r.types r.source (.single r.types tagType) h memory).1 = some hit ∧
      m.place = hit.place ∧ m.tag = hit.found := by
  obtain ⟨hit, hf, htyped⟩ := r.exists_typed_of_findTag hm
  obtain ⟨hplace, htag, -⟩ := r.of_typed_eq_ok htyped
  exact ⟨hit, hf, hplace, htag⟩

theorem exists_hit_of_findCandidate {h : Handle} {candidates : List Handle} {memory : σ}
    {m : CandidateMatch} (hm : ((r.findCandidate h candidates).run memory).1 = .ok (some m)) :
    ∃ hit, (Search.find r.types r.source (.anyOf r.types candidates) h memory).1 = some hit ∧
      m = ⟨hit.place, hit.found, some candidates⟩ :=
  r.exists_hit_of_candidateFrom (Resolution.run_checked_eq_ok_iff.1 hm).2

theorem exists_hit_of_findRepeated {h tagType : Handle} {memory : σ} {m : RepeatedMatch}
    (hm : ((r.findRepeated h tagType).run memory).1 = .ok (some m)) :
    ∃ hit, (Search.find r.types r.source (.repeated r.collect tagType) h memory).1 = some hit ∧
      m = ⟨hit.place, tagType, hit.found.1, hit.found.2⟩ :=
  r.exists_hit_of_repeatedFrom (Resolution.run_checked_eq_ok_iff.1 hm).2

/-! ## When there is no match -/

theorem findCandidate_eq_none_iff_hitFrom {h : Handle} {candidates : List Handle} {memory : σ} :
    ((r.findCandidate h candidates).run memory).1 = .ok none ↔
      r.checkCandidates candidates = .ok () ∧
        (r.hitFrom (.anyOf r.types candidates) (some h) memory).1 = none := by
  refine Resolution.run_checked_eq_ok_iff.trans (and_congr_right fun _ => ?_)
  rw [run_candidateFrom, Except.ok.injEq, Option.map_eq_none_iff]

theorem findRepeated_eq_none_iff_hitFrom {h tagType : Handle} {memory : σ} :
    ((r.findRepeated h tagType).run memory).1 = .ok none ↔
      r.checkTagType tagType = .ok () ∧
        (r.hitFrom (.repeated r.collect tagType) (some h) memory).1 = none := by
  refine Resolution.run_checked_eq_ok_iff.trans (and_congr_right fun _ => ?_)
  rw [run_repeatedFrom, Except.ok.injEq, Option.map_eq_none_iff]

/-! ## Finding above a type -/

/-- Whether a search at a type goes on to its enclosing type; only nested types ask the source. -/
theorem run_searchesEnclosing (h : Handle) (memory : σ) :
    (r.searchesEnclosing h).run memory =
      if r.types.isNested h then
        (.ok (decide ((r.source h memory).1 = .enclosing)), (r.source h memory).2)
      else (.ok false, memory) := by
  unfold searchesEnclosing
  split <;> rfl

theorem run_above (root : Handle) (resolve : Option Handle → Resolution σ (Option α)) (memory : σ) :
    (r.above root resolve).run memory =
      match (resolve (r.types.parent? root)).run memory with
      | (.error e, memory) => (.error e, memory)
      | (.ok (some found), memory) => (.ok (some found), memory)
      | (.ok none, memory) =>
        match (r.searchesEnclosing root).run memory with
        | (.ok true, memory) => (resolve (r.types.enclosing? root)).run memory
        | (_, memory) => (.ok none, memory) := by
  unfold above
  rw [Resolution.run_bind]
  cases (resolve (r.types.parent? root)).run memory with
  | mk answer memory =>
      rcases answer with e | _ | found
      · rfl
      · show (do if ← r.searchesEnclosing root then resolve (r.types.enclosing? root) else return none :
          Resolution σ (Option α)).run memory = _
        rw [Resolution.run_bind]
        show _ = match (r.searchesEnclosing root).run memory with
          | (.ok true, memory) => (resolve (r.types.enclosing? root)).run memory
          | (_, memory) => (.ok none, memory)
        rw [run_searchesEnclosing]
        by_cases hnested : r.types.isNested root
        · rw [if_pos hnested]
          cases decide ((r.source root memory).1 = Reach.enclosing) <;> rfl
        · rw [if_neg hnested]
          rfl
      · rfl

/-- What `above` answers, unless it is that there is no match, is the answer of one of the two searches. -/
theorem above_eq_iff {root : Handle} {resolve : Option Handle → Resolution σ (Option α)}
    {memory : σ} {answer : Except ResolveError (Option α)} (hne : answer ≠ .ok none) :
    ((r.above root resolve).run memory).1 = answer ↔
      ((resolve (r.types.parent? root)).run memory).1 = answer ∨
        (((resolve (r.types.parent? root)).run memory).1 = .ok none ∧ r.types.isNested root = true ∧
          (r.source root ((resolve (r.types.parent? root)).run memory).2).1 = .enclosing ∧
          ((resolve (r.types.enclosing? root)).run
            (r.source root ((resolve (r.types.parent? root)).run memory).2).2).1 = answer) := by
  rw [run_above]
  cases (resolve (r.types.parent? root)).run memory with
  | mk below memory =>
      rcases below with e | _ | found
      · exact ⟨.inl, fun h => h.elim id fun hnone => nomatch hnone.1⟩
      · show (match (r.searchesEnclosing root).run memory with
          | (.ok true, memory) => (resolve (r.types.enclosing? root)).run memory
          | (_, memory) => (.ok none, memory)).1 = answer ↔ _
        rw [run_searchesEnclosing]
        by_cases hnested : r.types.isNested root
        · rw [if_pos hnested]
          by_cases hopen : (r.source root memory).1 = .enclosing
          · rw [decide_eq_true hopen]
            exact ⟨fun h => .inr ⟨rfl, hnested, hopen, h⟩,
              fun h => h.elim (fun h => absurd h.symm hne) fun h => h.2.2.2⟩
          · rw [decide_eq_false hopen]
            exact ⟨fun h => absurd h.symm hne,
              fun h => h.elim (fun h => absurd h.symm hne) fun h => absurd h.2.2.1 hopen⟩
        · rw [if_neg hnested]
          exact ⟨fun h => absurd h.symm hne,
            fun h => h.elim (fun h => absurd h.symm hne) fun h => absurd h.2.1 hnested⟩
      · exact ⟨.inl, fun h => h.elim id fun hnone => nomatch hnone.1⟩

/-- By `above` looking above a type fails where one of the two searches does. -/
theorem above_eq_error_iff {root : Handle} {resolve : Option Handle → Resolution σ (Option α)}
    {memory : σ} {e : ResolveError} : ((r.above root resolve).run memory).1 = .error e ↔
      ((resolve (r.types.parent? root)).run memory).1 = .error e ∨
        (((resolve (r.types.parent? root)).run memory).1 = .ok none ∧ r.types.isNested root = true ∧
          (r.source root ((resolve (r.types.parent? root)).run memory).2).1 = .enclosing ∧
          ((resolve (r.types.enclosing? root)).run
            (r.source root ((resolve (r.types.parent? root)).run memory).2).2).1 = .error e) :=
  r.above_eq_iff nofun

/-- What `above` finds is found from some type on. -/
theorem exists_of_above {root : Handle} {resolve : Option Handle → Resolution σ (Option α)}
    {memory : σ} {found : α} (hfound : ((r.above root resolve).run memory).1 = .ok (some found)) :
    ∃ start later, ((resolve start).run later).1 = .ok (some found) := by
  rcases (r.above_eq_iff (by nofun)).1 hfound with hparent | ⟨-, -, -, henclosing⟩
  · exact ⟨_, memory, hparent⟩
  · exact ⟨_, _, henclosing⟩

/-- The match of `nextCandidate` is looked for with the candidates that were kept. -/
theorem exists_above_of_nextCandidate {m : CandidateMatch} {memory : σ} {found : Option CandidateMatch}
    (hm : ((r.nextCandidate m).run memory).1 = .ok found) : ∃ candidates, m.candidates = some candidates ∧
      ((r.above m.place.root (r.candidateFrom candidates)).run memory).1 = .ok found := by
  unfold nextCandidate at hm
  cases hkept : m.candidates with
  | none =>
      rw [hkept] at hm
      cases hm
  | some candidates =>
      rw [hkept] at hm
      exact ⟨candidates, rfl, (Resolution.run_checked_eq_ok_iff.1 hm).2⟩

/-! ## Arguments that pass -/

theorem checkTagType_eq_ok_iff {tagType : Handle} : r.checkTagType tagType = .ok () ↔
    r.types.isTagType tagType = true ∧ r.types.isReserved tagType = false := by
  unfold checkTagType
  cases r.types.isTagType tagType <;> cases r.types.isReserved tagType <;> simp

theorem checkCandidates_eq_ok_iff {candidates : List Handle} :
    r.checkCandidates candidates = .ok () ↔ candidates ≠ [] ∧
      ∀ c ∈ candidates, r.types.isTagType c = true ∧ r.types.isReserved c = false := by
  cases candidates with
  | nil => exact ⟨nofun, fun hne => absurd rfl hne.1⟩
  | cons c rest =>
      show (c :: rest).forM r.checkTagType = .ok () ↔ _
      simp only [Resolution.forM_eq_ok_iff, checkTagType_eq_ok_iff]
      exact ⟨fun hall => ⟨nofun, hall⟩, And.right⟩

end Resolver

end TagResolution
