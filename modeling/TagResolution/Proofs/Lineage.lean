import TagResolution.Proofs.DirectMatches
import TagResolution.Proofs.Inheritance
import TagResolution.Proofs.Succession

/-!
# Matches along a lineage

Where no search goes on to an enclosing type, all that is above a type is its lineage, the chain of its
parents. A search at a type with something of its own is anchored there, and a search at any other type
is the one at its parent, although it goes on with the tags that were visited in vain, and the one at the
parent begins anew. So the matches that are given one after the other list the types of the lineage with
something of their own, each once, with what a fresh search would find there.

The main statement is `Resolver.matches_along_lineage`, for candidates and for tags that may be repeated.
-/

namespace TagResolution

variable {σ α β : Type}

namespace Universe

/-! ## Lineages -/

/-- The type, its parent, the parent of that one and so on, below the universal root. -/
def lineage (u : Universe) (h : Handle) : List Handle :=
  if h = .object then []
  else
    h :: match _hp : u.parent? h with
      | none => []
      | some p => u.lineage p
termination_by u.rank h
decreasing_by exact u.rank_lt_of_linked (u.linked_of_parent? _hp)

/-- A type has something of its own: it is found at the type, or a chain of hops leads to where it is
found, past enclosing types and with a tag or an interface of the type as its first hop. -/
def HasOwn (u : Universe) (throughInterfaces : Bool) (found : Handle → Prop) (h : Handle) : Prop :=
  found h ∨ ∃ x, x.anchors = true ∧ u.Offers throughInterfaces (fun _ => False) h x ∧
    ∃ g, u.Reachable throughInterfaces (fun _ => False) x.target g ∧ found g

variable {u : Universe} {g h : Handle}

theorem rank_le_of_mem_lineage (hg : g ∈ u.lineage h) : u.rank g ≤ u.rank h := by
  fun_induction lineage u h with
  | case1 => cases hg
  | case2 h _ ih =>
      rcases List.mem_cons.1 hg with rfl | hg
      · exact Nat.le_refl _
      · split at hg
        · cases hg
        · next p hp =>
          have hlower := u.rank_lt_of_linked (u.linked_of_parent? hp)
          exact (ih p hp hg).trans (Nat.le_of_lt hlower)

/-- No type is above itself in its `lineage`. -/
theorem nodup_lineage (u : Universe) (h : Handle) : (u.lineage h).Nodup := by
  fun_induction lineage u h with
  | case1 => exact .nil
  | case2 h _ ih =>
      split
      · exact List.nodup_singleton h
      · next p hp =>
        refine List.nodup_cons.2 ⟨fun hmem => ?_, ih p hp⟩
        have hlower := u.rank_lt_of_linked (u.linked_of_parent? hp)
        exact absurd (rank_le_of_mem_lineage hmem) (Nat.not_le_of_lt hlower)

end Universe

/-! ## Searches within hierarchies -/

namespace Search

variable {u : Universe} {q : Query α} {h : Handle}

theorem found_object : found u inward q .object = none := by
  rw [found_eq_plain (Nat.le_succ u.searchBound), plain_succ]
  exact if_pos rfl

/-- What a type has of its own, by `HasOwn`, is found there. -/
theorem found_of_hasOwn (hne : h ≠ .object)
    (hown : u.HasOwn q.throughInterfaces (fun g => (q.here? g).isSome) h) :
    ∃ hit, found u inward q h = some hit ∧ hit.place.root = h := by
  rcases hown with hhere | ⟨x, hanchors, hx, g, ⟨hops, htrail⟩, hg⟩
  · obtain ⟨found, hfound⟩ := Option.isSome_iff_exists.1 hhere
    rw [found_eq_plain (Nat.le_succ u.searchBound), plain_succ, if_neg hne, hfound]
    exact ⟨_, rfl, rfl⟩
  · exact find_root () hne (hx.mono nofun) hanchors (htrail.mono nofun) hg

/-- A type with nothing of its own has what its parent has. -/
theorem found_of_not_hasOwn (hne : h ≠ .object)
    (hnone : ¬ u.HasOwn q.throughInterfaces (fun g => (q.here? g).isSome) h) :
    found u inward q h = (u.parent? h).bind (found u inward q) := by
  have hbehind : ∀ x, x.anchors = true → u.Offers q.throughInterfaces (fun _ => False) h x → ∀ g,
      u.Reachable q.throughInterfaces (inward · = .enclosing) x.target g → q.here? g = none := by
    rintro x hanchors hx g ⟨hops, htrail⟩
    refine Option.not_isSome_iff_eq_none.1 fun hg => hnone (.inr ⟨x, hanchors, hx, g, ⟨hops, ?_⟩, hg⟩)
    exact htrail.mono nofun
  have hhere : q.here? h = none := Option.not_isSome_iff_eq_none.1 fun hsome => hnone (.inl hsome)
  have hinterfaces : (if q.throughInterfaces then (u.interfaces h).findSome? fun i =>
      (found u inward q i).map (·.after h (.interface i)) else none) = none := by
    split
    · next hthrough =>
      refine List.findSome?_eq_none_iff.2 fun i hi => ?_
      have hfound : found u inward q i = none :=
        (find_eq_none_iff_reachable u inward q i ()).2 (hbehind (.interface i) rfl ⟨hthrough, hi⟩)
      rw [hfound]
      rfl
    · rfl
  rw [found_taken_over hne hhere fun t ht => hbehind (.tag t) rfl (u.mem_openTags.1 ht), hinterfaces]
  show ((u.parent? h).bind (found u inward q) <|> none) = _
  cases (u.parent? h).bind (found u inward q) <;> rfl

end Search

/-! ## Matches within hierarchies -/

namespace Query

theorem isSome_anyOf_iff {u : Universe} {candidates : List Handle} {g : Handle} :
    ((anyOf u candidates).here? g).isSome ↔ ∃ t ∈ u.tags g, t.type ∈ candidates := by
  rw [Option.isSome_iff_ne_none, Ne, anyOf_eq_none_iff]
  simp only [not_forall, not_not, exists_prop]

theorem isSome_repeated_iff {collect : Handle → Handle → List Tag} {tagType g : Handle} :
    ((repeated collect tagType).here? g).isSome ↔ collect g tagType ≠ [] := by
  rw [Option.isSome_iff_ne_none, Ne, repeated_eq_none_iff]

end Query

namespace Resolver

open Classical in
/-- From an answer on, the matches that `next` gives one after the other are anchored at the types of a
chain that have something of their own, in the order of the chain, until there is no other one. What `find`
finds anew at the root of a match is the match. -/
def Lists (r : Resolver σ) (find : Handle → Resolution σ (Option Match)) (own : Handle → Prop)
    (chain : List Handle) (answer : Except ResolveError (Option Match) × σ) : Prop :=
  ∃ given after, r.Succession answer given (none, after) ∧
    given.map (·.place.root) = chain.filter own ∧
    ∀ m ∈ given, ∀ later, ((find m.place.root).run later).1 = .ok (some m)

section Lists

open Classical

variable {r : Resolver σ} {find : Handle → Resolution σ (Option Match)} {own : Handle → Prop}
  {chain : List Handle} {h : Handle} {memory : σ}

theorem Lists.nil : r.Lists find own [] (.ok none, memory) := ⟨[], memory, .ended, rfl, nofun⟩

/-- A type with something of its own comes before those above it in what a resolver `Lists`. -/
theorem Lists.cons_own {m : Match} (hown : own h) (hroot : m.place.root = h)
    (hfresh : ∀ later, ((find h).run later).1 = .ok (some m))
    (habove : r.Lists find own chain ((r.next m).run memory)) :
    r.Lists find own (h :: chain) (.ok (some m), memory) := by
  obtain ⟨given, after, hs, hroots, hgiven⟩ := habove
  refine ⟨m :: given, after, .next hs, ?_, List.forall_mem_cons.2 ⟨hroot ▸ hfresh, hgiven⟩⟩
  rw [List.filter_cons, if_pos (decide_eq_true hown), ← hroots, List.map_cons, hroot]

/-- A type with nothing of its own is passed over. -/
theorem Lists.cons_other {answer : Except ResolveError (Option Match) × σ} (hother : ¬ own h)
    (habove : r.Lists find own chain answer) : r.Lists find own (h :: chain) answer := by
  obtain ⟨given, after, hs, hroots, hgiven⟩ := habove
  refine ⟨given, after, hs, ?_, hgiven⟩
  rw [List.filter_cons, if_neg (by simpa using hother), hroots]

end Lists

/-- If every match is made from a hit of `Search.found`, and the `next` one from that at the parent of the
root, then the matches from a type on are those of its `lineage`. -/
theorem lists_of_found {u : Universe} {source : ReachSource σ} {q : Query α}
    {find : Handle → Resolution σ (Option Match)} (make : Hit α → Match)
    (hplace : ∀ hit, (make hit).place = hit.place)
    (hfind : ∀ h memory,
      ((find h).run memory).1 = .ok ((Search.found u Search.inward q h).map make))
    (hnext : ∀ hit memory, (((ofSource u source).next (make hit)).run memory).1
      = .ok (((u.parent? hit.place.root).bind (Search.found u Search.inward q)).map make))
    (h : Handle) (memory : σ) :
    (ofSource u source).Lists find (u.HasOwn q.throughInterfaces fun g => (q.here? g).isSome)
      (u.lineage h) (.ok ((Search.found u Search.inward q h).map make), memory) := by
  fun_induction Universe.lineage u h generalizing memory with
  | case1 =>
      rw [Search.found_object]
      exact .nil
  | case2 h hne ih =>
      -- What is found from the parent on, with whatever memory, is listed.
      have habove : ∀ answer : Except ResolveError (Option Match) × σ,
          answer.1 = .ok (((u.parent? h).bind (Search.found u Search.inward q)).map make) →
          (ofSource u source).Lists find
            (u.HasOwn q.throughInterfaces fun g => (q.here? g).isSome)
            (match _hp : u.parent? h with
              | none => []
              | some p => u.lineage p) answer := by
        rintro ⟨_, later⟩ rfl
        split
        · next hp =>
          rw [hp]
          exact .nil
        · next p hp =>
          rw [hp]
          exact ih p hp later
      by_cases hown : u.HasOwn q.throughInterfaces (fun g => (q.here? g).isSome) h
      · obtain ⟨hit, hfound, hroot⟩ := Search.found_of_hasOwn hne hown
        rw [hfound]
        refine .cons_own hown (by rw [hplace, hroot]) (fun later => ?_) (habove _ ?_)
        · rw [hfind, hfound]
          rfl
        · rw [hnext, hroot]
      · rw [Search.found_of_not_hasOwn hne hown]
        exact .cons_other hown (habove _ rfl)

/-- As `lists_of_found`, for matches of one kind, given what is found at a type. -/
theorem lists_of_kind {u : Universe} {source : ReachSource σ} {own : Handle → Prop} {kind : β → Match}
    {find : Handle → Resolution σ (Option β)} (q : Query α) (make : Hit α → β)
    (next : β → Resolution σ (Option β)) (hown : ∀ g, (q.here? g).isSome ↔ own g)
    (hplace : ∀ hit, (kind (make hit)).place = hit.place)
    (hkind : ∀ m, (ofSource u source).next (kind m) = do return (← next m).map kind)
    (hfind : ∀ h memory,
      ((find h).run memory).1 = .ok ((Search.found u Search.inward q h).map make))
    (hnext : ∀ hit memory, ((next (make hit)).run memory).1
      = .ok (((u.parent? hit.place.root).bind (Search.found u Search.inward q)).map make))
    (h : Handle) (memory : σ) :
    (ofSource u source).Lists (fun g => do return (← find g).map kind)
      (u.HasOwn q.throughInterfaces own) (u.lineage h)
      ((do return (← find h).map kind : Resolution σ (Option Match)).run memory) := by
  obtain rfl : (fun g => (q.here? g).isSome = true) = own := funext fun g => propext (hown g)
  have hgiven : ∀ h memory, ((do return (← find h).map kind : Resolution σ (Option Match)).run memory).1
      = .ok ((Search.found u Search.inward q h).map (kind ∘ make)) := by
    intro h memory
    rw [Resolution.run_map, hfind]
    exact congrArg Except.ok (Option.map_map ..)
  have habove : ∀ hit memory, (((ofSource u source).next (kind (make hit))).run memory).1
      = .ok (((u.parent? hit.place.root).bind (Search.found u Search.inward q)).map (kind ∘ make)) := by
    intro hit memory
    rw [hkind, Resolution.run_map, hnext]
    exact congrArg Except.ok (Option.map_map ..)
  have hlists := lists_of_found (kind ∘ make) hplace hgiven habove h
    ((do return (← find h).map kind : Resolution σ (Option Match)).run memory).2
  rw [← hgiven h memory] at hlists
  exact hlists

section Direct

variable {u : Universe} {source : ReachSource σ} (hdirect : ∀ h memory, (source h memory).1 = .hierarchy)

include hdirect

/-- Within hierarchies what `above` finds is what is found from the parent on. -/
theorem run_above_of_direct (root : Handle) (resolve : Option Handle → Resolution σ (Option α))
    (memory : σ) : (((ofSource u source).above root resolve).run memory).1
      = ((resolve (u.parent? root)).run memory).1 := by
  by_contra hdiffer
  by_cases hnone : ((resolve (u.parent? root)).run memory).1 = .ok none
  · have habove : (((ofSource u source).above root resolve).run memory).1 ≠ .ok none :=
      fun h => hdiffer (h.trans hnone.symm)
    rcases ((ofSource u source).above_eq_iff habove).1 rfl with hparent | ⟨-, -, hopen, -⟩
    · exact hdiffer hparent.symm
    · exact nomatch (hdirect _ _).symm.trans hopen
  · exact hdiffer (((ofSource u source).above_eq_iff hnone).2 (.inl rfl))

theorem hitFrom_of_direct (q : Query α) (start : Option Handle) (memory : σ) :
    ((ofSource u source).hitFrom q start memory).1 = start.bind (Search.found u Search.inward q) := by
  cases start with
  | none => rfl
  | some h =>
      have hanswers : source.Answers Search.inward memory := fun later _ h => hdirect h later
      exact Search.find_eq_of_alike (hanswers.alike (.ofFunction Search.inward ())) q h

theorem run_candidateFrom_of_direct (candidates : List Handle) (start : Option Handle) (memory : σ) :
    (((ofSource u source).candidateFrom candidates start).run memory).1
      = .ok ((start.bind (Search.found u Search.inward (.anyOf u candidates))).map fun hit =>
        ⟨hit.place, hit.found, some candidates⟩) := by
  rw [run_candidateFrom, hitFrom_of_direct hdirect]
  rfl

theorem run_repeatedFrom_of_direct (tagType : Handle) (start : Option Handle) (memory : σ) :
    (((ofSource u source).repeatedFrom tagType start).run memory).1
      = .ok ((start.bind (Search.found u Search.inward (.repeated u.repeatedTags tagType))).map fun hit =>
        ⟨hit.place, tagType, hit.found.1, hit.found.2⟩) := by
  rw [run_repeatedFrom, hitFrom_of_direct hdirect]
  rfl

theorem lists_candidates {candidates : List Handle}
    (hchecked : (ofSource u source).checkCandidates candidates = .ok ()) (h : Handle) (memory : σ) :
    (ofSource u source).Lists
      (fun g => do return (← (ofSource u source).findCandidate g candidates).map .candidate)
      (u.HasOwn true fun g => ∃ t ∈ u.tags g, t.type ∈ candidates) (u.lineage h)
      ((do return (← (ofSource u source).findCandidate h candidates).map Match.candidate :
        Resolution σ (Option Match)).run memory) := by
  refine lists_of_kind (.anyOf u candidates) (fun hit => ⟨hit.place, hit.found, some candidates⟩)
    (ofSource u source).nextCandidate (fun _ => Query.isSome_anyOf_iff) (fun _ => rfl) (fun _ => rfl)
    (fun g memory => ?_) (fun hit memory => ?_) h memory
  · exact Resolution.run_checked_eq_ok_iff.2
      ⟨hchecked, run_candidateFrom_of_direct hdirect candidates (some g) memory⟩
  · exact Resolution.run_checked_eq_ok_iff.2 ⟨hchecked,
      (run_above_of_direct hdirect _ _ memory).trans (run_candidateFrom_of_direct hdirect _ _ memory)⟩

theorem lists_repeated {tagType : Handle}
    (hchecked : (ofSource u source).checkTagType tagType = .ok ()) (h : Handle) (memory : σ) :
    (ofSource u source).Lists
      (fun g => do return (← (ofSource u source).findRepeated g tagType).map .repeated)
      (u.HasOwn false fun g => u.repeatedTags g tagType ≠ []) (u.lineage h)
      ((do return (← (ofSource u source).findRepeated h tagType).map Match.repeated :
        Resolution σ (Option Match)).run memory) := by
  refine lists_of_kind (.repeated u.repeatedTags tagType)
    (fun hit => ⟨hit.place, tagType, hit.found.1, hit.found.2⟩) (ofSource u source).nextRepeated
    (fun _ => Query.isSome_repeated_iff) (fun _ => rfl) (fun _ => rfl) (fun g memory => ?_)
    (fun hit memory => ?_) h memory
  · exact Resolution.run_checked_eq_ok_iff.2
      ⟨hchecked, run_repeatedFrom_of_direct hdirect tagType (some g) memory⟩
  · exact (run_above_of_direct hdirect _ _ memory).trans
      (run_repeatedFrom_of_direct hdirect _ _ memory)

end Direct

/-- Where no search goes on to an enclosing type, the matches for some candidates that `findCandidate` and
then `next` give one after the other, and then no other one, are anchored at those types of the `lineage`
that have a candidate of their own (`HasOwn`): on the declaration, or where a tag that is not reserved or an
interface leads. They are in the order of the lineage, which names no type twice, and each is what is found
at its root anew. It is the same for tags that may be repeated, by `findRepeated`, where interfaces do not
count. -/
theorem matches_along_lineage (u : Universe) {source : ReachSource σ}
    (hdirect : ∀ h memory, (source h memory).1 = .hierarchy) (h : Handle) (memory : σ) :
    (u.lineage h).Nodup ∧
    (∀ candidates, candidates ≠ [] →
      (∀ c ∈ candidates, u.isTagType c = true ∧ u.isReserved c = false) →
      let found (g : Handle) : Resolution σ (Option Match) := do
        return (← (ofSource u source).findCandidate g candidates).map .candidate
      (ofSource u source).Lists found (u.HasOwn true fun g => ∃ t ∈ u.tags g, t.type ∈ candidates)
        (u.lineage h) ((found h).run memory)) ∧
    ∀ tagType, u.isTagType tagType = true → u.isReserved tagType = false →
      let found (g : Handle) : Resolution σ (Option Match) := do
        return (← (ofSource u source).findRepeated g tagType).map .repeated
      (ofSource u source).Lists found (u.HasOwn false fun g => u.repeatedTags g tagType ≠ [])
        (u.lineage h) ((found h).run memory) := by
  refine ⟨u.nodup_lineage h, fun candidates hne hcandidates => ?_, fun tagType htype hopen => ?_⟩
  · exact lists_candidates hdirect
      ((ofSource u source).checkCandidates_eq_ok_iff.2 ⟨hne, hcandidates⟩) h memory
  · exact lists_repeated hdirect ((ofSource u source).checkTagType_eq_ok_iff.2 ⟨htype, hopen⟩) h memory

/-- A chain of four classes: the lowest has a mark through a tag whose type is tagged with itself, the one
above it has none, the next one has a mark through an interface, and the last on its own declaration. -/
def storied : Universe :=
  Draft.ofEdits
    [.declare .tagType "a::Mark", .declare .tagType "a::Meta", .declare .interface "a::Face",
      .declare .classType "a::Ground", .declare .classType "a::First", .declare .classType "a::Second",
      .declare .classType "a::Roof",
      .write (.ofIndex 17) (.tag (.plain (.ofIndex 17))),
      .write (.ofIndex 17) (.tag (.plain (.ofIndex 16))),
      .write (.ofIndex 18) (.tag (.plain (.ofIndex 16))),
      .write (.ofIndex 19) (.tag (.plain (.ofIndex 16))),
      .write (.ofIndex 20) (.parent (.ofIndex 19)), .write (.ofIndex 20) (.interface (.ofIndex 18)),
      .write (.ofIndex 21) (.parent (.ofIndex 20)),
      .write (.ofIndex 22) (.parent (.ofIndex 21)), .write (.ofIndex 22) (.tag (.plain (.ofIndex 17)))]
    (by decide +kernel) (by decide +kernel)

/-- All classes of the chain but the second have a mark of their own. -/
theorem matches_along_lineage_storied :
    let r : Resolver Unit := ofSource storied (.ofFunction fun _ => .hierarchy)
    let found (g : Handle) : Resolution Unit (Option Match) := do
      return (← r.findCandidate g [.ofIndex 16]).map .candidate
    let roof : Match := .candidate ⟨⟨.ofIndex 22, .ofIndex 17, some (.plain (.ofIndex 17))⟩,
      .plain (.ofIndex 16), some [.ofIndex 16]⟩
    r.Lists found (storied.HasOwn true fun g => ∃ t ∈ storied.tags g, t.type ∈ [.ofIndex 16])
        (storied.lineage (.ofIndex 22)) ((found (.ofIndex 22)).run ()) ∧
      ((found (.ofIndex 22)).run ()).1 = .ok (some roof) ∧
      (r.walk 3 roof ()).1.1.map (·.place.root) = [.ofIndex 20, .ofIndex 19] := by
  intro r found roof
  have hdirect : ∀ h memory, (r.source h memory).1 = .hierarchy := fun _ _ => rfl
  obtain ⟨-, hcandidates, -⟩ := matches_along_lineage storied hdirect (.ofIndex 22) ()
  exact ⟨hcandidates [.ofIndex 16] (by decide) (by decide +kernel), by decide +kernel, by decide +kernel⟩

end Resolver

end TagResolution
