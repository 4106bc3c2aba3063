import TagResolution.Proofs.Construction
import TagResolution.Proofs.Locality
import TagResolution.Proofs.MergedTags
import TagResolution.Proofs.Registration
import TagResolution.Proofs.Requests

/-!
# Tags that are never resolved

A tag may say something about a type that no resolution looks at: how long the type is kept, that it is
documented, that it is handed down. Such tags can be put in among the tags of any declarations. What comes out
are declarations of the same types again, and no hierarchy, no scan and no resolver tells the two apart: a scan
and a search leave these tags out, so both universes have the same outlines, and where one of these tag types
is looked for, the request is refused before anything is searched.

The main statement is `Universe.infrastructure_unobserved`.
-/

namespace TagResolution

variable {σ α β : Type}

/-! ## Infrastructure tags -/

/-- The reserved tag types that nothing asks for. Tags of the fourth one, `repeatable`, name the containers of
repeated tags. -/
def Handle.infrastructure : List Handle := [.retention, .documented, .inherited]

/-- A list of tags, and the same list with tags of `Handle.infrastructure` put in anywhere. -/
inductive Interspersed : List Tag → List Tag → Prop where
  | nil : Interspersed [] []
  | keep (t : Tag) {l l' : List Tag} : Interspersed l l' → Interspersed (t :: l) (t :: l')
  | insert {t : Tag} {l l' : List Tag} : t.type ∈ Handle.infrastructure → Interspersed l l' →
      Interspersed l (t :: l')

namespace Interspersed

theorem refl (l : List Tag) : Interspersed l l := by
  induction l with
  | nil => exact .nil
  | cons t rest ih => exact .keep t ih

variable {l l' : List Tag}

theorem mem_or (hl : Interspersed l l') : ∀ t ∈ l', t ∈ l ∨ t.type ∈ Handle.infrastructure := by
  induction hl with
  | nil => nofun
  | keep t _ ih =>
      refine List.forall_mem_cons.2 ⟨.inl (.head _), fun s hs => ?_⟩
      exact (ih s hs).imp_left (.tail _)
  | insert ht _ ih => exact List.forall_mem_cons.2 ⟨.inr ht, ih⟩

/-- As far as only other tags are looked at, lists that are `Interspersed` are the same. -/
theorem filter_eq {p : Tag → Bool} (hl : Interspersed l l')
    (hp : ∀ t, t.type ∈ Handle.infrastructure → p t = false) : l.filter p = l'.filter p := by
  induction hl with
  | nil => rfl
  | keep t _ ih => rw [List.filter_cons, List.filter_cons, ih]
  | insert ht _ ih => rw [List.filter_cons_of_neg (by simp [hp _ ht]), ih]

theorem find?_eq {p : Tag → Bool} (hl : Interspersed l l')
    (hp : ∀ t, t.type ∈ Handle.infrastructure → p t = false) : l.find? p = l'.find? p := by
  rw [← List.head?_filter, ← List.head?_filter, hl.filter_eq hp]

end Interspersed

/-! ## Other tags on the declarations -/

namespace Registry

variable {r : Registry} {written : Handle → List Tag}

/-- The same declarations with other tags. -/
def retag (r : Registry) (written : Handle → List Tag) : Registry :=
  { r with slots := r.slots.mapIdx fun i d => d.map fun d => { d with tags := written (.ofIndex i) } }

theorem get?_retag (h : Handle) :
    (r.retag written).get? h = (r.get? h).map fun d => { d with tags := written h } := by
  have hindex : Handle.ofIndex h.index = h := Handle.ext_index (Handle.index_ofIndex h.index_lt)
  simp only [get?, retag, Array.getElem?_mapIdx, hindex]
  cases r.slots[h.index]? <;> rfl

/-- What does not regard tags holds of a declaration as before `retag`. -/
theorem exists_retag_iff {p : Declaration → Prop} (hp : ∀ d l, p { d with tags := l } ↔ p d) {h : Handle} :
    (∃ d, (r.retag written).get? h = some d ∧ p d) ↔ ∃ d, r.get? h = some d ∧ p d := by
  simp only [get?_retag, Option.map_eq_some_iff]
  constructor
  · rintro ⟨_, ⟨d, hd, rfl⟩, hpd⟩
    exact ⟨d, hd, (hp d _).1 hpd⟩
  · rintro ⟨d, hd, hpd⟩
    exact ⟨_, ⟨d, hd, rfl⟩, (hp d _).2 hpd⟩

theorem Sound.retag (hr : r.Sound) (written : Handle → List Tag) : (r.retag written).Sound where
  names_iff name h := (hr.names_iff name h).trans (exists_retag_iff fun _ _ => Iff.rfl).symm
  builtin b := (exists_retag_iff fun _ _ => Iff.rfl).2 (hr.builtin b)
  vacant h hlow hhigh := by rw [get?_retag, hr.vacant h hlow hhigh, Option.map_none]
  filled h hlow hhigh := by
    rw [get?_retag, Option.isSome_map]
    exact hr.filled h hlow (by simpa [Registry.retag] using hhigh)
  firstUser_le := by simpa [Registry.retag] using hr.firstUser_le
  size_le := by simpa [Registry.retag] using hr.size_le
  rooted h d hd hkind hne := by
    rw [get?_retag] at hd
    obtain ⟨e, he, rfl⟩ := Option.map_eq_some_iff.1 hd
    exact hr.rooted h e he hkind hne
  flagged h d hd := by
    rw [get?_retag] at hd
    obtain ⟨e, he, rfl⟩ := Option.map_eq_some_iff.1 hd
    have hflags := hr.flagged h e he
    exact ⟨hflags.interface, hflags.tagType, hflags.reserved, hflags.nested⟩

theorem linked_retag_iff {g h : Handle} : (r.retag written).Linked g h ↔ r.Linked g h := by
  rw [linked_iff, linked_iff]
  exact exists_retag_iff fun _ _ => Iff.rfl

/-- A registry stays without faults when `retag` writes tags of tag types. -/
theorem fault?_retag (hr : r.Sound) (hchecked : r.fault? = none)
    (hwritten : ∀ h, ∀ t ∈ written h, r.isTagType t.type = true) : (r.retag written).fault? = none := by
  obtain ⟨hlinked, hacyclic⟩ := (fault?_eq_none_iff hr).1 hchecked
  refine (fault?_eq_none_iff (hr.retag written)).2 ⟨fun h d hd => ?_, fun h hcycle => hacyclic h ?_⟩
  · rw [get?_retag] at hd
    obtain ⟨e, he, rfl⟩ := Option.map_eq_some_iff.1 hd
    -- All types keep their kinds, so whatever a declaration pointed to rightly, it still does.
    have hkinds : ∀ g k, (∃ d, (r.retag written).get? g = some d ∧ d.kind = k) ↔
        ∃ d, r.get? g = some d ∧ d.kind = k := fun g k => exists_retag_iff fun _ _ => Iff.rfl
    have he := hlinked h e he
    exact {
      parent := fun g hg => ⟨(he.parent g hg).1, (hkinds g _).2 (he.parent g hg).2⟩
      interfaces := fun g hg => (hkinds g _).2 (he.interfaces g hg)
      enclosing := fun g hg => by
        obtain ⟨f, hf⟩ := he.enclosing g hg
        rw [get?_retag, hf]
        exact ⟨_, rfl⟩
      tags := fun t ht => (hkinds t.type _).2 ((isTagType_iff hr).1 (hwritten h t ht))
      aliases := fun a ha => (hkinds a.target _).2 (he.aliases a ha) }
  · exact Relation.TransGen.mono (fun _ _ => linked_retag_iff.1) h h hcycle

end Registry

namespace Universe

/-- The same universe with other tags, all of them of tag types, by `Registry.retag`. -/
def retag (u : Universe) (written : Handle → List Tag)
    (hwritten : ∀ h, ∀ t ∈ written h, u.isTagType t.type = true) : Universe where
  registry := u.registry.retag written
  sound := u.sound.retag written
  unreserved h d hd := by
    rw [Registry.get?_retag] at hd
    obtain ⟨e, he, rfl⟩ := Option.map_eq_some_iff.1 hd
    exact u.unreserved h e he
  checked := Registry.fault?_retag u.sound u.checked hwritten

/-- `v` declares what `u` declares, with other tags. -/
def Retagged (u : Universe) (written : Handle → List Tag) (v : Universe) : Prop :=
  ∀ h, v.get? h = (u.get? h).map fun d => { d with tags := written h }

section Reserved

variable (u : Universe) {h : Handle}

theorem isReserved_of_infrastructure (hinfra : h ∈ Handle.infrastructure) : u.isReserved h = true := by
  rw [u.isReserved_iff]
  revert hinfra h
  decide

theorem not_infrastructure_of_isReserved (hopen : u.isReserved h = false) : h ∉ Handle.infrastructure :=
  fun hinfra => nomatch hopen.symm.trans (u.isReserved_of_infrastructure hinfra)

end Reserved

/-! ## Two universes that differ in infrastructure tags -/

namespace Retagged

variable {u v : Universe} {written : Handle → List Tag} (hl : ∀ h, Interspersed (u.tags h) (written h))
  (hv : u.Retagged written v)

include hl hv

theorem interspersed (h : Handle) : Interspersed (u.tags h) (v.tags h) := by
  have hwritten := hl h
  unfold tags at hwritten ⊢
  rw [hv h]
  cases hd : u.get? h with
  | none => exact .nil
  | some d =>
      rw [hd] at hwritten
      exact hwritten

theorem openTags_eq (h : Handle) : u.openTags h = v.openTags h := by
  simp only [openTags, u.isReserved_eq v]
  refine (interspersed hl hv h).filter_eq fun t ht => ?_
  rw [v.isReserved_of_infrastructure ht]
  rfl

theorem outline_eq (h : Handle) : u.outline h = v.outline h := by
  rw [outline, outline, ← openTags_eq hl hv, hv h]
  cases u.get? h <;> rfl

theorem tag?_eq {tagType : Handle} (htype : tagType ∉ Handle.infrastructure) (h : Handle) :
    u.tag? h tagType = v.tag? h tagType := by
  refine (interspersed hl hv h).find?_eq fun t ht => decide_eq_false ?_
  rintro rfl
  exact htype ht

theorem container?_eq (tagType : Handle) : u.container? tagType = v.container? tagType := by
  have hrepeatable : Handle.repeatable ∉ Handle.infrastructure := by decide
  rw [container?, container?, tag?_eq hl hv hrepeatable]

/-- All types of a universe that is `Retagged` have the same outlines. -/
theorem overlap : u.Overlap v fun _ => True where
  outline _ := outline_eq hl hv _
  tag _ _ := trivial
  supertype _ _ _ := trivial

theorem sameTagType {tagType : Handle} (htype : tagType ∉ Handle.infrastructure) :
    u.SameTagType v (fun _ => True) tagType where
  outline := outline_eq hl hv tagType
  container := container?_eq hl hv tagType
  tag h _ := tag?_eq hl hv htype h

end Retagged

end Universe

/-! ## Requests to resolvers -/

namespace Resolution

/-- Behind checks that agree, only what is run once they pass has to agree. -/
theorem checked_congr {check check' : Except ResolveError Unit} {x y : Resolution σ α}
    (hcheck : check = check') (hrun : check = .ok () → x = y) :
    (do liftExcept check; x : Resolution σ α) = (do liftExcept check'; y) := by
  subst hcheck
  refine Resolution.ext fun memory => ?_
  rw [run_checked, run_checked]
  cases check with
  | error e => rfl
  | ok _ => rw [hrun rfl]

/-- What a resolution answers has passed its check, whatever is made of the answer. -/
theorem check_of_run_map {check : Except ResolveError Unit} {x : Resolution σ α} {f : α → β} {memory : σ}
    {b : β} (hb : ((do return f (← (do liftExcept check; x)) : Resolution σ β).run memory).1 = .ok b) :
    check = .ok () := by
  rw [run_map, run_checked] at hb
  cases check with
  | error e => cases hb
  | ok _ => rfl

end Resolution

namespace Resolver

/-- The tag types of what `seek` finds are not reserved. -/
theorem isReserved_of_seek {r : Resolver σ} {h : Handle} {goal : Goal} {m : Match} {memory : σ}
    (hm : ((r.seek h goal).run memory).1 = .ok (some m)) :
    ∀ c ∈ goal.tagTypes, r.types.isReserved c = false := by
  cases goal with
  | tag tagType =>
      have hcheck : r.checkTagType tagType = .ok () := Resolution.check_of_run_map hm
      exact List.forall_mem_singleton.2 (r.checkTagType_eq_ok_iff.1 hcheck).2
  | candidate candidates =>
      have hcheck : r.checkCandidates candidates = .ok () := Resolution.check_of_run_map hm
      exact fun c hc => ((r.checkCandidates_eq_ok_iff.1 hcheck).2 c hc).2
  | repeated tagType =>
      have hcheck : r.checkTagType tagType = .ok () := Resolution.check_of_run_map hm
      exact List.forall_mem_singleton.2 (r.checkTagType_eq_ok_iff.1 hcheck).2

theorem Chain.isReserved_eq_false {r : Resolver σ} {h : Handle} {goal : Goal} {m : Match}
    (hm : r.Chain h goal m) : ∀ c ∈ goal.tagTypes, r.types.isReserved c = false := by
  induction hm with
  | first hm => exact isReserved_of_seek hm
  | next _ _ ih => exact ih

end Resolver

namespace Universe.Retagged

open Resolver

variable {u v : Universe} {written : Handle → List Tag} (hl : ∀ h, Interspersed (u.tags h) (written h))
  (hv : u.Retagged written v) (source : ReachSource σ)

include hl hv

theorem findTag_eq (h tagType : Handle) :
    (ofSource u source).findTag h tagType = (ofSource v source).findTag h tagType := by
  have ho := overlap hl hv
  refine Resolution.checked_congr (checkTagType_eq source source (outline_eq hl hv tagType)) fun hok => ?_
  have hopen := ((ofSource u source).checkTagType_eq_ok_iff.1 hok).2
  have htype := sameTagType hl hv (u.not_infrastructure_of_isReserved hopen)
  exact tagFrom_eq ho (fun _ _ => rfl) htype fun _ _ _ => trivial

theorem candidateFrom_eq {candidates : List Handle}
    (hok : (ofSource u source).checkCandidates candidates = .ok ()) (start : Option Handle) :
    (ofSource u source).candidateFrom candidates start = (ofSource v source).candidateFrom candidates start := by
  have hopen := ((ofSource u source).checkCandidates_eq_ok_iff.1 hok).2
  refine Resolver.candidateFrom_eq (overlap hl hv) (fun _ _ => rfl) (fun c hc => ?_) fun _ _ _ => trivial
  exact sameTagType hl hv (u.not_infrastructure_of_isReserved (hopen c hc).2)

theorem checkCandidates_eq (candidates : List Handle) :
    (ofSource u source).checkCandidates candidates = (ofSource v source).checkCandidates candidates :=
  Resolver.checkCandidates_eq source source fun c _ => outline_eq hl hv c

theorem findCandidate_eq (h : Handle) (candidates : List Handle) :
    (ofSource u source).findCandidate h candidates = (ofSource v source).findCandidate h candidates :=
  Resolution.checked_congr (checkCandidates_eq hl hv source candidates) fun hok =>
    candidateFrom_eq hl hv source hok (some h)

theorem repeatedFrom_eq (tagType : Handle) (start : Option Handle) :
    (ofSource u source).repeatedFrom tagType start = (ofSource v source).repeatedFrom tagType start :=
  Resolver.repeatedFrom_eq (overlap hl hv) (fun _ _ => rfl) (outline_eq hl hv tagType)
    (container?_eq hl hv tagType) fun _ _ _ => trivial

theorem findRepeated_eq (h tagType : Handle) :
    (ofSource u source).findRepeated h tagType = (ofSource v source).findRepeated h tagType :=
  Resolution.checked_congr (checkTagType_eq source source (outline_eq hl hv tagType)) fun _ =>
    repeatedFrom_eq hl hv source tagType (some h)

theorem seek_eq (h : Handle) (goal : Goal) :
    (ofSource u source).seek h goal = (ofSource v source).seek h goal := by
  cases goal with
  | tag tagType => rw [seek, seek, findTag_eq hl hv source]
  | candidate candidates => rw [seek, seek, findCandidate_eq hl hv source]
  | repeated tagType => rw [seek, seek, findRepeated_eq hl hv source]

theorem synthesize_eq (m : TagMatch) : (ofSource u source).synthesize m = (ofSource v source).synthesize m :=
  congrArg (Except.mapError ResolveError.synthesis)
    (Universe.synthesize_eq m.merged (outline_eq hl hv m.tag.type) (outline_eq hl hv m.place.root))

theorem findMerged_eq (h tagType : Handle) :
    (ofSource u source).findMerged h tagType = (ofSource v source).findMerged h tagType := by
  simp only [findMerged, findTag_eq hl hv source, synthesize_eq hl hv source]

theorem typedMatch_eq (m : CandidateMatch) :
    (ofSource u source).typedMatch m = (ofSource v source).typedMatch m := by
  rw [typedMatch, typedMatch, checkTagType_eq source source (outline_eq hl hv m.tag.type),
    typed_eq (overlap hl hv) trivial]

theorem above_eq (root : Handle) {resolve resolve' : Option Handle → Resolution σ (Option α)}
    (hresolve : ∀ start, resolve start = resolve' start) :
    (ofSource u source).above root resolve = (ofSource v source).above root resolve' :=
  Resolver.above_eq (overlap hl hv) (fun _ _ => rfl) trivial fun start _ => hresolve start

theorem nextCandidate_eq (m : CandidateMatch) :
    (ofSource u source).nextCandidate m = (ofSource v source).nextCandidate m := by
  unfold nextCandidate
  -- A match may have kept any candidates; those that pass the check are not of infrastructure tag types.
  cases m.candidates with
  | none => rfl
  | some candidates =>
      exact Resolution.checked_congr (checkCandidates_eq hl hv source candidates) fun hok =>
        above_eq hl hv source m.place.root (candidateFrom_eq hl hv source hok)

theorem next_eq {m : Match} (hm : ∀ below, m = .tag below → below.tag.type ∉ Handle.infrastructure) :
    (ofSource u source).next m = (ofSource v source).next m := by
  cases m with
  | tag below =>
      refine Resolver.next_eq (overlap hl hv) (fun _ _ => rfl) trivial ?_
      exact List.forall_mem_singleton.2 (sameTagType hl hv (hm below rfl))
  | candidate below => rw [next, next, nextCandidate_eq hl hv source]
  | repeated below =>
      rw [next, next, nextRepeated, nextRepeated,
        above_eq hl hv source _ (repeatedFrom_eq hl hv source below.tagType)]

/-! ### Merged tags -/

omit source in
theorem firstMergedTags_eq (tagType : Handle) (l : List Handle) :
    u.firstMergedTags tagType l = v.firstMergedTags tagType l := by
  have ho := overlap hl hv
  -- The scans are the same, and so is what is made of each sighting.
  have hlocal : ∀ h, u.localMergedTags h tagType = v.localMergedTags h tagType := by
    intro h
    have hmade : (fun s => u.synthesize (u.merge s) tagType h)
        = fun s => v.synthesize (v.merge s) tagType h := by
      funext s
      rw [ho.merge_eq fun _ _ => trivial,
        Universe.synthesize_eq _ (outline_eq hl hv tagType) (outline_eq hl hv h)]
    rw [localMergedTags, localMergedTags, ho.scan_eq trivial, hmade]
  induction l with
  | nil => rfl
  | cons h rest ih => rw [firstMergedTags, firstMergedTags, hlocal, ih]

theorem allMergedTags_eq (m : TagMatch) :
    (ofSource u source).allMergedTags m = (ofSource v source).allMergedTags m := by
  have hhierarchy := (overlap hl hv).hierarchy_eq (h := m.place.root) fun _ => trivial
  simp only [allMergedTags, types_ofSource, hhierarchy, firstMergedTags_eq hl hv]
  rfl

/-! ### Whatever is asked -/

theorem answer_eq {q : Request} (hq : ∀ m, q = .next (.tag m) → m.tag.type ∉ Handle.infrastructure) :
    (ofSource u source).answer q = (ofSource v source).answer q := by
  cases q with
  | tag h tagType => rw [answer, answer, findTag_eq hl hv source]
  | candidate h candidates => rw [answer, answer, findCandidate_eq hl hv source]
  | repeated h tagType => rw [answer, answer, findRepeated_eq hl hv source]
  | merged h tagType => rw [answer, answer, findMerged_eq hl hv source]
  | next m =>
      have hm : ∀ below, m = .tag below → below.tag.type ∉ Handle.infrastructure :=
        fun below hbelow => hq below (congrArg Request.next hbelow)
      rw [answer, answer, next_eq hl hv source hm]
  | allMerged m => rw [answer, answer, allMergedTags_eq hl hv source]
  | reach h => rfl
  | searchesEnclosing h =>
      have henclosing : u.enclosing? h = v.enclosing? h := by
        rw [enclosing?_outline, enclosing?_outline, outline_eq hl hv]
      simp only [answer, searchesEnclosing, types_ofSource, isNested, henclosing]
      rfl

theorem answerAll_eq {requests : List Request}
    (hrequests : ∀ m, .next (.tag m) ∈ requests → m.tag.type ∉ Handle.infrastructure) (memory : σ) :
    (ofSource u source).answerAll requests memory = (ofSource v source).answerAll requests memory := by
  induction requests generalizing memory with
  | nil => rfl
  | cons q rest ih =>
      have hq := answer_eq hl hv source (q := q) fun m hm => hrequests m (hm ▸ List.mem_cons_self)
      rw [answerAll, answerAll, hq, ih fun m hm => hrequests m (.tail _ hm)]

theorem chain_iff (h : Handle) (goal : Goal) (m : Match) :
    (ofSource u source).Chain h goal m ↔ (ofSource v source).Chain h goal m := by
  -- A goal with a reserved tag type has no chain on either side, so only open ones are compared.
  have hiff (hopen : ∀ c ∈ goal.tagTypes, u.isReserved c = false) :
      (ofSource u source).Chain h goal m ↔ (ofSource v source).Chain h goal m :=
    Resolver.chain_iff (overlap hl hv) (fun _ _ => rfl)
      (fun c hc => sameTagType hl hv (u.not_infrastructure_of_isReserved (hopen c hc))) fun _ => trivial
  constructor
  · intro hm
    exact (hiff hm.isReserved_eq_false).1 hm
  · intro hm
    refine (hiff fun c hc => ?_).2 hm
    rw [u.isReserved_eq v]
    exact hm.isReserved_eq_false c hc

theorem next_eq_of_chain {h : Handle} {goal : Goal} {m : Match} (hm : (ofSource u source).Chain h goal m) :
    (ofSource u source).next m = (ofSource v source).next m := by
  refine next_eq hl hv source ?_
  rintro below rfl
  have hsought := (hm.of_overlap (overlap hl hv) fun _ => trivial).2 below.tag.type List.mem_cons_self
  exact u.not_infrastructure_of_isReserved (hm.isReserved_eq_false _ hsought)

end Universe.Retagged

namespace Universe

/-! ## The main statement -/

/-- Two universes, and resolvers over them that ask one source for the reach of types (`Resolver.ofSource`),
answer alike. -/
structure AnswerAlike (u v : Universe) : Prop where
  hierarchy : ∀ h withEnclosing, u.hierarchy h withEnclosing = v.hierarchy h withEnclosing
  mergedAttributes : ∀ root tagType, u.mergedAttributes root tagType = v.mergedAttributes root tagType
  repeatedTags : ∀ h tagType, u.repeatedTags h tagType = v.repeatedTags h tagType
  nesting? : ∀ h, u.nesting? h = v.nesting? h
  cachedReach : ∀ nesting, u.cachedReach nesting = v.cachedReach nesting
  /-- All requests, one after the other, with the memory that each of them leaves. What is `next` of a match
  for an infrastructure tag is left out: there is no such match. -/
  answerAll : ∀ {σ : Type} (source : ReachSource σ) (requests : List Request) (memory : σ),
    (∀ m, .next (.tag m) ∈ requests → m.tag.type ∉ Handle.infrastructure) →
      (Resolver.ofSource u source).answerAll requests memory
        = (Resolver.ofSource v source).answerAll requests memory
  given : ∀ m, u.Given m ∨ v.Given m → m.tag.type ∉ Handle.infrastructure
  typedMatch : ∀ {σ : Type} (source : ReachSource σ) (m : CandidateMatch),
    (Resolver.ofSource u source).typedMatch m = (Resolver.ofSource v source).typedMatch m
  chain : ∀ {σ : Type} (source : ReachSource σ) (h : Handle) (goal : Goal) (m : Match),
    ((Resolver.ofSource u source).Chain h goal m ↔ (Resolver.ofSource v source).Chain h goal m) ∧
    ((Resolver.ofSource u source).Chain h goal m →
      (Resolver.ofSource u source).next m = (Resolver.ofSource v source).next m)

theorem Given.not_infrastructure {u : Universe} {m : TagMatch} (hm : u.Given m) :
    m.tag.type ∉ Handle.infrastructure :=
  u.not_infrastructure_of_isReserved (isReserved_of_mergedAttributes hm.mergedAttributes)

/-- Tags of `Handle.infrastructure` can be put in among the tags of any declarations, as `Interspersed`
says, and whatever universe is `Retagged` so is not told apart from the one without them, by nothing that
`AnswerAlike` lists. -/
theorem infrastructure_unobserved {u : Universe} {written : Handle → List Tag}
    (hl : ∀ h, Interspersed (u.tags h) (written h)) :
    (∃ v, u.Retagged written v) ∧ ∀ v, u.Retagged written v → u.AnswerAlike v := by
  refine ⟨⟨u.retag written fun h t ht => ?_, fun h => Registry.get?_retag h⟩, fun v hv => ?_⟩
  · rcases (hl h).mem_or t ht with hkept | hinfra
    · exact u.isTagType_of_mem_tags hkept
    · exact u.isTagType_of_isReserved (u.isReserved_of_infrastructure hinfra)
  · have ho := Retagged.overlap hl hv
    exact {
      hierarchy := fun h => ho.hierarchy_eq fun _ => trivial
      mergedAttributes := fun root => ho.mergedAttributes_eq fun _ => trivial
      repeatedTags := fun h tagType => ho.repeatedTags_eq (Retagged.outline_eq hl hv tagType)
        (Retagged.container?_eq hl hv tagType) trivial
      nesting? := fun h => ho.nesting?_eq fun _ => trivial
      cachedReach := fun nesting => by
        have hreach : u.reach nesting = v.reach nesting :=
          funext fun h => ho.reach_eq (fun _ => trivial) nesting
        unfold cachedReach
        rw [hreach]
      answerAll := fun source requests memory hrequests =>
        Retagged.answerAll_eq hl hv source hrequests memory
      given := fun m hm => hm.elim Given.not_infrastructure Given.not_infrastructure
      typedMatch := Retagged.typedMatch_eq hl hv
      chain := fun source h goal m => ⟨Retagged.chain_iff hl hv source h goal m,
        Retagged.next_eq_of_chain hl hv source⟩ }

/-- A room in a house that has a mark. -/
def cottage : Universe :=
  Draft.ofEdits
    [.declare .tagType "a::Mark", .declare .classType "a::House", .declare .classType "a::Room",
      .write (.ofIndex 17) (.tag (.plain (.ofIndex 16))), .write (.ofIndex 18) (.enclosing (.ofIndex 17))]
    (by decide +kernel) (by decide +kernel)

/-- The tags of `cottage`, with two more on the house. -/
def labelledTags : Handle → List Tag :=
  Function.update cottage.tags (.ofIndex 17)
    [(Tag.plain .documented).set "text" (.str "thatched"), .plain (.ofIndex 16), .plain .retention]

/-- The mark of the house is found by `findTag` from the room on, and what is new on the house is still
refused. -/
theorem infrastructure_unobserved_cottage :
    let mark : Handle := .ofIndex 16
    let house : Handle := .ofIndex 17
    let room : Handle := .ofIndex 18
    (∀ h, Interspersed (cottage.tags h) (labelledTags h)) ∧
    ∃ v, cottage.Retagged labelledTags v ∧ (cottage.tags house).length = 1 ∧ (v.tags house).length = 3 ∧
      ((Resolver.cached v .inherit).answerAll [.tag room mark, .merged room .documented]
        (.ofCapacity 1)).map (·.1) = [.ok (.found (some (.tag ⟨.here house, .plain mark, []⟩))),
          .error (.reservedTagType .documented)] := by
  intro mark house room
  have hl : ∀ h, Interspersed (cottage.tags h) (labelledTags h) := by
    intro h
    by_cases hhouse : h = house
    · subst hhouse
      have htags : cottage.tags house = [.plain mark] := by decide +kernel
      rw [labelledTags, Function.update_self, htags]
      exact .insert (by decide) (.keep _ (.insert (by decide) .nil))
    · rw [labelledTags, Function.update_of_ne hhouse]
      exact .refl _
  -- Of the universe with these tags no more is known; its answers are read off the one without them.
  obtain ⟨⟨v, hv⟩, halike⟩ := infrastructure_unobserved hl
  have hsame := halike v hv
  have hanswers := hsame.answerAll (cottage.cachedReach .inherit) [.tag room mark, .merged room .documented]
    (.ofCapacity 1) (by simp)
  refine ⟨hl, v, hv, by decide +kernel, ?_, ?_⟩
  · rw [tags, hv house]
    decide +kernel
  · show ((Resolver.ofSource v (v.cachedReach .inherit)).answerAll _ _).map (·.1) = _
    rw [← hsame.cachedReach, ← hanswers]
    decide +kernel

end Universe

end TagResolution
