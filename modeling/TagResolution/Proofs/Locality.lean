import TagResolution.Proofs.Agreement
import TagResolution.Proofs.Inheritance
import TagResolution.Proofs.Coherence
import TagResolution.Proofs.Showing
import TagResolution.Proofs.Succession
import TagResolution.Proofs.Termination

/-!
# What a resolution depends on

A resolution asks for declarations by handle, one after the other: those of the types that its hops lead to,
that of the tag type that is looked for, and those of the types in hierarchies and behind tags. None of
these lies outside the reach of the start. So two universes that say the same about all types within reach,
and about what is looked for, give the same answers and the same errors, and they leave the source of
reaches with the same memory, whatever else they declare.

The main statement is `Resolver.resolution_local`. It is assembled from lemmas about any types `P` that
two universes say the same about, as long as these lead to such types only.
-/

namespace TagResolution

variable {σ α β γ : Type}

namespace Universe

/-! ## Types within reach -/

/-- The types that are `Reachable` from `h`, whatever the reach of the types on the way is. -/
def Reaches (u : Universe) (h g : Handle) : Prop := u.Reachable true (fun _ => True) h g

variable {u v : Universe} {P : Handle → Prop}

theorem Offers.target_of_supertypes {h g : Handle} (hg : g ∈ u.supertypes true h) :
    ∃ x : Hop, u.Offers true (fun _ => True) h x ∧ x.target = g := by
  simp only [supertypes, List.mem_append, Option.mem_toList, if_true] at hg
  rcases hg with (hi | hp) | he
  · exact ⟨.interface g, ⟨rfl, hi⟩, rfl⟩
  · exact ⟨.parent g, hp, rfl⟩
  · exact ⟨.enclosing g, ⟨he, trivial⟩, rfl⟩

/-- One more hop from a type within reach leads to one within reach. -/
theorem Reaches.step {h f : Handle} {x : Hop} (hreach : u.Reaches h f)
    (hx : u.Offers true (fun _ => True) f x) (hne : x.target ≠ .object) : u.Reaches h x.target := by
  obtain ⟨hops, htrail⟩ := hreach
  induction htrail with
  | here hf => exact .hop hf hx (.here hne)
  | hop hh hy _ ih => exact .hop hh hy (ih hx)

/-- A list that all `hops` from its types stay in has all that is within `Reaches`. -/
theorem Reaches.mem_of_closed {l : List Handle} {h g : Handle} (hreach : u.Reaches h g) (hh : h ∈ l)
    (hclosed : ∀ f ∈ l, ∀ x ∈ u.hops true f, x.target = .object ∨ x.target ∈ l) : g ∈ l := by
  obtain ⟨hops, htrail⟩ := hreach
  induction htrail with
  | here _ => exact hh
  | hop _ hx hrest ih =>
      rcases hclosed _ hh _ hx.mem_hops with hobject | hmem
      · exact absurd hobject hrest.ne_object
      · exact ih hmem

/-- Universes with the same declarations within `Reaches` have an `Overlap` there. -/
theorem overlap_of_reaches {s : Handle} (hshared : ∀ g, u.Reaches s g → u.get? g = v.get? g) :
    u.Overlap v (u.Reaches s) where
  outline hh := outline_eq_of_get?_eq (hshared _ hh)
  tag hh ht := by
    have hne := u.ne_object_of_isTagType (u.isTagType_of_mem_tags (u.mem_openTags.1 ht).1)
    exact hh.step (x := .tag _) (u.mem_openTags.1 ht) hne
  supertype hh hg hne := by
    obtain ⟨x, hx, rfl⟩ := Offers.target_of_supertypes hg
    exact hh.step hx hne

namespace Overlap

variable (ho : u.Overlap v P)

include ho

/-- In an `Overlap` hops that one universe `Offers` stay among the types that both say the same about. -/
theorem offers {throughInterfaces : Bool} {opens : Handle → Prop} {h : Handle} {x : Hop} (hh : P h)
    (hx : u.Offers throughInterfaces opens h x) (hne : x.target ≠ .object) : P x.target := by
  cases x with
  | tag t => exact ho.tag hh (u.mem_openTags.2 hx)
  | interface i => exact ho.supertype hh (by simp [supertypes, hx.2, Hop.target]) hne
  | parent p =>
      have hp : u.parent? h = some p := hx
      exact ho.supertype hh (by simp [supertypes, hp, Hop.target]) hne
  | enclosing e => exact ho.supertype hh (by simp [supertypes, hx.1, Hop.target]) hne

theorem parent {h : Handle} (hh : P h) : ∀ p ∈ u.parent? h, p ≠ .object → P p := fun p hp hne =>
  have hoffer : u.Offers true (fun _ => True) h (.parent p) := hp
  ho.offers hh hoffer hne

theorem enclosing {h : Handle} (hh : P h) : ∀ e ∈ u.enclosing? h, e ≠ .object → P e := fun e he hne =>
  have hoffer : u.Offers true (fun _ => True) h (.enclosing e) := ⟨he, trivial⟩
  ho.offers hh hoffer hne

theorem trail {throughInterfaces : Bool} {opens : Handle → Prop} {h g : Handle} {hops : List Hop}
    (hh : h ≠ .object → P h) (htrail : u.Trail throughInterfaces opens h hops g) : P g := by
  induction htrail with
  | here hne => exact hh hne
  | hop hne hx _ ih => exact ih fun htarget => ho.offers (hh hne) hx htarget

theorem hops_eq {h : Handle} (hh : P h) (throughInterfaces : Bool) :
    u.hops throughInterfaces h = v.hops throughInterfaces h := by
  simp only [hops, ho.openTags_eq hh, interfaces_outline, parent?_outline, enclosing?_outline,
    ho.outline hh]

end Overlap

end Universe

/-! ## Searches -/

namespace Search

/-- Elements that are answered alike lead to the same first hit. -/
theorem firstHit_congr {π : Type} {f g : β → π → Option γ × π} {l : List β}
    (hfg : ∀ x ∈ l, ∀ p, f x p = g x p) (p : π) : firstHit f l p = firstHit g l p := by
  induction l generalizing p with
  | nil => rfl
  | cons x rest ih =>
      have hrest : ∀ p, firstHit f rest p = firstHit g rest p :=
        ih fun y hy => hfg y (List.mem_cons_of_mem _ hy)
      simp only [firstHit, hfg x List.mem_cons_self, hrest]

theorem follow_congr {source source' : ReachSource σ}
    {go go' : Handle → Progress σ → Option (Hit α) × Progress σ} {h : Handle} {x : Hop}
    (hsource : source h = source' h) (hgo : ∀ p, go x.target p = go' x.target p) (p : Progress σ) :
    follow source go h x p = follow source' go' h x p := by
  have henter : enter source h x p = enter source' h x p := by
    cases x <;> simp only [enter, hsource]
  simp only [follow, henter, hgo]

variable {u v : Universe} {P : Handle → Prop} {source source' : ReachSource σ} {q q' : Query α}

/-- A bound beyond `searchBound` finds the same as `find`. -/
theorem find_of_searchBound_le {bound : Nat} (hbound : u.searchBound ≤ bound) (h : Handle) (memory : σ) :
    find u source q h memory =
      ((visitWithin u source q bound h ⟨.empty, memory⟩).1,
        (visitWithin u source q bound h ⟨.empty, memory⟩).2.memory) := by
  apply find_of_runs
  apply runs_visitWithin
  exact Nat.lt_of_lt_of_le (load_lt_searchBound .empty h) hbound

section Overlapping

variable (ho : u.Overlap v P) (hsource : ∀ h, P h → source h = source' h)
  (hhere : ∀ h, P h → q.here? h = q'.here? h) (hthrough : q.throughInterfaces = q'.throughInterfaces)

include ho hsource hhere hthrough

theorem visitWithin_eq (bound : Nat) {h : Handle} (hh : h ≠ .object → P h) (p : Progress σ) :
    visitWithin u source q bound h p = visitWithin v source' q' bound h p := by
  induction bound generalizing h p with
  | zero => rfl
  | succ bound ih =>
      by_cases hobject : h = .object
      · simp [visitWithin, visit, hobject]
      · have hPh := hh hobject
        -- Both visits try the same hops in the same order, each with what the one before it left.
        have hhops : ∀ x ∈ u.hops q.throughInterfaces h, ∀ p,
            follow source (visitWithin u source q bound) h x p
              = follow source' (visitWithin v source' q' bound) h x p := by
          intro x hx
          have hoffer := Universe.mem_hops.1 hx
          exact follow_congr (hsource h hPh) fun p => ih (fun hne => ho.offers hPh hoffer hne) p
        simp only [visitWithin, visit, if_neg hobject, hhere h hPh]
        cases q'.here? h with
        | some found => rfl
        | none =>
            show firstHit _ (u.hops q.throughInterfaces h) p = firstHit _ _ p
            rw [firstHit_congr hhops, ho.hops_eq hPh, hthrough]

/-- From a type of an `Overlap`, `find` finds the same for queries that find the same there. -/
theorem find_eq {h : Handle} (hh : h ≠ .object → P h) (memory : σ) :
    find u source q h memory = find v source' q' h memory := by
  rw [find_of_searchBound_le (Nat.le_max_left u.searchBound v.searchBound),
    find_of_searchBound_le (Nat.le_max_right u.searchBound v.searchBound),
    visitWithin_eq ho hsource hhere hthrough _ hh]

end Overlapping

end Search

/-! ## What is looked for -/

/-- What `Resolver.seek` is asked for. -/
inductive Goal where
  | tag (tagType : Handle)
  | candidate (candidates : List Handle)
  | repeated (tagType : Handle)

/-- The tag types that are looked for. -/
def Goal.tagTypes : Goal → List Handle
  | .tag tagType => [tagType]
  | .candidate candidates => candidates
  | .repeated tagType => [tagType]

/-- The tag types that `Resolver.next` looks for above a match. -/
def Match.tagTypes : Match → List Handle
  | .tag m => [m.tag.type]
  | .candidate m => m.candidates.getD []
  | .repeated m => [m.tagType]

namespace Resolver

/-- The first match for a goal, by the `find` request that belongs to it. -/
def seek (r : Resolver σ) (h : Handle) : Goal → Resolution σ (Option Match)
  | .tag tagType => return (← r.findTag h tagType).map .tag
  | .candidate candidates => return (← r.findCandidate h candidates).map .candidate
  | .repeated tagType => return (← r.findRepeated h tagType).map .repeated

/-- The matches that one comes to from a type on: the first one, by `seek`, and the `next` one above each.
Before any of them the memory of the source of reaches may have become any other. -/
inductive Chain (r : Resolver σ) (h : Handle) (goal : Goal) : Match → Prop where
  | first {memory : σ} {m : Match} : ((r.seek h goal).run memory).1 = .ok (some m) → Chain r h goal m
  | next {below m : Match} {memory : σ} : Chain r h goal below →
      ((r.next below).run memory).1 = .ok (some m) → Chain r h goal m

end Resolver

namespace Universe

/-- Two universes say the same about a tag type that is looked for: about its declaration, its container and
its tags on some types. -/
structure SameTagType (u v : Universe) (P : Handle → Prop) (tagType : Handle) : Prop where
  outline : u.outline tagType = v.outline tagType
  container : u.container? tagType = v.container? tagType
  tag : ∀ h, P h → u.tag? h tagType = v.tag? h tagType

theorem sameTagType_of_get?_eq {u v : Universe} {P : Handle → Prop} {tagType : Handle}
    (hshared : ∀ h, P h → u.get? h = v.get? h) (htype : u.get? tagType = v.get? tagType) :
    u.SameTagType v P tagType where
  outline := outline_eq_of_get?_eq htype
  container := by simp only [container?, tag?, tags, htype]
  tag h hh := by simp only [tag?, tags, hshared h hh]

end Universe

/-- Resolutions that run alike from every memory are the same. -/
theorem Resolution.ext {x y : Resolution σ α} (hrun : ∀ memory, x.run memory = y.run memory) : x = y :=
  funext hrun

namespace Resolver

section Overlapping

variable {u v : Universe} {P : Handle → Prop} {source source' : ReachSource σ} {tagType root : Handle}
  {start : Option Handle} (ho : u.Overlap v P) (hsource : ∀ h, P h → source h = source' h)

theorem types_ofSource (u : Universe) (source : ReachSource σ) : (ofSource u source).types = u := rfl

theorem checkTagType_eq {τ : Type} (source : ReachSource σ) (source' : ReachSource τ)
    (htype : u.outline tagType = v.outline tagType) :
    (ofSource u source).checkTagType tagType = (ofSource v source').checkTagType tagType := by
  have hkind : u.isTagType tagType = v.isTagType tagType := by
    rw [Universe.isTagType_outline, Universe.isTagType_outline, htype]
  unfold checkTagType
  show (if !u.isTagType tagType then _ else if u.isReserved tagType then _ else _) = _
  rw [hkind, u.isReserved_eq v]
  rfl

theorem checkCandidates_eq (source source' : ReachSource σ) {candidates : List Handle}
    (htypes : ∀ c ∈ candidates, u.outline c = v.outline c) :
    (ofSource u source).checkCandidates candidates = (ofSource v source').checkCandidates candidates := by
  have hchecks : candidates.forM (ofSource u source).checkTagType
      = candidates.forM (ofSource v source').checkTagType := by
    induction candidates with
    | nil => rfl
    | cons c rest ih =>
        rw [List.forall_mem_cons] at htypes
        show ((ofSource u source).checkTagType c >>= fun _ => rest.forM _)
          = ((ofSource v source').checkTagType c >>= fun _ => rest.forM _)
        rw [checkTagType_eq source source' htypes.1, ih htypes.2]
  cases candidates with
  | nil => rfl
  | cons c rest => exact hchecks

theorem forall_mem_some {h : Handle} (hh : h ≠ .object → P h) : ∀ g ∈ some h, g ≠ .object → P g := by
  rintro g ⟨⟩
  exact hh

include ho

theorem typed_eq {place : Place} (hroot : P place.root) (tag : Tag) :
    (ofSource u source).typed place tag = (ofSource v source').typed place tag := by
  have hmerged : u.mergedAttributes place.root tag.type = v.mergedAttributes place.root tag.type :=
    ho.mergedAttributes_eq (fun _ => hroot) tag.type
  simp only [typed, ofSource, hmerged]

/-- In an `Overlap` a hit of `hitFrom` is anchored at a type of the overlap. -/
theorem root_of_hitFrom {q : Query α} {memory : σ} {hit : Hit α}
    (hstart : ∀ h ∈ start, h ≠ .object → P h)
    (hf : ((ofSource u source).hitFrom q start memory).1 = some hit) : P hit.place.root := by
  obtain ⟨h, rise, rest, rfl, hjustified, -⟩ := exists_justified_of_hitFrom hf
  exact ho.trail (hstart h rfl) hjustified.anchored.ascent

/-- What `above` finds is found from the parent or the enclosing type, both of which stay in an `Overlap`. -/
theorem of_above {resolve : Option Handle → Resolution σ (Option α)} {good : α → Prop} (hroot : P root)
    (hresolve : ∀ start : Option Handle, (∀ h ∈ start, h ≠ .object → P h) → ∀ memory found,
      ((resolve start).run memory).1 = .ok (some found) → good found) {memory : σ} {found : α}
    (hf : (((ofSource u source).above root resolve).run memory).1 = .ok (some found)) : good found := by
  rcases ((ofSource u source).above_eq_iff (by nofun)).1 hf with hparent | ⟨-, -, -, henclosing⟩
  · exact hresolve _ (ho.parent hroot) _ _ hparent
  · exact hresolve _ (ho.enclosing hroot) _ _ henclosing

theorem of_tagFrom (hstart : ∀ h ∈ start, h ≠ .object → P h) (memory : σ) (m : TagMatch)
    (hm : (((ofSource u source).tagFrom tagType start).run memory).1 = .ok (some m)) :
    P m.place.root ∧ m.tag.type = tagType := by
  obtain ⟨hit, hf, htyped⟩ := (ofSource u source).exists_typed_of_tagFrom hm
  obtain ⟨hplace, htag, -⟩ := (ofSource u source).of_typed_eq_ok htyped
  obtain ⟨-, -, -, -, -, hfound⟩ := exists_justified_of_hitFrom hf
  rw [hplace, htag]
  exact ⟨root_of_hitFrom ho hstart hf, (Query.of_single_eq_some hfound).2⟩

theorem of_candidateFrom {candidates : List Handle} (hstart : ∀ h ∈ start, h ≠ .object → P h) (memory : σ)
    (m : CandidateMatch)
    (hm : (((ofSource u source).candidateFrom candidates start).run memory).1 = .ok (some m)) :
    P m.place.root ∧ m.candidates = some candidates := by
  obtain ⟨hit, hf, rfl⟩ := (ofSource u source).exists_hit_of_candidateFrom hm
  exact ⟨root_of_hitFrom ho hstart hf, rfl⟩

theorem of_repeatedFrom (hstart : ∀ h ∈ start, h ≠ .object → P h) (memory : σ) (m : RepeatedMatch)
    (hm : (((ofSource u source).repeatedFrom tagType start).run memory).1 = .ok (some m)) :
    P m.place.root ∧ m.tagType = tagType := by
  obtain ⟨hit, hf, rfl⟩ := (ofSource u source).exists_hit_of_repeatedFrom hm
  exact ⟨root_of_hitFrom ho hstart hf, rfl⟩

/-- A match that `seek` finds is anchored in the `Overlap`, and is of what was looked for. -/
theorem of_seek {h : Handle} {goal : Goal} (hh : h ≠ .object → P h) {memory : σ} {m : Match}
    (hm : (((ofSource u source).seek h goal).run memory).1 = .ok (some m)) :
    P m.place.root ∧ ∀ c ∈ m.tagTypes, c ∈ goal.tagTypes := by
  have hstart := forall_mem_some hh
  cases goal with
  | tag tagType =>
      rw [seek, Resolution.run_map] at hm
      obtain ⟨found, hfound, rfl⟩ := exists_of_map_eq_ok hm
      obtain ⟨hroot, htype⟩ := of_tagFrom ho hstart _ _ (Resolution.run_checked_eq_ok_iff.1 hfound).2
      exact ⟨hroot, by simp [Match.tagTypes, Goal.tagTypes, htype]⟩
  | candidate candidates =>
      rw [seek, Resolution.run_map] at hm
      obtain ⟨found, hfound, rfl⟩ := exists_of_map_eq_ok hm
      obtain ⟨hroot, hkept⟩ := of_candidateFrom ho hstart _ _ (Resolution.run_checked_eq_ok_iff.1 hfound).2
      exact ⟨hroot, by simp [Match.tagTypes, Goal.tagTypes, hkept]⟩
  | repeated tagType =>
      rw [seek, Resolution.run_map] at hm
      obtain ⟨found, hfound, rfl⟩ := exists_of_map_eq_ok hm
      obtain ⟨hroot, htype⟩ := of_repeatedFrom ho hstart _ _ (Resolution.run_checked_eq_ok_iff.1 hfound).2
      exact ⟨hroot, by simp [Match.tagTypes, Goal.tagTypes, htype]⟩

/-- A match that `next` finds is anchored in the `Overlap`, and is of what was looked for. -/
theorem of_next {below m : Match} (hroot : P below.place.root) {memory : σ}
    (hm : (((ofSource u source).next below).run memory).1 = .ok (some m)) :
    P m.place.root ∧ ∀ c ∈ m.tagTypes, c ∈ below.tagTypes := by
  cases below with
  | tag below =>
      rw [next, Resolution.run_map] at hm
      obtain ⟨found, hfound, rfl⟩ := exists_of_map_eq_ok hm
      obtain ⟨hroot, htype⟩ := of_above ho hroot (fun start hstart => of_tagFrom ho hstart) hfound
      exact ⟨hroot, by simp [Match.tagTypes, htype]⟩
  | candidate below =>
      rw [next, Resolution.run_map] at hm
      obtain ⟨found, hfound, rfl⟩ := exists_of_map_eq_ok hm
      obtain ⟨candidates, hkept, habove⟩ := (ofSource u source).exists_above_of_nextCandidate hfound
      obtain ⟨hroot, hkept'⟩ := of_above ho hroot (fun start hstart => of_candidateFrom ho hstart) habove
      exact ⟨hroot, by simp [Match.tagTypes, hkept, hkept']⟩
  | repeated below =>
      rw [next, Resolution.run_map] at hm
      obtain ⟨found, hfound, rfl⟩ := exists_of_map_eq_ok hm
      obtain ⟨hroot, htype⟩ := of_above ho hroot (fun start hstart => of_repeatedFrom ho hstart) hfound
      exact ⟨hroot, by simp [Match.tagTypes, htype]⟩

/-- All matches of a `Chain` are anchored in the `Overlap`, and are of what was looked for. -/
theorem Chain.of_overlap {h : Handle} {goal : Goal} (hh : h ≠ .object → P h) {m : Match}
    (hm : (ofSource u source).Chain h goal m) :
    P m.place.root ∧ ∀ c ∈ m.tagTypes, c ∈ goal.tagTypes := by
  induction hm with
  | first hm => exact of_seek ho hh hm
  | next _ hm ih =>
      obtain ⟨hroot, htypes⟩ := of_next ho ih.1 hm
      exact ⟨hroot, fun c hc => ih.2 c (htypes c hc)⟩

include hsource

theorem hitFrom_eq {q q' : Query α} (hhere : ∀ h, P h → q.here? h = q'.here? h)
    (hthrough : q.throughInterfaces = q'.throughInterfaces) (hstart : ∀ h ∈ start, h ≠ .object → P h)
    (memory : σ) :
    (ofSource u source).hitFrom q start memory = (ofSource v source').hitFrom q' start memory := by
  cases start with
  | none => rfl
  | some h => exact Search.find_eq ho hsource hhere hthrough (hstart h rfl) memory

/-! ### Finding -/

theorem tagFrom_eq (htype : u.SameTagType v P tagType) (hstart : ∀ h ∈ start, h ≠ .object → P h) :
    (ofSource u source).tagFrom tagType start = (ofSource v source').tagFrom tagType start := by
  have hhere : ∀ h, P h → (Query.single u tagType).here? h = (Query.single v tagType).here? h :=
    htype.tag
  refine Resolution.ext fun memory => ?_
  have hhit := hitFrom_eq ho hsource hhere rfl hstart memory
  rw [run_tagFrom, run_tagFrom, types_ofSource, types_ofSource, ← hhit]
  cases hf : (ofSource u source).hitFrom (.single u tagType) start memory with
  | mk found after =>
      cases found with
      | none => rfl
      | some hit =>
          have hroot := root_of_hitFrom ho hstart (congrArg Prod.fst hf)
          exact congrArg (fun m => (Except.map some m, after)) (typed_eq ho hroot hit.found)

theorem candidateFrom_eq {candidates : List Handle} (htypes : ∀ c ∈ candidates, u.SameTagType v P c)
    (hstart : ∀ h ∈ start, h ≠ .object → P h) :
    (ofSource u source).candidateFrom candidates start
      = (ofSource v source').candidateFrom candidates start := by
  have hhere : ∀ h, P h → (Query.anyOf u candidates).here? h = (Query.anyOf v candidates).here? h :=
    fun h hh => findSome?_congr fun c hc => (htypes c hc).tag h hh
  refine Resolution.ext fun memory => ?_
  have hhit := hitFrom_eq ho hsource hhere rfl hstart memory
  rw [run_candidateFrom, run_candidateFrom]
  exact congrArg (fun answer : Option (Hit Tag) × σ =>
    (Except.ok (answer.1.map fun hit => (⟨hit.place, hit.found, some candidates⟩ : CandidateMatch)),
      answer.2)) hhit

theorem repeatedFrom_eq (houtline : u.outline tagType = v.outline tagType)
    (hcontainer : u.container? tagType = v.container? tagType) (hstart : ∀ h ∈ start, h ≠ .object → P h) :
    (ofSource u source).repeatedFrom tagType start = (ofSource v source').repeatedFrom tagType start := by
  have hhere : ∀ h, P h → (Query.repeated u.repeatedTags tagType).here? h
      = (Query.repeated v.repeatedTags tagType).here? h := by
    intro h hh
    simp only [Query.repeated, ho.repeatedTags_eq houtline hcontainer hh]
  refine Resolution.ext fun memory => ?_
  have hhit := hitFrom_eq ho hsource hhere rfl hstart memory
  rw [run_repeatedFrom, run_repeatedFrom]
  exact congrArg (fun answer : Option (Hit { tags : List Tag // tags ≠ [] }) × σ =>
    (Except.ok (answer.1.map fun hit => (⟨hit.place, tagType, hit.found.1, hit.found.2⟩ : RepeatedMatch)),
      answer.2)) hhit

theorem findTag_eq {h : Handle} (htype : u.SameTagType v P tagType) (hh : h ≠ .object → P h) :
    (ofSource u source).findTag h tagType = (ofSource v source').findTag h tagType := by
  simp only [findTag, checkTagType_eq source source' htype.outline,
    tagFrom_eq ho hsource htype (forall_mem_some hh)]

/-- In an `Overlap` `seek` finds the same where the universes agree on the tag types by `SameTagType`. -/
theorem seek_eq {h : Handle} {goal : Goal} (htypes : ∀ c ∈ goal.tagTypes, u.SameTagType v P c)
    (hh : h ≠ .object → P h) : (ofSource u source).seek h goal = (ofSource v source').seek h goal := by
  have hstart := forall_mem_some hh
  cases goal with
  | tag tagType => simp only [seek, findTag_eq ho hsource (htypes tagType List.mem_cons_self) hh]
  | candidate candidates =>
      have htypes : ∀ c ∈ candidates, u.SameTagType v P c := htypes
      simp only [seek, findCandidate, checkCandidates_eq source source' fun c hc => (htypes c hc).outline,
        candidateFrom_eq ho hsource htypes hstart]
  | repeated tagType =>
      have htype := htypes tagType List.mem_cons_self
      simp only [seek, findRepeated, checkTagType_eq source source' htype.outline,
        repeatedFrom_eq ho hsource htype.outline htype.container hstart]

/-! ### From a match on -/

/-- Above a type of an `Overlap` the searches of `above` find the same. -/
theorem above_eq {resolve resolve' : Option Handle → Resolution σ (Option α)} (hroot : P root)
    (hresolve : ∀ start : Option Handle, (∀ h ∈ start, h ≠ .object → P h) → resolve start = resolve' start) :
    (ofSource u source).above root resolve = (ofSource v source').above root resolve' := by
  have hparent : u.parent? root = v.parent? root := by
    rw [Universe.parent?_outline, Universe.parent?_outline, ho.outline hroot]
  have henclosing : u.enclosing? root = v.enclosing? root := by
    rw [Universe.enclosing?_outline, Universe.enclosing?_outline, ho.outline hroot]
  have hasks : (ofSource u source).searchesEnclosing root = (ofSource v source').searchesEnclosing root := by
    simp only [searchesEnclosing, reach, ofSource, Universe.isNested, henclosing, hsource root hroot]
    rfl
  simp only [above, types_ofSource, ← hparent, ← henclosing, hasks, hresolve _ (ho.parent hroot),
    hresolve _ (ho.enclosing hroot)]

theorem next_eq {m : Match} (hroot : P m.place.root) (htypes : ∀ c ∈ m.tagTypes, u.SameTagType v P c) :
    (ofSource u source).next m = (ofSource v source').next m := by
  cases m with
  | tag m =>
      have htype := htypes m.tag.type List.mem_cons_self
      have habove : (ofSource u source).above m.place.root ((ofSource u source).tagFrom m.tag.type)
          = (ofSource v source').above m.place.root ((ofSource v source').tagFrom m.tag.type) :=
        above_eq ho hsource hroot fun start hstart => tagFrom_eq ho hsource htype hstart
      simp only [next, nextTag, habove]
  | candidate m =>
      cases hkept : m.candidates with
      | none => simp only [next, nextCandidate, hkept]
      | some candidates =>
          have htypes : ∀ c ∈ candidates, u.SameTagType v P c := by
            simpa [Match.tagTypes, hkept] using htypes
          have habove : (ofSource u source).above m.place.root ((ofSource u source).candidateFrom candidates)
              = (ofSource v source').above m.place.root ((ofSource v source').candidateFrom candidates) :=
            above_eq ho hsource hroot fun start hstart => candidateFrom_eq ho hsource htypes hstart
          simp only [next, nextCandidate, hkept, habove,
            checkCandidates_eq source source' fun c hc => (htypes c hc).outline]
  | repeated m =>
      have htype := htypes m.tagType List.mem_cons_self
      have habove : (ofSource u source).above m.place.root ((ofSource u source).repeatedFrom m.tagType)
          = (ofSource v source').above m.place.root ((ofSource v source').repeatedFrom m.tagType) :=
        above_eq ho hsource hroot fun start hstart =>
          repeatedFrom_eq ho hsource htype.outline htype.container hstart
      simp only [next, nextRepeated, habove]

/-- Resolvers over an `Overlap` have the same `Chain` of matches. -/
theorem chain_iff {h : Handle} {goal : Goal} (htypes : ∀ c ∈ goal.tagTypes, u.SameTagType v P c)
    (hh : h ≠ .object → P h) {m : Match} :
    (ofSource u source).Chain h goal m ↔ (ofSource v source').Chain h goal m := by
  have hnext : ∀ {below}, (ofSource u source).Chain h goal below →
      (ofSource u source).next below = (ofSource v source').next below := by
    intro below hbelow
    obtain ⟨hroot, hsought⟩ := hbelow.of_overlap ho hh
    exact next_eq ho hsource hroot fun c hc => htypes c (hsought c hc)
  constructor
  · intro hm
    induction hm with
    | first hm => exact .first (seek_eq ho hsource htypes hh ▸ hm)
    | next hbelow hm ih => exact .next ih (hnext hbelow ▸ hm)
  · intro hm
    induction hm with
    | first hm => exact .first (seek_eq ho hsource htypes hh ▸ hm)
    | next _ hm ih => exact .next ih (hnext ih ▸ hm)

/-- The tag that `findMerged` completes is the same in an `Overlap`. -/
theorem findMerged_eq {h : Handle} (htype : u.SameTagType v P tagType) (hh : h ≠ .object → P h) :
    (ofSource u source).findMerged h tagType = (ofSource v source').findMerged h tagType := by
  refine Resolution.ext fun memory => ?_
  rw [findMerged, findMerged, Resolution.run_bind, Resolution.run_bind, ← findTag_eq ho hsource htype hh]
  cases hf : ((ofSource u source).findTag h tagType).run memory with
  | mk answer after =>
      rcases answer with e | _ | m
      · rfl
      · rfl
      · have hm := (Resolution.run_checked_eq_ok_iff.1 (congrArg Prod.fst hf)).2
        obtain ⟨hroot, hsought⟩ := of_tagFrom ho (forall_mem_some hh) _ _ hm
        have hsynthesize : (ofSource u source).synthesize m = (ofSource v source').synthesize m := by
          simp only [synthesize, types_ofSource, hsought,
            Universe.synthesize_eq m.merged htype.outline (ho.outline hroot)]
        simp only [hsynthesize]

end Overlapping

/-! ## Locality -/

/-- A resolution depends only on the declarations that its start `Reaches` and on those of the tag types
that are looked for (`SameTagType`). Where two universes agree on these, `reach` is the same, with a cache
or without; and with sources of reaches that answer alike, so are the match or the error of `seek`, the tag
of `findMerged`, all matches of a `Chain` and the `next` one above each, and the memory that is left by
each. -/
theorem resolution_local {u v : Universe} {s : Handle}
    (hshared : ∀ g, u.Reaches s g → u.get? g = v.get? g) :
    (∀ nesting g, g = .object ∨ u.Reaches s g →
      u.reach nesting g = v.reach nesting g ∧ u.cachedReach nesting g = v.cachedReach nesting g) ∧
    ∀ {σ : Type} (source source' : ReachSource σ),
      (∀ g, g = .object ∨ u.Reaches s g → source g = source' g) →
      (ofSource u source).reach s = (ofSource v source').reach s ∧
      ∀ goal : Goal, (∀ c ∈ goal.tagTypes, u.get? c = v.get? c) →
        (ofSource u source).seek s goal = (ofSource v source').seek s goal ∧
        (∀ tagType ∈ goal.tagTypes,
          (ofSource u source).findMerged s tagType = (ofSource v source').findMerged s tagType) ∧
        (∀ m, (ofSource u source).Chain s goal m ↔ (ofSource v source').Chain s goal m) ∧
        ∀ m, (ofSource u source).Chain s goal m →
          (ofSource u source).next m = (ofSource v source').next m := by
  have ho := Universe.overlap_of_reaches hshared
  have hs : s ≠ .object → u.Reaches s s := .here
  refine ⟨fun nesting g hg => ?_, fun source source' hsource => ?_⟩
  · have hreach : u.reach nesting g = v.reach nesting g :=
      ho.reach_eq (fun hne => hg.resolve_left hne) nesting
    refine ⟨hreach, funext fun c => ?_⟩
    simp only [Universe.cachedReach, hreach]
  · have hwithin : ∀ g, u.Reaches s g → source g = source' g := fun g hg => hsource g (.inr hg)
    refine ⟨?_, fun goal hgoal => ?_⟩
    · have hstart : source s = source' s := by
        by_cases hobject : s = .object
        · exact hsource s (.inl hobject)
        · exact hsource s (.inr (hs hobject))
      simp only [reach, ofSource, hstart]
    · have htypes : ∀ c ∈ goal.tagTypes, u.SameTagType v (u.Reaches s) c := fun c hc =>
        Universe.sameTagType_of_get?_eq hshared (hgoal c hc)
      refine ⟨seek_eq ho hwithin htypes hs, fun c hc => findMerged_eq ho hwithin (htypes c hc) hs,
        fun m => chain_iff ho hwithin htypes hs, fun m hm => ?_⟩
      obtain ⟨hroot, hsought⟩ := hm.of_overlap ho hs
      exact next_eq ho hwithin hroot fun c hc => htypes c (hsought c hc)

/-- A room in a house, a tag of which has a mark, next to a shed. The edits of `hamlet`. -/
def hamletEdits : List Draft.Edit :=
  [.declare .tagType "a::Mark", .declare .tagType "a::Meta", .declare .classType "a::House",
    .declare .classType "a::Room", .declare .classType "a::Shed",
    .write (.ofIndex 17) (.tag (.plain (.ofIndex 16))), .write (.ofIndex 18) (.tag (.plain (.ofIndex 17))),
    .write (.ofIndex 19) (.enclosing (.ofIndex 18))]

def hamlet : Universe := Draft.ofEdits hamletEdits (by decide +kernel) (by decide +kernel)

/-- As `hamlet`, but the shed has a mark of its own, stands in the house and opens to a yard. -/
def village : Universe :=
  Draft.ofEdits
    (hamletEdits ++ [.declare .interface "a::Yard", .write (.ofIndex 20) (.interface (.ofIndex 21)),
      .write (.ofIndex 20) (.tag (.plain (.ofIndex 16))), .write (.ofIndex 20) (.enclosing (.ofIndex 18))])
    (by decide +kernel) (by decide +kernel)

/-- The shed and the yard, by which `hamlet` and `village` differ, have no part in what is found from the
room on. -/
theorem resolution_local_village :
    (∀ g, hamlet.Reaches (.ofIndex 19) g → hamlet.get? g = village.get? g) ∧
    hamlet.get? (.ofIndex 20) ≠ village.get? (.ofIndex 20) ∧
    (cached hamlet .inherit).seek (.ofIndex 19) (.tag (.ofIndex 16))
      = (cached village .inherit).seek (.ofIndex 19) (.tag (.ofIndex 16)) ∧
    (((cached village .inherit).seek (.ofIndex 19) (.tag (.ofIndex 16))).run (.ofCapacity 1)).1
      = .ok (some (.tag ⟨⟨.ofIndex 18, .ofIndex 17, some (.plain (.ofIndex 17))⟩, .plain (.ofIndex 16), []⟩)) := by
  have hshared : ∀ g, hamlet.Reaches (.ofIndex 19) g → hamlet.get? g = village.get? g := by
    intro g hg
    -- No hop leads out of these four types.
    have hmem := hg.mem_of_closed (l := [.ofIndex 16, .ofIndex 17, .ofIndex 18, .ofIndex 19])
      (by decide) (by decide +kernel)
    clear hg
    revert g
    decide +kernel
  obtain ⟨hreach, hsame⟩ := resolution_local hshared
  obtain ⟨-, hgoal⟩ := hsame (hamlet.cachedReach .inherit) (village.cachedReach .inherit)
    fun g hg => (hreach .inherit g hg).2
  obtain ⟨hseek, -⟩ := hgoal (.tag (.ofIndex 16)) (by decide +kernel)
  exact ⟨hshared, by decide +kernel, hseek, by decide +kernel⟩

end Resolver

end TagResolution
