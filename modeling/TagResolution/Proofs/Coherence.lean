import TagResolution.Proofs.Anchoring
import TagResolution.Proofs.Construction
import TagResolution.Proofs.Showing

/-!
# Matches without merged attributes

A search follows trails of any shape, merging only such that take interfaces and parents before the
first tag and no enclosing types at all. A tag type that implements an interface, or is nested, lets
a search find at a root what merging does not see from there, and the match is refused with
`missingAttributes`. This happens exactly where a match is anchored at a root that does not show it.
A universe is `Coherent` for a tag type if no root can be of this kind; then, and for sources of
reaches that only depend on the type only then, no search for the tag type fails. `Flat.coherent`
names a shape of declarations that is coherent for every tag type.
-/

namespace TagResolution

variable {σ : Type}

namespace Universe

/-- Every root `Shows` the tags that a trail leads to which is `Anchored` there. -/
def Coherent (u : Universe) (opens : Handle → Prop) (tagType : Handle) : Prop :=
  ∀ root hops g, u.Trail true opens root hops g → (∀ x ∈ hops.head?, x.anchors = true) →
    (∃ t ∈ u.tags g, t.type = tagType) → u.Shows root tagType

/-- A match is refused with `missingAttributes`, as it is anchored at a root that does not show it. -/
def Unshown (u : Universe) (tagType : Handle) (found : Option (Hit Tag)) (e : ResolveError) : Prop :=
  ∃ hit, found = some hit ∧ ¬ u.Shows hit.place.root tagType ∧
    e = .missingAttributes hit.place.root tagType

end Universe

namespace Query

variable {u : Universe} {tagType g : Handle}

theorem of_single_eq_some {t : Tag} (ht : (single u tagType).here? g = some t) :
    t ∈ u.tags g ∧ t.type = tagType :=
  ⟨List.mem_of_find?_eq_some ht, by simpa using List.find?_some ht⟩

theorem isSome_single {t : Tag} (ht : t ∈ u.tags g) (htype : t.type = tagType) :
    ((single u tagType).here? g).isSome :=
  List.find?_isSome.2 ⟨t, ht, by simpa using htype⟩

end Query

namespace Resolver

variable {r : Resolver σ} {tagType : Handle} {start : Option Handle} {memory : σ}

/-! ## Hits for one tag type -/

theorem exists_trail_of_hitFrom {hit : Hit Tag}
    (hf : (r.hitFrom (.single r.types tagType) start memory).1 = some hit) :
    ∃ h hops, r.types.Trail true r.source.Opens h hops hit.place.declaring ∧
      hit.place = Place.along h hops ∧
      hit.found ∈ r.types.tags hit.place.declaring ∧ hit.found.type = tagType := by
  cases start with
  | none => cases hf
  | some h =>
      obtain ⟨hops, htrail, hplace, hfound⟩ := Search.exists_trail_of_find hf
      exact ⟨h, hops, htrail.mono fun _ ho => ho.opens, hplace, Query.of_single_eq_some hfound⟩

/-- In a universe that is `Coherent` the root of a hit shows it. -/
theorem shows_of_coherent (hcoherent : r.types.Coherent r.source.Opens tagType) {hit : Hit Tag}
    (hf : (r.hitFrom (.single r.types tagType) start memory).1 = some hit) :
    r.types.Shows hit.place.root tagType := by
  obtain ⟨h, hops, htrail, hplace, hmem, htype⟩ := exists_trail_of_hitFrom hf
  obtain ⟨_, rest, -, hanchored⟩ := htrail.exists_anchored
  rw [← hplace] at hanchored
  exact hcoherent _ rest _ hanchored.onward hanchored.anchors ⟨hit.found, hmem, htype⟩

theorem not_unshown_of_coherent (hcoherent : r.types.Coherent r.source.Opens tagType)
    (e : ResolveError) :
    ¬ r.types.Unshown tagType (r.hitFrom (.single r.types tagType) start memory).1 e := by
  rintro ⟨hit, hf, hunshown, -⟩
  exact hunshown (shows_of_coherent hcoherent hf)

/-! ## Refused matches -/

theorem typed_eq_error_iff {place : Place} {tag : Tag} {e : ResolveError}
    (hopen : r.types.isReserved tag.type = false) : (r.typed place tag).map some = .error e ↔
      ¬ r.types.Shows place.root tag.type ∧ e = .missingAttributes place.root tag.type := by
  rw [← Universe.isSome_mergedAttributes_iff hopen]
  unfold typed
  cases r.types.mergedAttributes place.root tag.type with
  | none =>
      constructor
      · rintro ⟨⟩
        exact ⟨nofun, rfl⟩
      · rintro ⟨-, rfl⟩
        rfl
  | some merged => exact ⟨nofun, fun hnone => absurd rfl hnone.1⟩

theorem tagFrom_eq_error_iff (hopen : r.types.isReserved tagType = false) {e : ResolveError} :
    ((r.tagFrom tagType start).run memory).1 = .error e ↔
      r.types.Unshown tagType (r.hitFrom (.single r.types tagType) start memory).1 e := by
  rw [run_tagFrom]
  cases hf : r.hitFrom (.single r.types tagType) start memory with
  | mk found after =>
      cases found with
      | none => exact ⟨nofun, fun ⟨_, hnone, _⟩ => by cases hnone⟩
      | some hit =>
          obtain ⟨-, -, -, -, -, htype⟩ := exists_trail_of_hitFrom (congrArg Prod.fst hf)
          show (r.typed hit.place hit.found).map some = .error e ↔ _
          rw [typed_eq_error_iff (htype ▸ hopen), htype]
          constructor
          · intro hunshown
            exact ⟨hit, rfl, hunshown⟩
          · rintro ⟨_, ⟨⟩, hunshown⟩
            exact hunshown

theorem tagFrom_eq_none_iff : ((r.tagFrom tagType start).run memory).1 = .ok none ↔
    (r.hitFrom (.single r.types tagType) start memory).1 = none := by
  rw [run_tagFrom]
  cases r.hitFrom (.single r.types tagType) start memory with
  | mk found after =>
      cases found with
      | none => exact ⟨fun _ => rfl, fun _ => rfl⟩
      | some hit =>
          show (r.typed hit.place hit.found).map some = .ok none ↔ _
          cases r.typed hit.place hit.found <;> exact ⟨nofun, nofun⟩

theorem tagFrom_memory : ((r.tagFrom tagType start).run memory).2 =
    (r.hitFrom (.single r.types tagType) start memory).2 := by
  rw [run_tagFrom]
  cases r.hitFrom (.single r.types tagType) start memory with
  | mk found after => cases found <;> rfl

/-- By `nextTag` the next match fails where the match above, over the parent or else the enclosing type, is
refused (`Unshown`). -/
theorem nextTag_eq_error_iff {m : TagMatch} (hopen : r.types.isReserved m.tag.type = false)
    {e : ResolveError} : ((r.nextTag m).run memory).1 = .error e ↔
      let overParent := r.hitFrom (.single r.types m.tag.type) (r.types.parent? m.place.root) memory
      r.types.Unshown m.tag.type overParent.1 e ∨
        (overParent.1 = none ∧ r.types.isNested m.place.root = true ∧
          (r.source m.place.root overParent.2).1 = .enclosing ∧
          r.types.Unshown m.tag.type (r.hitFrom (.single r.types m.tag.type)
            (r.types.enclosing? m.place.root) (r.source m.place.root overParent.2).2).1 e) := by
  unfold nextTag
  rw [above_eq_error_iff, tagFrom_eq_error_iff hopen, tagFrom_eq_error_iff hopen,
    tagFrom_eq_none_iff, tagFrom_memory]

/-! ## Coherent universes -/

/-- If no search for a tag type fails, whatever is asked, then the universe is `Coherent`: every root shows
what it leads to. -/
theorem coherent_of_tagFrom (u : Universe) (reach : Handle → Reach) (tagType : Handle) (memory : σ)
    (hnever : ∀ h e, ¬ u.Unshown tagType
      (Search.find u (.ofFunction reach) (.single u tagType) h memory).1 e) :
    u.Coherent (reach · = .enclosing) tagType := by
  intro root hops g htrail hanchors hfound
  cases htrail with
  | here hne => exact ⟨[], [], root, .here hne, nofun, nofun, hfound⟩
  | @hop _ _ x rest hne hx hrest =>
      obtain ⟨t, ht, htype⟩ := hfound
      obtain ⟨hit, hhit, hroot⟩ := Search.find_root (q := .single u tagType) memory hne hx
        (hanchors x rfl) hrest (Query.isSome_single ht htype)
      -- The search from the root itself is refused there, if the root does not show the tag.
      by_contra hunshown
      exact hnever root _ ⟨hit, hhit, hroot ▸ hunshown, rfl⟩

end Resolver

/-! ## Flat universes -/

namespace Universe

/-- Tag types implement nothing, and the enclosing types of tag types and interfaces stay closed. -/
structure Flat (u : Universe) (opens : Handle → Prop) : Prop where
  interfaces : ∀ h, u.isTagType h = true → u.interfaces h = []
  enclosing : ∀ h e, u.enclosing? h = some e → opens h →
    u.isTagType h = false ∧ ∀ g, h ∉ u.interfaces g

variable {u : Universe} {opens : Handle → Prop}

theorem parent?_of_isTagType {h : Handle} (hh : u.isTagType h = true) : u.parent? h = none := by
  refine Option.eq_none_iff_forall_ne_some.2 fun p hp => ?_
  obtain ⟨d, hd, hclass⟩ := (u.isClass_of_parent? hp).1
  obtain ⟨e, he, htag⟩ := Universe.isTagType_iff.1 hh
  cases hd.symm.trans he
  cases hclass.symm.trans htag

theorem parent?_of_mem_interfaces {g h : Handle} (hh : h ∈ u.interfaces g) : u.parent? h = none := by
  refine Option.eq_none_iff_forall_ne_some.2 fun p hp => ?_
  obtain ⟨d, hd, hclass⟩ := (u.isClass_of_parent? hp).1
  obtain ⟨e, he, hmem⟩ := u.mem_interfaces.1 hh
  obtain ⟨i, hi, hinterface⟩ := (u.wellLinked g e he).interfaces h hmem
  cases hd.symm.trans hi
  cases hclass.symm.trans hinterface

/-- From a tag type of a `Flat` universe only tags lead on. -/
theorem Flat.trail_of_isTagType (hflat : u.Flat opens) {h g : Handle} {hops : List Hop}
    (htrail : u.Trail true opens h hops g) (hh : u.isTagType h = true) :
    u.Trail true (fun _ => False) h hops g ∧ ∀ x ∈ hops, x.isTag = true := by
  induction htrail with
  | here hne => exact ⟨.here hne, nofun⟩
  | @hop h _ x _ hne hx _ ih =>
      cases x with
      | tag t =>
          obtain ⟨hrest, htags⟩ := ih (u.isTagType_of_mem_tags hx.1)
          exact ⟨.hop hne hx hrest, List.forall_mem_cons.2 ⟨rfl, htags⟩⟩
      | interface i => cases hflat.interfaces h hh ▸ hx.2
      | parent p => cases (parent?_of_isTagType hh).symm.trans hx
      | enclosing e => cases (hflat.enclosing h e hx.1 hx.2).1.symm.trans hh

/-- A `Flat` universe is `Coherent`: the trails that merging follows are all there are from a root. -/
theorem Flat.coherent (hflat : u.Flat opens) (tagType : Handle) : u.Coherent opens tagType := by
  intro root hops g htrail hanchors hfound
  -- What is found at the end of the trail does not matter for its shape.
  suffices hsorted : ∃ links tags, u.Trail true (fun _ => False) root (links ++ tags) g ∧
      (∀ x ∈ links, x.isTag = false) ∧ ∀ x ∈ tags, x.isTag = true by
    obtain ⟨links, tags, hsorted, hlinks, htags⟩ := hsorted
    exact ⟨links, tags, g, hsorted, hlinks, htags, hfound⟩
  clear hfound
  induction htrail with
  | here hne => exact ⟨[], [], .here hne, nofun, nofun⟩
  | @hop h _ x rest hne hx hrest ih =>
      cases x with
      | tag t =>
          obtain ⟨hrest, htags⟩ := hflat.trail_of_isTagType hrest (u.isTagType_of_mem_tags hx.1)
          refine ⟨[], .tag t :: rest, .hop hne hx hrest, nofun, ?_⟩
          exact List.forall_mem_cons.2 ⟨rfl, htags⟩
      | interface i =>
          -- An interface has no parent and, as the universe is flat, leaves for no enclosing type.
          have hnext : ∀ x ∈ rest.head?, x.anchors = true := by
            intro x hx'
            cases hrest with
            | here => cases hx'
            | @hop _ _ y _ _ hy _ =>
                cases hx'
                cases x with
                | tag t => rfl
                | interface j => rfl
                | parent p => cases (parent?_of_mem_interfaces hx.2).symm.trans hy
                | enclosing e => exact absurd hx.2 ((hflat.enclosing i e hy.1 hy.2).2 h)
          obtain ⟨links, tags, hsorted, hlinks, htags⟩ := ih hnext
          refine ⟨.interface i :: links, tags, .hop hne hx hsorted, ?_, htags⟩
          exact List.forall_mem_cons.2 ⟨rfl, hlinks⟩
      | parent p => cases hanchors _ rfl
      | enclosing e => cases hanchors _ rfl

end Universe

/-! ## When a match is refused -/

namespace Resolver

/-- A search for a tag type that is not reserved fails exactly where the match is anchored at a root that
does not show it (`Unshown`), by `findTag` as by `nextTag`. This never happens in a universe that is
`Coherent`, and for a source that only depends on the type it never happens in no other. -/
theorem missingAttributes_iff (r : Resolver σ) {tagType : Handle}
    (htagType : r.types.isTagType tagType = true ∧ r.types.isReserved tagType = false) :
    (∀ h memory e, ((r.findTag h tagType).run memory).1 = .error e ↔
      r.types.Unshown tagType (r.hitFrom (.single r.types tagType) (some h) memory).1 e) ∧
    (∀ (m : TagMatch), m.tag.type = tagType → ∀ memory e,
      ((r.nextTag m).run memory).1 = .error e ↔
        let overParent := r.hitFrom (.single r.types tagType) (r.types.parent? m.place.root) memory
        r.types.Unshown tagType overParent.1 e ∨
          (overParent.1 = none ∧ r.types.isNested m.place.root = true ∧
            (r.source m.place.root overParent.2).1 = .enclosing ∧
            r.types.Unshown tagType (r.hitFrom (.single r.types tagType)
              (r.types.enclosing? m.place.root) (r.source m.place.root overParent.2).2).1 e)) ∧
    (r.types.Coherent r.source.Opens tagType →
      (∀ h memory, ∃ answer, ((r.findTag h tagType).run memory).1 = .ok answer) ∧
      ∀ (m : TagMatch), m.tag.type = tagType → ∀ memory,
        ∃ answer, ((r.nextTag m).run memory).1 = .ok answer) ∧
    (∀ reach memory, r.source = .ofFunction reach →
      (∀ h, ∃ answer, ((r.findTag h tagType).run memory).1 = .ok answer) →
      r.types.Coherent (reach · = .enclosing) tagType) := by
  have hfind : ∀ h memory e, ((r.findTag h tagType).run memory).1 = .error e ↔
      r.types.Unshown tagType (r.hitFrom (.single r.types tagType) (some h) memory).1 e := by
    intro h memory e
    rw [run_findTag, r.checkTagType_eq_ok_iff.2 htagType]
    exact tagFrom_eq_error_iff htagType.2
  refine ⟨hfind, ?_, ?_, ?_⟩
  · rintro m rfl memory e
    exact nextTag_eq_error_iff htagType.2
  · intro hcoherent
    refine ⟨fun h memory => ?_, ?_⟩
    · refine Resolution.exists_ok fun e he => ?_
      exact not_unshown_of_coherent hcoherent e ((hfind h memory e).1 he)
    · rintro m rfl memory
      refine Resolution.exists_ok fun e he => ?_
      rcases (nextTag_eq_error_iff htagType.2).1 he with habove | ⟨-, -, -, habove⟩
      · exact not_unshown_of_coherent hcoherent e habove
      · exact not_unshown_of_coherent hcoherent e habove
  · rintro reach memory hsource hnever
    refine coherent_of_tagFrom r.types reach tagType memory fun h e hunshown => ?_
    obtain ⟨answer, hanswer⟩ := hnever h
    have herror := (hfind h memory e).2 (by rw [← hsource] at hunshown; exact hunshown)
    cases hanswer.symm.trans herror

/-- A class has a tag of a tag type that implements an interface, and the interface has a tag of
another one. The class leads to that tag, but it does not show it. -/
def crossed : Universe :=
  Draft.ofEdits
    [.declare .tagType "a::Far", .declare .tagType "a::Near", .declare .interface "a::Interface",
      .declare .classType "a::Class",
      .write (.ofIndex 18) (.tag (.plain (.ofIndex 16))),
      .write (.ofIndex 17) (.interface (.ofIndex 18)),
      .write (.ofIndex 19) (.tag (.plain (.ofIndex 17)))]
    (by decide +kernel) (by decide +kernel)

/-- A search in a universe without faults, such as `crossed`, can fail. -/
theorem findTag_crossed :
    crossed.isTagType (.ofIndex 16) = true ∧ crossed.isReserved (.ofIndex 16) = false ∧
    (((ofReach (σ := Unit) crossed fun _ => .hierarchy).findTag (.ofIndex 19) (.ofIndex 16)).run ()).1
      = .error (.missingAttributes (.ofIndex 19) (.ofIndex 16)) := by
  decide +kernel

theorem missingAttributes_crossed :
    (crossed.isTagType (.ofIndex 16) = true ∧ crossed.isReserved (.ofIndex 16) = false) ∧
    crossed.Unshown (.ofIndex 16)
      (Search.find crossed (.ofFunction fun _ => .hierarchy) (.single crossed (.ofIndex 16))
        (.ofIndex 19) ()).1
      (.missingAttributes (.ofIndex 19) (.ofIndex 16)) := by
  have htagType : crossed.isTagType (.ofIndex 16) = true ∧ crossed.isReserved (.ofIndex 16) = false := by
    decide +kernel
  refine ⟨htagType, ?_⟩
  have hiff := (missingAttributes_iff (ofReach (σ := Unit) crossed fun _ => .hierarchy) htagType).1
    (.ofIndex 19) () (.missingAttributes (.ofIndex 19) (.ofIndex 16))
  exact hiff.1 (by decide +kernel)

end Resolver

end TagResolution
