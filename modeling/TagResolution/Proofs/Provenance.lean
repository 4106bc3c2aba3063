import TagResolution.Proofs.Anchoring

/-!
# Where matches come from

A match says where it is anchored, where it is declared and through which tag it was reached. Behind
these stands a trail: from the start over parents and enclosing types to the root, from there on over
tags and interfaces first, to the type that declares what was found. The tag through which the match
was reached is the first one on the trail, wherever on the trail that is.

The main statement is `matches_justified`, for every search and for the three kinds of matches.
-/

namespace TagResolution

variable {σ : Type}

namespace Hop

/-- The tag that a hop leads over. -/
def tag? : Hop → Option Tag
  | .tag t => some t
  | .interface _ => none
  | .parent _ => none
  | .enclosing _ => none

theorem tag?_eq_none_iff {x : Hop} : x.tag? = none ↔ x.isTag = false := by
  cases x <;> simp [tag?, isTag]

end Hop

/-- The tag `composed` through which a match was reached is the first one on its trail. -/
theorem Place.composed_along (h : Handle) (hops : List Hop) :
    (Place.along h hops).composed = hops.findSome? Hop.tag? := by
  induction hops generalizing h with
  | nil => rfl
  | cons x rest ih =>
      have hrest := ih x.target
      cases x with
      | tag t => rfl
      | _ => exact hrest

namespace Universe

/-! ## Justified places -/

/-- A place is right for what a `Trail` leads to: the trail falls into two parts at the root, ends at the
declaring type, and its first tag is the one through which the match was reached. -/
structure Justified (u : Universe) (throughInterfaces : Bool) (opens : Handle → Prop) (h : Handle)
    (place : Place) (rise rest : List Hop) : Prop where
  anchored : u.Anchored throughInterfaces opens h place.root place.declaring rise rest
  composed : place.composed = (rise ++ rest).findSome? Hop.tag?

/-- A tag is the first one of its type that is written on a type. -/
def FirstTag (u : Universe) (h tagType : Handle) (t : Tag) : Prop :=
  ∃ before after, u.tags h = before ++ t :: after ∧ t.type = tagType ∧ ∀ s ∈ before, s.type ≠ tagType

variable {u : Universe} {throughInterfaces : Bool} {opens : Handle → Prop}

theorem Justified.composed_eq_none_iff {h : Handle} {place : Place} {rise rest : List Hop}
    (hj : u.Justified throughInterfaces opens h place rise rest) :
    place.composed = none ↔ ∀ x ∈ rise ++ rest, x.isTag = false := by
  simp only [hj.composed, List.findSome?_eq_none_iff, Hop.tag?_eq_none_iff]

theorem tag?_eq_some_iff {h tagType : Handle} {t : Tag} :
    u.tag? h tagType = some t ↔ u.FirstTag h tagType t := by
  unfold tag? FirstTag
  rw [List.find?_eq_some_iff_append]
  constructor
  · rintro ⟨htype, before, after, htags, hbefore⟩
    exact ⟨before, after, htags, by simpa using htype, by simpa using hbefore⟩
  · rintro ⟨before, after, htags, htype, hbefore⟩
    exact ⟨by simpa using htype, before, after, htags, by simpa using hbefore⟩

/-- A trail that does not go through interfaces has no hop `Hop.interface`. -/
theorem Trail.ne_interface {h g : Handle} {hops : List Hop} (htrail : u.Trail false opens h hops g) :
    ∀ x ∈ hops, ∀ i, x ≠ .interface i := by
  induction htrail with
  | here _ => nofun
  | hop _ hx _ ih =>
      refine List.forall_mem_cons.2 ⟨?_, ih⟩
      rintro i rfl
      cases hx.1

end Universe

namespace Query

theorem of_anyOf_eq_some {u : Universe} {candidates : List Handle} {g : Handle} {t : Tag}
    (ht : (anyOf u candidates).here? g = some t) :
    u.FirstTag g t.type t ∧ ∃ before after, candidates = before ++ t.type :: after ∧
      ∀ c ∈ before, ∀ s ∈ u.tags g, s.type ≠ c := by
  obtain ⟨before, c, after, hsplit, hfound, hbefore⟩ := List.findSome?_eq_some_iff.1 ht
  have hfirst := Universe.tag?_eq_some_iff.1 hfound
  obtain ⟨-, -, -, rfl, -⟩ := id hfirst
  refine ⟨hfirst, before, after, hsplit, fun b hb s hs => ?_⟩
  exact single_eq_none_iff.1 (hbefore b hb) s hs

theorem of_repeated_eq_some {collect : Handle → Handle → List Tag} {tagType g : Handle}
    {found : { tags : List Tag // tags ≠ [] }} (hf : (repeated collect tagType).here? g = some found) :
    found.1 = collect g tagType := by
  by_cases hne : collect g tagType ≠ []
  · cases (dif_pos hne).symm.trans hf
    rfl
  · cases (dif_neg hne).symm.trans hf

end Query

/-! ## Matches of a resolver -/

namespace Search

variable {α : Type} {u : Universe} {source : ReachSource σ} {q : Query α}

theorem exists_justified_of_find {h : Handle} {memory : σ} {hit : Hit α}
    (hf : (find u source q h memory).1 = some hit) :
    ∃ rise rest, u.Justified q.throughInterfaces (source.OpensAfter memory) h hit.place rise rest ∧
      q.here? hit.place.declaring = some hit.found := by
  obtain ⟨hops, htrail, hplace, hfound⟩ := exists_trail_of_find hf
  obtain ⟨rise, rest, rfl, hanchored⟩ := htrail.exists_anchored
  rw [← hplace] at hanchored
  refine ⟨rise, rest, ⟨hanchored, ?_⟩, hfound⟩
  rw [hplace, Place.composed_along]

end Search

namespace Resolver

theorem exists_justified_of_hitFrom {α : Type} {r : Resolver σ} {q : Query α} {start : Option Handle}
    {memory : σ} {hit : Hit α} (hf : (r.hitFrom q start memory).1 = some hit) :
    ∃ h rise rest, start = some h ∧
      r.types.Justified q.throughInterfaces (r.source.OpensAfter memory) h hit.place rise rest ∧
      q.here? hit.place.declaring = some hit.found := by
  cases start with
  | none => cases hf
  | some h =>
      obtain ⟨rise, rest, hjustified, hfound⟩ := Search.exists_justified_of_find hf
      exact ⟨h, rise, rest, rfl, hjustified, hfound⟩

/-- Every match of `Search.find` is genuine, its place `Justified` by a trail. From the start a trail leads
to the type that declares what was found, over parents and enclosing types to the root and on from there,
and the tag through which the match was reached is the first one on it. What was found is the first tag of
the type that was looked for, or of the first candidate that is declared there, or all tags of a type that
may be repeated. -/
theorem matches_justified (u : Universe) (source : ReachSource σ) (h : Handle) (memory : σ) :
    (∀ (α : Type) (q : Query α) hit, (Search.find u source q h memory).1 = some hit →
      ∃ rise rest, u.Justified q.throughInterfaces (source.OpensAfter memory) h hit.place rise rest ∧
        (hit.place.composed = none ↔ ∀ x ∈ rise ++ rest, x.isTag = false) ∧
        q.here? hit.place.declaring = some hit.found) ∧
    (∀ tagType m, (((ofSource u source).findTag h tagType).run memory).1 = .ok (some m) →
      ∃ rise rest, u.Justified true (source.OpensAfter memory) h m.place rise rest ∧
        u.FirstTag m.place.declaring tagType m.tag) ∧
    (∀ candidates m, (((ofSource u source).findCandidate h candidates).run memory).1 = .ok (some m) →
      ∃ rise rest, u.Justified true (source.OpensAfter memory) h m.place rise rest ∧
        u.FirstTag m.place.declaring m.tag.type m.tag ∧
        ∃ before after, candidates = before ++ m.tag.type :: after ∧
          ∀ c ∈ before, ∀ t ∈ u.tags m.place.declaring, t.type ≠ c) ∧
    (∀ tagType m, (((ofSource u source).findRepeated h tagType).run memory).1 = .ok (some m) →
      ∃ rise rest, u.Justified false (source.OpensAfter memory) h m.place rise rest ∧
        (∀ x ∈ rise ++ rest, ∀ i, x ≠ .interface i) ∧ m.tagType = tagType ∧
        m.tags = u.repeatedTags m.place.declaring tagType ∧ m.tags ≠ []) := by
  refine ⟨?_, ?_, ?_, ?_⟩
  · intro α q hit hf
    obtain ⟨rise, rest, hjustified, hfound⟩ := Search.exists_justified_of_find hf
    exact ⟨rise, rest, hjustified, hjustified.composed_eq_none_iff, hfound⟩
  · intro tagType m hm
    obtain ⟨hit, hf, hplace, htag⟩ := exists_hit_of_findTag _ hm
    obtain ⟨rise, rest, hjustified, hfound⟩ := Search.exists_justified_of_find hf
    rw [hplace, htag]
    exact ⟨rise, rest, hjustified, Universe.tag?_eq_some_iff.1 hfound⟩
  · intro candidates m hm
    obtain ⟨hit, hf, rfl⟩ := exists_hit_of_findCandidate _ hm
    obtain ⟨rise, rest, hjustified, hfound⟩ := Search.exists_justified_of_find hf
    exact ⟨rise, rest, hjustified, Query.of_anyOf_eq_some hfound⟩
  · intro tagType m hm
    obtain ⟨hit, hf, rfl⟩ := exists_hit_of_findRepeated _ hm
    obtain ⟨rise, rest, hjustified, hfound⟩ := Search.exists_justified_of_find hf
    refine ⟨rise, rest, hjustified, ?_, rfl, Query.of_repeated_eq_some hfound, hit.found.2⟩
    intro x hx
    rcases List.mem_append.1 hx with hx | hx
    · exact hjustified.anchored.ascent.ne_interface x hx
    · exact hjustified.anchored.onward.ne_interface x hx

/-- A class extends one that implements an interface. The interface has a tag, and the type of that
tag has another one. -/
def layered : Universe :=
  Draft.ofEdits
    [.declare .tagType "a::Far", .declare .tagType "a::Near", .declare .interface "a::Interface",
      .declare .classType "a::Base", .declare .classType "a::Derived",
      .write (.ofIndex 17) (.tag (.plain (.ofIndex 16))),
      .write (.ofIndex 18) (.tag (.plain (.ofIndex 17))),
      .write (.ofIndex 19) (.interface (.ofIndex 18)),
      .write (.ofIndex 20) (.parent (.ofIndex 19))]
    (by decide +kernel) (by decide +kernel)

/-- The trail leads over the parent to the root, over its interface and over the tag of `layered`. -/
theorem matches_justified_layered :
    let source : ReachSource Unit := .ofFunction fun _ => .hierarchy
    let m : CandidateMatch :=
      ⟨⟨.ofIndex 19, .ofIndex 17, some (.plain (.ofIndex 17))⟩, .plain (.ofIndex 16),
        some [.ofIndex 16]⟩
    (((ofSource layered source).findCandidate (.ofIndex 20) [.ofIndex 16]).run ()).1
      = .ok (some m) ∧
    ∃ rise rest, layered.Justified true (source.OpensAfter ()) (.ofIndex 20) m.place rise rest ∧
      layered.FirstTag (.ofIndex 17) (.ofIndex 16) (.plain (.ofIndex 16)) := by
  intro source m
  have hfound : (((ofSource layered source).findCandidate (.ofIndex 20) [.ofIndex 16]).run ()).1
      = .ok (some m) := by
    decide +kernel
  obtain ⟨-, -, hcandidate, -⟩ := matches_justified layered source (.ofIndex 20) ()
  obtain ⟨rise, rest, hjustified, hfirst, -⟩ := hcandidate [.ofIndex 16] m hfound
  exact ⟨hfound, rise, rest, hjustified, hfirst⟩

end Resolver

end TagResolution
