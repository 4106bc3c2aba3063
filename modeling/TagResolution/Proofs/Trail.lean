import TagResolution.Proofs.Rank

/-!
# Trails

A trail is a chain of hops that a search may take: over tags that are not reserved, over interfaces
if they are searched, over parents, and over enclosing types where the reach allows. It never enters
the universal root. A trail says where a match at its end is placed: `Place.along` anchors it hop by
hop, from the end to the beginning.

The main statement is `exists_trail_of_find`: every hit of a search has a trail from the start to
the type that declares it, and is placed along that trail. Where the trail leads to an enclosing type,
the source of reaches has allowed that with a memory that it comes to from the one it had in the
beginning.
-/

namespace TagResolution

/-! ## Trails -/

namespace Hop

/-- Whether a hop leads over a tag. -/
def isTag : Hop → Bool
  | .tag _ => true
  | .interface _ => false
  | .parent _ => false
  | .enclosing _ => false

end Hop

namespace Universe

/-- The hops that lead on from a type, where `opens` holds of the types whose enclosing type is
searched. -/
def Offers (u : Universe) (throughInterfaces : Bool) (opens : Handle → Prop) (h : Handle) : Hop → Prop
  | .tag t => t ∈ u.tags h ∧ u.isReserved t.type = false
  | .interface i => throughInterfaces = true ∧ i ∈ u.interfaces h
  | .parent p => u.parent? h = some p
  | .enclosing e => u.enclosing? h = some e ∧ opens h

/-- A chain of hops that types `Offers`, between two types, that never enters the universal root. -/
inductive Trail (u : Universe) (throughInterfaces : Bool) (opens : Handle → Prop) :
    Handle → List Hop → Handle → Prop where
  | here {h : Handle} : h ≠ .object → Trail u throughInterfaces opens h [] h
  | hop {h g : Handle} {x : Hop} {rest : List Hop} : h ≠ .object →
      u.Offers throughInterfaces opens h x → Trail u throughInterfaces opens x.target rest g →
      Trail u throughInterfaces opens h (x :: rest) g

/-- Whether some `Trail` leads from one type to another. -/
def Reachable (u : Universe) (throughInterfaces : Bool) (opens : Handle → Prop) (h g : Handle) : Prop :=
  ∃ hops, u.Trail throughInterfaces opens h hops g

variable {u : Universe} {throughInterfaces : Bool} {opens : Handle → Prop}

theorem mem_hops {h : Handle} {x : Hop} :
    x ∈ u.hops throughInterfaces h ↔ u.Offers throughInterfaces (fun _ => True) h x := by
  cases x <;> cases throughInterfaces <;> simp [hops, Offers, mem_openTags]

theorem Offers.mem_hops {h : Handle} {x : Hop} (hx : u.Offers throughInterfaces opens h x) :
    x ∈ u.hops throughInterfaces h := by
  refine Universe.mem_hops.2 ?_
  cases x with
  | enclosing e => exact ⟨hx.1, trivial⟩
  | _ => exact hx

theorem Offers.mono {opens' : Handle → Prop} (himp : ∀ h, opens h → opens' h) {h : Handle} {x : Hop}
    (hx : u.Offers throughInterfaces opens h x) : u.Offers throughInterfaces opens' h x := by
  cases x with
  | enclosing e => exact ⟨hx.1, himp h hx.2⟩
  | _ => exact hx

namespace Trail

theorem ne_object {h g : Handle} {hops : List Hop} (ht : u.Trail throughInterfaces opens h hops g) :
    h ≠ .object := by
  cases ht with
  | here hne => exact hne
  | hop hne => exact hne

theorem mono {opens' : Handle → Prop} (himp : ∀ h, opens h → opens' h) {h g : Handle}
    {hops : List Hop} (ht : u.Trail throughInterfaces opens h hops g) :
    u.Trail throughInterfaces opens' h hops g := by
  induction ht with
  | here hne => exact .here hne
  | hop hne hx _ ih => exact .hop hne (hx.mono himp) ih

end Trail

end Universe

/-! ## Places along a trail -/

/-- The place of a match that is found at the end of a chain of hops, hop by hop by `Place.after`. -/
def Place.along (h : Handle) : List Hop → Place
  | [] => .here h
  | x :: rest => (Place.along x.target rest).after h x

/-! ## Sources of reaches -/

namespace ReachSource

variable {σ : Type} {source : ReachSource σ}

/-- A source of reaches answers `Reach.enclosing`, with some memory. -/
def Opens (source : ReachSource σ) (h : Handle) : Prop :=
  ∃ memory, (source h memory).1 = .enclosing

/-- A source that has one memory has another one later, when it was asked about types in between. -/
def Later (source : ReachSource σ) : σ → σ → Prop :=
  Relation.ReflTransGen fun before after => ∃ h, (source h before).2 = after

/-- A source of reaches answers `Reach.enclosing`, with a memory that it comes to from a given one
(`Later`). -/
def OpensAfter (source : ReachSource σ) (memory : σ) (h : Handle) : Prop :=
  ∃ later, source.Later memory later ∧ (source h later).1 = .enclosing

theorem Later.ask (memory : σ) (h : Handle) : source.Later memory (source h memory).2 :=
  .single ⟨h, rfl⟩

theorem OpensAfter.opens {memory : σ} {h : Handle} (ho : source.OpensAfter memory h) :
    source.Opens h := by
  obtain ⟨later, -, ho⟩ := ho
  exact ⟨later, ho⟩

theorem OpensAfter.of_later {memory later : σ} {h : Handle} (hl : source.Later memory later)
    (ho : source.OpensAfter later h) : source.OpensAfter memory h := by
  obtain ⟨last, hlast, ho⟩ := ho
  exact ⟨last, hl.trans hlast, ho⟩

theorem eq_of_opens_ofFunction {reach : Handle → Reach} {h : Handle}
    (ho : (ofFunction (σ := σ) reach).Opens h) : reach h = .enclosing := by
  obtain ⟨_, ho⟩ := ho
  exact ho

end ReachSource

namespace Search

variable {σ α : Type} {u : Universe} {source : ReachSource σ} {q : Query α}

/-- A tag that was visited before is passed over by `enter`. -/
theorem enter_visited {h : Handle} {t : Tag} {p : Progress σ} (ht : t ∈ p.visited) :
    enter source h (.tag t) p = (false, p) :=
  if_pos ht

theorem enter_new {h : Handle} {t : Tag} {p : Progress σ} (ht : t ∉ p.visited) :
    enter source h (.tag t) p = (true, { p with visited := p.visited.insert t }) :=
  if_neg ht

theorem later_enter (source : ReachSource σ) (h : Handle) (x : Hop) (p : Progress σ) :
    source.Later p.memory (enter source h x p).2.memory := by
  cases x with
  | tag t =>
      by_cases ht : t ∈ p.visited
      · rw [enter_visited ht]
        exact .refl
      · rw [enter_new ht]
        exact .refl
  | interface i => exact .refl
  | parent g => exact .refl
  | enclosing e => exact .ask p.memory h

theorem later_follow {go : Handle → Progress σ → Option (Hit α) × Progress σ} {h : Handle} {x : Hop}
    (hgo : ∀ p, source.Later p.memory (go x.target p).2.memory) (p : Progress σ) :
    source.Later p.memory (follow source go h x p).2.memory := by
  have henter := later_enter source h x p
  unfold follow
  split
  · next he =>
    rw [he] at henter
    exact henter
  · next entered he =>
    rw [he] at henter
    exact henter.trans (hgo entered)

theorem later_firstHit {f : Hop → Progress σ → Option (Hit α) × Progress σ} {l : List Hop}
    (hf : ∀ x p, source.Later p.memory (f x p).2.memory) (p : Progress σ) :
    source.Later p.memory (firstHit f l p).2.memory := by
  induction l generalizing p with
  | nil => exact .refl
  | cons x rest ih =>
      have hhead := hf x p
      unfold firstHit
      split
      · next hx =>
        rw [hx] at hhead
        exact hhead
      · next after hx =>
        rw [hx] at hhead
        exact hhead.trans (ih after)

/-- A search by `visitWithin` only changes the memory of the source by asking it. -/
theorem later_visitWithin (bound : Nat) (h : Handle) (p : Progress σ) :
    source.Later p.memory (visitWithin u source q bound h p).2.memory := by
  induction bound generalizing h p with
  | zero => exact .refl
  | succ bound ih =>
      unfold visitWithin visit
      split
      · exact .refl
      · split
        · exact .refl
        · exact later_firstHit (fun x p => later_follow (fun p => ih x.target p) p) p

/-! ## Hits have trails -/

theorem exists_of_firstHit_eq_some {f : Hop → Progress σ → Option (Hit α) × Progress σ} {l : List Hop}
    (hlater : ∀ x p, source.Later p.memory (f x p).2.memory) {p p' : Progress σ} {hit : Hit α}
    (hf : firstHit f l p = (some hit, p')) :
    ∃ x ∈ l, ∃ before, source.Later p.memory before.memory ∧ f x before = (some hit, p') := by
  induction l generalizing p with
  | nil => cases hf
  | cons x rest ih =>
      have hhead := hlater x p
      unfold firstHit at hf
      split at hf
      · next hx =>
        cases hf
        exact ⟨x, .head _, p, .refl, hx⟩
      · next hx =>
        rw [hx] at hhead
        obtain ⟨y, hy, before, hbefore, hfound⟩ := ih hf
        exact ⟨y, .tail _ hy, before, hhead.trans hbefore, hfound⟩

/-- A hop that `enter` takes is one that the type `Offers`. -/
theorem offers_of_enter {h : Handle} {x : Hop} {p p' : Progress σ}
    (hx : x ∈ u.hops q.throughInterfaces h) (he : enter source h x p = (true, p')) :
    u.Offers q.throughInterfaces (source.OpensAfter p.memory) h x := by
  have hoffer := Universe.mem_hops.1 hx
  cases x with
  | enclosing e =>
      refine ⟨hoffer.1, p.memory, .refl, ?_⟩
      have hopen := congrArg Prod.fst he
      simpa [enter] using hopen
  | _ => exact hoffer

theorem exists_of_follow_eq_some {go : Handle → Progress σ → Option (Hit α) × Progress σ}
    {h : Handle} {x : Hop} {p p' : Progress σ} {hit : Hit α}
    (hf : follow source go h x p = (some hit, p')) :
    ∃ entered inner, enter source h x p = (true, entered) ∧ go x.target entered = (some inner, p') ∧
      hit = { inner with place := inner.place.after h x } := by
  unfold follow at hf
  split at hf
  · cases hf
  · next entered he =>
    cases hgo : go x.target entered with
    | mk found after =>
        rw [hgo] at hf
        cases found with
        | none => cases hf
        | some inner =>
            cases hf
            exact ⟨entered, inner, he, hgo, rfl⟩

/-- A hit of `visitWithin` is at the type itself, or the type has nothing and the hit is found behind one of
its hops. -/
theorem of_visitWithin_eq_some {bound : Nat} {h : Handle} {p p' : Progress σ} {hit : Hit α}
    (hv : visitWithin u source q (bound + 1) h p = (some hit, p')) :
    h ≠ .object ∧
      ((hit.place = .here h ∧ q.here? h = some hit.found) ∨
        (q.here? h = none ∧ ∃ x ∈ u.hops q.throughInterfaces h, ∃ before entered inner,
          source.Later p.memory before.memory ∧ enter source h x before = (true, entered) ∧
            visitWithin u source q bound x.target entered = (some inner, p') ∧
            hit = { inner with place := inner.place.after h x })) := by
  unfold visitWithin visit at hv
  split at hv
  · cases hv
  · next hne =>
    refine ⟨hne, ?_⟩
    split at hv
    · next found hfound =>
      cases hv
      exact .inl ⟨rfl, hfound⟩
    · next hhere =>
      have hlater : ∀ x (p : Progress σ), source.Later p.memory
          (follow source (visitWithin u source q bound) h x p).2.memory :=
        fun x p => later_follow (fun p => later_visitWithin bound x.target p) p
      obtain ⟨x, hx, before, hbefore, hfollow⟩ := exists_of_firstHit_eq_some hlater hv
      obtain ⟨entered, inner, henter, hgo, hhit⟩ := exists_of_follow_eq_some hfollow
      exact .inr ⟨hhere, x, hx, before, entered, inner, hbefore, henter, hgo, hhit⟩

theorem exists_trail_of_visitWithin {bound : Nat} {h : Handle} {p p' : Progress σ} {hit : Hit α}
    (hv : visitWithin u source q bound h p = (some hit, p')) :
    ∃ hops, u.Trail q.throughInterfaces (source.OpensAfter p.memory) h hops hit.place.declaring ∧
      hit.place = Place.along h hops ∧ q.here? hit.place.declaring = some hit.found := by
  induction bound generalizing h p p' hit with
  | zero => cases hv
  | succ bound ih =>
      obtain ⟨hne, ⟨hplace, hfound⟩ | ⟨-, x, hx, before, entered, inner, hbefore, henter, hgo, rfl⟩⟩ :=
        of_visitWithin_eq_some hv
      · rw [hplace]
        exact ⟨[], .here hne, rfl, hfound⟩
      -- The trail of the inner hit, continued by the hop that led to it.
      · obtain ⟨hops, htrail, hplace, hfound⟩ := ih hgo
        have hdeclaring : (inner.place.after h x).declaring = inner.place.declaring := by
          cases x <;> rfl
        have hentered : source.Later p.memory entered.memory := by
          have hask := later_enter source h x before
          rw [henter] at hask
          exact hbefore.trans hask
        refine ⟨x :: hops, ?_, ?_, ?_⟩
        · rw [hdeclaring]
          exact .hop hne ((offers_of_enter hx henter).mono fun _ => .of_later hbefore)
            (htrail.mono fun _ => .of_later hentered)
        · rw [Place.along, ← hplace]
        · rw [hdeclaring]
          exact hfound

theorem exists_visitWithin_of_find {h : Handle} {memory : σ} {hit : Hit α}
    (hf : (find u source q h memory).1 = some hit) :
    ∃ p, visitWithin u source q u.searchBound h ⟨.empty, memory⟩ = (some hit, p) :=
  ⟨_, Prod.ext hf rfl⟩

/-- Every hit of `find` has a `Trail` from the start to the type that declares it. -/
theorem exists_trail_of_find {h : Handle} {memory : σ} {hit : Hit α}
    (hf : (find u source q h memory).1 = some hit) :
    ∃ hops, u.Trail q.throughInterfaces (source.OpensAfter memory) h hops hit.place.declaring ∧
      hit.place = Place.along h hops ∧ q.here? hit.place.declaring = some hit.found := by
  obtain ⟨p, hv⟩ := exists_visitWithin_of_find hf
  exact exists_trail_of_visitWithin hv

end Search

end TagResolution
