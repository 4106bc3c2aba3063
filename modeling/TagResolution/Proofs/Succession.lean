import TagResolution.Proofs.Provenance
import TagResolution.Proofs.Resolution

/-!
# Matches above a match

The next match of a match comes from a fresh search, from the parent or else the enclosing type of the
root, with no tag visited. Wherever that search anchors its hit, it has come there over parents and
enclosing types, so the new root is above the old one, and no chain of matches comes back to a root.

The main statement is `Resolver.next_rises`, for matches of all kinds, also for such as no search has
given.
-/

namespace TagResolution

open Relation

variable {σ α : Type}

/-! ## Steps up -/

namespace Universe

/-- A step from a type up to its parent or, where `opens` holds of it, to its enclosing type. -/
def Rises (u : Universe) (opens : Handle → Prop) (g h : Handle) : Prop :=
  u.parent? g = some h ∨ (u.enclosing? g = some h ∧ opens g)

variable {u : Universe} {opens : Handle → Prop} {g h : Handle}

theorem Rises.linked (hstep : u.Rises opens g h) : u.registry.Linked g h :=
  hstep.elim u.linked_of_parent? fun henclosing => u.linked_of_enclosing? henclosing.1

theorem Rises.mono {opens' : Handle → Prop} (himp : ∀ h, opens h → opens' h)
    (hstep : u.Rises opens g h) : u.Rises opens' g h :=
  hstep.imp_right fun henclosing => ⟨henclosing.1, himp g henclosing.2⟩

theorem rank_lt_of_transGen_rises (hrises : TransGen (u.Rises opens) g h) : u.rank h < u.rank g := by
  induction hrises with
  | single hstep => exact u.rank_lt_of_linked hstep.linked
  | tail _ hstep ih => exact Nat.lt_trans (u.rank_lt_of_linked hstep.linked) ih

/-- Both ends of a way of `Rises` are declared. -/
theorem mem_handles_of_transGen_rises (hrises : TransGen (u.Rises opens) g h) :
    g ∈ u.registry.handles ∧ h ∈ u.registry.handles := by
  constructor
  · obtain ⟨_, hstep, -⟩ := TransGen.head'_iff.1 hrises
    exact (Registry.mem_handles u.sound).2 hstep.linked.isSome_left
  · obtain ⟨_, -, hstep⟩ := TransGen.tail'_iff.1 hrises
    exact (Registry.mem_handles u.sound).2 (hstep.linked.isSome_right u.wellLinked)

/-- Types that lie one above the other, by `Rises`, are all different, and so they are fewer than all types. -/
theorem nodup_of_pairwise_rises {above : List Handle}
    (hrises : (h :: above).Pairwise (TransGen (u.Rises opens))) :
    (h :: above).Nodup ∧ above.length < u.size := by
  have hne : ∀ {f g : Handle}, TransGen (u.Rises opens) f g → f ≠ g := by
    rintro f _ hrises rfl
    exact Nat.lt_irrefl _ (rank_lt_of_transGen_rises hrises)
  have hnodup : (h :: above).Nodup := hrises.imp hne
  refine ⟨hnodup, ?_⟩
  rw [size, ← Registry.length_handles]
  cases above with
  | nil =>
      obtain ⟨_, hobject, -⟩ := u.sound.builtin .object
      refine List.length_pos_of_mem (a := Builtin.object.handle) ((Registry.mem_handles u.sound).2 ?_)
      rw [hobject]
      rfl
  | cons g above =>
      obtain ⟨hall, -⟩ := List.pairwise_cons.1 hrises
      have hdeclared : ∀ f ∈ h :: g :: above, f ∈ u.registry.handles := by
        refine List.forall_mem_cons.2 ⟨?_, fun f hf => ?_⟩
        · exact (mem_handles_of_transGen_rises (hall g (.head _))).1
        · exact (mem_handles_of_transGen_rises (hall f hf)).2
      exact (List.subperm_of_subset hnodup hdeclared).length_le

/-- A `Trail` over parents and enclosing types only leads up. -/
theorem Trail.rises {throughInterfaces : Bool} {hops : List Hop}
    (htrail : u.Trail throughInterfaces opens h hops g) (hclimbs : ∀ x ∈ hops, x.anchors = false) :
    ReflTransGen (u.Rises opens) h g := by
  induction htrail with
  | here _ => exact .refl
  | @hop h _ x _ _ hx _ ih =>
      obtain ⟨hclimb, hclimbs⟩ := List.forall_mem_cons.1 hclimbs
      refine .head ?_ (ih hclimbs)
      cases x with
      | tag t => cases hclimb
      | interface i => cases hclimb
      | parent p => exact .inl hx
      | enclosing e => exact .inr hx

end Universe

/-! ## Matches that are anchored above -/

namespace Resolver

variable {r : Resolver σ} {memory : σ}

theorem rises_of_hitFrom {q : Query α} {start : Option Handle} {hit : Hit α}
    (hf : (r.hitFrom q start memory).1 = some hit) :
    ∃ h, start = some h ∧ ReflTransGen (r.types.Rises r.source.Opens) h hit.place.root := by
  obtain ⟨h, rise, rest, hstart, hjustified, -⟩ := exists_justified_of_hitFrom hf
  have hascent := hjustified.anchored.ascent.mono fun _ ho => ho.opens
  exact ⟨h, hstart, hascent.rises hjustified.anchored.climbs⟩

/-- If whatever is found from a type on is anchored at that type or above it, then whatever `above` finds is
anchored above its root. -/
theorem rises_of_above {root : Handle} {resolve : Option Handle → Resolution σ (Option α)}
    {place : α → Place} {found : α}
    (hresolve : ∀ start memory found, ((resolve start).run memory).1 = .ok (some found) →
      ∃ h, start = some h ∧ ReflTransGen (r.types.Rises r.source.Opens) h (place found).root)
    (hf : ((r.above root resolve).run memory).1 = .ok (some found)) :
    TransGen (r.types.Rises r.source.Opens) root (place found).root := by
  rcases (r.above_eq_iff (by nofun)).1 hf with hparent | ⟨-, -, hopen, henclosing⟩
  · obtain ⟨p, hp, hrises⟩ := hresolve _ _ _ hparent
    exact .head' (.inl hp) hrises
  · obtain ⟨e, he, hrises⟩ := hresolve _ _ _ henclosing
    exact .head' (.inr ⟨he, _, hopen⟩) hrises

theorem rises_of_nextTag {m m' : TagMatch} (hm : ((r.nextTag m).run memory).1 = .ok (some m')) :
    TransGen (r.types.Rises r.source.Opens) m.place.root m'.place.root := by
  refine rises_of_above (fun start later found hfound => ?_) hm
  obtain ⟨hit, hhit, htyped⟩ := r.exists_typed_of_tagFrom hfound
  obtain ⟨hplace, -, -⟩ := r.of_typed_eq_ok htyped
  rw [hplace]
  exact rises_of_hitFrom hhit

theorem rises_of_nextCandidate {m m' : CandidateMatch}
    (hm : ((r.nextCandidate m).run memory).1 = .ok (some m')) :
    TransGen (r.types.Rises r.source.Opens) m.place.root m'.place.root := by
  obtain ⟨candidates, -, habove⟩ := r.exists_above_of_nextCandidate hm
  refine rises_of_above (fun start later found hfound => ?_) habove
  obtain ⟨hit, hhit, rfl⟩ := r.exists_hit_of_candidateFrom hfound
  exact rises_of_hitFrom hhit

theorem rises_of_nextRepeated {m m' : RepeatedMatch}
    (hm : ((r.nextRepeated m).run memory).1 = .ok (some m')) :
    TransGen (r.types.Rises r.source.Opens) m.place.root m'.place.root := by
  refine rises_of_above (fun start later found hfound => ?_) hm
  obtain ⟨hit, hhit, rfl⟩ := r.exists_hit_of_repeatedFrom hfound
  exact rises_of_hitFrom hhit

/-- The answer that there is a match is made from one of a kind. -/
theorem exists_of_map_eq_ok {answer : Except ResolveError (Option α)} {f : α → Match} {m : Match}
    (hm : answer.map (Option.map f) = .ok (some m)) : ∃ found, answer = .ok (some found) ∧ f found = m := by
  cases answer with
  | error e => cases hm
  | ok found =>
      obtain ⟨found, rfl, hfound⟩ := Option.map_eq_some_iff.1 (Except.ok.inj hm)
      exact ⟨found, rfl, hfound⟩

/-- The root of the `next` match is above the root of the match. -/
theorem rises_of_next {m m' : Match} (hm : ((r.next m).run memory).1 = .ok (some m')) :
    TransGen (r.types.Rises r.source.Opens) m.place.root m'.place.root := by
  cases m with
  | tag m =>
      rw [next, Resolution.run_map] at hm
      obtain ⟨found, hfound, rfl⟩ := exists_of_map_eq_ok hm
      exact rises_of_nextTag hfound
  | candidate m =>
      rw [next, Resolution.run_map] at hm
      obtain ⟨found, hfound, rfl⟩ := exists_of_map_eq_ok hm
      exact rises_of_nextCandidate hfound
  | repeated m =>
      rw [next, Resolution.run_map] at hm
      obtain ⟨found, hfound, rfl⟩ := exists_of_map_eq_ok hm
      exact rises_of_nextRepeated hfound

/-! ## Chains of matches -/

/-- From an answer on, the matches that are given while each is asked for the `next` one, and how that ends:
with an error or with no other match, and with the memory that is left by then. -/
inductive Succession (r : Resolver σ) :
    Except ResolveError (Option Match) × σ → List Match → Option ResolveError × σ → Prop where
  | failed {e : ResolveError} {memory : σ} : Succession r (.error e, memory) [] (some e, memory)
  | ended {memory : σ} : Succession r (.ok none, memory) [] (none, memory)
  | next {m : Match} {memory : σ} {rest : List Match} {ended : Option ResolveError × σ} :
      Succession r ((r.next m).run memory) rest ended →
      Succession r (.ok (some m), memory) (m :: rest) ended

/-- By `walk` with room for all matches they are listed. -/
theorem Succession.walk_eq {m : Match} {given : List Match} {ended : Option ResolveError × σ}
    (hs : r.Succession ((r.next m).run memory) given ended) {limit : Nat}
    (hlimit : given.length ≤ limit) : r.walk limit m memory = ((given, ended.1), ended.2) := by
  induction given generalizing m memory limit with
  | nil =>
      unfold walk
      cases hrun : (r.next m).run memory with
      | mk answer after =>
          rw [hrun] at hs
          cases hs <;> rfl
  | cons above rest ih =>
      cases limit with
      | zero => cases hlimit
      | succ limit =>
          unfold walk
          cases hrun : (r.next m).run memory with
          | mk answer after =>
              rw [hrun] at hs
              cases hs with
              | next hs =>
                  have hrest := ih hs (Nat.le_of_succ_le_succ hlimit)
                  simp only [hrest]

/-- From every match on the `Succession` comes to an end, and each match is anchored above those before it. -/
theorem exists_succession (r : Resolver σ) (m : Match) (memory : σ) :
    ∃ given ended, r.Succession ((r.next m).run memory) given ended ∧
      (m :: given).Pairwise fun below above =>
        TransGen (r.types.Rises r.source.Opens) below.place.root above.place.root := by
  -- The root of the next match has a lower rank.
  induction hrank : r.types.rank m.place.root using Nat.strongRecOn generalizing m memory with
  | ind rank ih =>
      cases hrun : (r.next m).run memory with
      | mk answer after =>
          rcases answer with e | _ | above
          · exact ⟨[], _, .failed, List.pairwise_singleton _ _⟩
          · exact ⟨[], _, .ended, List.pairwise_singleton _ _⟩
          · have hrises := rises_of_next (congrArg Prod.fst hrun)
            have hlower := Universe.rank_lt_of_transGen_rises hrises
            obtain ⟨rest, ended, hs, hpairwise⟩ := ih _ (hrank ▸ hlower) above after rfl
            refine ⟨above :: rest, ended, .next hs, List.pairwise_cons.2 ⟨?_, hpairwise⟩⟩
            refine List.forall_mem_cons.2 ⟨hrises, fun further hfurther => ?_⟩
            exact hrises.trans (List.rel_of_pairwise_cons hpairwise hfurther)

/-- The `next` match, whatever the match is and wherever it is anchored, is anchored above it: one or more
hops of `Rises` up, over parents or over enclosing types where the reach of the type allows it. So the
matches that are given one after the other are anchored at different types, and they come to an end before
they are as many as the types. A `walk` lists them all. -/
theorem next_rises (u : Universe) (reach : Handle → Reach) (m : Match) (memory : σ) :
    (∀ m', (((ofReach u reach).next m).run memory).1 = .ok (some m') →
      TransGen (u.Rises (reach · = .enclosing)) m.place.root m'.place.root) ∧
    ∃ given ended, (ofReach u reach).Succession (((ofReach u reach).next m).run memory) given ended ∧
      ((m :: given).map (·.place.root)).Pairwise (TransGen (u.Rises (reach · = .enclosing))) ∧
      ((m :: given).map (·.place.root)).Nodup ∧ given.length < u.size ∧
      ∀ limit, given.length ≤ limit →
        (ofReach u reach).walk limit m memory = ((given, ended.1), ended.2) := by
  have hopens : ∀ g h, u.Rises (ofReach u reach : Resolver σ).source.Opens g h →
      u.Rises (reach · = .enclosing) g h :=
    fun g h hstep => hstep.mono fun _ ho => ReachSource.eq_of_opens_ofFunction ho
  refine ⟨fun m' hm => TransGen.mono hopens _ _ (rises_of_next hm), ?_⟩
  obtain ⟨given, ended, hs, hpairwise⟩ := exists_succession (ofReach u reach) m memory
  have hrises : ((m :: given).map (·.place.root)).Pairwise
      (TransGen (u.Rises (reach · = .enclosing))) :=
    List.pairwise_map.2 (hpairwise.imp fun hrises => TransGen.mono hopens _ _ hrises)
  obtain ⟨hnodup, hlength⟩ := Universe.nodup_of_pairwise_rises hrises
  rw [List.length_map] at hlength
  exact ⟨given, ended, hs, hrises, hnodup, hlength, fun limit hlimit => hs.walk_eq hlimit⟩

/-- A room extends a porch, which is in a hall; the hall and a house around the room have a tag. -/
def terraced : Universe :=
  Draft.ofEdits
    [.declare .tagType "a::Mark", .declare .classType "a::Hall", .declare .classType "a::House",
      .declare .classType "a::Porch", .declare .classType "a::Room",
      .write (.ofIndex 17) (.tag (.plain (.ofIndex 16))),
      .write (.ofIndex 18) (.tag (.plain (.ofIndex 16))),
      .write (.ofIndex 19) (.enclosing (.ofIndex 17)),
      .write (.ofIndex 20) (.enclosing (.ofIndex 18)),
      .write (.ofIndex 20) (.parent (.ofIndex 19))]
    (by decide +kernel) (by decide +kernel)

/-- In `terraced`, above a record that nobody has found, at the room, the tag of the hall is next, by way of
the porch, and no other one after it. -/
theorem next_rises_terraced :
    let reach : Handle → Reach := fun _ => .enclosing
    let r : Resolver Unit := ofReach terraced reach
    let m : Match := .candidate ⟨.here (.ofIndex 20), .plain (.ofIndex 16), some [.ofIndex 16]⟩
    let hall : Match := .candidate ⟨.here (.ofIndex 17), .plain (.ofIndex 16), some [.ofIndex 16]⟩
    ((r.next m).run ()).1 = .ok (some hall) ∧
      TransGen (terraced.Rises (reach · = .enclosing)) (.ofIndex 20) (.ofIndex 17) ∧
      r.walk 1 m () = (([hall], none), ()) := by
  intro reach r m hall
  have hnext : ((r.next m).run ()).1 = .ok (some hall) := by decide +kernel
  obtain ⟨hrises, -⟩ := next_rises terraced reach m ()
  exact ⟨hnext, hrises hall hnext, by decide +kernel⟩

end Resolver

end TagResolution
