import TagResolution.Proofs.Completeness

/-!
# Where matches are anchored

Tags and interfaces belong to the type that has them, so a match beyond them is anchored at that
type; a match beyond a parent or an enclosing type stays anchored above. The root of a match is thus
a type from which its trail goes on over a tag or an interface, or ends. Conversely `find_root` says
that a search from such a type anchors its match there: tags and interfaces are tried first, and
what has been visited by then does not hide the match.
-/

namespace TagResolution

namespace Hop

/-- Whether a match beyond a hop is anchored at the type that the hop leaves. -/
def anchors : Hop → Bool
  | .tag _ => true
  | .interface _ => true
  | .parent _ => false
  | .enclosing _ => false

end Hop

namespace Universe

variable {u : Universe} {throughInterfaces : Bool} {opens : Handle → Prop}

/-- A `Trail` in two parts, of which the first leads over parents and enclosing types to a root. The second
part begins with a hop that `anchors` matches, unless the trail ends at the root. -/
structure Anchored (u : Universe) (throughInterfaces : Bool) (opens : Handle → Prop)
    (h root g : Handle) (rise rest : List Hop) : Prop where
  ascent : u.Trail throughInterfaces opens h rise root
  climbs : ∀ x ∈ rise, x.anchors = false
  onward : u.Trail throughInterfaces opens root rest g
  anchors : ∀ x ∈ rest.head?, x.anchors = true

namespace Anchored

variable {h root g : Handle} {x : Hop} {rise rest : List Hop}

theorem here (hne : h ≠ .object) : u.Anchored throughInterfaces opens h h h [] [] :=
  ⟨.here hne, nofun, .here hne, nofun⟩

/-- A hop that anchors matches is where the second part begins. -/
theorem start (hne : h ≠ .object) (hx : u.Offers throughInterfaces opens h x)
    (hanchors : x.anchors = true) (hrest : u.Trail throughInterfaces opens x.target rest g) :
    u.Anchored throughInterfaces opens h h g [] (x :: rest) where
  ascent := .here hne
  climbs := nofun
  onward := .hop hne hx hrest
  anchors := by
    rintro _ ⟨⟩
    exact hanchors

/-- Any other hop prolongs the first part. -/
theorem prolong (hne : h ≠ .object) (hx : u.Offers throughInterfaces opens h x)
    (hclimbs : x.anchors = false)
    (hrest : u.Anchored throughInterfaces opens x.target root g rise rest) :
    u.Anchored throughInterfaces opens h root g (x :: rise) rest where
  ascent := .hop hne hx hrest.ascent
  climbs := List.forall_mem_cons.2 ⟨hclimbs, hrest.climbs⟩
  onward := hrest.onward
  anchors := hrest.anchors

end Anchored

/-- Every trail falls into two parts at the root of the place that `Place.along` makes of it. -/
theorem Trail.exists_anchored {h g : Handle} {hops : List Hop}
    (htrail : u.Trail throughInterfaces opens h hops g) : ∃ rise rest, hops = rise ++ rest ∧
      u.Anchored throughInterfaces opens h (Place.along h hops).root g rise rest := by
  induction htrail with
  | here hne => exact ⟨[], [], rfl, .here hne⟩
  | @hop h _ x hops hne hx htrail ih =>
      obtain ⟨rise, rest, rfl, hsplit⟩ := ih
      cases x with
      | tag t => exact ⟨[], _, rfl, .start hne hx rfl htrail⟩
      | interface i => exact ⟨[], _, rfl, .start hne hx rfl htrail⟩
      | parent p => exact ⟨.parent p :: rise, rest, rfl, hsplit.prolong hne hx rfl⟩
      | enclosing e => exact ⟨.enclosing e :: rise, rest, rfl, hsplit.prolong hne hx rfl⟩

end Universe

/-- The hops that anchor matches are first among `hops`. -/
theorem Universe.hops_split (u : Universe) (throughInterfaces : Bool) (h : Handle) :
    ∃ front back, u.hops throughInterfaces h = front ++ back ∧
      (∀ x ∈ front, x.anchors = true) ∧ ∀ x ∈ back, x.anchors = false := by
  refine ⟨_, _, List.append_assoc _ _ _, fun x hx => ?_, fun x hx => ?_⟩
  · rcases List.mem_append.1 hx with hx | hx
    · obtain ⟨t, -, rfl⟩ := List.mem_map.1 hx
      rfl
    · split at hx
      · obtain ⟨i, -, rfl⟩ := List.mem_map.1 hx
        rfl
      · cases hx
  · rcases List.mem_append.1 hx with hx | hx
    · obtain ⟨p, -, rfl⟩ := List.mem_map.1 hx
      rfl
    · obtain ⟨e, -, rfl⟩ := List.mem_map.1 hx
      rfl

namespace Search

variable {σ α : Type} {u : Universe} {reach : Handle → Reach} {q : Query α}

theorem root_of_plainHop {go : List Tag → Handle → Option (Hit α)} {path : List Tag} {h : Handle}
    {x : Hop} {hit : Hit α} (hx : x.anchors = true)
    (hf : plainHop reach go path h x = some hit) : hit.place.root = h := by
  cases x with
  | tag t =>
      rw [plainHop] at hf
      split at hf
      · cases hf
      · obtain ⟨inner, -, rfl⟩ := Option.map_eq_some_iff.1 hf
        rfl
  | interface i =>
      obtain ⟨inner, -, rfl⟩ := Option.map_eq_some_iff.1 hf
      rfl
  | parent _ => cases hx
  | enclosing _ => cases hx

/-- A match can be found by `plainHop` exactly where one can be reached. -/
theorem plainHop_isSome {h g : Handle} {x : Hop} {hops : List Hop}
    (hx : u.Offers q.throughInterfaces (reach · = .enclosing) h x)
    (htrail : u.Trail q.throughInterfaces (reach · = .enclosing) x.target hops g)
    (hmatch : (q.here? g).isSome) :
    (plainHop reach (plain u reach q u.searchBound) [] h x).isSome := by
  have hempty : Settled u reach q .empty [] := fun t ht => absurd ht (TagSet.not_mem_empty t)
  have hagrees : Agrees (fun p => Continues u reach q .empty [] p ∧ Exhausted u reach q p.visited h x)
      (plainHop reach (plain u reach q u.searchBound) [] h x)
      (follow (.ofFunction reach) (visitWithin u (.ofFunction reach) q u.searchBound) h x
        ⟨.empty, ()⟩) := by
    apply agrees_follow _ _ hx.mem_hops .nil hempty nofun
    · intro g longer hsub hb
      exact plain_eq_none_of_barren hempty _ hsub hb
    · intro path' g p htags hlt hs hpath
      have hbound := Nat.lt_trans hlt (u.stride_lt_searchBound h)
      exact agrees_visitWithin htags hbound hbound hs hpath
  rw [Option.isSome_iff_ne_none]
  intro hnone
  -- A hop without match would be exhausted, although a match lies behind it.
  obtain ⟨⟨-, hs⟩, hexhausted⟩ := hagrees.post hnone
  have hbarren := hs.barren_of_exhausted hx nofun hexhausted
  rw [here?_eq_none_of_barren hs hbarren htrail] at hmatch
  cases hmatch

/-- A search from a type that leads to a match over a tag or an interface anchors its match there. -/
theorem find_root (memory : σ) {h g : Handle} {x : Hop} {hops : List Hop} (hne : h ≠ .object)
    (hx : u.Offers q.throughInterfaces (reach · = .enclosing) h x) (hanchors : x.anchors = true)
    (htrail : u.Trail q.throughInterfaces (reach · = .enclosing) x.target hops g)
    (hmatch : (q.here? g).isSome) :
    ∃ hit, (find u (.ofFunction reach) q h memory).1 = some hit ∧ hit.place.root = h := by
  have hplain := (agrees_find u reach q h memory (Nat.le_succ u.searchBound)).eq_fst
  have hfind : (find u (.ofFunction reach) q h memory).1 = plain u reach q (u.searchBound + 1) [] h :=
    hplain.symm
  rw [hfind, plain_succ, if_neg hne]
  cases q.here? h with
  | some found => exact ⟨_, rfl, rfl⟩
  | none =>
      -- Some hop of the front part leads to a match, so the first hop that does is one of them.
      obtain ⟨front, back, hhops, hfront, hback⟩ := u.hops_split q.throughInterfaces h
      have hmem : x ∈ front := by
        rcases List.mem_append.1 (hhops ▸ hx.mem_hops) with hx | hx
        · exact hx
        · cases (hback x hx).symm.trans hanchors
      have hfound : (front.findSome? (plainHop reach (plain u reach q u.searchBound) [] h)).isSome :=
        List.findSome?_isSome_iff.2 ⟨x, hmem, plainHop_isSome hx htrail hmatch⟩
      obtain ⟨hit, hhit⟩ := Option.isSome_iff_exists.1 hfound
      obtain ⟨y, hy, hyhit⟩ := List.exists_of_findSome?_eq_some hhit
      refine ⟨hit, ?_, root_of_plainHop (hfront y hy) hyhit⟩
      rw [hhops, List.findSome?_append, hhit]
      rfl

end Search

end TagResolution
