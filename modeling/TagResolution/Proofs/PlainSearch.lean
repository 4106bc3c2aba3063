import TagResolution.Proofs.Trail

/-!
# The plain search

The plain search remembers no tags beyond the path on which it stands: it passes over a tag only
where an equal one led to the type at hand. It says what a search means, at the price of searching
shared parts again and again. `plain_succ` gives it the shape of the search that it is compared with,
hop by hop.
-/

namespace TagResolution

/-- A match that was reached from `h` by a hop. -/
def Hit.after {α : Type} (hit : Hit α) (h : Handle) (x : Hop) : Hit α :=
  { hit with place := hit.place.after h x }

namespace Search

variable {α : Type}

/-- The search that passes over a tag only where an equal tag is on the path that led there. It tries
the tags of a type first, then its interfaces, its parent and its enclosing type. -/
def plain (u : Universe) (reach : Handle → Reach) (q : Query α) :
    Nat → List Tag → Handle → Option (Hit α)
  | 0, _, _ => none
  | bound + 1, path, h =>
    if h = .object then none
    else
      match q.here? h with
      | some found => some ⟨⟨h, h, none⟩, found⟩
      | none =>
        ((u.openTags h).findSome? fun t =>
          if t ∈ path then none
          else (plain u reach q bound (t :: path) t.type).map fun hit =>
            ⟨⟨h, hit.place.declaring, some t⟩, hit.found⟩)
        <|> (if q.throughInterfaces then
            (u.interfaces h).findSome? fun i => (plain u reach q bound path i).map fun hit =>
              ⟨⟨h, hit.place.declaring, hit.place.composed⟩, hit.found⟩
          else none)
        <|> (u.parent? h).bind (plain u reach q bound path)
        <|> (if reach h = .enclosing then (u.enclosing? h).bind (plain u reach q bound path) else none)

/-- What the plain search finds over one hop, where `go` searches at its target. -/
def plainHop (reach : Handle → Reach) (go : List Tag → Handle → Option (Hit α)) (path : List Tag)
    (h : Handle) : Hop → Option (Hit α)
  | .tag t => if t ∈ path then none else (go (t :: path) t.type).map (·.after h (.tag t))
  | .interface i => (go path i).map (·.after h (.interface i))
  | .parent p => (go path p).map (·.after h (.parent p))
  | .enclosing e =>
    if reach h = .enclosing then (go path e).map (·.after h (.enclosing e)) else none

variable {u : Universe} {reach : Handle → Reach} {q : Query α}

theorem findSome?_hops {γ : Type} (u : Universe) (throughInterfaces : Bool) (h : Handle)
    (f : Hop → Option γ) : (u.hops throughInterfaces h).findSome? f
      = ((u.openTags h).findSome? (f ∘ .tag)
        <|> (if throughInterfaces then (u.interfaces h).findSome? (f ∘ .interface) else none)
        <|> (u.parent? h).bind (f ∘ .parent)
        <|> (u.enclosing? h).bind (f ∘ .enclosing)) := by
  have hoption : ∀ (o : Option Handle) (k : Handle → Hop),
      (o.toList.map k).findSome? f = o.bind (f ∘ k) := by
    intro o k
    cases o with
    | none => rfl
    | some g => simp
  simp only [Universe.hops, List.findSome?_append, hoption, Option.orElse_eq_orElse,
    Option.orElse_eq_or, Option.or_assoc, List.findSome?_map]
  cases throughInterfaces <;> simp [List.findSome?_map]

theorem plain_succ (bound : Nat) (path : List Tag) (h : Handle) :
    plain u reach q (bound + 1) path h =
      if h = .object then none
      else
        match q.here? h with
        | some found => some ⟨.here h, found⟩
        | none => (u.hops q.throughInterfaces h).findSome?
            (plainHop reach (plain u reach q bound) path h) := by
  unfold plain
  split
  · rfl
  · cases q.here? h with
    | some found => rfl
    | none =>
        have hparent : ∀ p, plainHop reach (plain u reach q bound) path h (.parent p)
            = plain u reach q bound path p := fun p => Option.map_id'
        have henclosing : ((u.enclosing? h).bind fun e =>
            plainHop reach (plain u reach q bound) path h (.enclosing e))
            = if reach h = .enclosing then (u.enclosing? h).bind (plain u reach q bound path)
              else none := by
          cases u.enclosing? h with
          | none => simp
          | some e =>
              show (if reach h = .enclosing then Option.map (fun hit => hit) _ else none) = _
              rw [Option.map_id']
              rfl
        rw [findSome?_hops]
        simp only [Function.comp_def, hparent, henclosing]
        rfl

/-- The plain search finds nothing over a hop if nothing is found behind it, where it is offered and
not passed over. -/
theorem plainHop_eq_none {go : List Tag → Handle → Option (Hit α)} {path : List Tag} {h : Handle}
    {x : Hop} (hx : x ∈ u.hops q.throughInterfaces h)
    (hgo : ∀ longer, (∀ t ∈ path, t ∈ longer) →
      u.Offers q.throughInterfaces (reach · = .enclosing) h x → (∀ t, x = .tag t → t ∉ path) →
      go longer x.target = none) : plainHop reach go path h x = none := by
  have hoffer := Universe.mem_hops.1 hx
  cases x with
  | tag t =>
      rw [plainHop]
      split
      · rfl
      · next hoff =>
        have hnone : go (t :: path) t.type = none :=
          hgo (t :: path) (fun s hs => .tail _ hs) hoffer fun s hs => by cases hs; exact hoff
        rw [hnone]
        rfl
  | interface i =>
      have hnone : go path i = none := hgo path (fun _ ht => ht) hoffer nofun
      rw [plainHop, hnone]
      rfl
  | parent g =>
      have hnone : go path g = none := hgo path (fun _ ht => ht) hoffer nofun
      rw [plainHop, hnone]
      rfl
  | enclosing e =>
      rw [plainHop]
      split
      · next hopen =>
        have hnone : go path e = none := hgo path (fun _ ht => ht) ⟨hoffer.1, hopen⟩ nofun
        rw [hnone]
        rfl
      · rfl

end Search

end TagResolution
