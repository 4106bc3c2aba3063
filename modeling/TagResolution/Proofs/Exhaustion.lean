import TagResolution.Proofs.Construction
import TagResolution.Proofs.PlainSearch

/-!
# Searches that share their visited tags

A search takes the hop of a tag only once, although the branch in which it took it may have failed
while tags before it were still being searched. Nothing is lost by that: a type is `Barren` if
nothing matches at it or above it and all tags to be seen there have been visited, and in a search
every visited tag is on the current path or has a barren type (`Settled`). Each step keeps this, and
it makes the search agree with the plain one.

The main statements are `find_eq_plain` (sharing the visited tags changes no answer) and
`barren_of_find_eq_none` (a search without a match leaves the invariant behind, with nothing on the
path).
-/

namespace TagResolution.Search

variable {σ α : Type} (u : Universe) (reach : Handle → Reach) (q : Query α)

/-! ## The invariant -/

/-- Nothing matches at a type or above it, tags aside, and all tags to be seen there were visited. -/
def Barren (visited : TagSet) (h : Handle) : Prop :=
  ∀ hops g, u.Trail q.throughInterfaces (reach · = .enclosing) h hops g →
    (∀ x ∈ hops, x.isTag = false) → q.here? g = none ∧ ∀ t ∈ u.openTags g, t ∈ visited

/-- Every visited tag off the path leads to a `Barren` type. -/
def Settled (visited : TagSet) (path : List Tag) : Prop :=
  ∀ t ∈ visited, t ∉ path → Barren u reach q visited t.type

/-- A hop from `h` has nothing left to offer. -/
def Exhausted (visited : TagSet) (h : Handle) : Hop → Prop
  | .tag t => t ∈ visited
  | .interface i => Barren u reach q visited i
  | .parent p => Barren u reach q visited p
  | .enclosing e => reach h = .enclosing → Barren u reach q visited e

variable {u reach q} {visited visited' : TagSet} {path : List Tag} {h : Handle}

theorem Barren.mono (hsub : ∀ t, t ∈ visited → t ∈ visited') (hb : Barren u reach q visited h) :
    Barren u reach q visited' h := by
  intro hops g htrail hlinks
  obtain ⟨hnone, htags⟩ := hb hops g htrail hlinks
  exact ⟨hnone, fun t ht => hsub t (htags t ht)⟩

theorem Barren.here (hb : Barren u reach q visited h) (hne : h ≠ .object) :
    q.here? h = none ∧ ∀ t ∈ u.openTags h, t ∈ visited :=
  hb [] h (.here hne) nofun

theorem Barren.next (hb : Barren u reach q visited h) (hne : h ≠ .object) {x : Hop}
    (hx : u.Offers q.throughInterfaces (reach · = .enclosing) h x) (hlink : x.isTag = false) :
    Barren u reach q visited x.target := by
  intro hops g htrail hlinks
  exact hb (x :: hops) g (.hop hne hx htrail) (List.forall_mem_cons.2 ⟨hlink, hlinks⟩)

theorem Barren.exhausted (hb : Barren u reach q visited h) (hne : h ≠ .object) {x : Hop}
    (hx : x ∈ u.hops q.throughInterfaces h) : Exhausted u reach q visited h x := by
  have hoffer := Universe.mem_hops.1 hx
  cases x with
  | tag t => exact (hb.here hne).2 t (u.mem_openTags.2 hoffer)
  | interface i => exact hb.next hne (x := .interface i) hoffer rfl
  | parent p => exact hb.next hne (x := .parent p) hoffer rfl
  | enclosing e => exact fun hopen => hb.next hne (x := .enclosing e) ⟨hoffer.1, hopen⟩ rfl

theorem barren_object : Barren u reach q visited .object :=
  fun _ _ htrail => absurd rfl htrail.ne_object

theorem barren_of_exhausted (hnone : q.here? h = none)
    (hhops : ∀ x ∈ u.hops q.throughInterfaces h, Exhausted u reach q visited h x) :
    Barren u reach q visited h := by
  intro hops g htrail hlinks
  cases htrail with
  | here _ =>
      refine ⟨hnone, fun t ht => ?_⟩
      exact hhops (.tag t) (Universe.mem_hops.2 (u.mem_openTags.1 ht))
  | @hop _ _ x rest _ hx htrail =>
      -- The trail starts with a link, and the link has nothing left to offer.
      have hexhausted := hhops x hx.mem_hops
      have hrest : ∀ y ∈ rest, y.isTag = false := fun y hy => hlinks y (.tail _ hy)
      cases x with
      | tag t => cases hlinks (.tag t) (.head _)
      | interface i => exact hexhausted rest g htrail hrest
      | parent p => exact hexhausted rest g htrail hrest
      | enclosing e => exact hexhausted hx.2 rest g htrail hrest

theorem Exhausted.mono (hsub : ∀ t, t ∈ visited → t ∈ visited') {x : Hop}
    (hx : Exhausted u reach q visited h x) : Exhausted u reach q visited' h x := by
  cases x with
  | tag t => exact hsub t hx
  | interface i => exact Barren.mono hsub hx
  | parent p => exact Barren.mono hsub hx
  | enclosing e => exact fun ho => Barren.mono hsub (hx ho)

/-- Visiting a tag puts it on the path. -/
theorem Settled.enter (hs : Settled u reach q visited path) (t : Tag) :
    Settled u reach q (visited.insert t) (t :: path) := by
  intro s hmem hoff
  have hne : s ≠ t := fun he => hoff (he ▸ .head _)
  have hold : s ∈ visited := (TagSet.mem_insert.1 hmem).resolve_left hne
  exact (hs s hold fun hp => hoff (.tail _ hp)).mono fun r hr => TagSet.mem_insert.2 (.inr hr)

/-- A tag leaves the path when its type has turned out to be `Barren`. -/
theorem Settled.leave {t : Tag} (hs : Settled u reach q visited (t :: path))
    (hb : Barren u reach q visited t.type) : Settled u reach q visited path := by
  intro s hmem hoff
  by_cases he : s = t
  · rw [he]
    exact hb
  · exact hs s hmem fun hp => (List.mem_cons.1 hp).elim he hoff

/-! ## Agreement with the plain search -/

/-- An `Exhausted` hop leads to a `Barren` type, unless its tag is on the path. -/
theorem Settled.barren_of_exhausted (hs : Settled u reach q visited path) {x : Hop}
    (hx : u.Offers q.throughInterfaces (reach · = .enclosing) h x)
    (hoff : ∀ t, x = .tag t → t ∉ path) (hexhausted : Exhausted u reach q visited h x) :
    Barren u reach q visited x.target := by
  cases x with
  | tag t => exact hs t hexhausted (hoff t rfl)
  | interface i => exact hexhausted
  | parent p => exact hexhausted
  | enclosing e => exact hexhausted hx.2

/-- From a `Barren` type `plain` finds nothing, whatever more is on its path. -/
theorem plain_eq_none_of_barren (hs : Settled u reach q visited path) (bound : Nat)
    {longer : List Tag} (hsub : ∀ t ∈ path, t ∈ longer) (hb : Barren u reach q visited h) :
    plain u reach q bound longer h = none := by
  induction bound generalizing longer h with
  | zero => rfl
  | succ bound ih =>
      rw [plain_succ]
      split
      · rfl
      · next hne =>
        rw [(hb.here hne).1]
        refine List.findSome?_eq_none_iff.2 fun x hx => plainHop_eq_none hx ?_
        intro longest hsub' hoffer hoff
        -- A tag off the longer path is off the path, so what is behind the hop is barren.
        have hbarren := hs.barren_of_exhausted hoffer (fun t ht hp => hoff t ht (hsub t hp))
          (hb.exhausted hne hx)
        exact ih (fun t ht => hsub' t (hsub t ht)) hbarren

/-- An answer agrees with a plain one; if it is no hit, `post` holds of the progress. -/
def Agrees {γ π : Type} (post : π → Prop) (expected : Option γ) : Option γ × π → Prop
  | (some y, _) => expected = some y
  | (none, p) => expected = none ∧ post p

theorem Agrees.imp {γ π : Type} {post post' : π → Prop} {expected : Option γ}
    {answer : Option γ × π} (ha : Agrees post expected answer) (himp : ∀ p, post p → post' p) :
    Agrees post' expected answer := by
  obtain ⟨_ | y, p⟩ := answer
  · exact ⟨ha.1, himp p ha.2⟩
  · exact ha

theorem Agrees.eq_fst {γ π : Type} {post : π → Prop} {expected : Option γ} {answer : Option γ × π}
    (ha : Agrees post expected answer) : expected = answer.1 := by
  obtain ⟨_ | y, p⟩ := answer
  · exact ha.1
  · exact ha

theorem Agrees.post {γ π : Type} {post : π → Prop} {expected : Option γ} {answer : Option γ × π}
    (ha : Agrees post expected answer) (hnone : expected = none) : post answer.2 := by
  obtain ⟨_ | y, p⟩ := answer
  · exact ha.2
  · cases hnone.symm.trans ha

/-- The invariant between the beginning of a part of a search, when `visited` had been visited, and
its end without a hit. -/
def Continues (u : Universe) (reach : Handle → Reach) (q : Query α) (visited : TagSet)
    (path : List Tag) (p : Progress σ) : Prop :=
  (∀ t, t ∈ visited → t ∈ p.visited) ∧ Settled u reach q p.visited path

/-- Trying hops in turn, by `firstHit`, agrees with the plain search if every single hop does. -/
theorem agrees_firstHit {go : Handle → Progress σ → Option (Hit α) × Progress σ}
    {expected : Hop → Option (Hit α)} {l : List Hop} {p : Progress σ}
    (hs : Settled u reach q p.visited path) (hpath : ∀ t ∈ path, t ∈ p.visited)
    (hstep : ∀ x ∈ l, ∀ p : Progress σ, Settled u reach q p.visited path →
      (∀ t ∈ path, t ∈ p.visited) →
      Agrees (fun p' => Continues u reach q p.visited path p' ∧ Exhausted u reach q p'.visited h x)
        (expected x) (follow (.ofFunction reach) go h x p)) :
    Agrees (fun p' => Continues u reach q p.visited path p' ∧
        ∀ x ∈ l, Exhausted u reach q p'.visited h x)
      (l.findSome? expected) (firstHit (follow (.ofFunction reach) go h) l p) := by
  induction l generalizing p with
  | nil => exact ⟨rfl, ⟨fun _ ht => ht, hs⟩, nofun⟩
  | cons x rest ih =>
      have hhead := hstep x (.head _) p hs hpath
      rw [List.findSome?_cons]
      unfold firstHit
      cases hx : follow (.ofFunction reach) go h x p with
      | mk found p₁ =>
          rw [hx] at hhead
          cases found with
          | some hit =>
              have hexpected : expected x = some hit := hhead
              rw [hexpected]
              exact rfl
          | none =>
              obtain ⟨hnone, ⟨hgrows, hs₁⟩, hexhausted⟩ := hhead
              rw [hnone]
              -- What the first hop exhausted stays so while the others are tried.
              refine (ih hs₁ (fun t ht => hgrows t (hpath t ht))
                fun y hy => hstep y (.tail _ hy)).imp fun p₂ hp₂ => ?_
              obtain ⟨⟨hgrows₂, hs₂⟩, hrest⟩ := hp₂
              refine ⟨⟨fun t ht => hgrows₂ t (hgrows t ht), hs₂⟩, fun y hy => ?_⟩
              rcases List.mem_cons.1 hy with rfl | hy
              · exact hexhausted.mono hgrows₂
              · exact hrest y hy

theorem Agrees.map {γ δ π : Type} {post : π → Prop} {expected : Option γ} {answer : Option γ × π}
    (ha : Agrees post expected answer) (f : γ → δ) :
    Agrees post (expected.map f) (answer.1.map f, answer.2) := by
  obtain ⟨_ | y, p⟩ := answer
  · exact ⟨by rw [ha.1]; rfl, ha.2⟩
  · have hexpected : expected = some y := ha
    rw [hexpected]
    exact rfl

theorem follow_of_not_enter {source : ReachSource σ}
    {go : Handle → Progress σ → Option (Hit α) × Progress σ} {x : Hop} {p p' : Progress σ}
    (he : enter source h x p = (false, p')) : follow source go h x p = (none, p') := by
  unfold follow
  rw [he]

theorem follow_of_enter {source : ReachSource σ}
    {go : Handle → Progress σ → Option (Hit α) × Progress σ} {x : Hop} {p p' : Progress σ}
    (he : enter source h x p = (true, p')) :
    follow source go h x p = ((go x.target p').1.map (·.after h x), (go x.target p').2) := by
  unfold follow
  rw [he]
  rfl

/-- The searches from where fewer hops are left agree with `plainGo` and keep the invariant `Settled`. -/
def AgreesBelow (u : Universe) (reach : Handle → Reach) (q : Query α)
    (go : Handle → Progress σ → Option (Hit α) × Progress σ)
    (plainGo : List Tag → Handle → Option (Hit α)) (path : List Tag) (h : Handle) : Prop :=
  ∀ path' g (p : Progress σ), u.TagPath path' → u.stride path' g < u.stride path h →
    Settled u reach q p.visited path' → (∀ t ∈ path', t ∈ p.visited) →
    Agrees (fun p' => Continues u reach q p.visited path' p' ∧ Barren u reach q p'.visited g)
      (plainGo path' g) (go g p)

section Follow

variable {go : Handle → Progress σ → Option (Hit α) × Progress σ}
  {plainGo : List Tag → Handle → Option (Hit α)} {p : Progress σ} {t : Tag}

/-- A hop that `follow` passes over, as its tag was visited before, agrees with the plain search: the tag is
on the path, or nothing is to be found behind it. -/
theorem agrees_follow_visited
    (hbarren : ∀ g longer, (∀ t ∈ path, t ∈ longer) → Barren u reach q p.visited g →
      plainGo longer g = none)
    (hs : Settled u reach q p.visited path) (hvisited : t ∈ p.visited) :
    Agrees (fun p' => Continues u reach q p.visited path p' ∧ Exhausted u reach q p'.visited h (.tag t))
      (plainHop reach plainGo path h (.tag t)) (follow (.ofFunction reach) go h (.tag t) p) := by
  rw [follow_of_not_enter (enter_visited hvisited)]
  refine ⟨?_, ⟨fun _ ht => ht, hs⟩, hvisited⟩
  rw [plainHop]
  split
  · rfl
  · next hoff =>
    rw [hbarren t.type (t :: path) (fun s hs => .tail _ hs) (hs t hvisited hoff)]
    rfl

/-- A new tag that `follow` takes is put on the path, and leaves it when its type has been searched in vain. -/
theorem agrees_follow_new (hgo : AgreesBelow u reach q go plainGo path h) (ht : t ∈ u.openTags h)
    (htags : u.TagPath path) (hs : Settled u reach q p.visited path)
    (hpath : ∀ t ∈ path, t ∈ p.visited) (hnew : t ∉ p.visited) :
    Agrees (fun p' => Continues u reach q p.visited path p' ∧ Exhausted u reach q p'.visited h (.tag t))
      (plainHop reach plainGo path h (.tag t)) (follow (.ofFunction reach) go h (.tag t) p) := by
  have hoff : t ∉ path := fun hp => hnew (hpath t hp)
  have htags' := htags.cons ht hoff
  have hvisited : ∀ s ∈ t :: path, s ∈ p.visited.insert t := by
    refine List.forall_mem_cons.2 ⟨TagSet.mem_insert.2 (.inl rfl), fun s hs => ?_⟩
    exact TagSet.mem_insert.2 (.inr (hpath s hs))
  have hinner := hgo (t :: path) t.type { p with visited := p.visited.insert t } htags'
    (u.stride_cons_lt htags' _ _) (hs.enter t) hvisited
  rw [follow_of_enter (enter_new hnew), plainHop, if_neg hoff]
  refine (hinner.map _).imp fun p' hp' => ?_
  obtain ⟨⟨hgrows, hs'⟩, hb⟩ := hp'
  refine ⟨⟨fun s hs => hgrows s (TagSet.mem_insert.2 (.inr hs)), hs'.leave hb⟩, ?_⟩
  exact hgrows t (TagSet.mem_insert.2 (.inl rfl))

/-- One hop, by `follow`, agrees with `plainHop`, if what lies behind it does. -/
theorem agrees_follow {x : Hop}
    (hbarren : ∀ g longer, (∀ t ∈ path, t ∈ longer) → Barren u reach q p.visited g →
      plainGo longer g = none)
    (hgo : AgreesBelow u reach q go plainGo path h)
    (hx : x ∈ u.hops q.throughInterfaces h) (htags : u.TagPath path)
    (hs : Settled u reach q p.visited path) (hpath : ∀ t ∈ path, t ∈ p.visited) :
    Agrees (fun p' => Continues u reach q p.visited path p' ∧ Exhausted u reach q p'.visited h x)
      (plainHop reach plainGo path h x) (follow (.ofFunction reach) go h x p) := by
  have hoffer := Universe.mem_hops.1 hx
  -- Hops over links keep the path, and their targets have lower ranks.
  have hlink : ∀ g, u.registry.Linked h g → Agrees (fun p' => Continues u reach q p.visited path p' ∧
      Barren u reach q p'.visited g) (plainGo path g) (go g p) := fun g hl =>
    hgo path g p htags (u.stride_lt_of_linked path hl) hs hpath
  cases x with
  | tag t =>
      by_cases hvisited : t ∈ p.visited
      · exact agrees_follow_visited hbarren hs hvisited
      · exact agrees_follow_new hgo (u.mem_openTags.2 hoffer) htags hs hpath hvisited
  | interface i =>
      have henter : enter (.ofFunction reach) h (.interface i) p = (true, p) := rfl
      rw [follow_of_enter henter]
      exact (hlink i (u.linked_of_mem_interfaces hoffer.2)).map _
  | parent g =>
      have henter : enter (.ofFunction reach) h (.parent g) p = (true, p) := rfl
      rw [follow_of_enter henter]
      exact (hlink g (u.linked_of_parent? hoffer)).map _
  | enclosing e =>
      have henter : enter (.ofFunction reach) h (.enclosing e) p
          = (decide (reach h = .enclosing), p) := rfl
      by_cases hopen : reach h = .enclosing
      · rw [decide_eq_true hopen] at henter
        rw [follow_of_enter henter, plainHop, if_pos hopen]
        refine ((hlink e (u.linked_of_enclosing? hoffer.1)).map _).imp fun p' hp' => ?_
        exact ⟨hp'.1, fun _ => hp'.2⟩
      · rw [decide_eq_false hopen] at henter
        rw [follow_of_not_enter henter, plainHop, if_neg hopen]
        exact ⟨rfl, ⟨fun _ ht => ht, hs⟩, fun ho => absurd ho hopen⟩

end Follow

/-- From a `Settled` state, with enough hops left, `visitWithin` agrees with `plain`. -/
theorem agrees_visitWithin {bound bound' : Nat} {p : Progress σ} (htags : u.TagPath path)
    (hbound : u.stride path h < bound) (hbound' : u.stride path h < bound')
    (hs : Settled u reach q p.visited path) (hpath : ∀ t ∈ path, t ∈ p.visited) :
    Agrees (fun p' => Continues u reach q p.visited path p' ∧ Barren u reach q p'.visited h)
      (plain u reach q bound' path h) (visitWithin u (.ofFunction reach) q bound h p) := by
  induction bound generalizing bound' path h p with
  | zero => exact absurd hbound (Nat.not_lt_zero _)
  | succ bound ih =>
      cases bound' with
      | zero => exact absurd hbound' (Nat.not_lt_zero _)
      | succ bound' =>
          rw [plain_succ]
          unfold visitWithin visit
          split
          · next hobject =>
            subst hobject
            exact ⟨rfl, ⟨fun _ ht => ht, hs⟩, barren_object⟩
          · cases hfound : q.here? h with
            | some found => exact rfl
            | none =>
                -- Nothing here, and all hops exhausted in turn: the type is barren.
                refine (agrees_firstHit hs hpath fun x hx p hs hpath => ?_).imp fun p' hp' => ?_
                · refine agrees_follow ?_ ?_ hx htags hs hpath
                  · exact fun g longer hsub hb => plain_eq_none_of_barren hs bound' hsub hb
                  · intro path' g p htags' hlt hs' hpath'
                    exact ih htags' (by omega) (by omega) hs' hpath'
                · exact ⟨hp'.1, barren_of_exhausted hfound hp'.2⟩

/-- A search without anything visited agrees with `plain`, and without a hit it leaves a `Barren` start
behind. -/
theorem agrees_find (u : Universe) (reach : Handle → Reach) (q : Query α) (h : Handle) (memory : σ)
    {bound : Nat} (hbound : u.searchBound ≤ bound) :
    Agrees (fun p => Settled u reach q p.visited [] ∧ Barren u reach q p.visited h)
      (plain u reach q bound [] h)
      (visitWithin u (.ofFunction reach) q u.searchBound h ⟨.empty, memory⟩) := by
  have hstride := u.stride_lt_searchBound h
  refine (agrees_visitWithin .nil hstride (Nat.lt_of_lt_of_le hstride hbound) ?_ nofun).imp ?_
  · intro t ht
    exact absurd ht (TagSet.not_mem_empty t)
  · intro p hp
    exact ⟨hp.1.2, hp.2⟩

/-- Sharing the visited tags between all branches of `find` changes no answer: the search `plain`, which
only knows the tags on its path, finds the same, however far it may go beyond `searchBound`. -/
theorem find_eq_plain (u : Universe) (reach : Handle → Reach) (q : Query α) (h : Handle) (memory : σ)
    {bound : Nat} (hbound : u.searchBound ≤ bound) :
    (find u (.ofFunction reach) q h memory).1 = plain u reach q bound [] h := by
  have hagrees := agrees_find u reach q h memory hbound
  exact hagrees.eq_fst.symm

/-- Two tag types on each other's declarations and a class with tags of both, behind which a third tag leads
to what is looked for. -/
def looped : Universe :=
  Draft.ofEdits
    [.declare .tagType "a::First", .declare .tagType "a::Second", .declare .tagType "a::Third",
      .declare .tagType "a::Sought", .declare .classType "a::House",
      .write (.ofIndex 16) (.tag (.plain (.ofIndex 17))),
      .write (.ofIndex 17) (.tag (.plain (.ofIndex 16))),
      .write (.ofIndex 18) (.tag (.plain (.ofIndex 19))),
      .write (.ofIndex 20) (.tag (.plain (.ofIndex 16))),
      .write (.ofIndex 20) (.tag (.plain (.ofIndex 17))),
      .write (.ofIndex 20) (.tag (.plain (.ofIndex 18)))]
    (by decide +kernel) (by decide +kernel)

/-- The hop of the first tag of the class fails and visits the second tag, which `enter` then does not take from
the class again, while `plain` does. Both searches go on to the third tag and find the same tag behind it. -/
theorem find_eq_plain_looped :
    let first : Handle := .ofIndex 16
    let second : Handle := .ofIndex 17
    let third : Handle := .ofIndex 18
    let sought : Handle := .ofIndex 19
    let house : Handle := .ofIndex 20
    let source : ReachSource Unit := .ofFunction fun _ => .enclosing
    let q := Query.single looped sought
    let failed := follow source (visitWithin looped source q looped.searchBound) house (.tag (.plain first))
      ⟨.empty, ()⟩
    looped.openTags house = [.plain first, .plain second, .plain third] ∧
    failed.1.isNone ∧ (enter source house (.tag (.plain second)) failed.2).1 = false ∧
    looped.searchBound ≤ 200 ∧
    (find looped source q house ()).1 = plain looped (fun _ => .enclosing) q 200 [] house ∧
    (find looped source q house ()).1 = some ⟨⟨house, third, some (.plain third)⟩, .plain sought⟩ := by
  intro first second third sought house source q failed
  have hbound : looped.searchBound ≤ 200 := by decide +kernel
  have hplain := find_eq_plain looped (fun _ => .enclosing) q house () hbound
  have hhit : plain looped (fun _ => .enclosing) q 200 [] house
      = some ⟨⟨house, third, some (.plain third)⟩, .plain sought⟩ := by
    decide +kernel
  exact ⟨by decide +kernel, by decide +kernel, by decide +kernel, hbound, hplain, hplain.trans hhit⟩

/-- A search by `find` that finds nothing has visited tags that leave nothing to be found. -/
theorem barren_of_find_eq_none {memory : σ}
    (hf : (find u (.ofFunction reach) q h memory).1 = none) :
    ∃ visited, Settled u reach q visited [] ∧ Barren u reach q visited h := by
  have hagrees := agrees_find u reach q h memory (Nat.le_refl _)
  exact ⟨_, hagrees.post (hagrees.eq_fst.trans hf)⟩

end TagResolution.Search
