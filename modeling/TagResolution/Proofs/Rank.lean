import TagResolution.Proofs.Validity
import TagResolution.Search

/-!
# Ranks

The links of a universe are acyclic, so its types have ranks that every hop over a parent, interface
or enclosing link lowers. Tags may lead in circles, but there are only finitely many of them. The
two together bound how far a search can get: `stride` is what is left of the bound on a path of tags,
and each hop lowers it.
-/

namespace TagResolution.Universe

variable (u : Universe)

/-! ## Links of a universe -/

theorem wellLinked : u.registry.WellLinked :=
  ((Registry.fault?_eq_none_iff u.sound).1 u.checked).1

theorem acyclic : u.registry.Acyclic :=
  ((Registry.fault?_eq_none_iff u.sound).1 u.checked).2

theorem mem_tags {h : Handle} {t : Tag} :
    t ∈ u.tags h ↔ ∃ d, u.registry.get? h = some d ∧ t ∈ d.tags := by
  unfold tags get?
  cases u.registry.get? h <;> simp

theorem mem_interfaces {h i : Handle} :
    i ∈ u.interfaces h ↔ ∃ d, u.registry.get? h = some d ∧ i ∈ d.interfaces := by
  unfold interfaces get?
  cases u.registry.get? h <;> simp

theorem mem_openTags {h : Handle} {t : Tag} :
    t ∈ u.openTags h ↔ t ∈ u.tags h ∧ u.isReserved t.type = false := by
  simp [openTags]

theorem isTagType_of_mem_tags {h : Handle} {t : Tag} (ht : t ∈ u.tags h) :
    u.isTagType t.type = true := by
  obtain ⟨d, hd, ht⟩ := u.mem_tags.1 ht
  exact isTagType_iff.2 ((u.wellLinked h d hd).tags t ht)

theorem isTagType_of_isReserved {h : Handle} (hreserved : u.isReserved h = true) : u.isTagType h = true := by
  obtain ⟨d, hd, hkind, -⟩ := isReserved_iff_exists.1 hreserved
  exact isTagType_iff.2 ⟨d, hd, hkind⟩

theorem linked_of_mem_interfaces {h i : Handle} (hi : i ∈ u.interfaces h) : u.registry.Linked h i := by
  obtain ⟨d, hd, hi⟩ := u.mem_interfaces.1 hi
  exact Registry.linked_iff.2 ⟨d, hd, Declaration.mem_links.2 (.inr (.inl hi))⟩

theorem linked_of_parent? {h p : Handle} (hp : u.parent? h = some p) : u.registry.Linked h p :=
  Registry.HasParent.linked hp

theorem linked_of_enclosing? {h e : Handle} (he : u.enclosing? h = some e) : u.registry.Linked h e :=
  Registry.HasEnclosing.linked he

/-- A declared class. -/
def IsClass (h : Handle) : Prop := ∃ d, u.registry.get? h = some d ∧ d.kind = .classType

/-- A `parent?` and the type that has it are classes. -/
theorem isClass_of_parent? {h p : Handle} (hp : u.parent? h = some p) : u.IsClass h ∧ u.IsClass p := by
  obtain ⟨d, hd, hparent⟩ := Registry.hasParent_iff.1 hp
  obtain ⟨hclass, hparent⟩ := (u.wellLinked h d hd).parent p hparent
  exact ⟨⟨d, hd, hclass⟩, hparent⟩

/-! ## Ranks of types -/

theorem exists_rank : ∃ rank : Handle → Nat, (∀ h, rank h ≤ u.size) ∧
    ∀ g h, u.registry.Linked g h → rank h < rank g := by
  have hnone := (Registry.inheritanceCycle?_eq_none_iff u.sound u.wellLinked).2 u.acyclic
  have hclosed : ∀ g ∈ u.registry.handles, ∀ h ∈ (u.registry.links g).reverse,
      h ∈ u.registry.handles :=
    Registry.closed_of_linked u.sound u.wellLinked fun _ _ hh => List.mem_reverse.1 hh
  have hbound : u.registry.handles.length < u.registry.size + 1 := by
    rw [Registry.length_handles]
    exact Nat.lt_succ_self _
  -- The exploration that found no cycle leaves the types in layers, which rank them.
  obtain ⟨rank, hle, hlt⟩ :=
    Cycle.exists_rank_of_find?_eq_none hclosed hbound (Option.map_eq_none_iff.1 hnone)
  refine ⟨rank, fun h => ?_, fun g h hl => ?_⟩
  · exact Nat.le_trans (hle h) (Nat.le_of_eq (Registry.length_handles _))
  · exact hlt g ((Registry.mem_handles u.sound).2 hl.isSome_left) h (List.mem_reverse.2 hl)

/-- A number that every hop over a link lowers. -/
noncomputable def rank : Handle → Nat := Classical.choose u.exists_rank

theorem rank_le (h : Handle) : u.rank h ≤ u.size := (Classical.choose_spec u.exists_rank).1 h

theorem rank_lt_of_linked {g h : Handle} (hl : u.registry.Linked g h) : u.rank h < u.rank g :=
  (Classical.choose_spec u.exists_rank).2 g h hl

/-! ## Paths of tags -/

/-- The tags on all declarations. -/
def allTags : List Tag := u.toList.flatMap fun entry => entry.2.tags

theorem length_allTags : u.allTags.length = u.tagCount := rfl

theorem mem_allTags_of_mem_tags {h : Handle} {t : Tag} (ht : t ∈ u.tags h) : t ∈ u.allTags := by
  obtain ⟨d, hd, ht⟩ := u.mem_tags.1 ht
  exact List.mem_flatMap.2 ⟨(h, d), (Registry.mem_toList u.sound).2 hd, ht⟩

/-- A path of tags from `allTags`, none twice. -/
structure TagPath (path : List Tag) : Prop where
  nodup : path.Nodup
  mem : ∀ t ∈ path, t ∈ u.allTags

namespace TagPath

variable {u} {path : List Tag} {h : Handle} {t : Tag}

theorem nil : u.TagPath [] := ⟨.nil, nofun⟩

theorem cons (hp : u.TagPath path) (ht : t ∈ u.openTags h) (hnew : t ∉ path) :
    u.TagPath (t :: path) where
  nodup := List.nodup_cons.2 ⟨hnew, hp.nodup⟩
  mem s hs := by
    rcases List.mem_cons.1 hs with rfl | hs
    · exact u.mem_allTags_of_mem_tags (u.mem_openTags.1 ht).1
    · exact hp.mem s hs

theorem length_le (hp : u.TagPath path) : path.length ≤ u.tagCount := by
  rw [← length_allTags]
  exact (List.subperm_of_subset hp.nodup hp.mem).length_le

end TagPath

/-- How many hops a search can still take at a type, after the tags of a path. -/
noncomputable def stride (path : List Tag) (h : Handle) : Nat :=
  (u.tagCount - path.length) * (u.size + 1) + u.rank h

theorem stride_lt_searchBound (h : Handle) : u.stride [] h < u.searchBound := by
  have := u.rank_le h
  simp only [stride, searchBound, List.length_nil, Nat.sub_zero, Nat.add_mul, Nat.one_mul]
  omega

theorem stride_lt_of_linked {g h : Handle} (path : List Tag) (hl : u.registry.Linked g h) :
    u.stride path h < u.stride path g :=
  Nat.add_lt_add_left (u.rank_lt_of_linked hl) _

theorem stride_cons_lt {path : List Tag} {t : Tag} (hp : u.TagPath (t :: path)) (g h : Handle) :
    u.stride (t :: path) g < u.stride path h := by
  have hle := hp.length_le
  have hrank := u.rank_le g
  -- A tag more on the path pays for every hop over links that can follow it.
  obtain ⟨k, hk⟩ : ∃ k, u.tagCount = path.length + 1 + k :=
    Nat.exists_eq_add_of_le (by simpa using hle)
  have hpath : u.tagCount - path.length = k + 1 := by omega
  have hcons : u.tagCount - (t :: path).length = k := by rw [List.length_cons]; omega
  rw [stride, stride, hpath, hcons, Nat.add_mul, Nat.one_mul]
  omega

end TagResolution.Universe
