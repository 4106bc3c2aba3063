import TagResolution.Proofs.Cycle
import TagResolution.Universe.Fault

/-!
# The check of a registry

`WellLinked` says where the links and tags of a declaration have to point, `Acyclic` that no chain
of links returns to its beginning. The main statements are `fault?_eq_none_iff`, by which the check
accepts exactly the registries with both, and the three statements on which cycle is reported when
all links are right.
-/

namespace TagResolution

open Relation

namespace Declaration

/-- Every link and tag of a declaration points to a declared type of the right kind. -/
structure WellLinked (r : Registry) (d : Declaration) : Prop where
  parent : ∀ h, d.parent = some h →
    d.kind = .classType ∧ ∃ p, r.get? h = some p ∧ p.kind = .classType
  interfaces : ∀ h ∈ d.interfaces, ∃ i, r.get? h = some i ∧ i.kind = .interface
  enclosing : ∀ h, d.enclosing = some h → ∃ e, r.get? h = some e
  tags : ∀ t ∈ d.tags, ∃ e, r.get? t.type = some e ∧ e.kind = .tagType
  aliases : ∀ a ∈ d.aliases, ∃ e, r.get? a.target = some e ∧ e.kind = .tagType

theorem mem_links {d : Declaration} {h : Handle} :
    h ∈ d.links ↔ d.parent = some h ∨ h ∈ d.interfaces ∨ d.enclosing = some h := by
  simp [links]

theorem WellLinked.isSome_of_mem_links {r : Registry} {d : Declaration} (hd : d.WellLinked r)
    {h : Handle} (hh : h ∈ d.links) : (r.get? h).isSome := by
  rcases mem_links.1 hh with hp | hi | he
  · obtain ⟨-, p, hget, -⟩ := hd.parent h hp
    rw [hget]; rfl
  · obtain ⟨i, hget, -⟩ := hd.interfaces h hi
    rw [hget]; rfl
  · obtain ⟨e, hget⟩ := hd.enclosing h he
    rw [hget]; rfl

end Declaration

namespace Registry

variable {r : Registry}

/-- All declarations are `WellLinked`. -/
def WellLinked (r : Registry) : Prop := ∀ h d, r.get? h = some d → d.WellLinked r

/-- One hop over a parent, interface or enclosing link, as `links` lists them. -/
def Linked (r : Registry) (g h : Handle) : Prop := h ∈ r.links g

/-- No chain of `Linked` hops returns to its beginning. -/
def Acyclic (r : Registry) : Prop := ∀ h, ¬ TransGen r.Linked h h

/-- One hop to the parent. -/
def HasParent (r : Registry) (g h : Handle) : Prop := r.parent? g = some h

/-- One hop to the enclosing type. -/
def HasEnclosing (r : Registry) (g h : Handle) : Prop := r.enclosing? g = some h

/-! ## The table by names -/

theorem mem_handles (hr : r.Sound) {h : Handle} : h ∈ r.handles ↔ (r.get? h).isSome := by
  constructor
  · intro hh
    obtain ⟨⟨name, h'⟩, hmem, rfl⟩ := List.mem_map.1 hh
    obtain ⟨d, hd, -⟩ := (hr.names_iff name h').1 (Std.TreeMap.mem_toList_iff_getElem?_eq_some.1 hmem)
    rw [hd]; rfl
  · intro hh
    obtain ⟨d, hd⟩ := Option.isSome_iff_exists.1 hh
    have hname := (hr.names_iff d.name h).2 ⟨d, hd, rfl⟩
    exact List.mem_map.2 ⟨(d.name, h), Std.TreeMap.mem_toList_iff_getElem?_eq_some.2 hname, rfl⟩

theorem mem_toList (hr : r.Sound) {h : Handle} {d : Declaration} :
    (h, d) ∈ r.toList ↔ r.get? h = some d := by
  unfold toList
  rw [List.mem_filterMap]
  constructor
  · rintro ⟨g, -, hg⟩
    obtain ⟨e, he, heq⟩ := Option.map_eq_some_iff.1 hg
    cases heq
    exact he
  · intro hd
    exact ⟨h, (mem_handles hr).2 (by rw [hd]; rfl), by rw [hd]; rfl⟩

theorem length_handles (r : Registry) : r.handles.length = r.size := by
  simp [handles, size]

/-! ## Faults of one declaration -/

section Declarations

variable {d : Declaration} {h : Handle}

theorem parentFault?_eq_none_iff : r.parentFault? d h = none ↔
    d.kind = .classType ∧ ∃ p, r.get? h = some p ∧ p.kind = .classType := by
  unfold parentFault?
  cases hget : r.get? h with
  | none => simp
  | some p =>
      by_cases hd : d.kind = .classType
      · by_cases hp : p.kind = .classType <;> simp [hd, hp]
      · simp [hd]

theorem interfaceFault?_eq_none_iff (hr : r.Sound) : r.interfaceFault? d h = none ↔
    ∃ i, r.get? h = some i ∧ i.kind = .interface := by
  unfold interfaceFault?
  cases hget : r.get? h with
  | none => simp
  | some i => simp [← (hr.flagged h i hget).interface]

theorem enclosingFault?_eq_none_iff : r.enclosingFault? h = none ↔ ∃ e, r.get? h = some e := by
  unfold enclosingFault?
  rw [← Option.isSome_iff_exists]
  split
  · next hsome => simp [hsome]
  · next hnone => simp [hnone]

theorem tagFault?_eq_none_iff (hr : r.Sound) : r.tagFault? d h = none ↔
    ∃ e, r.get? h = some e ∧ e.kind = .tagType := by
  rw [← isTagType_iff hr]
  unfold tagFault?
  split
  · next htag => simp [htag]
  · next htag => simp [htag]

theorem declarationFault?_eq_none_iff (hr : r.Sound) :
    r.declarationFault? d = none ↔ d.WellLinked r := by
  simp only [declarationFault?, Option.orElse_eq_orElse, Option.orElse_eq_or, Option.or_eq_none_iff,
    Option.bind_eq_none_iff, List.findSome?_eq_none_iff, parentFault?_eq_none_iff,
    interfaceFault?_eq_none_iff hr, enclosingFault?_eq_none_iff, tagFault?_eq_none_iff hr]
  constructor
  · rintro ⟨hp, hi, he, ht, ha⟩
    exact ⟨hp, hi, he, ht, ha⟩
  · rintro ⟨hp, hi, he, ht, ha⟩
    exact ⟨hp, hi, he, ht, ha⟩

end Declarations

theorem findSome?_declarationFault?_eq_none_iff (hr : r.Sound) :
    r.toList.findSome? (fun entry => r.declarationFault? entry.2) = none ↔ r.WellLinked := by
  rw [List.findSome?_eq_none_iff]
  constructor
  · intro hall h d hd
    exact (declarationFault?_eq_none_iff hr).1 (hall (h, d) ((mem_toList hr).2 hd))
  · rintro hlinked ⟨h, d⟩ hmem
    exact (declarationFault?_eq_none_iff hr).2 (hlinked h d ((mem_toList hr).1 hmem))

/-! ## Links between declared types -/

theorem linked_iff {g h : Handle} : r.Linked g h ↔ ∃ d, r.get? g = some d ∧ h ∈ d.links := by
  unfold Linked links
  cases r.get? g <;> simp

theorem hasParent_iff {g h : Handle} :
    r.HasParent g h ↔ ∃ d, r.get? g = some d ∧ d.parent = some h := Option.bind_eq_some_iff

theorem hasEnclosing_iff {g h : Handle} :
    r.HasEnclosing g h ↔ ∃ d, r.get? g = some d ∧ d.enclosing = some h := Option.bind_eq_some_iff

theorem HasParent.linked {g h : Handle} (hp : r.HasParent g h) : r.Linked g h := by
  obtain ⟨d, hd, hp⟩ := hasParent_iff.1 hp
  exact linked_iff.2 ⟨d, hd, Declaration.mem_links.2 (.inl hp)⟩

theorem HasEnclosing.linked {g h : Handle} (he : r.HasEnclosing g h) : r.Linked g h := by
  obtain ⟨d, hd, he⟩ := hasEnclosing_iff.1 he
  exact linked_iff.2 ⟨d, hd, Declaration.mem_links.2 (.inr (.inr he))⟩

theorem Linked.isSome_left {g h : Handle} (hl : r.Linked g h) : (r.get? g).isSome := by
  obtain ⟨d, hd, -⟩ := linked_iff.1 hl
  rw [hd]; rfl

theorem Linked.isSome_right {g h : Handle} (hl : r.Linked g h) (hr : r.WellLinked) :
    (r.get? h).isSome := by
  obtain ⟨d, hd, hh⟩ := linked_iff.1 hl
  exact (hr g d hd).isSome_of_mem_links hh

/-! ## Cycles -/

section Cycles

variable (hr : r.Sound) (hl : r.WellLinked) {next : Handle → List Handle}

include hr hl

/-- A part of the `Linked` hops stays within the declared types. -/
theorem closed_of_linked (hnext : ∀ g h, h ∈ next g → r.Linked g h) :
    ∀ g ∈ r.handles, ∀ h ∈ next g, h ∈ r.handles := fun g _ h hh =>
  (mem_handles hr).2 ((hnext g h hh).isSome_right hl)

/-- A part of the `Linked` hops is searched by `cycle?` and found to have no cycle exactly if it has none. -/
theorem cycle?_eq_none_iff {rel : Handle → Handle → Prop} (hnext : ∀ g h, h ∈ next g ↔ rel g h)
    (hlinked : ∀ g h, rel g h → r.Linked g h) :
    r.cycle? next = none ↔ ∀ h, ¬ TransGen rel h h := by
  have hleads : Cycle.Leads next = rel := by
    funext g h
    exact propext (hnext g h)
  have hbound : r.handles.length < r.size + 1 := by
    rw [length_handles]
    exact Nat.lt_succ_self _
  have hclosed := closed_of_linked hr hl fun g h hh => hlinked g h ((hnext g h).1 hh)
  unfold cycle?
  rw [Cycle.find?_eq_none_iff hclosed hbound, hleads]
  constructor
  · intro hacyclic h hcycle
    -- A handle that leads anywhere is declared.
    obtain ⟨n, hn, -⟩ := TransGen.head'_iff.1 hcycle
    exact hacyclic h ((mem_handles hr).2 (hlinked h n hn).isSome_left) hcycle
  · intro hacyclic h _
    exact hacyclic h

theorem parentCycle?_eq_none_iff : r.parentCycle? = none ↔ ∀ h, ¬ TransGen r.HasParent h h := by
  rw [parentCycle?, Option.map_eq_none_iff]
  apply cycle?_eq_none_iff hr hl
  · intro g h
    exact Option.mem_toList
  · intro g h hp
    exact HasParent.linked hp

theorem enclosingCycle?_eq_none_iff :
    r.enclosingCycle? = none ↔ ∀ h, ¬ TransGen r.HasEnclosing h h := by
  rw [enclosingCycle?, Option.map_eq_none_iff]
  apply cycle?_eq_none_iff hr hl
  · intro g h
    exact Option.mem_toList
  · intro g h he
    exact HasEnclosing.linked he

theorem inheritanceCycle?_eq_none_iff : r.inheritanceCycle? = none ↔ r.Acyclic := by
  rw [inheritanceCycle?, Option.map_eq_none_iff]
  apply cycle?_eq_none_iff hr hl
  · intro g h
    exact List.mem_reverse
  · intro g h hh
    exact hh

/-- For `fault?` cycles count only once all links are right. -/
theorem fault?_of_wellLinked :
    r.fault? = (r.parentCycle? <|> r.enclosingCycle? <|> r.inheritanceCycle?) := by
  unfold fault?
  rw [(findSome?_declarationFault?_eq_none_iff hr).2 hl]
  rfl

/-- A cycle of parents is reported as `Fault.parentCycle` before any other. -/
theorem fault?_of_parent_cycle (hcycle : ∃ h, TransGen r.HasParent h h) :
    ∃ name, r.fault? = some (.parentCycle name) := by
  rw [fault?_of_wellLinked hr hl]
  cases hp : r.parentCycle? with
  | none =>
      obtain ⟨h, hh⟩ := hcycle
      exact absurd hh ((parentCycle?_eq_none_iff hr hl).1 hp h)
  | some f =>
      obtain ⟨c, -, rfl⟩ := Option.map_eq_some_iff.1 hp
      exact ⟨_, rfl⟩

/-- A cycle of enclosing types is reported as `Fault.enclosingCycle` when parents have none. -/
theorem fault?_of_enclosing_cycle (hparents : ∀ h, ¬ TransGen r.HasParent h h)
    (hcycle : ∃ h, TransGen r.HasEnclosing h h) :
    ∃ name, r.fault? = some (.enclosingCycle name) := by
  rw [fault?_of_wellLinked hr hl, (parentCycle?_eq_none_iff hr hl).2 hparents]
  cases he : r.enclosingCycle? with
  | none =>
      obtain ⟨h, hh⟩ := hcycle
      exact absurd hh ((enclosingCycle?_eq_none_iff hr hl).1 he h)
  | some f =>
      obtain ⟨c, -, rfl⟩ := Option.map_eq_some_iff.1 he
      exact ⟨_, rfl⟩

/-- A cycle that mixes links is reported as `Fault.inheritanceCycle` when neither parents nor enclosing
types have one. -/
theorem fault?_of_mixed_cycle (hparents : ∀ h, ¬ TransGen r.HasParent h h)
    (henclosing : ∀ h, ¬ TransGen r.HasEnclosing h h) (hcycle : ¬ r.Acyclic) :
    ∃ name, r.fault? = some (.inheritanceCycle name) := by
  rw [fault?_of_wellLinked hr hl, (parentCycle?_eq_none_iff hr hl).2 hparents,
    (enclosingCycle?_eq_none_iff hr hl).2 henclosing]
  cases hi : r.inheritanceCycle? with
  | none => exact absurd ((inheritanceCycle?_eq_none_iff hr hl).1 hi) hcycle
  | some f =>
      obtain ⟨c, -, rfl⟩ := Option.map_eq_some_iff.1 hi
      exact ⟨_, rfl⟩

end Cycles

/-- The check `fault?` accepts exactly the registries that are `WellLinked` and `Acyclic`. -/
theorem fault?_eq_none_iff (hr : r.Sound) : r.fault? = none ↔ r.WellLinked ∧ r.Acyclic := by
  constructor
  · intro hnone
    -- The statements on cycles need the links to be right, which the first part of the check says.
    have hl : r.WellLinked := by
      unfold fault? at hnone
      simp only [Option.orElse_eq_orElse, Option.orElse_eq_or, Option.or_eq_none_iff] at hnone
      exact (findSome?_declarationFault?_eq_none_iff hr).1 hnone.1
    rw [fault?_of_wellLinked hr hl] at hnone
    simp only [Option.orElse_eq_orElse, Option.orElse_eq_or, Option.or_eq_none_iff] at hnone
    exact ⟨hl, (inheritanceCycle?_eq_none_iff hr hl).1 hnone.2.2⟩
  · rintro ⟨hl, hacyclic⟩
    -- Parents and enclosing types are links, so they are acyclic too.
    have hparents : ∀ h, ¬ TransGen r.HasParent h h := fun h hh =>
      hacyclic h (TransGen.mono (fun _ _ => HasParent.linked) h h hh)
    have henclosing : ∀ h, ¬ TransGen r.HasEnclosing h h := fun h hh =>
      hacyclic h (TransGen.mono (fun _ _ => HasEnclosing.linked) h h hh)
    rw [fault?_of_wellLinked hr hl, (parentCycle?_eq_none_iff hr hl).2 hparents,
      (enclosingCycle?_eq_none_iff hr hl).2 henclosing,
      (inheritanceCycle?_eq_none_iff hr hl).2 hacyclic]
    rfl

end Registry

end TagResolution
