import TagResolution.Proofs.Exploration
import TagResolution.Proofs.Registration

/-!
# The types that cycles are reported for

A cycle is reported only when every edit was in order and every link is right. A cycle of parents, or of
enclosing types, is reported for a type whose chain never ends, and that need not lie on the cycle: it is the
first such type in the order of names. A cycle of all links together is reported for a type that lies on
it. Both are found by exploring the types in the order of their names, by recursion or by the loops of
`Cycle.Pursuit` and `Cycle.Traversal`.

The main statement is `Draft.cycles_reported`.
-/

namespace TagResolution

open Relation

namespace Fault

/-- A fault of links that are right one by one. -/
def IsCycle : Fault → Prop
  | .parentCycle _ | .enclosingCycle _ | .inheritanceCycle _ => True
  | _ => False

end Fault

namespace Registry

variable {r : Registry}

/-! ## Faults of one declaration -/

section Declarations

variable {d : Declaration} {f : Fault} {h : Handle}

theorem not_isCycle_of_parentFault? (hf : r.parentFault? d h = some f) : ¬ f.IsCycle := by
  unfold parentFault? at hf
  grind [Fault.IsCycle]

theorem not_isCycle_of_interfaceFault? (hf : r.interfaceFault? d h = some f) : ¬ f.IsCycle := by
  unfold interfaceFault? at hf
  grind [Fault.IsCycle]

theorem not_isCycle_of_enclosingFault? (hf : r.enclosingFault? h = some f) : ¬ f.IsCycle := by
  unfold enclosingFault? at hf
  grind [Fault.IsCycle]

theorem not_isCycle_of_tagFault? (hf : r.tagFault? d h = some f) : ¬ f.IsCycle := by
  unfold tagFault? at hf
  grind [Fault.IsCycle]

/-- A fault of `declarationFault?` is no cycle. -/
theorem not_isCycle_of_declarationFault? (hf : r.declarationFault? d = some f) : ¬ f.IsCycle := by
  have hparts : d.parent.bind (r.parentFault? d) = some f ∨
      d.interfaces.findSome? (r.interfaceFault? d) = some f ∨
      d.enclosing.bind r.enclosingFault? = some f ∨
      d.tags.findSome? (fun t => r.tagFault? d t.type) = some f ∨
      d.aliases.findSome? (fun a => r.tagFault? d a.target) = some f := by
    unfold declarationFault? at hf
    simp only [Option.orElse_eq_orElse, Option.orElse_eq_or, Option.or_eq_some_iff] at hf
    tauto
  rcases hparts with hf | hf | hf | hf | hf
  · obtain ⟨p, -, hf⟩ := Option.bind_eq_some_iff.1 hf
    exact not_isCycle_of_parentFault? hf
  · obtain ⟨i, -, hf⟩ := List.exists_of_findSome?_eq_some hf
    exact not_isCycle_of_interfaceFault? hf
  · obtain ⟨e, -, hf⟩ := Option.bind_eq_some_iff.1 hf
    exact not_isCycle_of_enclosingFault? hf
  · obtain ⟨t, -, hf⟩ := List.exists_of_findSome?_eq_some hf
    exact not_isCycle_of_tagFault? hf
  · obtain ⟨a, -, hf⟩ := List.exists_of_findSome?_eq_some hf
    exact not_isCycle_of_tagFault? hf

/-- A cycle is reported by `fault?` only where all links are right. -/
theorem wellLinked_of_isCycle (hr : r.Sound) (hf : r.fault? = some f) (hcycle : f.IsCycle) :
    r.WellLinked := by
  rw [← findSome?_declarationFault?_eq_none_iff hr]
  cases hfirst : r.toList.findSome? (fun entry => r.declarationFault? entry.2) with
  | none => rfl
  | some g =>
      obtain ⟨entry, -, hg⟩ := List.exists_of_findSome?_eq_some hfirst
      have heq : g = f := by simpa [fault?, hfirst] using hf
      exact absurd hcycle (heq ▸ not_isCycle_of_declarationFault? hg)

end Declarations

/-! ## The order of names -/

/-- The `handles`, which are explored in turn, are in the order of their names. -/
theorem pairwise_handles (hr : r.Sound) : r.handles.Pairwise fun g h =>
    ∀ d e, r.get? g = some d → r.get? h = some e → d.name < e.name := by
  have hname : ∀ entry ∈ r.names.toList, ∀ d, r.get? entry.2 = some d → d.name = entry.1 := by
    intro entry hmem d hd
    obtain ⟨e, he, hname⟩ := (hr.names_iff _ _).1 (Std.TreeMap.mem_toList_iff_getElem?_eq_some.1 hmem)
    cases hd.symm.trans he
    exact hname
  have hkeys : (r.names.toList.map (·.1)).Pairwise (· < ·) := by
    rw [Std.TreeMap.map_fst_toList_eq_keys]
    exact Std.TreeMap.ordered_keys.imp Std.LawfulLTCmp.eq_lt_iff_lt.1
  refine List.pairwise_map.2 ((List.pairwise_map.1 hkeys).imp_of_mem ?_)
  intro a b ha hb hlt d e hd he
  rwa [hname a ha d hd, hname b hb e he]

/-- A type of this name is the first, in the order of names, whose chain is `Endless`. -/
def FirstEndless (r : Registry) (next : Handle → Option Handle) (name : String) : Prop :=
  ∃ h e, r.get? h = some e ∧ e.name = name ∧ Cycle.Endless next h ∧
    ∀ g d, r.get? g = some d → Cycle.Endless next g → name ≤ d.name

theorem FirstEndless.unique {next : Handle → Option Handle} {name name' : String}
    (h : r.FirstEndless next name) (h' : r.FirstEndless next name') : name = name' := by
  obtain ⟨g, d, hd, rfl, hg, hleast⟩ := h
  obtain ⟨g', d', hd', rfl, hg', hleast'⟩ := h'
  exact String.le_antisymm (hleast g' d' hd' hg') (hleast' g d hd hg)

theorem displayType_of_get? {h : Handle} {e : Declaration} (he : r.get? h = some e) :
    r.displayType h = e.name := by
  simp [displayType, he]

/-! ## Chains that never end -/

section Chains

variable (hr : r.Sound) (hl : r.WellLinked) {next : Handle → Option Handle}
  (hnext : ∀ g h, Cycle.StepsTo next g h → r.Linked g h)

include hr hl hnext

theorem closed_toList : ∀ g ∈ r.handles, ∀ h ∈ (next g).toList, h ∈ r.handles :=
  closed_of_linked hr hl fun g h hh => hnext g h (Option.mem_toList.1 hh)

omit hl in
theorem mem_handles_of_endless {h : Handle} (hendless : Cycle.Endless next h) : h ∈ r.handles := by
  obtain ⟨n, hn⟩ := Option.isSome_iff_exists.1 (hendless 1)
  obtain ⟨g, hg, -⟩ := Option.bind_eq_some_iff.1 hn
  exact (mem_handles hr).2 (hnext h g hg).isSome_left

theorem endless_iff_of_mem {h : Handle} (hh : h ∈ r.handles) : Cycle.Endless next h ↔
    ∃ g, ReflTransGen (Cycle.StepsTo next) h g ∧ TransGen (Cycle.StepsTo next) g g :=
  Cycle.endless_iff (fun g hg n hn => closed_toList hr hl hnext g hg n (Option.mem_toList.2 hn)) hh

theorem not_endless_of_cycle? (hnone : (r.cycle? fun h => (next h).toList) = none) (h : Handle) :
    ¬ Cycle.Endless next h := by
  intro hendless
  have hclosed := closed_toList hr hl hnext
  have hh := mem_handles_of_endless hr hnext hendless
  obtain ⟨g, hreach, hcycle⟩ := (endless_iff_of_mem hr hl hnext hh).1 hendless
  rw [← Cycle.leads_toList] at hreach hcycle
  have hg := Cycle.mem_of_reflTransGen hclosed hh hreach
  exact (Cycle.find?_eq_none_iff hclosed (by simp [length_handles])).1 hnone g hg hcycle

/-- No chain of a type before the start of `cycle?` leads to a cycle, so the start is the first whose chain
never ends. -/
theorem firstEndless_of_cycle? {c : Cycle.Found}
    (hfound : (r.cycle? fun h => (next h).toList) = some c) :
    r.FirstEndless next (r.displayType c.start) := by
  obtain ⟨before, after, hsplit, hbefore, hreach, hcycle⟩ :=
    Cycle.find?_eq_some (closed_toList hr hl hnext) (by simp [length_handles]) hfound
  rw [Cycle.leads_toList] at hbefore hreach hcycle
  have hordered := pairwise_handles hr
  rw [hsplit, List.pairwise_append, List.pairwise_cons] at hordered
  have hstart : c.start ∈ r.handles := by simp [hsplit]
  obtain ⟨e, he⟩ := Option.isSome_iff_exists.1 ((mem_handles hr).1 hstart)
  rw [displayType_of_get? he]
  refine ⟨c.start, e, he, rfl, ?_, fun g d hd hendless => ?_⟩
  · exact (endless_iff_of_mem hr hl hnext hstart).2 ⟨c.culprit, hreach, hcycle⟩
  · have hg := mem_handles_of_endless hr hnext hendless
    obtain ⟨x, hx, hxcycle⟩ := (endless_iff_of_mem hr hl hnext hg).1 hendless
    rw [hsplit] at hg
    rcases List.mem_append.1 hg with hg | hg
    · exact absurd hxcycle (hbefore g hg x hx)
    rcases List.mem_cons.1 hg with rfl | hg
    · cases hd.symm.trans he
      exact String.le_refl _
    · exact le_of_lt (hordered.2.1.1 g hg e d he hd)

theorem cycle?_eq_none_iff_endless :
    (r.cycle? fun h => (next h).toList) = none ↔ ∀ h, ¬ Cycle.Endless next h := by
  refine ⟨not_endless_of_cycle? hr hl hnext, fun hends => ?_⟩
  cases hfound : r.cycle? fun h => (next h).toList with
  | none => rfl
  | some c =>
      obtain ⟨h, -, -, -, hendless, -⟩ := firstEndless_of_cycle? hr hl hnext hfound
      exact absurd hendless (hends h)

theorem map_start_cycle?_eq_some_iff {name : String} :
    (r.cycle? fun h => (next h).toList).map (fun c => r.displayType c.start) = some name ↔
      r.FirstEndless next name := by
  cases hfound : r.cycle? fun h => (next h).toList with
  | none =>
      refine ⟨nofun, ?_⟩
      rintro ⟨h, -, -, -, hendless, -⟩
      exact absurd hendless (not_endless_of_cycle? hr hl hnext hfound h)
  | some c =>
      have hfirst := firstEndless_of_cycle? hr hl hnext hfound
      rw [Option.map_some, Option.some.injEq]
      exact ⟨fun heq => heq ▸ hfirst, fun hname => hfirst.unique hname⟩

end Chains

/-! ## Reports -/

section Reports

variable (hr : r.Sound) (hl : r.WellLinked) {name : String}

include hr hl

theorem parentCycle?_eq_some_iff :
    r.parentCycle? = some (.parentCycle name) ↔ r.FirstEndless r.parent? name := by
  rw [← map_start_cycle?_eq_some_iff hr hl fun _ _ => HasParent.linked]
  simp [parentCycle?]

theorem parentCycle?_eq_none_iff_endless :
    r.parentCycle? = none ↔ ∀ h, ¬ Cycle.Endless r.parent? h := by
  rw [← cycle?_eq_none_iff_endless hr hl fun _ _ => HasParent.linked]
  simp [parentCycle?]

theorem enclosingCycle?_eq_some_iff :
    r.enclosingCycle? = some (.enclosingCycle name) ↔ r.FirstEndless r.enclosing? name := by
  rw [← map_start_cycle?_eq_some_iff hr hl fun _ _ => HasEnclosing.linked]
  simp [enclosingCycle?]

theorem enclosingCycle?_eq_none_iff_endless :
    r.enclosingCycle? = none ↔ ∀ h, ¬ Cycle.Endless r.enclosing? h := by
  rw [← cycle?_eq_none_iff_endless hr hl fun _ _ => HasEnclosing.linked]
  simp [enclosingCycle?]

/-- The type that `inheritanceCycle?` names leads back to itself. -/
theorem exists_of_inheritanceCycle? (hf : r.inheritanceCycle? = some (.inheritanceCycle name)) :
    ∃ h e, r.get? h = some e ∧ e.name = name ∧ TransGen r.Linked h h := by
  obtain ⟨c, hfound, hname⟩ := Option.map_eq_some_iff.1 hf
  have hclosed : ∀ g ∈ r.handles, ∀ h ∈ (r.links g).reverse, h ∈ r.handles :=
    closed_of_linked hr hl fun _ _ hh => List.mem_reverse.1 hh
  obtain ⟨-, -, -, -, -, hcycle⟩ := Cycle.find?_eq_some hclosed (by simp [length_handles]) hfound
  have hlinked : TransGen r.Linked c.culprit c.culprit :=
    TransGen.mono (fun _ _ hh => List.mem_reverse.1 hh) _ _ hcycle
  obtain ⟨n, hn, -⟩ := TransGen.head'_iff.1 hlinked
  obtain ⟨e, he⟩ := Option.isSome_iff_exists.1 hn.isSome_left
  refine ⟨c.culprit, e, he, ?_, hlinked⟩
  rw [← displayType_of_get? he]
  simpa using hname

theorem fault?_eq_parentCycle_iff :
    r.fault? = some (.parentCycle name) ↔ r.FirstEndless r.parent? name := by
  rw [fault?_of_wellLinked hr hl, ← parentCycle?_eq_some_iff hr hl]
  simp [Option.or_eq_some_iff, enclosingCycle?, inheritanceCycle?]

theorem fault?_eq_enclosingCycle_iff : r.fault? = some (.enclosingCycle name) ↔
    (∀ h, ¬ Cycle.Endless r.parent? h) ∧ r.FirstEndless r.enclosing? name := by
  rw [fault?_of_wellLinked hr hl, ← parentCycle?_eq_none_iff_endless hr hl,
    ← enclosingCycle?_eq_some_iff hr hl]
  simp [Option.or_eq_some_iff, parentCycle?, inheritanceCycle?]

theorem fault?_eq_inheritanceCycle_iff : r.fault? = some (.inheritanceCycle name) ↔
    (∀ h, ¬ Cycle.Endless r.parent? h) ∧ (∀ h, ¬ Cycle.Endless r.enclosing? h) ∧
      r.inheritanceCycle? = some (.inheritanceCycle name) := by
  rw [fault?_of_wellLinked hr hl, ← parentCycle?_eq_none_iff_endless hr hl,
    ← enclosingCycle?_eq_none_iff_endless hr hl]
  simp [Option.or_eq_some_iff, parentCycle?, enclosingCycle?]

/-! ## Loops -/

theorem pursuit_finds {next : Handle → Option Handle}
    (hnext : ∀ g h, Cycle.StepsTo next g h → r.Linked g h) :
    Cycle.Pursuit.Finds next .empty r.handles
      ((r.cycle? fun h => (next h).toList).map (·.start)) :=
  Cycle.Pursuit.finds_find? (closed_toList hr hl hnext) (by simp [length_handles])

theorem traversal_finds : Cycle.Traversal.Finds (fun h => (r.links h).reverse) ∅ r.handles
    ((r.cycle? fun h => (r.links h).reverse).map (·.culprit)) :=
  Cycle.Traversal.finds_find? (closed_of_linked hr hl fun _ _ hh => List.mem_reverse.1 hh)
    (by simp [length_handles])

end Reports

end Registry

namespace Draft

/-! ## Builds that are refused for a cycle -/

/-- No edit is a misuse (`allMisuses`), and every link and tag points to a declared type of the right kind. -/
def InOrder (edits : List Edit) : Prop :=
  empty.allMisuses edits = [] ∧ (empty.run edits).registry.WellLinked

theorem not_isCycle_of_mem_allMisuses {d : Draft} {edits : List Edit} {f : Fault}
    (hf : f ∈ d.allMisuses edits) : ¬ f.IsCycle := by
  have hunknown : ∀ (d : Draft) h, f ∈ d.unknown h → ¬ f.IsCycle := by
    intro d h hf
    unfold unknown at hf
    grind [Fault.IsCycle]
  induction edits generalizing d with
  | nil => cases hf
  | cons e rest ih =>
      rcases List.mem_append.1 hf with hf | hf
      · cases e with
        | declare kind name =>
            unfold misuses at hf
            grind [Fault.IsCycle]
        | write h c => exact hunknown d h hf
        | collect tagType container =>
            rcases List.mem_append.1 hf with hf | hf
            · exact hunknown d tagType hf
            · exact hunknown d container hf
      · exact ih hf

theorem build_eq_error_iff (d : Draft) (f : Fault) : d.build = .error f ↔
    d.fault? = some f ∨ d.fault? = none ∧ d.registry.fault? = some f := by
  cases hd : d.fault? with
  | some g => simp [build_of_misuse hd]
  | none =>
      cases hr : d.registry.fault? with
      | some g => simp [build_of_fault hd hr]
      | none => simp [build_of_valid hd hr]

/-- A cycle is reported by `build` exactly where nothing else is wrong and `Registry.fault?` reports it. -/
theorem build_run_eq_cycle_iff {edits : List Edit} {f : Fault} (hcycle : f.IsCycle) :
    (empty.run edits).build = .error f ↔
      InOrder edits ∧ (empty.run edits).registry.fault? = some f := by
  rw [build_eq_error_iff, fault?_run_empty, List.head?_eq_none_iff]
  constructor
  · rintro (hmisuse | ⟨hnone, hfault⟩)
    · exact absurd hcycle (not_isCycle_of_mem_allMisuses (List.mem_of_head? hmisuse))
    · exact ⟨⟨hnone, Registry.wellLinked_of_isCycle (empty.run edits).sound hfault hcycle⟩, hfault⟩
  · rintro ⟨⟨hnone, -⟩, hfault⟩
    exact .inr ⟨hnone, hfault⟩

/-- A cycle of parents is reported exactly if the edits are `InOrder` and some chain of parents never ends,
with the name of the first type, in the order of names, that has such a chain (`FirstEndless`); and likewise
a cycle of enclosing types, if all chains of parents end. Where a cycle of all links is reported, all these
chains end, and the type that is named leads back to itself over parents, interfaces and enclosing types.
The loop that follows chains (`Pursuit`), and the one that keeps a stack of what it met (`Traversal`), come
to an end and find what is reported. -/
theorem cycles_reported (edits : List Edit) :
    let d := empty.run edits
    let r := d.registry
    (∀ name, d.build = .error (.parentCycle name) ↔
      InOrder edits ∧ r.FirstEndless r.parent? name) ∧
    (∀ name, d.build = .error (.enclosingCycle name) ↔
      InOrder edits ∧ (∀ h, ¬ Cycle.Endless r.parent? h) ∧ r.FirstEndless r.enclosing? name) ∧
    (∀ name, d.build = .error (.inheritanceCycle name) →
      InOrder edits ∧ (∀ h, ¬ Cycle.Endless r.parent? h) ∧ (∀ h, ¬ Cycle.Endless r.enclosing? h) ∧
        ∃ h e, r.get? h = some e ∧ e.name = name ∧ TransGen r.Linked h h) ∧
    (InOrder edits →
      Cycle.Pursuit.Finds r.parent? .empty r.handles
        ((r.cycle? fun h => (r.parent? h).toList).map (·.start)) ∧
      Cycle.Pursuit.Finds r.enclosing? .empty r.handles
        ((r.cycle? fun h => (r.enclosing? h).toList).map (·.start)) ∧
      Cycle.Traversal.Finds (fun h => (r.links h).reverse) ∅ r.handles
        ((r.cycle? fun h => (r.links h).reverse).map (·.culprit))) := by
  intro d r
  have hr : r.Sound := d.sound
  refine ⟨fun name => ?_, fun name => ?_, fun name hname => ?_, fun horder => ⟨?_, ?_, ?_⟩⟩
  · refine (build_run_eq_cycle_iff (f := .parentCycle name) trivial).trans ?_
    refine and_congr_right fun horder => ?_
    exact Registry.fault?_eq_parentCycle_iff hr horder.2
  · refine (build_run_eq_cycle_iff (f := .enclosingCycle name) trivial).trans ?_
    refine and_congr_right fun horder => ?_
    exact Registry.fault?_eq_enclosingCycle_iff hr horder.2
  · obtain ⟨horder, hfault⟩ := (build_run_eq_cycle_iff (f := .inheritanceCycle name) trivial).1 hname
    obtain ⟨hparents, henclosing, hcycle⟩ :=
      (Registry.fault?_eq_inheritanceCycle_iff hr horder.2).1 hfault
    exact ⟨horder, hparents, henclosing, Registry.exists_of_inheritanceCycle? hr horder.2 hcycle⟩
  · exact Registry.pursuit_finds hr horder.2 fun _ _ => Registry.HasParent.linked
  · exact Registry.pursuit_finds hr horder.2 fun _ _ => Registry.HasEnclosing.linked
  · exact Registry.traversal_finds hr horder.2

/-- The parent chain of `a::Leaf` runs into a cycle that does not contain it. -/
def leafAboveCycle : List Edit :=
  [.declare .classType "a::Leaf", .declare .classType "a::One", .declare .classType "a::Two",
    .write (.ofIndex 16) (.parent (.ofIndex 17)), .write (.ofIndex 17) (.parent (.ofIndex 18)),
    .write (.ofIndex 18) (.parent (.ofIndex 17))]

theorem cycles_reported_leaf :
    (empty.run leafAboveCycle).build = .error (.parentCycle "a::Leaf") ∧ InOrder leafAboveCycle ∧
      (empty.run leafAboveCycle).registry.FirstEndless
        (empty.run leafAboveCycle).registry.parent? "a::Leaf" := by
  have hbuild := build_of_fault (d := empty.run leafAboveCycle) (f := .parentCycle "a::Leaf")
    (by decide +kernel) (by decide +kernel)
  exact ⟨hbuild, ((cycles_reported leafAboveCycle).1 "a::Leaf").1 hbuild⟩

end Draft

end TagResolution
