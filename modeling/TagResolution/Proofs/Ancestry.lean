import TagResolution.Proofs.Rank
import TagResolution.Proofs.Recording

/-!
# The chain of parents

A class has the universal root for its parent until another parent is written, and of several parents
the last one counts. Nothing keeps an edit from writing a parent on the universal root, and nothing
looks at the top of a chain. Yet if the root had a parent, every class would have one, and the chain
that begins at the root would come back to it. So in a universe that is built the root stands above all
other classes, and no other type has a parent or is one.

The main statement is `Draft.build_singleRooted`.
-/

namespace TagResolution

open Relation

/-! ## Universes -/

namespace Universe

/-- Every chain of `parent?` goes through classes and ends at the universal root. -/
structure SingleRooted (u : Universe) : Prop where
  /-- Some hops over parents lead from a class to the root, each to a class. -/
  ends : ∀ h, u.IsClass h → ∃ n ≤ u.size, Cycle.along u.parent? n h = some .object ∧
    ∀ k ≤ n, ∃ g, Cycle.along u.parent? k h = some g ∧ u.IsClass g
  root : u.parent? .object = none
  others : ∀ h, ¬ u.IsClass h → u.parent? h = none

variable (u : Universe) {h p : Handle}

theorem isClass_object : u.IsClass .object := by
  obtain ⟨d, hd, -, hkind⟩ := u.sound.builtin .object
  exact ⟨d, hd, hkind⟩

theorem exists_parent? (hclass : u.IsClass h) (hne : h ≠ .object) : ∃ p, u.parent? h = some p := by
  obtain ⟨d, hd, hkind⟩ := hclass
  obtain ⟨p, hp⟩ := Option.isSome_iff_exists.1 (u.sound.rooted h d hd hkind hne)
  exact ⟨p, Registry.hasParent_iff.2 ⟨d, hd, hp⟩⟩

/-- The rank of a class bounds its distance from the root. -/
theorem exists_along_object (hclass : u.IsClass h) :
    ∃ n ≤ u.rank h, Cycle.along u.parent? n h = some .object ∧
      ∀ k ≤ n, ∃ g, Cycle.along u.parent? k h = some g ∧ u.IsClass g := by
  induction hrank : u.rank h using Nat.strongRecOn generalizing h with
  | ind rank ih =>
      by_cases hroot : h = .object
      · subst hroot
        refine ⟨0, Nat.zero_le _, rfl, fun k hk => ?_⟩
        rw [Nat.le_zero.1 hk]
        exact ⟨.object, rfl, hclass⟩
      · obtain ⟨p, hp⟩ := u.exists_parent? hclass hroot
        have hlower : u.rank p < rank := hrank ▸ u.rank_lt_of_linked (u.linked_of_parent? hp)
        obtain ⟨n, hn, hend, hclasses⟩ := ih (u.rank p) hlower (u.isClass_of_parent? hp).2 rfl
        refine ⟨n + 1, by omega, ?_, fun k hk => ?_⟩
        · rw [Cycle.along_succ_of_stepsTo hp, hend]
        · cases k with
          | zero => exact ⟨h, rfl, hclass⟩
          | succ k =>
              rw [Cycle.along_succ_of_stepsTo hp]
              exact hclasses k (Nat.le_of_succ_le_succ hk)

/-- A parent of the root would be a class, from which parents lead back to the root. -/
theorem parent?_object : u.parent? .object = none := by
  refine Option.eq_none_iff_forall_ne_some.2 fun p hp => ?_
  obtain ⟨n, -, hend, -⟩ := u.exists_along_object (u.isClass_of_parent? hp).2
  have hback : ReflTransGen u.registry.HasParent p .object := Cycle.reflTransGen_of_along hend
  have hcycle : TransGen u.registry.HasParent .object .object := .head' hp hback
  exact u.acyclic .object (TransGen.mono (fun _ _ => Registry.HasParent.linked) _ _ hcycle)

theorem singleRooted : u.SingleRooted where
  ends h hclass := by
    obtain ⟨n, hn, hend, hclasses⟩ := u.exists_along_object hclass
    exact ⟨n, hn.trans (u.rank_le h), hend, hclasses⟩
  root := u.parent?_object
  others h hother := by
    refine Option.eq_none_iff_forall_ne_some.2 fun p hp => hother ?_
    exact (u.isClass_of_parent? hp).1

end Universe

/-! ## Written parents -/

namespace Declaration

/-- The parent of a type for which none is written: that of `Declaration.plain`, and none for
`Handle.object`. -/
def firstParent (d : Declaration) (h : Handle) : Option Handle :=
  if d.kind = .classType ∧ h ≠ .object then some .object else none

theorem firstParent_writeAll (d : Declaration) (clauses : List Clause) (h : Handle) :
    (d.writeAll clauses).firstParent h = d.firstParent h := by
  simp [firstParent]

end Declaration

namespace Draft

/-- The parent that an edit writes for a type. -/
def Edit.parent? (h : Handle) : Edit → Option Handle
  | .write g c => if g = h then c.parent? else none
  | _ => none

/-- The parent that some edits write last for a type, each by `Edit.parent?`. -/
def lastParent? : List Edit → Handle → Option Handle
  | [], _ => none
  | e :: rest, h => lastParent? rest h <|> e.parent? h

variable {edits : List Edit} {h : Handle}

theorem Edit.parent?_eq (h : Handle) (e : Edit) :
    e.parent? h = ((e.clauses h).filterMap Clause.parent?).getLast? := by
  cases e with
  | declare kind name => rfl
  | write g c =>
      by_cases heq : g = h
      · cases c <;> simp [parent?, clauses, Clause.parent?, heq]
      · simp [parent?, clauses, heq]
  | collect tagType container =>
      have hnone : ((Edit.collect tagType container).clauses h).filterMap Clause.parent? = [] := by
        simp only [clauses]
        split <;> split <;> rfl
      rw [hnone]
      rfl

/-- The last parent is the one that `Declaration.writeAll_eq` keeps. -/
theorem lastParent?_eq (edits : List Edit) (h : Handle) :
    lastParent? edits h = ((clausesFor h edits).filterMap Clause.parent?).getLast? := by
  induction edits with
  | nil => rfl
  | cons e rest ih =>
      rw [lastParent?, ih, e.parent?_eq, clausesFor_cons, List.filterMap_append, List.getLast?_append,
        Option.orElse_eq_orElse, Option.orElse_eq_or]

/-- A handle `Begins` with the parent that it has for its kind. -/
theorem Begins.parent_eq {first : Declaration} (hbegins : Begins edits h first) :
    first.parent = first.firstParent h := by
  cases hbegins with
  | builtin b => cases b <;> rfl
  | introduced hsplit hfirst =>
      rename_i before later edit
      have hne : h ≠ .object := by
        rintro rfl
        obtain ⟨d, hd, -⟩ := (empty.run before).sound.builtin .object
        cases (get?_of_introduced? _ _ hfirst).symm.trans hd
      obtain ⟨kind, name, -, -, -, -, rfl⟩ := (introduced?_eq_some_iff _ h).1 hfirst
      simp [Declaration.plain, Declaration.firstParent, hne]

theorem isSome_lastParent? {p : Handle} (hmem : .write h (.parent p) ∈ edits) :
    (lastParent? edits h).isSome := by
  induction edits with
  | nil => cases hmem
  | cons e rest ih =>
      rcases List.mem_cons.1 hmem with rfl | hmem
      · simp [lastParent?, Edit.parent?, Clause.parent?]
      · simp [lastParent?, ih hmem]

/-- The parents of a universe that `build` makes are those that its edits write last. -/
theorem parent_of_build {u : Universe} (hu : (empty.run edits).build = .ok u) {e : Declaration}
    (he : u.get? h = some e) : e.parent = (lastParent? edits h <|> e.firstParent h) := by
  obtain ⟨first, hbegins, rfl⟩ := (get?_build_iff hu).1 he
  rw [lastParent?_eq, Declaration.firstParent_writeAll, Declaration.writeAll_eq, ← hbegins.parent_eq]

/-- Whatever edits make a universe, it is `SingleRooted`: the universal root has no parent, from every class
the chain of parents leads to the root, and only classes have parents. The parent of a type is the last one
written for it (`lastParent?`), and without any the root, if it is a class. So no universe is built from
edits that write a parent for the root. -/
theorem build_singleRooted (edits : List Edit) :
    (∀ u, (empty.run edits).build = .ok u → u.SingleRooted ∧
      ∀ h e, u.get? h = some e → e.parent = (lastParent? edits h <|> e.firstParent h)) ∧
    ∀ p, .write .object (.parent p) ∈ edits → ∃ f, (empty.run edits).build = .error f := by
  refine ⟨fun u hu => ⟨u.singleRooted, fun h e he => parent_of_build hu he⟩, fun p hp => ?_⟩
  cases hbuild : (empty.run edits).build with
  | error f => exact ⟨f, rfl⟩
  | ok u =>
      obtain ⟨d, hd, -⟩ := u.isClass_object
      obtain ⟨q, hq⟩ := Option.isSome_iff_exists.1 (isSome_lastParent? hp)
      have hparent : d.parent = some q := by simp [parent_of_build hbuild hd, hq]
      have hroot : u.parent? .object = some q := Registry.hasParent_iff.2 ⟨d, hd, hparent⟩
      cases hroot.symm.trans u.parent?_object

/-- The parent of `a::Leaf` is written twice, and that of `a::Base` not at all. -/
def reparented : List Edit :=
  [.declare .classType "a::Base", .declare .classType "a::Other", .declare .classType "a::Leaf",
    .write (.ofIndex 18) (.parent (.ofIndex 17)), .write (.ofIndex 18) (.parent (.ofIndex 16))]

theorem build_singleRooted_reparented :
    (∃ u, (empty.run reparented).build = .ok u ∧ u.SingleRooted) ∧
      ∃ f, (empty.run (reparented ++ [.write .object (.parent (.ofIndex 16))])).build = .error f := by
  have hbuild := build_of_valid (d := empty.run reparented) (by decide +kernel) (by decide +kernel)
  refine ⟨⟨_, hbuild, ((build_singleRooted reparented).1 _ hbuild).1⟩, ?_⟩
  exact (build_singleRooted (reparented ++ [.write .object (.parent (.ofIndex 16))])).2
    (.ofIndex 16) (by simp)

end Draft

end TagResolution
