import TagResolution.Proofs.NestedConfiguration

/-!
# Shadowed configurations

A nested configuration may be written with a value that is no valid choice. The lookup does not go on then:
the first type of the hierarchy from which a configuration is sighted decides, and if its value is not valid,
nothing is configured. So a choice that is made further out is lost behind an invalid one. Where it is not
lost, the lookup finds the first choice of the hierarchy, as if invalid configurations were absent.

The main statement is `Universe.nesting?_eq_firstChoice?_iff`.
-/

namespace TagResolution

namespace Universe

variable {u : Universe} {h g d : Handle} {n : Nesting}

/-- The choice of a type itself: that of the `nearest?` configuration sighted from it, if its value is
valid. -/
def choice? (u : Universe) (h : Handle) : Option Nesting :=
  (u.nearest? h .nestedConfiguration).bind fun s =>
    (((u.merge s).find? "value").bind Value.constant?).bind Nesting.ofConstant?

/-- A type makes a `choice?` exactly if the value of its nearest configuration is the constant of that
choice. -/
theorem choice?_eq_some_iff : u.choice? g = some n ↔
    ∃ s, u.nearest? g .nestedConfiguration = some s ∧
      (u.merge s).find? "value" = some (.enum n.constant) := by
  have hconstant : ∀ c, Nesting.ofConstant? c = some n ↔ c = n.constant := by
    intro c
    constructor
    · unfold Nesting.ofConstant?
      split <;> try split
      all_goals rintro ⟨⟩
      all_goals assumption
    · rintro rfl
      exact n.ofConstant?_constant
  have hvalue : ∀ v : Value, v.constant?.bind Nesting.ofConstant? = some n ↔ v = .enum n.constant := by
    intro v
    cases v <;> simp [Value.constant?, hconstant]
  rw [choice?, Option.bind_eq_some_iff]
  refine exists_congr fun s => and_congr_right fun _ => ?_
  rw [Option.bind_assoc, Option.bind_eq_some_iff]
  simp only [hvalue, exists_eq_right]

/-- The first `choice?` in the hierarchy of a type, whatever is written without a valid value. -/
def firstChoice? (u : Universe) (h : Handle) : Option Nesting :=
  (u.hierarchy h true).findSome? u.choice?

/-- The type whose configuration decides: the first one in the hierarchy from which one is sighted. -/
def deciding? (u : Universe) (h : Handle) : Option Handle :=
  (u.hierarchy h true).find? u.showsNesting

theorem nesting?_eq_deciding? (u : Universe) (h : Handle) :
    u.nesting? h = (u.deciding? h).bind u.choice? :=
  u.nesting?_eq h

theorem choice?_eq_none_of_not_shows (hout : u.showsNesting g = false) : u.choice? g = none := by
  have hnone : u.nearest? g .nestedConfiguration = none := by
    simpa [showsNesting] using hout
  rw [choice?, hnone, Option.bind_none]

/-- Where no type is `deciding?`, no type of the hierarchy makes a choice. -/
theorem firstChoice?_of_undecided (hnone : u.deciding? h = none) : u.firstChoice? h = none := by
  refine List.findSome?_eq_none_iff.2 fun g hg => choice?_eq_none_of_not_shows ?_
  simpa using List.find?_eq_none.1 hnone g hg

/-- A choice of the `deciding?` type is the first one: before it no configuration is sighted. -/
theorem firstChoice?_of_decided (hd : u.deciding? h = some d) (hn : u.choice? d = some n) :
    u.firstChoice? h = some n := by
  obtain ⟨-, before, after, hsplit, hbefore⟩ := List.find?_eq_some_iff_append.1 hd
  refine List.findSome?_eq_some_iff.2 ⟨before, d, after, hsplit, hn, fun g hg => ?_⟩
  exact choice?_eq_none_of_not_shows (by simpa using hbefore g hg)

/-- A type makes a `choice?` if the nearest configuration sighted from it has the constant of that choice
for its value. What `nesting?` has for a type is the choice of the first type in its hierarchy from which a
nested configuration is sighted (`deciding?`), and nothing if that one has no valid value. It is
`firstChoice?`, the first choice of the hierarchy, whenever it is a choice. It fails to be exactly where the
deciding type has no valid value and some other type of the hierarchy makes a choice. -/
theorem nesting?_eq_firstChoice?_iff (u : Universe) (h : Handle) :
    (∀ g n, u.choice? g = some n ↔ ∃ s, u.nearest? g .nestedConfiguration = some s ∧
      (u.merge s).find? "value" = some (.enum n.constant)) ∧
    u.nesting? h = (u.deciding? h).bind u.choice? ∧
    (∀ n, u.nesting? h = some n → u.firstChoice? h = some n) ∧
    (u.nesting? h = u.firstChoice? h ↔
      ¬ ∃ d, u.deciding? h = some d ∧ u.choice? d = none ∧
        ∃ g ∈ u.hierarchy h true, (u.choice? g).isSome) := by
  refine ⟨fun _ _ => choice?_eq_some_iff, ?_⟩
  have hnesting := u.nesting?_eq_deciding? h
  cases hd : u.deciding? h with
  | none =>
      have hfirst := firstChoice?_of_undecided hd
      rw [hd] at hnesting
      rw [hnesting, hfirst]
      exact ⟨rfl, nofun, by simp⟩
  | some d =>
      rw [hd, Option.bind_some] at hnesting
      rw [hnesting]
      -- Only an invalid value of the deciding type can keep the lookup from the first choice.
      cases hn : u.choice? d with
      | some n =>
          have hfirst := firstChoice?_of_decided hd hn
          rw [hfirst]
          exact ⟨hn.symm, fun _ => id, by simp [hn]⟩
      | none =>
          refine ⟨hn.symm, nofun, ?_⟩
          have hall : u.firstChoice? h = none ↔ ∀ g ∈ u.hierarchy h true, u.choice? g = none :=
            List.findSome?_eq_none_iff
          rw [eq_comm, hall]
          simp [hn, Option.isSome_iff_ne_none]

/-- A room in a house that takes over the tags of the house, were it not for its own configuration. -/
def misconfigured : Universe :=
  Draft.ofEdits
    [.declare .classType "a::House", .declare .classType "a::Room",
      .write (.ofIndex 17) (.enclosing (.ofIndex 16)),
      .write (.ofIndex 16) (.tag ((Tag.plain .nestedConfiguration).set "value" (.enum "Inherit"))),
      .write (.ofIndex 17) (.tag ((Tag.plain .nestedConfiguration).set "value" (.enum "Sometimes")))]
    (by decide +kernel) (by decide +kernel)

/-- The configuration of the room of `misconfigured` decides and is not valid, so the valid one of the house
is not found, and searches from the room do not go on to the house. -/
theorem nesting?_misconfigured :
    misconfigured.hierarchy (.ofIndex 17) true = [.ofIndex 17, .ofIndex 16] ∧
    misconfigured.choice? (.ofIndex 17) = none ∧
    misconfigured.choice? (.ofIndex 16) = some .inherit ∧
    misconfigured.nesting? (.ofIndex 17) = none ∧
    misconfigured.firstChoice? (.ofIndex 17) = some .inherit ∧
    misconfigured.reach .override (.ofIndex 17) = .hierarchy := by
  decide +kernel

end Universe

end TagResolution
