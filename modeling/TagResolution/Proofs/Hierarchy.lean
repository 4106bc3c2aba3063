import TagResolution.Proofs.Rank

/-!
# What a hierarchy lists

A hierarchy is collected by climbing from a type to what it is built on, past types that were met
before. The main statement is `mem_hierarchy`: it lists exactly the types that can be reached by
climbing. So with enclosing types it lists all that it lists without.
-/

namespace TagResolution.Universe

open Relation

variable (u : Universe)

/-- One step from a type to a type of its hierarchy. -/
def Ascends (withEnclosing : Bool) (g h : Handle) : Prop :=
  h ∈ u.supertypes withEnclosing g ∧ u.listable h = true

theorem linked_of_mem_supertypes {withEnclosing : Bool} {g h : Handle}
    (hh : h ∈ u.supertypes withEnclosing g) : u.registry.Linked g h := by
  unfold supertypes at hh
  rcases List.mem_append.1 hh with hh | hh
  · rcases List.mem_append.1 hh with hi | hp
    · exact u.linked_of_mem_interfaces hi
    · exact u.linked_of_parent? (Option.mem_toList.1 hp)
  · split at hh
    · exact u.linked_of_enclosing? (Option.mem_toList.1 hh)
    · cases hh

/-- What climbing from some types adds to what was met before: all that can be reached, and nothing
else. -/
structure Collected (withEnclosing : Bool) (met : Roster) (starts : List Handle) (met' : Roster) :
    Prop where
  kept : ∀ g ∈ met, g ∈ met'
  added : ∀ h ∈ starts, u.listable h = true → h ∈ met'
  reached : ∀ g ∈ met', g ∈ met ∨
    ∃ h ∈ starts, u.listable h = true ∧ ReflTransGen (u.Ascends withEnclosing) h g
  closed : ∀ g ∈ met', g ∈ met ∨ ∀ n, u.Ascends withEnclosing g n → n ∈ met'

namespace Collected

variable {u} {withEnclosing : Bool} {met met₁ met₂ : Roster} {h : Handle} {rest : List Handle}

theorem nil : u.Collected withEnclosing met [] met :=
  ⟨fun _ hg => hg, nofun, fun _ hg => .inl hg, fun _ hg => .inl hg⟩

theorem cons (hhead : u.Collected withEnclosing met [h] met₁)
    (htail : u.Collected withEnclosing met₁ rest met₂) :
    u.Collected withEnclosing met (h :: rest) met₂ where
  kept g hg := htail.kept g (hhead.kept g hg)
  added g hg hlist := by
    rcases List.mem_cons.1 hg with rfl | hg
    · exact htail.kept g (hhead.added g (.head _) hlist)
    · exact htail.added g hg hlist
  reached g hg := by
    rcases htail.reached g hg with hg | ⟨n, hn, hreach⟩
    · rcases hhead.reached g hg with hg | ⟨n, hn, hreach⟩
      · exact .inl hg
      · exact .inr ⟨n, List.mem_cons.2 (.inl (List.mem_singleton.1 hn)), hreach⟩
    · exact .inr ⟨n, .tail _ hn, hreach⟩
  closed g hg := by
    rcases htail.closed g hg with hg | hclosed
    · rcases hhead.closed g hg with hg | hclosed
      · exact .inl hg
      · exact .inr fun n hn => htail.kept n (hclosed n hn)
    · exact .inr hclosed

theorem foldl {f : Roster → Handle → Roster} {l : List Handle} (met : Roster)
    (hf : ∀ h ∈ l, ∀ met, u.Collected withEnclosing met [h] (f met h)) :
    u.Collected withEnclosing met l (l.foldl f met) := by
  induction l generalizing met with
  | nil => exact .nil
  | cons h rest ih => exact .cons (hf h (.head _) met) (ih _ fun g hg => hf g (.tail _ hg))

/-- Climbing from all `supertypes` of a new type completes the climb from that type. -/
theorem climbed (hlist : u.listable h = true)
    (hup : u.Collected withEnclosing (met.insert h) (u.supertypes withEnclosing h) met₁) :
    u.Collected withEnclosing met [h] met₁ where
  kept g hg := hup.kept g (Roster.mem_insert.2 (.inr hg))
  added g hg _ := by
    rw [List.mem_singleton.1 hg]
    exact hup.kept h (Roster.mem_insert.2 (.inl rfl))
  reached g hg := by
    rcases hup.reached g hg with hg | ⟨n, hn, hnlist, hreach⟩
    · rcases Roster.mem_insert.1 hg with rfl | hg
      · exact .inr ⟨g, .head _, hlist, .refl⟩
      · exact .inl hg
    · exact .inr ⟨h, .head _, hlist, .head ⟨hn, hnlist⟩ hreach⟩
  closed g hg := by
    rcases hup.closed g hg with hg | hclosed
    · rcases Roster.mem_insert.1 hg with rfl | hg
      · exact .inr fun n hn => hup.added n hn.1 hn.2
      · exact .inl hg
    · exact .inr hclosed

end Collected

theorem collected_climb {withEnclosing : Bool} {bound : Nat} (met : Roster) {h : Handle}
    (hbound : u.rank h < bound) :
    u.Collected withEnclosing met [h] (u.climb withEnclosing bound met h) := by
  induction bound generalizing met h with
  | zero => exact absurd hbound (Nat.not_lt_zero _)
  | succ bound ih =>
      unfold climb
      split
      · next hskip =>
        -- What is not listable, or was met before, adds nothing.
        refine ⟨fun _ hg => hg, fun g hg hlist => ?_, fun _ hg => .inl hg, fun _ hg => .inl hg⟩
        rw [List.mem_singleton.1 hg] at hlist ⊢
        simpa [hlist] using hskip
      · next hnew =>
        have hlist : u.listable h = true := by
          cases hl : u.listable h with
          | true => rfl
          | false => simp [hl] at hnew
        -- Every step up has a lower rank, so the bound is not reached.
        refine .climbed hlist (.foldl _ fun n hn met => ih met ?_)
        have := u.rank_lt_of_linked (u.linked_of_mem_supertypes hn)
        omega

/-- The `hierarchy` of a type lists exactly what can be reached by climbing (`Ascends`). -/
theorem mem_hierarchy {withEnclosing : Bool} {h g : Handle} : g ∈ u.hierarchy h withEnclosing ↔
    u.listable h = true ∧ ReflTransGen (u.Ascends withEnclosing) h g := by
  have hcollected : u.Collected withEnclosing .empty [h]
      (u.climb withEnclosing (u.size + 1) .empty h) :=
    u.collected_climb .empty (Nat.lt_succ_of_le (u.rank_le h))
  unfold hierarchy
  rw [Roster.mem_toList]
  constructor
  · intro hg
    rcases hcollected.reached g hg with hg | ⟨n, hn, hlist, hreach⟩
    · exact absurd hg (Roster.not_mem_empty g)
    · rw [List.mem_singleton.1 hn] at hlist hreach
      exact ⟨hlist, hreach⟩
  · rintro ⟨hlist, hreach⟩
    induction hreach with
    | refl => exact hcollected.added h (.head _) hlist
    | tail _ hstep ih =>
        rcases hcollected.closed _ ih with hg | hclosed
        · exact absurd hg (Roster.not_mem_empty _)
        · exact hclosed _ hstep

variable {u}

theorem Ascends.mono {withEnclosing : Bool} {g h : Handle} (hstep : u.Ascends false g h) :
    u.Ascends withEnclosing g h := by
  obtain ⟨hmem, hlist⟩ := hstep
  refine ⟨?_, hlist⟩
  unfold supertypes at hmem ⊢
  rw [if_neg Bool.false_ne_true, List.append_nil] at hmem
  exact List.mem_append_left _ hmem

/-- Enclosing types only add to a `hierarchy`. -/
theorem hierarchy_subset {g h : Handle} (withEnclosing : Bool) (hg : g ∈ u.hierarchy h false) :
    g ∈ u.hierarchy h withEnclosing := by
  obtain ⟨hlist, hclimb⟩ := u.mem_hierarchy.1 hg
  exact u.mem_hierarchy.2 ⟨hlist, ReflTransGen.mono (fun _ _ hstep => Ascends.mono hstep) _ _ hclimb⟩

end TagResolution.Universe
