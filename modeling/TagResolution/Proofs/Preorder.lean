import Mathlib.Data.List.Induction
import TagResolution.Proofs.Hierarchy

/-!
# Hierarchies as walks

A climb passes over types that were met before. A walk does not: it lists a type, then the walks from
all that it is built on, and meets shared types again and again. Since everything above a type that was
met was met with it, nothing is lost by passing over it, and the hierarchy is the walk without its
repetitions.

The main statements are `hierarchy_eq_eraseDups` and `hierarchy_walked`.
-/

namespace TagResolution

/-! ## Rosters without repetitions -/

namespace Roster

theorem toList_insert (r : Roster) (h : Handle) :
    (r.insert h).toList = if h ∈ r then r.toList else r.toList ++ [h] := by
  split
  · next hm => rw [insert_of_mem hm]
  · next hm => simp [toList, newestFirst_insert_of_not_mem hm]

/-- A roster into which a list is inserted names what the list names, as `eraseDups` leaves it. -/
theorem toList_foldl_insert (l : List Handle) : (l.foldl insert empty).toList = l.eraseDups := by
  induction l using List.reverseRecOn with
  | nil => rfl
  | append_singleton l h ih =>
      have hmem : h ∈ l.foldl insert empty ↔ h ∈ l := by
        rw [← mem_toList, ih, List.mem_eraseDups]
      rw [List.foldl_append, List.foldl_cons, List.foldl_nil, toList_insert, ih,
        List.eraseDups_append]
      by_cases hl : h ∈ l <;> simp [hmem, hl, List.removeAll, List.eraseDups_cons]

theorem mem_foldl_insert {l : List Handle} {r : Roster} {g : Handle} :
    g ∈ l.foldl insert r ↔ g ∈ r ∨ g ∈ l := by
  induction l generalizing r with
  | nil => simp
  | cons h rest ih =>
      rw [List.foldl_cons, ih, mem_insert, List.mem_cons]
      tauto

theorem foldl_insert_of_subset {l : List Handle} {r : Roster} (hsub : ∀ g ∈ l, g ∈ r) :
    l.foldl insert r = r := by
  induction l with
  | nil => rfl
  | cons h rest ih =>
      rw [List.foldl_cons, insert_of_mem (hsub h (.head _))]
      exact ih fun g hg => hsub g (.tail _ hg)

end Roster

namespace Universe

open Relation

variable (u : Universe)

/-! ## Walks -/

/-- The types that are met from `h` on, each as often as it is met. The number bounds the steps that
lead away from `h`. -/
def walk (withEnclosing : Bool) : Nat → Handle → List Handle
  | 0, _ => []
  | bound + 1, h =>
    if u.listable h then h :: (u.supertypes withEnclosing h).flatMap (walk withEnclosing bound) else []

/-- The types that are met from `h` on, with a bound that is not reached. -/
def preorder (withEnclosing : Bool) (h : Handle) : List Handle := u.walk withEnclosing (u.size + 1) h

variable {u} {withEnclosing : Bool} {g h : Handle}

theorem walk_eq_walk {bound bound' : Nat} (hbound : u.rank h < bound) (hbound' : u.rank h < bound') :
    u.walk withEnclosing bound h = u.walk withEnclosing bound' h := by
  induction bound generalizing bound' h with
  | zero => exact absurd hbound (Nat.not_lt_zero _)
  | succ bound ih =>
      cases bound' with
      | zero => exact absurd hbound' (Nat.not_lt_zero _)
      | succ bound' =>
          have hup : (u.supertypes withEnclosing h).flatMap (u.walk withEnclosing bound)
              = (u.supertypes withEnclosing h).flatMap (u.walk withEnclosing bound') := by
            refine List.flatMap_congr fun n hn => ?_
            have hrank := u.rank_lt_of_linked (u.linked_of_mem_supertypes hn)
            exact ih (by omega) (by omega)
          rw [walk, walk, hup]

theorem walk_eq_preorder {bound : Nat} (hbound : u.rank h < bound) :
    u.walk withEnclosing bound h = u.preorder withEnclosing h :=
  walk_eq_walk hbound (Nat.lt_succ_of_le (u.rank_le h))

/-- The type itself, and then the walks from all its `supertypes`. -/
theorem preorder_of_listable (hlist : u.listable h = true) : u.preorder withEnclosing h
    = h :: (u.supertypes withEnclosing h).flatMap (u.preorder withEnclosing) := by
  have hup : (u.supertypes withEnclosing h).flatMap (u.walk withEnclosing u.size)
      = (u.supertypes withEnclosing h).flatMap (u.preorder withEnclosing) := by
    refine List.flatMap_congr fun n hn => walk_eq_preorder ?_
    have hrank := u.rank_lt_of_linked (u.linked_of_mem_supertypes hn)
    have hle := u.rank_le h
    omega
  unfold preorder
  rw [walk, if_pos hlist, hup]
  rfl

theorem preorder_of_not_listable (hlist : u.listable h = false) : u.preorder withEnclosing h = [] := by
  unfold preorder
  rw [walk, if_neg (by simp [hlist])]

/-- The `preorder` walk meets exactly what can be reached by `Ascends`. -/
theorem mem_preorder : g ∈ u.preorder withEnclosing h ↔
    u.listable h = true ∧ ReflTransGen (u.Ascends withEnclosing) h g := by
  constructor
  · intro hg
    -- Every step up has a lower rank, so the induction is on the rank.
    induction hrank : u.rank h using Nat.strongRecOn generalizing h with
    | ind n ih =>
        cases hlist : u.listable h with
        | false =>
            rw [preorder_of_not_listable hlist] at hg
            cases hg
        | true =>
            refine ⟨rfl, ?_⟩
            rw [preorder_of_listable hlist] at hg
            rcases List.mem_cons.1 hg with rfl | hg
            · exact .refl
            · obtain ⟨f, hf, hg⟩ := List.mem_flatMap.1 hg
              have hlower := u.rank_lt_of_linked (u.linked_of_mem_supertypes hf)
              obtain ⟨hlist', hreach⟩ := ih _ (hrank ▸ hlower) hg rfl
              exact .head ⟨hf, hlist'⟩ hreach
  · rintro ⟨hlist, hreach⟩
    induction hreach using ReflTransGen.head_induction_on with
    | refl =>
        rw [preorder_of_listable hlist]
        exact .head _
    | head hstep _ ih =>
        rw [preorder_of_listable hlist]
        exact .tail _ (List.mem_flatMap.2 ⟨_, hstep.1, ih hstep.2⟩)

theorem listable_of_mem_preorder (hg : g ∈ u.preorder withEnclosing h) : u.listable g = true := by
  obtain ⟨hlist, hreach⟩ := mem_preorder.1 hg
  cases hreach with
  | refl => exact hlist
  | tail _ hstep => exact hstep.2

/-- Everything above a type that is met is met. -/
theorem preorder_subset (hg : g ∈ u.preorder withEnclosing h) :
    ∀ f ∈ u.preorder withEnclosing g, f ∈ u.preorder withEnclosing h := by
  intro f hf
  obtain ⟨hlist, hreach⟩ := mem_preorder.1 hg
  exact mem_preorder.2 ⟨hlist, hreach.trans (mem_preorder.1 hf).2⟩

/-! ## Climbs -/

/-- Everything above a type that was met was met, for types of lower rank. While the climb is at the
types above another one, that type was met already, but it has a higher rank. -/
def MetBelow (u : Universe) (withEnclosing : Bool) (rank : Nat) (met : Roster) : Prop :=
  ∀ g ∈ met, u.rank g < rank → ∀ f ∈ u.preorder withEnclosing g, f ∈ met

theorem MetBelow.foldl {rank : Nat} {met : Roster} (hmet : u.MetBelow withEnclosing rank met) :
    u.MetBelow withEnclosing rank ((u.preorder withEnclosing h).foldl Roster.insert met) := by
  intro g hg hrank f hf
  refine Roster.mem_foldl_insert.2 ?_
  rcases Roster.mem_foldl_insert.1 hg with hg | hg
  · exact .inl (hmet g hg hrank f hf)
  · exact .inr (preorder_subset hg f hf)

/-- By `climb`, climbing from types one after the other inserts their walks. -/
theorem foldl_climb {bound rank : Nat} {l : List Handle} {met : Roster}
    (hclimb : ∀ n ∈ l, ∀ met, u.MetBelow withEnclosing rank met →
      u.climb withEnclosing bound met n = (u.preorder withEnclosing n).foldl Roster.insert met)
    (hmet : u.MetBelow withEnclosing rank met) :
    l.foldl (u.climb withEnclosing bound) met
      = (l.flatMap (u.preorder withEnclosing)).foldl Roster.insert met := by
  induction l generalizing met with
  | nil => rfl
  | cons n rest ih =>
      rw [List.foldl_cons, List.flatMap_cons, List.foldl_append, hclimb n (.head _) met hmet]
      exact ih (fun m hm => hclimb m (.tail _ hm)) hmet.foldl

/-- By `climb` the `preorder` walk is inserted. -/
theorem climb_eq_foldl {bound : Nat} {met : Roster} (hbound : u.rank h < bound)
    (hmet : u.MetBelow withEnclosing (u.rank h + 1) met) :
    u.climb withEnclosing bound met h = (u.preorder withEnclosing h).foldl Roster.insert met := by
  induction bound generalizing met h with
  | zero => exact absurd hbound (Nat.not_lt_zero _)
  | succ bound ih =>
      unfold climb
      cases hlist : u.listable h with
      | false =>
          rw [preorder_of_not_listable hlist]
          rfl
      | true =>
          by_cases hold : h ∈ met
          · rw [Roster.foldl_insert_of_subset (hmet h hold (Nat.lt_succ_self _))]
            simp [hold]
          · have hup : u.MetBelow withEnclosing (u.rank h) (met.insert h) := by
              intro g hg hrank f hf
              refine Roster.mem_insert.2 (.inr ?_)
              rcases Roster.mem_insert.1 hg with rfl | hg
              · exact absurd hrank (Nat.lt_irrefl _)
              · exact hmet g hg (Nat.lt_succ_of_lt hrank) f hf
            have hclimb : (u.supertypes withEnclosing h).foldl (u.climb withEnclosing bound)
                  (met.insert h)
                = ((u.supertypes withEnclosing h).flatMap (u.preorder withEnclosing)).foldl
                  Roster.insert (met.insert h) := by
              refine foldl_climb (fun n hn met hmet => ?_) hup
              have hrank := u.rank_lt_of_linked (u.linked_of_mem_supertypes hn)
              exact ih (by omega) fun g hg hlt => hmet g hg (by omega)
            rw [preorder_of_listable hlist, List.foldl_cons, ← hclimb]
            simp [hold]

/-- The `hierarchy` is the `preorder` walk from its type, without repetitions. -/
theorem hierarchy_eq_eraseDups (u : Universe) (h : Handle) (withEnclosing : Bool) :
    u.hierarchy h withEnclosing = (u.preorder withEnclosing h).eraseDups := by
  have hmet : u.MetBelow withEnclosing (u.rank h + 1) .empty := fun g hg =>
    absurd hg (Roster.not_mem_empty g)
  unfold hierarchy
  rw [climb_eq_foldl (Nat.lt_succ_of_le (u.rank_le h)) hmet, Roster.toList_foldl_insert]

theorem exists_hierarchy_eq_cons (hlist : u.listable h = true) (withEnclosing : Bool) :
    ∃ rest, u.hierarchy h withEnclosing = h :: rest := by
  rw [hierarchy_eq_eraseDups, preorder_of_listable hlist, List.eraseDups_cons]
  exact ⟨_, rfl⟩

/-- A type that the `preorder` walk meets has in the `hierarchy` no other types before it than in the walk. -/
theorem exists_hierarchy_split {d : Handle} {before after : List Handle}
    (hwalk : u.preorder withEnclosing h = before ++ d :: after) (hd : d ∉ before) :
    ∃ before' after', u.hierarchy h withEnclosing = before' ++ d :: after' ∧
      ∀ g ∈ before', g ∈ before := by
  have hfirst : (d :: after).removeAll before = d :: after.removeAll before := by
    simp [List.removeAll, hd]
  rw [hierarchy_eq_eraseDups, hwalk, List.eraseDups_append, hfirst, List.eraseDups_cons]
  exact ⟨_, _, rfl, fun g hg => List.mem_eraseDups.1 hg⟩

/-! ## Walks without a bound -/

/-- A function answers the walk from every type: the type itself, the walks from its interfaces in written order,
from its parent and, when asked, from its enclosing type. A walk never enters the universal root or a type that
is not declared. -/
def Walks (u : Universe) (withEnclosing : Bool) (walk : Handle → List Handle) : Prop :=
  ∀ h, walk h =
    if u.listable h then
      h :: ((u.interfaces h).flatMap walk ++ (u.parent? h).toList.flatMap walk
        ++ if withEnclosing then (u.enclosing? h).toList.flatMap walk else [])
    else []

theorem flatMap_supertypes (walk : Handle → List Handle) :
    (u.supertypes withEnclosing h).flatMap walk =
      (u.interfaces h).flatMap walk ++ (u.parent? h).toList.flatMap walk
        ++ if withEnclosing then (u.enclosing? h).toList.flatMap walk else [] := by
  unfold supertypes
  rw [List.flatMap_append, List.flatMap_append]
  cases withEnclosing <;> rfl

theorem walks_preorder (u : Universe) (withEnclosing : Bool) :
    u.Walks withEnclosing (u.preorder withEnclosing) := by
  intro h
  rw [← flatMap_supertypes]
  cases hlist : u.listable h with
  | true => exact preorder_of_listable hlist
  | false => exact preorder_of_not_listable hlist

/-- The links are acyclic, so only `preorder` answers the `Walks`. -/
theorem Walks.eq_preorder {walk : Handle → List Handle} (hwalk : u.Walks withEnclosing walk) (h : Handle) :
    walk h = u.preorder withEnclosing h := by
  induction hrank : u.rank h using Nat.strongRecOn generalizing h with
  | ind n ih =>
      have hup : (u.supertypes withEnclosing h).flatMap walk
          = (u.supertypes withEnclosing h).flatMap (u.preorder withEnclosing) := by
        refine List.flatMap_congr fun g hg => ih (u.rank g) ?_ g rfl
        have hlower := u.rank_lt_of_linked (u.linked_of_mem_supertypes hg)
        omega
      rw [hwalk h, u.walks_preorder withEnclosing h, ← flatMap_supertypes, ← flatMap_supertypes, hup]

theorem walks_iff {walk : Handle → List Handle} :
    u.Walks withEnclosing walk ↔ walk = u.preorder withEnclosing :=
  ⟨fun hwalk => funext hwalk.eq_preorder, fun heq => heq ▸ u.walks_preorder withEnclosing⟩

theorem head?_hierarchy (u : Universe) (h : Handle) (withEnclosing : Bool) :
    (u.hierarchy h withEnclosing).head? = if u.listable h then some h else none := by
  cases hlist : u.listable h with
  | true =>
      obtain ⟨rest, hrest⟩ := exists_hierarchy_eq_cons hlist withEnclosing
      rw [hrest]
      rfl
  | false =>
      rw [hierarchy_eq_eraseDups, preorder_of_not_listable hlist]
      rfl

/-- There is one function that `Walks` from every type, and the `hierarchy` is the walk from its type
without what is met again. So it lists no type twice; it lists exactly what `Ascends` reaches, with the type
itself in front; and enclosing types only add to it. -/
theorem hierarchy_walked (u : Universe) (withEnclosing : Bool) :
    ∃ walk, (∀ other, u.Walks withEnclosing other ↔ other = walk) ∧
      ∀ h, u.hierarchy h withEnclosing = (walk h).eraseDups ∧
        (u.hierarchy h withEnclosing).Nodup ∧
        (∀ g, g ∈ u.hierarchy h withEnclosing ↔
          u.listable h = true ∧ ReflTransGen (u.Ascends withEnclosing) h g) ∧
        (u.hierarchy h withEnclosing).head? = (if u.listable h then some h else none) ∧
        u.hierarchy h false ⊆ u.hierarchy h withEnclosing := by
  refine ⟨u.preorder withEnclosing, fun _ => walks_iff, fun h => ?_⟩
  exact ⟨u.hierarchy_eq_eraseDups h withEnclosing, Roster.nodup_toList _, fun _ => u.mem_hierarchy,
    u.head?_hierarchy h withEnclosing, fun _ => u.hierarchy_subset withEnclosing⟩

end Universe

end TagResolution
