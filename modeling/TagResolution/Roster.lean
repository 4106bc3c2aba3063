import TagResolution.Marks

/-!
# Rosters

A roster is a list of handles without repetition that also answers quickly whether it holds a
handle. Its list and its marks agree by construction.
-/

namespace TagResolution

/-- Handles without repetition, newest first, with a mark on each. -/
structure Roster where
  newestFirst : List Handle
  marks : Marks
  mem_marks : ∀ h, h ∈ marks ↔ h ∈ newestFirst
  nodup : newestFirst.Nodup

namespace Roster

instance : Membership Handle Roster := ⟨fun r h => h ∈ r.newestFirst⟩

theorem mem_def {r : Roster} {h : Handle} : h ∈ r ↔ h ∈ r.newestFirst := Iff.rfl

instance (r : Roster) (h : Handle) : Decidable (h ∈ r) :=
  decidable_of_iff (h ∈ r.marks) (r.mem_marks h)

def empty : Roster where
  newestFirst := []
  marks := .empty
  mem_marks := by simp
  nodup := .nil

/-- The roster with `h` as its newest member, unless it holds `h` already. -/
def insert (r : Roster) (h : Handle) : Roster :=
  if hm : h ∈ r then r
  else
    { newestFirst := h :: r.newestFirst
      marks := r.marks.insert h
      mem_marks := fun g => by rw [Marks.mem_insert, r.mem_marks, List.mem_cons]
      nodup := List.nodup_cons.2 ⟨hm, r.nodup⟩ }

/-- The members in the order in which they joined. -/
def toList (r : Roster) : List Handle := r.newestFirst.reverse

@[simp] theorem not_mem_empty (h : Handle) : h ∉ empty := by simp [mem_def, empty]

theorem newestFirst_insert_of_not_mem {r : Roster} {h : Handle} (hm : h ∉ r) :
    (r.insert h).newestFirst = h :: r.newestFirst := by
  rw [insert, dif_neg hm]

theorem insert_of_mem {r : Roster} {h : Handle} (hm : h ∈ r) : r.insert h = r := by
  rw [insert, dif_pos hm]

@[simp] theorem mem_insert {r : Roster} {g h : Handle} : g ∈ r.insert h ↔ g = h ∨ g ∈ r := by
  by_cases hm : h ∈ r
  · rw [insert_of_mem hm]
    exact ⟨.inr, fun hg => hg.elim (fun he => he ▸ hm) id⟩
  · rw [mem_def, newestFirst_insert_of_not_mem hm, List.mem_cons, mem_def]

@[simp] theorem mem_toList {r : Roster} {h : Handle} : h ∈ r.toList ↔ h ∈ r := by
  simp [toList, mem_def]

theorem nodup_toList (r : Roster) : r.toList.Nodup :=
  List.pairwise_reverse.2 (r.nodup.imp Ne.symm)

end Roster

end TagResolution
