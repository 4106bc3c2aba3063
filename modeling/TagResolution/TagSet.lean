import TagResolution.Value

/-!
# Sets of tags

A set of tags that answers quickly whether it holds a tag: the attributes of its tags stand under
their types.
-/

namespace TagResolution

/-- A set of tags, by their types. -/
structure TagSet where
  byType : Std.TreeMap Handle (List Attributes)

namespace TagSet

/-- The attributes of the tags of a type. -/
def ofType (s : TagSet) (type : Handle) : List Attributes := s.byType[type]?.getD []

instance : Membership Tag TagSet := ⟨fun s t => t.attributes ∈ s.ofType t.type⟩

instance (s : TagSet) (t : Tag) : Decidable (t ∈ s) :=
  inferInstanceAs (Decidable (t.attributes ∈ s.ofType t.type))

def empty : TagSet := ⟨∅⟩

def insert (s : TagSet) (t : Tag) : TagSet :=
  ⟨s.byType.insert t.type (t.attributes :: s.ofType t.type)⟩

theorem mem_iff {s : TagSet} {t : Tag} : t ∈ s ↔ t.attributes ∈ s.ofType t.type := Iff.rfl

@[simp] theorem not_mem_empty (t : Tag) : t ∉ empty := by
  simp [mem_iff, ofType, empty]

theorem ofType_insert (s : TagSet) (t : Tag) (type : Handle) :
    (s.insert t).ofType type
      = if t.type = type then t.attributes :: s.ofType type else s.ofType type := by
  simp only [ofType, insert, Std.TreeMap.getElem?_insert, Std.LawfulEqCmp.compare_eq_iff_eq]
  split
  · next h => subst h; rfl
  · rfl

@[simp] theorem mem_insert {s : TagSet} {t u : Tag} : t ∈ s.insert u ↔ t = u ∨ t ∈ s := by
  rw [mem_iff, mem_iff, ofType_insert]
  split
  · next h =>
    rw [List.mem_cons]
    refine or_congr_left ⟨fun ha => ?_, fun he => by rw [he]⟩
    cases t; cases u; cases h; cases ha; rfl
  · next h => exact ⟨.inr, fun ht => ht.resolve_left fun he => h (by rw [he])⟩

end TagSet

end TagResolution
