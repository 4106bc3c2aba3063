import TagResolution.Handle

/-!
# Marks

A set of handles as a bitmap, in words of 32 marks. There are as many words as the greatest marked
handle needs, so marks suit the handles of a registry, which are given one after the other.
-/

namespace TagResolution

/-- A set of handles. -/
structure Marks where
  words : Array Nat

namespace Marks

/-- How many handles share a word. -/
def wordSize : Nat := 32

/-- A word, which is zero beyond the last one. -/
def word (m : Marks) (i : Nat) : Nat := m.words.getD i 0

/-- Whether a handle is marked. -/
def contains (m : Marks) (h : Handle) : Bool :=
  (m.word (h.index / wordSize)).testBit (h.index % wordSize)

instance : Membership Handle Marks := ⟨fun m h => m.contains h⟩

instance (m : Marks) (h : Handle) : Decidable (h ∈ m) :=
  inferInstanceAs (Decidable (m.contains h = true))

def empty : Marks := ⟨#[]⟩

/-- Zeros added at the end of the words, so that there are `n` at least. -/
def padded (words : Array Nat) (n : Nat) : Array Nat :=
  if words.size < n then words ++ Array.replicate (n - words.size) 0 else words

/-- Marks a handle. -/
def insert (m : Marks) (h : Handle) : Marks :=
  let i := h.index / wordSize
  ⟨(padded m.words (i + 1)).modify i (· ||| 1 <<< (h.index % wordSize))⟩

theorem mem_iff {m : Marks} {h : Handle} :
    h ∈ m ↔ (m.word (h.index / wordSize)).testBit (h.index % wordSize) := Iff.rfl

theorem lt_size_padded (words : Array Nat) (i : Nat) : i < (padded words (i + 1)).size := by
  unfold padded
  split
  · rw [Array.size_append, Array.size_replicate]; omega
  · omega

theorem getD_padded (words : Array Nat) (n i : Nat) : (padded words n).getD i 0 = words.getD i 0 := by
  unfold padded
  split
  · simp only [Array.getD_eq_getD_getElem?, Array.getElem?_append, Array.getElem?_replicate]
    split
    · rfl
    · next hi => rw [Array.getElem?_eq_none (Nat.not_lt.1 hi)]; split <;> rfl
  · rfl

theorem word_insert (m : Marks) (h : Handle) (i : Nat) :
    (m.insert h).word i
      = if h.index / wordSize = i then m.word i ||| 1 <<< (h.index % wordSize) else m.word i := by
  simp only [word, insert, Array.getD_eq_getD_getElem?, Array.getElem?_modify]
  split
  · next hi =>
    subst hi
    rw [← Array.getD_eq_getD_getElem?, ← getD_padded m.words (h.index / wordSize + 1),
      Array.getD_eq_getD_getElem?, Array.getElem?_eq_getElem (lt_size_padded ..)]
    rfl
  · rw [← Array.getD_eq_getD_getElem?, getD_padded, Array.getD_eq_getD_getElem?]

@[simp] theorem not_mem_empty (h : Handle) : h ∉ empty := by
  simp [mem_iff, word, empty]

@[simp] theorem mem_insert {m : Marks} {g h : Handle} : g ∈ m.insert h ↔ g = h ∨ g ∈ m := by
  rw [mem_iff, mem_iff, word_insert]
  by_cases hw : h.index / wordSize = g.index / wordSize
  · rw [if_pos hw, Nat.testBit_or, Nat.one_shiftLeft, Nat.testBit_two_pow, Bool.or_eq_true,
      decide_eq_true_iff, or_comm]
    refine or_congr_left ⟨fun hb => Handle.ext_index ?_, fun he => by rw [he]⟩
    rw [← Nat.div_add_mod g.index wordSize, ← Nat.div_add_mod h.index wordSize, hw, hb]
  · rw [if_neg hw]
    refine ⟨.inr, fun hg => hg.resolve_left fun he => hw (by rw [he])⟩

end Marks

end TagResolution
