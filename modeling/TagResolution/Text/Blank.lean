/-!
# Blank characters

The characters with the Unicode property White_Space, and the removal of them from both ends of
a text. `trim_append` says that surrounding blanks never count, and `trim_eq_iff` what is left without
them.
-/

namespace TagResolution.Text

/-- The code points with the property White_Space, as closed ranges. -/
def blankRanges : List (Nat × Nat) :=
  [(0x9, 0xd), (0x20, 0x20), (0x85, 0x85), (0xa0, 0xa0), (0x1680, 0x1680), (0x2000, 0x200a),
   (0x2028, 0x2029), (0x202f, 0x202f), (0x205f, 0x205f), (0x3000, 0x3000)]

def isBlank (c : Char) : Bool := blankRanges.any fun r => r.1 ≤ c.toNat && c.toNat ≤ r.2

/-- The text without the blanks at its end. -/
def trimEnd : List Char → List Char
  | [] => []
  | c :: cs =>
    match trimEnd cs with
    | [] => if isBlank c then [] else [c]
    | rest => c :: rest

/-- The text without the blanks at its start and at its end. -/
def trim (cs : List Char) : List Char := trimEnd (cs.dropWhile isBlank)

theorem trimEnd_blanks {cs : List Char} (h : ∀ c ∈ cs, isBlank c) : trimEnd cs = [] := by
  induction cs with
  | nil => rfl
  | cons c cs ih => simp [trimEnd, ih fun x hx => h x (.tail _ hx), h c (.head _)]

theorem trimEnd_append {cs bs : List Char} (h : ∀ c ∈ bs, isBlank c) :
    trimEnd (cs ++ bs) = trimEnd cs := by
  induction cs with
  | nil => exact trimEnd_blanks h
  | cons c cs ih => simp [trimEnd, ih]

theorem dropWhile_blanks {as cs : List Char} (h : ∀ c ∈ as, isBlank c) :
    (as ++ cs).dropWhile isBlank = cs.dropWhile isBlank := by
  induction as with
  | nil => rfl
  | cons a as ih => simp [h a (.head _), ih fun x hx => h x (.tail _ hx)]

/-- Blanks around a text do not change what `trim` leaves of it. -/
theorem trim_append {as cs bs : List Char} (ha : ∀ c ∈ as, isBlank c) (hb : ∀ c ∈ bs, isBlank c) :
    trim (as ++ cs ++ bs) = trim cs := by
  have hbs : bs.dropWhile isBlank = [] := by
    have : (bs ++ []).dropWhile isBlank = [].dropWhile isBlank := dropWhile_blanks hb
    simpa using this
  rw [List.append_assoc, trim, dropWhile_blanks ha, trim, List.dropWhile_append]
  split
  · next h => rw [hbs, List.isEmpty_iff.1 h]
  · exact trimEnd_append hb

/-- What is left of a text when the blanks around it are gone: it neither starts nor ends with one. -/
structure Strips (text core : List Char) : Prop where
  around : ∃ before after, text = before ++ core ++ after ∧
    (∀ c ∈ before, isBlank c) ∧ ∀ c ∈ after, isBlank c
  first : ∀ c ∈ core.head?, ¬ isBlank c
  last : ∀ c ∈ core.getLast?, ¬ isBlank c

theorem exists_trimEnd (cs : List Char) :
    ∃ after, cs = trimEnd cs ++ after ∧ ∀ c ∈ after, isBlank c := by
  induction cs with
  | nil => exact ⟨[], rfl, nofun⟩
  | cons c cs ih =>
      obtain ⟨after, hafter, hblank⟩ := ih
      by_cases hrest : trimEnd cs = []
      · rw [hrest, List.nil_append] at hafter
        subst hafter
        by_cases hc : isBlank c
        · refine ⟨c :: cs, ?_, fun x hx => ?_⟩
          · simp [trimEnd, hrest, hc]
          · rcases List.mem_cons.1 hx with rfl | hx
            · exact hc
            · exact hblank x hx
        · exact ⟨cs, by simp [trimEnd, hrest, hc], hblank⟩
      · refine ⟨after, ?_, hblank⟩
        simp [trimEnd, ← hafter]

theorem last_trimEnd {cs : List Char} : ∀ c ∈ (trimEnd cs).getLast?, ¬ isBlank c := by
  induction cs with
  | nil => nofun
  | cons c cs ih =>
      by_cases hrest : trimEnd cs = []
      · by_cases hc : isBlank c
        · simp [trimEnd, hrest, hc]
        · simp [trimEnd, hrest, hc]
      · simpa [trimEnd, hrest, List.getLast?_cons_of_ne_nil hrest] using ih

theorem trimEnd_eq_self {cs : List Char} (h : ∀ c ∈ cs.getLast?, ¬ isBlank c) : trimEnd cs = cs := by
  induction cs with
  | nil => rfl
  | cons c cs ih =>
      by_cases hrest : cs = []
      · subst hrest
        simpa [trimEnd] using h c rfl
      · rw [List.getLast?_cons_of_ne_nil hrest] at h
        simp [trimEnd, ih h]

theorem strips_trim (text : List Char) : Strips text (trim text) := by
  obtain ⟨after, hafter, hblank⟩ := exists_trimEnd (text.dropWhile isBlank)
  refine ⟨⟨text.takeWhile isBlank, after, ?_, fun c hc => ?_, hblank⟩, fun c hc => ?_, last_trimEnd⟩
  · rw [trim, List.append_assoc, ← hafter, List.takeWhile_append_dropWhile]
  · exact List.all_eq_true.1 List.all_takeWhile c hc
  · have hhead : (text.dropWhile isBlank).head? = some c := by
      rw [hafter, List.head?_append]
      exact Option.or_eq_some_iff.2 (.inl hc)
    have hnot := List.head?_dropWhile_not isBlank text
    rw [hhead] at hnot
    simpa using hnot

/-- Every text has one core, and that is what `trim` finds. -/
theorem trim_eq_iff {text core : List Char} : trim text = core ↔ Strips text core := by
  refine ⟨fun h => h ▸ strips_trim text, fun h => ?_⟩
  obtain ⟨before, after, rfl, hbefore, hafter⟩ := h.around
  rw [trim_append hbefore hafter, trim]
  cases core with
  | nil => rfl
  | cons c cs =>
      rw [List.dropWhile_cons_of_neg (h.first c rfl)]
      exact trimEnd_eq_self h.last

theorem Strips.of_not_isBlank {before core after : List Char} (hbefore : ∀ c ∈ before, isBlank c)
    (hcore : ∀ c ∈ core, ¬ isBlank c) (hafter : ∀ c ∈ after, isBlank c) :
    Strips (before ++ core ++ after) core where
  around := ⟨before, after, rfl, hbefore, hafter⟩
  first c hc := hcore c (List.mem_of_head? hc)
  last c hc := hcore c (List.mem_of_getLast? hc)

end TagResolution.Text
