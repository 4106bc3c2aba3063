/-!
# Dictionaries

A dictionary gives values to names and lists them by name, in code point order. It is a plain list
of pairs, so that a value can hold dictionaries of values; `Ordered` says that the list is in
order and names nothing twice, and every operation keeps it. `find?_insert` fixes what an insertion
does, and `Ordered.ext` says that an ordered dictionary is what it answers.
-/

namespace TagResolution

/-- Values by name. -/
abbrev Dictionary (α : Type) := List (String × α)

namespace Dictionary

variable {α : Type}

def find? : Dictionary α → String → Option α
  | [], _ => none
  | (name, value) :: rest, key => if name = key then some value else find? rest key

/-- Gives `value` to `key`, in place of the value it may have. -/
def insert : Dictionary α → String → α → Dictionary α
  | [], key, value => [(key, value)]
  | (name, old) :: rest, key, value =>
    if key < name then (key, value) :: (name, old) :: rest
    else if key = name then (key, value) :: rest
    else (name, old) :: insert rest key value

/-- Inserts every entry of `top`, so that it wins where both name the same. -/
def overlay (base top : Dictionary α) : Dictionary α :=
  top.foldl (fun d entry => d.insert entry.1 entry.2) base

/-- The dictionary of some entries, of which a later one wins. -/
def ofEntries (entries : List (String × α)) : Dictionary α := overlay [] entries

/-- The names in order. -/
def names (d : Dictionary α) : List String := d.map (·.1)

/-- Listed by name, nothing twice, as `insert` keeps it. -/
def Ordered (d : Dictionary α) : Prop := d.Pairwise (fun a b => a.1 < b.1)

instance (d : Dictionary α) : Decidable d.Ordered :=
  inferInstanceAs (Decidable (List.Pairwise (fun a b => a.1 < b.1) d))

/-! ## Looking up -/

@[simp] theorem find?_nil (key : String) : find? ([] : Dictionary α) key = none := rfl

theorem find?_cons (entry : String × α) (rest : Dictionary α) (key : String) :
    find? (entry :: rest) key = if entry.1 = key then some entry.2 else find? rest key := rfl

theorem find?_insert (d : Dictionary α) (key other : String) (value : α) :
    (d.insert key value).find? other = if key = other then some value else d.find? other := by
  induction d with
  | nil => simp [insert, find?_cons]
  | cons entry rest ih =>
    obtain ⟨name, old⟩ := entry
    unfold insert
    split
    · simp [find?_cons]
    · split
      · next h => subst h; simp only [find?_cons]; split <;> rfl
      · next h => simp only [find?_cons, ih]; grind

/-- In an `overlay` the last entry for a name decides, and below them the base. -/
theorem find?_overlay (base top : Dictionary α) (key : String) :
    (base.overlay top).find? key = (find? top.reverse key <|> base.find? key) := by
  induction top generalizing base with
  | nil => simp [overlay]
  | cons entry rest ih =>
    have hrec : (base.overlay (entry :: rest)) = (base.insert entry.1 entry.2).overlay rest := rfl
    rw [hrec, ih, find?_insert, List.reverse_cons]
    have happ : ∀ (d : Dictionary α), find? (d ++ [entry]) key
        = (find? d key <|> if entry.1 = key then some entry.2 else none) := by
      intro d
      induction d with
      | nil => simp [find?_cons]
      | cons e d ihd => simp only [List.cons_append, find?_cons, ihd]; split <;> rfl
    rw [happ]
    cases find? rest.reverse key <;> simp
    split <;> rfl

theorem find?_isSome_iff {d : Dictionary α} {key : String} :
    (d.find? key).isSome ↔ key ∈ d.names := by
  induction d with
  | nil => simp [names]
  | cons entry rest ih =>
    simp only [find?_cons, names, List.map_cons, List.mem_cons]
    split
    · next h => simp [h]
    · next h => rw [ih]; simp [names, Ne.symm h]

theorem find?_eq_none_iff {d : Dictionary α} {key : String} :
    d.find? key = none ↔ key ∉ d.names := by
  rw [← find?_isSome_iff]; cases d.find? key <;> simp

theorem mem_of_find? {d : Dictionary α} {key : String} {value : α} (h : d.find? key = some value) :
    (key, value) ∈ d := by
  induction d with
  | nil => simp at h
  | cons entry rest ih =>
    rw [find?_cons] at h
    split at h
    · next he => cases h; subst he; exact .head _
    · exact .tail _ (ih h)

/-! ## Order -/

theorem mem_insert_of_mem {d : Dictionary α} {key : String} {value : α} {entry : String × α}
    (h : entry ∈ d.insert key value) : entry = (key, value) ∨ entry ∈ d := by
  induction d with
  | nil => simp [insert] at h; exact .inl h
  | cons first rest ih =>
    obtain ⟨name, old⟩ := first
    unfold insert at h
    split at h
    · rcases List.mem_cons.1 h with h | h
      · exact .inl h
      · exact .inr h
    · split at h
      · rcases List.mem_cons.1 h with h | h
        · exact .inl h
        · exact .inr (.tail _ h)
      · rcases List.mem_cons.1 h with h | h
        · exact .inr (h ▸ .head _)
        · exact (ih h).imp id (.tail _)

theorem Ordered.insert {d : Dictionary α} (h : d.Ordered) (key : String) (value : α) :
    (d.insert key value).Ordered := by
  induction d with
  | nil => exact .cons (by simp) .nil
  | cons entry rest ih =>
    obtain ⟨name, old⟩ := entry
    obtain ⟨hlt, hrest⟩ := List.pairwise_cons.1 h
    unfold Dictionary.insert
    split
    · next hk =>
      refine .cons (fun e he => ?_) h
      rcases List.mem_cons.1 he with he | he
      · subst he; exact hk
      · exact String.lt_trans hk (hlt e he)
    · next hk =>
      split
      · next he => subst he; exact .cons hlt hrest
      · next hne =>
        refine .cons (fun e he => ?_) (ih hrest)
        rcases mem_insert_of_mem he with he | he
        · subst he
          exact Decidable.byContradiction fun hge => hne (String.le_antisymm hge hk)
        · exact hlt e he

theorem Ordered.nil : Ordered ([] : Dictionary α) := List.Pairwise.nil

theorem Ordered.overlay {base : Dictionary α} (h : base.Ordered) (top : Dictionary α) :
    (base.overlay top).Ordered := by
  induction top generalizing base with
  | nil => exact h
  | cons entry rest ih => exact ih (h.insert entry.1 entry.2)

theorem Ordered.ofEntries (entries : List (String × α)) : (ofEntries entries).Ordered :=
  Ordered.nil.overlay entries

theorem Ordered.find?_of_mem {d : Dictionary α} (h : d.Ordered) {key : String} {value : α}
    (hmem : (key, value) ∈ d) : d.find? key = some value := by
  induction d with
  | nil => simp at hmem
  | cons entry rest ih =>
    obtain ⟨hlt, hrest⟩ := List.pairwise_cons.1 h
    rw [find?_cons]
    rcases List.mem_cons.1 hmem with he | he
    · subst he; simp
    · rw [if_neg, ih hrest he]
      intro heq
      exact String.lt_irrefl _ (heq ▸ hlt _ he)

/-- An `Ordered` dictionary is determined by the answers of `find?`. -/
theorem Ordered.ext {d e : Dictionary α} (hd : d.Ordered) (he : e.Ordered)
    (h : ∀ key, d.find? key = e.find? key) : d = e := by
  induction d generalizing e with
  | nil =>
    cases e with
    | nil => rfl
    | cons entry rest => have := h entry.1; simp [find?_cons] at this
  | cons a d ih =>
    cases e with
    | nil => have := h a.1; simp [find?_cons] at this
    | cons b e =>
      obtain ⟨ha, hd⟩ := List.pairwise_cons.1 hd
      obtain ⟨hb, he⟩ := List.pairwise_cons.1 he
      have hfst : a.1 = b.1 := by
        refine Decidable.byContradiction fun hne => ?_
        have h1 := mem_of_find? ((h a.1).symm.trans (if_pos rfl))
        have h2 := mem_of_find? ((h b.1).trans (if_pos rfl))
        rcases List.mem_cons.1 h1 with h1 | h1
        · exact hne (by rw [← h1])
        rcases List.mem_cons.1 h2 with h2 | h2
        · exact hne (by rw [← h2])
        exact String.lt_irrefl _ (String.lt_trans (hb _ h1) (ha _ h2))
      have hsnd : a.2 = b.2 := by
        have := h a.1
        simpa [find?_cons, hfst] using this
      have htail : d = e := by
        refine ih hd he fun key => ?_
        have := h key
        rw [find?_cons, find?_cons, hfst] at this
        by_cases hk : b.1 = key
        · have hd' : find? d key = none := find?_eq_none_iff.2 fun hm => by
            obtain ⟨x, hx, hxk⟩ := List.mem_map.1 hm
            exact String.lt_irrefl _ (by have := ha x hx; rwa [hxk, hfst, hk] at this)
          have he' : find? e key = none := find?_eq_none_iff.2 fun hm => by
            obtain ⟨x, hx, hxk⟩ := List.mem_map.1 hm
            exact String.lt_irrefl _ (by have := hb x hx; rwa [hxk, hk] at this)
          rw [hd', he']
        · simpa [hk] using this
      rw [htail, show a = b from Prod.ext hfst hsnd]

/-! ## Names -/

theorem mem_names_reverse {d : Dictionary α} {name : String} :
    name ∈ names d.reverse ↔ name ∈ d.names := by
  simp [names]

theorem mem_names_overlay {base top : Dictionary α} {name : String} :
    name ∈ (base.overlay top).names ↔ name ∈ base.names ∨ name ∈ top.names := by
  rw [← find?_isSome_iff, find?_overlay, ← mem_names_reverse (d := top), ← find?_isSome_iff,
    ← find?_isSome_iff]
  cases find? top.reverse name <;> simp

/-- An `Ordered` dictionary is made by `ofEntries` from any entries that agree with it and leave none of its
names out. -/
theorem ofEntries_eq {d : Dictionary α} (hd : d.Ordered) {entries : List (String × α)}
    (hsound : ∀ e ∈ entries, d.find? e.1 = some e.2)
    (hcover : ∀ name ∈ d.names, name ∈ names entries) : ofEntries entries = d := by
  refine (Ordered.ofEntries entries).ext hd fun key => ?_
  rw [ofEntries, find?_overlay]
  cases hfound : find? entries.reverse key with
  | some value =>
      have hmem : (key, value) ∈ entries := by simpa using mem_of_find? hfound
      exact (hsound _ hmem).symm
  | none =>
      have hnone : key ∉ d.names := fun hkey =>
        find?_eq_none_iff.1 hfound (mem_names_reverse.2 (hcover key hkey))
      exact (find?_eq_none_iff.2 hnone).symm

/-- In which order the entries of a dictionary are given makes no difference. -/
theorem Ordered.ofEntries_of_perm {d : Dictionary α} (hd : d.Ordered) {entries : List (String × α)}
    (hp : d.Perm entries) : Dictionary.ofEntries entries = d := by
  refine ofEntries_eq hd (fun e he => hd.find?_of_mem (hp.mem_iff.2 he)) fun name hname => ?_
  exact (hp.map Prod.fst).mem_iff.1 hname

end Dictionary

end TagResolution
