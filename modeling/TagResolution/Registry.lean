import TagResolution.Declaration

/-!
# The registry of declarations

Declarations stand in a table indexed by handle, next to an index of their names. The built-in
types come first, a few places are kept free, and user declarations follow one by one. `Sound`
says that table and index agree and that the table has this layout; adding a declaration under a
new name and adding a clause to one both keep it.
-/

namespace TagResolution

/-- Declarations by handle, and handles by name. -/
structure Registry where
  slots : Array (Option Declaration)
  names : Std.TreeMap String Handle

namespace Registry

/-- The declaration of a handle. -/
def get? (r : Registry) (h : Handle) : Option Declaration := r.slots[h.index]?.join

/-- The handle of a name. -/
def lookup? (r : Registry) (name : String) : Option Handle := r.names[name]?

/-- The number of declarations, counted in `names`. -/
def size (r : Registry) : Nat := r.names.size

/-- All handles, in the order of their names. -/
def handles (r : Registry) : List Handle := r.names.toList.map (·.2)

/-- All declarations, in the order of their names; a handle of `names` without declaration is left out. -/
def toList (r : Registry) : List (Handle × Declaration) :=
  r.handles.filterMap fun h => (r.get? h).map (h, ·)

/-- The handle that the next declaration gets. -/
def next (r : Registry) : Handle := .ofIndex r.slots.size

/-- Adds a declaration at the end of the table. -/
def declare (r : Registry) (d : Declaration) : Registry :=
  let h := r.next
  { slots := r.slots.push (some d), names := r.names.insert d.name h }

/-- Adds a clause to the declaration of `h`. -/
def write (r : Registry) (h : Handle) (c : Clause) : Registry :=
  { r with slots := r.slots.modify h.index (·.map (·.write c)) }

/-- The registry of `Builtin.all`, with the places up to `Handle.firstUser` kept free. -/
def builtin : Registry where
  slots := (Builtin.all.map (fun b : Builtin => some b.declaration)
    ++ List.replicate (Handle.firstUser - Handle.builtinCount) none).toArray
  names := Builtin.all.foldl (fun names b => names.insert b.name b.handle) ∅

/-- The text that names a type: its qualified name, or `Handle.render` when it is not declared. -/
def displayType (r : Registry) (h : Handle) : String :=
  match r.get? h with
  | some d => d.name
  | none => h.render

/-! ## Soundness -/

/-- What every registry keeps, by `Sound.write` and `Sound.declare`: names and table agree, the table has
the layout that handles rely on, and the flags of each declaration are right. -/
structure Sound (r : Registry) : Prop where
  names_iff : ∀ name h, r.names[name]? = some h ↔ ∃ d, r.get? h = some d ∧ d.name = name
  builtin : ∀ b : Builtin, ∃ d, r.get? b.handle = some d ∧ d.name = b.name ∧ d.kind = b.declaration.kind
  vacant : ∀ h : Handle, Handle.builtinCount ≤ h.index → h.index < Handle.firstUser → r.get? h = none
  filled : ∀ h : Handle, Handle.firstUser ≤ h.index → h.index < r.slots.size → (r.get? h).isSome
  firstUser_le : Handle.firstUser ≤ r.slots.size
  size_le : r.slots.size ≤ UInt32.size
  /-- Every class but the universal root has a parent. -/
  rooted : ∀ h d, r.get? h = some d → d.kind = .classType → h ≠ .object → d.parent.isSome
  flagged : ∀ h d, r.get? h = some d → d.Flagged

theorem get?_eq_some {r : Registry} {h : Handle} {d : Declaration} :
    r.get? h = some d ↔ r.slots[h.index]? = some (some d) := by
  simp only [get?, Option.join_eq_some_iff]

theorem index_lt_of_get? {r : Registry} {h : Handle} {d : Declaration} (hd : r.get? h = some d) :
    h.index < r.slots.size := by
  have := get?_eq_some.1 hd
  exact (Array.getElem?_eq_some_iff.1 this).1

theorem get?_write (r : Registry) (h other : Handle) (c : Clause) :
    (r.write h c).get? other = if h = other then (r.get? other).map (·.write c) else r.get? other := by
  simp only [get?, write, Array.getElem?_modify]
  split
  · next hi =>
    rw [if_pos (Handle.ext_index hi)]
    cases r.slots[other.index]? <;> rfl
  · next hi => rw [if_neg fun he => hi (congrArg _ he)]

theorem get?_declare {r : Registry} (hsize : r.slots.size < UInt32.size) (d : Declaration) (h : Handle) :
    (r.declare d).get? h = if h = r.next then some d else r.get? h := by
  simp only [get?, declare, Array.getElem?_push]
  have hnext : r.next.index = r.slots.size := Handle.index_ofIndex hsize
  split
  · next hi => rw [if_pos (Handle.ext_index (hi.trans hnext.symm))]; rfl
  · next hi => rw [if_neg fun he => hi (by rw [he, hnext])]

theorem get?_next {r : Registry} (hsize : r.slots.size < UInt32.size) : r.get? r.next = none := by
  simp [get?, next, Handle.index_ofIndex hsize]

namespace Sound

/-- A clause changes neither names nor kinds, takes no parent away and keeps the flags right. -/
theorem write {r : Registry} (hr : r.Sound) (h : Handle) (c : Clause) : (r.write h c).Sound := by
  have hkept : ∀ other d, (r.write h c).get? other = some d →
      ∃ e, r.get? other = some e ∧ d.name = e.name ∧ d.kind = e.kind
        ∧ (e.parent.isSome → d.parent.isSome) ∧ (e.Flagged → d.Flagged) := by
    intro other d hd
    rw [get?_write] at hd
    split at hd
    · obtain ⟨e, he, rfl⟩ := Option.map_eq_some_iff.1 hd
      exact ⟨e, he, by simp, by simp, fun hp => Declaration.isSome_parent_write hp c,
        fun hflags => hflags.write c⟩
    · exact ⟨d, hd, rfl, rfl, id, id⟩
  have hkeeps : ∀ other e, r.get? other = some e →
      ∃ d, (r.write h c).get? other = some d ∧ d.name = e.name ∧ d.kind = e.kind := by
    intro other e he
    rw [get?_write]
    split
    · exact ⟨e.write c, by simp [he], by simp, by simp⟩
    · exact ⟨e, he, rfl, rfl⟩
  have hnone : ∀ other, (r.write h c).get? other = none ↔ r.get? other = none := by
    intro other
    rw [get?_write]
    split <;> simp
  refine ⟨fun name other => ?_, fun b => ?_, fun other h1 h2 => ?_, fun other h1 h2 => ?_, ?_, ?_, ?_,
    ?_⟩
  · refine (hr.names_iff name other).trans ⟨?_, ?_⟩
    · rintro ⟨e, he, rfl⟩
      obtain ⟨d, hd, hn, -⟩ := hkeeps other e he
      exact ⟨d, hd, hn⟩
    · rintro ⟨d, hd, rfl⟩
      obtain ⟨e, he, hn, -⟩ := hkept other d hd
      exact ⟨e, he, hn.symm⟩
  · obtain ⟨e, he, hn, hk⟩ := hr.builtin b
    obtain ⟨d, hd, hn', hk'⟩ := hkeeps _ e he
    exact ⟨d, hd, hn'.trans hn, hk'.trans hk⟩
  · exact (hnone other).2 (hr.vacant other h1 h2)
  · have := hr.filled other h1 (by simpa [Registry.write] using h2)
    rw [Option.isSome_iff_ne_none, Ne, hnone]
    simpa [Option.isSome_iff_ne_none] using this
  · simpa [Registry.write] using hr.firstUser_le
  · simpa [Registry.write] using hr.size_le
  · intro other d hd hk hne
    obtain ⟨e, he, -, hk', hp, -⟩ := hkept other d hd
    exact hp (hr.rooted other e he (hk'.symm.trans hk) hne)
  · intro other d hd
    obtain ⟨e, he, -, -, -, hflags⟩ := hkept other d hd
    exact hflags (hr.flagged other e he)

/-- A declaration under a new name keeps the registry `Sound`, while the table has room. -/
theorem declare {r : Registry} (hr : r.Sound) {d : Declaration} (hsize : r.slots.size < UInt32.size)
    (hname : r.names[d.name]? = none) (hroot : d.kind = .classType → d.parent.isSome)
    (hflags : d.Flagged) : (r.declare d).Sound := by
  have hget := get?_declare hsize d
  have hnext : r.next.index = r.slots.size := Handle.index_ofIndex hsize
  have hold : ∀ {h e}, r.get? h = some e → (r.declare d).get? h = some e := by
    intro h e he
    rw [hget, if_neg, he]
    intro heq
    rw [heq, get?_next hsize] at he
    cases he
  have hnew : ∀ {e h}, (r.declare d).get? h = some e → (h = r.next ∧ e = d) ∨ r.get? h = some e := by
    intro e h he
    rw [hget] at he
    split at he
    · next heq => cases he; exact .inl ⟨heq, rfl⟩
    · exact .inr he
  refine ⟨fun name h => ?_, fun b => ?_, fun h h1 h2 => ?_, fun h h1 h2 => ?_, ?_, ?_, ?_, ?_⟩
  · show (r.names.insert d.name r.next)[name]? = some h ↔ _
    rw [Std.TreeMap.getElem?_insert]
    constructor
    · intro hn
      split at hn
      · next hc =>
        cases hn
        exact ⟨d, by rw [hget, if_pos rfl], Std.LawfulEqOrd.eq_of_compare hc⟩
      · obtain ⟨e, he, hen⟩ := (hr.names_iff name h).1 hn
        exact ⟨e, hold he, hen⟩
    · rintro ⟨e, he, rfl⟩
      rcases hnew he with ⟨rfl, rfl⟩ | he
      · rw [if_pos Std.ReflOrd.compare_self]
      · have hn := (hr.names_iff _ h).2 ⟨e, he, rfl⟩
        rw [if_neg, hn]
        intro hc
        rw [Std.LawfulEqOrd.eq_of_compare hc, hn] at hname
        cases hname
  · obtain ⟨e, he, hn, hk⟩ := hr.builtin b
    exact ⟨e, hold he, hn, hk⟩
  · rw [hget, if_neg, hr.vacant h h1 h2]
    rintro rfl
    have := hr.firstUser_le
    omega
  · rw [hget]
    split
    · rfl
    · next hne =>
      refine hr.filled h h1 ?_
      have h3 : h.index < r.slots.size + 1 := by simpa [Registry.declare] using h2
      have h4 : h.index ≠ r.slots.size := fun he => hne (Handle.ext_index (he.trans hnext.symm))
      omega
  · have := hr.firstUser_le
    simp only [Registry.declare, Array.size_push]
    omega
  · simp only [Registry.declare, Array.size_push]
    omega
  · intro h e he hk hne
    rcases hnew he with ⟨-, rfl⟩ | he
    · exact hroot hk
    · exact hr.rooted h e he hk hne
  · intro h e he
    rcases hnew he with ⟨-, rfl⟩ | he
    · exact hflags
    · exact hr.flagged h e he

end Sound

/-! ## The built-in types -/

theorem getElem?_slots_builtin : ∀ i < Handle.firstUser, builtin.slots[i]? = some none
    ∨ ∃ b ∈ Builtin.all, b.handle.index = i ∧ builtin.slots[i]? = some (some b.declaration) := by
  decide +kernel

theorem get?_builtin_iff {h : Handle} {d : Declaration} :
    builtin.get? h = some d ↔ ∃ b : Builtin, b.handle = h ∧ b.declaration = d := by
  constructor
  · intro hd
    have hi : h.index < Handle.firstUser := index_lt_of_get? hd
    rcases getElem?_slots_builtin h.index hi with hn | ⟨b, -, hb, hs⟩
    · rw [get?_eq_some, hn] at hd
      simp at hd
    · rw [get?_eq_some, hs] at hd
      exact ⟨b, Handle.ext_index hb, by simpa using hd⟩
  · rintro ⟨b, rfl, rfl⟩
    cases b <;> rfl

theorem getElem?_names_builtin_iff {name : String} {h : Handle} :
    builtin.names[name]? = some h ↔ ∃ b : Builtin, b.name = name ∧ b.handle = h := by
  constructor
  · intro hn
    simp only [builtin, Builtin.all, List.foldl_cons, List.foldl_nil, Std.TreeMap.getElem?_insert]
      at hn
    repeat'
      split at hn
      · next hc => cases hn; exact ⟨_, Std.LawfulEqOrd.eq_of_compare hc, rfl⟩
    simp at hn
  · rintro ⟨b, rfl, rfl⟩
    cases b <;> decide +kernel

theorem builtin_sound : builtin.Sound where
  names_iff name h := by
    rw [getElem?_names_builtin_iff]
    constructor
    · rintro ⟨b, rfl, rfl⟩
      exact ⟨b.declaration, get?_builtin_iff.2 ⟨b, rfl, rfl⟩, b.name_declaration⟩
    · rintro ⟨d, hd, rfl⟩
      obtain ⟨b, rfl, rfl⟩ := get?_builtin_iff.1 hd
      exact ⟨b, b.name_declaration.symm, rfl⟩
  builtin b := ⟨b.declaration, get?_builtin_iff.2 ⟨b, rfl, rfl⟩, b.name_declaration, rfl⟩
  vacant h h1 h2 := by
    rw [Option.eq_none_iff_forall_ne_some]
    intro d hd
    obtain ⟨b, rfl, -⟩ := get?_builtin_iff.1 hd
    cases b <;> simp [Builtin.handle, Handle.builtinCount, Handle.index, Handle.object,
      Handle.retention, Handle.documented, Handle.inherited, Handle.repeatable,
      Handle.nestedConfiguration] at h1
  filled h h1 h2 := absurd h2 (Nat.not_lt.2 h1)
  firstUser_le := Nat.le_refl _
  size_le := by decide
  rooted h d hd hk hne := by
    obtain ⟨b, rfl, rfl⟩ := get?_builtin_iff.1 hd
    cases b <;> first | exact absurd rfl hne | cases hk
  flagged h d hd := by
    obtain ⟨b, rfl, rfl⟩ := get?_builtin_iff.1 hd
    exact b.flagged_declaration

end Registry

end TagResolution
