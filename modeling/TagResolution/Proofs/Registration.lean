import Mathlib.Data.String.Basic
import TagResolution.Proofs.Construction

/-!
# What a draft keeps of its declarations

However a universe is drafted, its names and its table stay in agreement. A type that is declared keeps
its place, its name and its kind, whatever is said about it later; a name that is taken is not declared
again. What an edit does to the table is stated once, in `registry_declare_of_taken`,
`registry_declare_of_new` and `get?_registry_write`; the rest follows by induction on the edits.

The main statement is `Draft.registry_consistent`.
-/

namespace TagResolution

/-! ## The layout of a table -/

namespace Registry

variable {r : Registry}

/-- The types of `Builtin.all` come first, the places up to `Handle.firstUser` stay free, and from there on
every place is taken. -/
structure LaidOut (r : Registry) : Prop where
  builtin : ∀ (i : Nat) (b : Builtin), Builtin.all[i]? = some b →
    ∃ e : Declaration, r.slots[i]? = some (some e) ∧ e.name = b.name ∧ e.kind = b.declaration.kind
  free : ∀ i, Handle.builtinCount ≤ i → i < Handle.firstUser → r.slots[i]? = some none
  filled : ∀ i, Handle.firstUser ≤ i → i < r.slots.size → ∃ e, r.slots[i]? = some (some e)

theorem index_of_getElem?_all {i : Nat} {b : Builtin} (hb : Builtin.all[i]? = some b) :
    b.handle.index = i := by
  have hall : ∀ i < Builtin.all.length, ∀ b ∈ Builtin.all[i]?, b.handle.index = i := by decide
  exact hall i (List.getElem?_eq_some_iff.1 hb).1 b hb

/-- Each place of a `Sound` table belongs to a handle. -/
theorem Sound.index_ofIndex (hr : r.Sound) {i : Nat} (hi : i < r.slots.size) :
    (Handle.ofIndex i).index = i :=
  Handle.index_ofIndex (Nat.lt_of_lt_of_le hi hr.size_le)

theorem Sound.laidOut (hr : r.Sound) : r.LaidOut where
  builtin i b hb := by
    obtain ⟨e, he, hname, hkind⟩ := hr.builtin b
    rw [get?_eq_some, index_of_getElem?_all hb] at he
    exact ⟨e, he, hname, hkind⟩
  free i hlow hhigh := by
    have hlt : i < r.slots.size := Nat.lt_of_lt_of_le hhigh hr.firstUser_le
    have hindex := hr.index_ofIndex hlt
    have hvacant := hr.vacant (.ofIndex i) (by rwa [hindex]) (by rwa [hindex])
    rw [get?, hindex, Array.getElem?_eq_getElem hlt] at hvacant
    rw [Array.getElem?_eq_getElem hlt]
    exact congrArg some hvacant
  filled i hlow hlt := by
    have hindex := hr.index_ofIndex hlt
    obtain ⟨e, he⟩ := Option.isSome_iff_exists.1
      (hr.filled (.ofIndex i) (by rwa [hindex]) (by rwa [hindex]))
    rw [get?_eq_some, hindex] at he
    exact ⟨e, he⟩

/-! ## Names -/

/-- Names and handles of declarations stand for each other, the table is `LaidOut`, and the `flags` that
each declaration stores are those that belong to it. -/
structure Consistent (r : Registry) : Prop where
  lookup_iff : ∀ name h, r.lookup? name = some h ↔ ∃ e, r.get? h = some e ∧ e.name = name
  /-- Two handles do not share a name. -/
  injective : ∀ g h d e, r.get? g = some d → r.get? h = some e → d.name = e.name → g = h
  laidOut : r.LaidOut
  flagged : ∀ h e, r.get? h = some e → e.Flagged

theorem Sound.consistent (hr : r.Sound) : r.Consistent where
  lookup_iff := hr.names_iff
  injective g h d e hd he hname := by
    have hg := (hr.names_iff e.name g).2 ⟨d, hd, hname⟩
    have hh := (hr.names_iff e.name h).2 ⟨e, he, rfl⟩
    exact Option.some.inj (hg.symm.trans hh)
  laidOut := hr.laidOut
  flagged := hr.flagged

/-- Declarations are listed by `toList` under their names, in the order of the names. -/
theorem map_name_toList (hr : r.Sound) : r.toList.map (·.2.name) = r.names.toList.map (·.1) := by
  -- Each name of the index has its declaration, so the list leaves no name out.
  have hentry : ∀ entry ∈ r.names.toList, ∃ d, r.get? entry.2 = some d ∧ d.name = entry.1 :=
    fun entry hmem => (hr.names_iff _ _).1 (Std.TreeMap.mem_toList_iff_getElem?_eq_some.1 hmem)
  unfold toList handles
  generalize r.names.toList = entries at hentry ⊢
  induction entries with
  | nil => rfl
  | cons entry rest ih =>
      obtain ⟨d, hd, hname⟩ := hentry entry List.mem_cons_self
      have hrest := ih fun entry hmem => hentry entry (List.mem_cons_of_mem _ hmem)
      simpa [hd, hname] using hrest

theorem pairwise_name_toList (hr : r.Sound) : (r.toList.map (·.2.name)).Pairwise (· < ·) := by
  rw [map_name_toList hr, Std.TreeMap.map_fst_toList_eq_keys]
  refine Std.TreeMap.ordered_keys.imp fun hlt => ?_
  exact Std.LawfulLTCmp.eq_lt_iff_lt.1 hlt

theorem length_toList (hr : r.Sound) : r.toList.length = r.size := by
  have hlength := congrArg List.length (map_name_toList hr)
  simpa [size] using hlength

/-! ## Edits of a registry -/

/-- Whatever is declared stays declared, under its name and with its kind. -/
def Keeps (r r' : Registry) : Prop :=
  ∀ h e, r.get? h = some e → ∃ e', r'.get? h = some e' ∧ e'.name = e.name ∧ e'.kind = e.kind

theorem Keeps.refl (r : Registry) : r.Keeps r := fun _ e he => ⟨e, he, rfl, rfl⟩

theorem Keeps.trans {r' r'' : Registry} (h : r.Keeps r') (h' : r'.Keeps r'') : r.Keeps r'' := by
  intro g e he
  obtain ⟨e', he', hname, hkind⟩ := h g e he
  obtain ⟨e'', he'', hname', hkind'⟩ := h' g e' he'
  exact ⟨e'', he'', hname'.trans hname, hkind'.trans hkind⟩

theorem keeps_declare (hsize : r.slots.size < UInt32.size) (d : Declaration) : r.Keeps (r.declare d) := by
  intro h e he
  refine ⟨e, ?_, rfl, rfl⟩
  rw [get?_declare hsize, if_neg, he]
  -- The new declaration takes a place that was free.
  rintro rfl
  simp [get?_next hsize] at he

theorem keeps_write (r : Registry) (h : Handle) (c : Clause) : r.Keeps (r.write h c) := by
  intro g e he
  rw [get?_write]
  split
  · exact ⟨e.write c, by simp [he], by simp, by simp⟩
  · exact ⟨e, he, rfl, rfl⟩

end Registry

/-! ## Reserved tag types -/

namespace Universe

variable (u : Universe)

theorem isReserved_handle (b : Builtin) : u.isReserved b.handle = b.declaration.isReserved := by
  obtain ⟨d, hd, hname, hkind⟩ := u.sound.builtin b
  have hget : u.get? b.handle = some d := hd
  rw [isReserved, hget, Option.any_some, Bool.eq_iff_iff, (flagged_of_get? hget).reserved,
    b.flagged_declaration.reserved, hname, hkind, b.name_declaration]

/-- No tag type outside `Builtin` has a reserved name. -/
theorem exists_builtin_of_isReserved {h : Handle} (hr : u.isReserved h = true) :
    ∃ b : Builtin, b.handle = h := by
  obtain ⟨d, hd, -, hlong⟩ := isReserved_iff_exists.1 hr
  have hstart : d.name.startsWith reservedNamespace = true := by
    rw [String.startsWith_string_iff] at hlong ⊢
    have hshort : reservedNamespace.toList <+: reservedTagNamespace.toList := by decide +kernel
    exact hshort.trans hlong
  have hearly : h.index < Handle.firstUser := by
    by_contra hlate
    simp [u.unreserved h d hd (Nat.not_lt.1 hlate)] at hstart
  have hbuiltin : h.index < Builtin.all.length := by
    by_contra hvacant
    have hnone := u.sound.vacant h (Nat.not_lt.1 hvacant) hearly
    cases hnone.symm.trans hd
  refine ⟨Builtin.all[h.index], Handle.ext_index ?_⟩
  exact Registry.index_of_getElem?_all (List.getElem?_eq_getElem hbuiltin)

/-- The reserved tag types have the handles one to four. -/
theorem isReserved_iff (h : Handle) : u.isReserved h = true ↔ 1 ≤ h.index ∧ h.index ≤ 4 := by
  have hbuiltin : ∀ b : Builtin, u.isReserved b.handle = true ↔ 1 ≤ b.handle.index ∧ b.handle.index ≤ 4 := by
    intro b
    rw [isReserved_handle]
    cases b <;> decide +kernel
  constructor
  · intro hr
    obtain ⟨b, rfl⟩ := u.exists_builtin_of_isReserved hr
    exact (hbuiltin b).1 hr
  · rintro ⟨hlow, hhigh⟩
    have hlt : h.index < Builtin.all.length := Nat.lt_of_le_of_lt hhigh (by decide)
    have hhandle : Builtin.all[h.index].handle = h :=
      Handle.ext_index (Registry.index_of_getElem?_all (List.getElem?_eq_getElem hlt))
    rw [← hhandle]
    exact (hbuiltin _).2 (by rw [hhandle]; exact ⟨hlow, hhigh⟩)

end Universe

/-! ## Edits of a draft -/

namespace Draft

theorem registry_add (d : Draft) (kind : Kind) (name : String) (hnew : d.registry.names[name]? = none)
    (hsize : d.registry.slots.size < UInt32.size) :
    (d.add kind name hnew hsize).registry = d.registry.declare (.plain name kind) := rfl

/-- A name that is taken is not declared again by `declare`: its handle is answered and a misuse is noted. -/
theorem registry_declare_of_taken {d : Draft} {name : String} {h : Handle}
    (htaken : d.registry.lookup? name = some h) (kind : Kind) :
    (d.declare kind name).1 = h ∧ (d.declare kind name).2.registry = d.registry ∧
      ∃ f, (d.declare kind name).2.fault? = some f := by
  refine ⟨?_, ?_, ?_⟩
  · unfold declare
    split
    · next g hg => exact Option.some.inj (hg.symm.trans htaken)
    · next hnone => cases hnone.symm.trans htaken
  · unfold declare
    split
    · exact d.registry_checkName name
    · next hnone => cases hnone.symm.trans htaken
  · rw [fault?_declare, misuses, htaken]
    cases d.fault? <;> cases String.startsWith name reservedNamespace <;> simp

/-- A new name takes the place of `Registry.next`. -/
theorem registry_declare_of_new {d : Draft} {name : String} (hnew : d.registry.lookup? name = none)
    (hsize : d.registry.slots.size < UInt32.size) (kind : Kind) :
    (d.declare kind name).1 = d.registry.next ∧
      (d.declare kind name).2.registry = d.registry.declare (.plain name kind) := by
  unfold declare
  split
  · next h htaken => cases htaken.symm.trans hnew
  · next hname =>
    rw [dif_pos hsize]
    exact ⟨rfl, d.registry_add kind name hname hsize⟩

/-- A table without room stays as it is. -/
theorem registry_declare_of_full {d : Draft} {name : String} (hnew : d.registry.lookup? name = none)
    (hfull : ¬ d.registry.slots.size < UInt32.size) (kind : Kind) :
    (d.declare kind name).2.registry = d.registry := by
  unfold declare
  split
  · next h htaken => cases htaken.symm.trans hnew
  · rw [dif_neg hfull]
    exact d.registry_checkName name

/-- By `Draft.write` a clause is added to one declaration, where there is one. -/
theorem get?_registry_write (d : Draft) (h g : Handle) (c : Clause) : (d.write h c).registry.get? g
    = if h = g then (d.registry.get? g).map (·.write c) else d.registry.get? g := by
  unfold write
  split
  · exact d.registry.get?_write h g c
  · next hnone =>
    split
    · next heq =>
      rw [← heq, Option.not_isSome_iff_eq_none.1 hnone, Option.map_none]
      exact Option.not_isSome_iff_eq_none.1 hnone
    · rfl

theorem keeps_write (d : Draft) (h : Handle) (c : Clause) : d.registry.Keeps (d.write h c).registry := by
  unfold write
  split
  · exact d.registry.keeps_write h c
  · exact .refl _

theorem keeps_declare (d : Draft) (kind : Kind) (name : String) :
    d.registry.Keeps (d.declare kind name).2.registry := by
  cases hname : d.registry.lookup? name with
  | some h =>
      rw [(registry_declare_of_taken hname kind).2.1]
      exact .refl _
  | none =>
      by_cases hsize : d.registry.slots.size < UInt32.size
      · rw [(registry_declare_of_new hname hsize kind).2]
        exact Registry.keeps_declare hsize _
      · rw [registry_declare_of_full hname hsize kind]
        exact .refl _

theorem keeps_perform (d : Draft) (e : Edit) : d.registry.Keeps (d.perform e).2.registry := by
  cases e with
  | declare kind name => exact d.keeps_declare kind name
  | write h c => exact d.keeps_write h c
  | collect tagType container => exact Registry.Keeps.trans (keeps_write d tagType _) (keeps_write _ container _)

/-- A declared type keeps its handle, its name and its kind through all later edits of `run`. -/
theorem keeps_run (d : Draft) (edits : List Edit) : d.registry.Keeps (d.run edits).registry := by
  induction edits generalizing d with
  | nil => exact .refl _
  | cons e rest ih => exact (d.keeps_perform e).trans (ih (d.perform e).2)

theorem run_append (d : Draft) (edits later : List Edit) :
    d.run (edits ++ later) = (d.run edits).run later :=
  List.foldl_append ..

theorem registry_ofEdits (edits : List Edit) (hd : (empty.run edits).fault? = none)
    (hr : (empty.run edits).registry.fault? = none) :
    (ofEdits edits hd hr).registry = (empty.run edits).registry := rfl

/-- After a misuse `build` makes no universe any more. -/
theorem build_run_of_fault {d : Draft} {f : Fault} (hf : d.fault? = some f) (edits : List Edit) :
    (d.run edits).build = .error f := by
  apply build_of_misuse
  rw [fault?_run, hf]
  rfl

/-- The registry of a draft is `Consistent` after any edits, which includes the flags: those that
`Declaration.plain` sets and `Declaration.write` extends are the ones that kind and enclosing type call for.
Later edits keep all handles, names and kinds. A name that is taken keeps its handle; declaring it again
leaves the registry as it is, and `build` fails from then on. A new name gets the next handle, while there
is one. A universe that is built holds the registry of the draft: `lookup?` knows the same names, `toList`
lists each declaration once, in the order of the names, `size` counts them, and `isReserved` holds of the
handles one to four. -/
theorem registry_consistent (edits : List Edit) :
    let d := empty.run edits
    d.registry.Consistent ∧
    (∀ later, d.registry.Keeps (d.run later).registry) ∧
    (∀ kind name h, d.registry.lookup? name = some h →
      (d.declare kind name).1 = h ∧ (d.declare kind name).2.registry = d.registry ∧
        ∀ later, ∃ f, ((d.declare kind name).2.run later).build = .error f) ∧
    (∀ kind name, d.registry.lookup? name = none → d.registry.slots.size < UInt32.size →
      (d.declare kind name).1.index = d.registry.slots.size ∧
        ∀ g, (d.declare kind name).2.registry.get? g
          = if g = (d.declare kind name).1 then some (.plain name kind) else d.registry.get? g) ∧
    ∀ u, d.build = .ok u →
      u.registry = d.registry ∧
      (∀ name h, u.lookup? name = some h ↔ ∃ e, u.get? h = some e ∧ e.name = name) ∧
      (∀ h e, (h, e) ∈ u.toList ↔ u.get? h = some e) ∧
      (u.toList.map (·.2.name)).Pairwise (· < ·) ∧
      u.size = u.toList.length ∧
      ∀ h, u.isReserved h = true ↔ 1 ≤ h.index ∧ h.index ≤ 4 := by
  intro d
  refine ⟨d.sound.consistent, d.keeps_run, fun kind name h htaken => ?_, fun kind name hnew hsize => ?_,
    fun u hu => ?_⟩
  · obtain ⟨hhandle, hkept, f, hf⟩ := registry_declare_of_taken htaken kind
    exact ⟨hhandle, hkept, fun later => ⟨f, build_run_of_fault hf later⟩⟩
  · obtain ⟨hhandle, hregistry⟩ := registry_declare_of_new hnew hsize kind
    rw [hhandle, hregistry]
    exact ⟨Handle.index_ofIndex hsize, Registry.get?_declare hsize _⟩
  · refine ⟨((build_eq_ok_iff d u).1 hu).2.2, u.sound.names_iff, fun h e => Registry.mem_toList u.sound, ?_,
      ?_, u.isReserved_iff⟩
    · exact Registry.pairwise_name_toList u.sound
    · exact (Registry.length_toList u.sound).symm

end Draft

end TagResolution
