import Mathlib.Data.String.Basic
import TagResolution.Proofs.Merging

/-!
# What becomes of attributes

Attributes make a tag if they are declared by its type and leave no attribute out that has no fallback. The tag
then has them over the fallbacks, which makes it complete: made from its own attributes it is the same tag. If
attributes make no tag, the first thing that is checked and does not hold is reported.

An attribute that is declared more than once is filled in once for each declaration, so it is missing if any of
them has no fallback, even if another has one. The fallbacks of a tag type do not tell declarations of one name
apart. So it can make a difference whether they are filled in beforehand, for exactly those tag types that
declare a name with and without fallback.

The main statements are `synthesize_outcome` and `synthesize_overlay_eq_iff`.
-/

namespace TagResolution

/-- In an ordered list the first element with a property is the least one. -/
theorem find?_eq_some_iff_least {α : Type} [LinearOrder α] {p : α → Bool} {l : List α}
    (hl : l.Pairwise (· < ·)) {a : α} :
    l.find? p = some a ↔ a ∈ l ∧ p a ∧ ∀ b ∈ l, b < a → p b = false := by
  have hfirst : ∀ {c}, l.find? p = some c → c ∈ l ∧ p c ∧ ∀ b ∈ l, b < c → p b = false := by
    intro c hc
    obtain ⟨hp, before, after, rfl, hbefore⟩ := List.find?_eq_some_iff_append.1 hc
    obtain ⟨-, hrest, -⟩ := List.pairwise_append.1 hl
    refine ⟨by simp, hp, fun b hb hlt => ?_⟩
    rcases List.mem_append.1 hb with hb | hb
    · simpa using hbefore b hb
    · rcases List.mem_cons.1 hb with rfl | hb
      · exact absurd hlt (lt_irrefl _)
      · exact absurd hlt ((List.pairwise_cons.1 hrest).1 b hb).asymm
  refine ⟨hfirst, fun ⟨hmem, hp, hleast⟩ => ?_⟩
  obtain ⟨c, hc⟩ := Option.isSome_iff_exists.1 (List.find?_isSome.2 ⟨a, hmem, hp⟩)
  obtain ⟨hmem', hp', hleast'⟩ := hfirst hc
  -- Two elements with the property of which none is less than the other are the same.
  have hle : a ≤ c := not_lt.1 fun hlt => by simp [hleast c hmem' hlt] at hp'
  have hge : c ≤ a := not_lt.1 fun hlt => by simp [hleast' a hmem hlt] at hp
  rw [hc, le_antisymm hge hle]

/-- What is overlaid on a base by `overlay` may have the base filled in before. -/
theorem Dictionary.overlay_overlay {α : Type} {base top : Dictionary α} (hbase : base.Ordered) :
    base.overlay (base.overlay top) = base.overlay top := by
  refine (hbase.overlay _).ext (hbase.overlay _) fun key => ?_
  rw [find?_overlay, (hbase.overlay top).find?_reverse, find?_overlay]
  cases find? top.reverse key <;> cases base.find? key <;> rfl

/-! ## Filling in attributes -/

namespace Declaration

variable {d : Declaration} {written : Attributes} {a : Attribute} {name : String}

/-- The value of a declared attribute in the result of `complete`: the written one, or else the fallback. -/
def valueFor (written : Attributes) (a : Attribute) : Option Value :=
  written.find? a.name <|> a.fallback

/-- The first attribute without a value is named by `complete`, and else all are filled in. -/
theorem complete_eq (d : Declaration) (written : Attributes) :
    d.complete written =
      match d.attributes.find? fun a => (valueFor written a).isNone with
      | some a => .error a.name
      | none => .ok (.ofEntries (d.attributes.filterMap fun a => (valueFor written a).map (a.name, ·))) := by
  unfold complete Dictionary.ofEntries
  -- The fold carries along what is filled in so far.
  generalize ([] : Attributes) = done
  induction d.attributes generalizing done with
  | nil => rfl
  | cons a rest ih =>
      rw [List.foldlM_cons]
      cases hvalue : valueFor written a with
      | none =>
          have hstep : (written.find? a.name <|> a.fallback) = none := hvalue
          simp [hstep, hvalue, bind, Except.bind]
      | some v =>
          have hstep : (written.find? a.name <|> a.fallback) = some v := hvalue
          simp only [hstep, List.find?_cons, List.filterMap_cons, hvalue, Option.isNone_some,
            Option.map_some]
          exact ih (Dictionary.insert done a.name v)

theorem isSome_attribute?_iff : (d.attribute? name).isSome ↔ ∃ a ∈ d.attributes, a.name = name := by
  simp [attribute?]

/-- Attributes that `complete` accepts: they are declared, and they are written wherever the attribute is
declared without fallback. -/
structure Admits (d : Declaration) (written : Attributes) : Prop where
  declared : ∀ name ∈ written.names, (d.attribute? name).isSome
  provided : ∀ a ∈ d.attributes, a.fallback = none → a.name ∈ written.names

instance (d : Declaration) (written : Attributes) : Decidable (d.Admits written) :=
  decidable_of_iff ((∀ name ∈ written.names, (d.attribute? name).isSome) ∧
      ∀ a ∈ d.attributes, a.fallback = none → a.name ∈ written.names)
    ⟨fun h => ⟨h.1, h.2⟩, fun h => ⟨h.declared, h.provided⟩⟩

/-- With the `fallbacks` below them, attributes that a declaration `Admits` are all those declared. -/
theorem Admits.mem_names_overlay (hd : d.Admits written) :
    name ∈ (d.fallbacks.overlay written).names ↔ (d.attribute? name).isSome := by
  rw [Dictionary.mem_names_overlay, mem_names_fallbacks]
  constructor
  · rintro (⟨a, ha, hname, -⟩ | hwritten)
    · exact isSome_attribute?_iff.2 ⟨a, ha, hname⟩
    · exact hd.declared name hwritten
  · intro hdeclared
    obtain ⟨a, ha, rfl⟩ := isSome_attribute?_iff.1 hdeclared
    cases hfallback : a.fallback with
    | none => exact .inr (hd.provided a ha hfallback)
    | some v => exact .inl ⟨a, ha, rfl, by rw [hfallback]; rfl⟩

/-- The first attribute, in declared order, that is neither written nor has a fallback. -/
def FirstMissing (d : Declaration) (written : Attributes) (a : Attribute) : Prop :=
  ∃ before after, d.attributes = before ++ a :: after ∧ (a.name ∉ written.names ∧ a.fallback = none) ∧
    ∀ b ∈ before, b.fallback = none → b.name ∈ written.names

theorem valueFor_eq_none_iff : valueFor written a = none ↔ a.name ∉ written.names ∧ a.fallback = none := by
  simp [valueFor, ← Dictionary.find?_eq_none_iff]

theorem find?_eq_some_iff_firstMissing :
    (d.attributes.find? fun a => (valueFor written a).isNone) = some a ↔ d.FirstMissing written a := by
  rw [List.find?_eq_some_iff_append]
  simp only [Option.isNone_iff_eq_none, valueFor_eq_none_iff, Bool.not_eq_true', ← Bool.not_eq_true,
    FirstMissing]
  constructor
  · rintro ⟨ha, before, after, hsplit, hbefore⟩
    refine ⟨before, after, hsplit, ha, fun b hb hfallback => ?_⟩
    by_contra hwritten
    exact hbefore b hb ⟨hwritten, hfallback⟩
  · rintro ⟨before, after, hsplit, ha, hbefore⟩
    exact ⟨ha, before, after, hsplit, fun b hb hmissing => hmissing.1 (hbefore b hb hmissing.2)⟩

/-- Declared attributes are admitted (`Admits`), or else one of them is the `FirstMissing`. -/
theorem admits_or_firstMissing (hdeclared : ∀ name ∈ written.names, (d.attribute? name).isSome) :
    d.Admits written ∨ ∃ a, d.FirstMissing written a := by
  cases hfound : d.attributes.find? fun a => (valueFor written a).isNone with
  | some a => exact .inr ⟨a, find?_eq_some_iff_firstMissing.1 hfound⟩
  | none =>
      refine .inl ⟨hdeclared, fun a ha hfallback => ?_⟩
      by_contra hwritten
      exact List.find?_eq_none.1 hfound a ha (by simp [valueFor_eq_none_iff.2 ⟨hwritten, hfallback⟩])

theorem FirstMissing.complete_eq (ha : d.FirstMissing written a) : d.complete written = .error a.name := by
  rw [Declaration.complete_eq, find?_eq_some_iff_firstMissing.2 ha]

theorem FirstMissing.mem (ha : d.FirstMissing written a) : a ∈ d.attributes := by
  obtain ⟨before, after, hsplit, -, -⟩ := ha
  simp [hsplit]

theorem FirstMissing.not_admits (ha : d.FirstMissing written a) : ¬ d.Admits written := by
  intro hd
  obtain ⟨-, -, -, ⟨hwritten, hfallback⟩, -⟩ := id ha
  exact hwritten (hd.provided a ha.mem hfallback)

theorem Admits.overlay (hd : d.Admits written) : d.Admits (d.fallbacks.overlay written) where
  declared _ hname := hd.mem_names_overlay.1 hname
  provided _ ha _ := hd.mem_names_overlay.2 (isSome_attribute?_iff.2 ⟨_, ha, rfl⟩)

/-- Of all declarations of a name the last decides on `fallback?`. What is written is the same for all. -/
theorem findSome?_valueFor (hdeclared : ∀ name ∈ written.names, (d.attribute? name).isSome) (name : String) :
    (d.attributes.reverse.findSome? fun b => if b.name = name then valueFor written b else none)
      = (written.find? name <|> d.fallback? name) := by
  have hvalue : ∀ b : Attribute, (if b.name = name then valueFor written b else none)
      = if b.name = name then written.find? name <|> b.fallback else none := by
    intro b
    split
    · next hb => rw [valueFor, hb]
    · rfl
  simp only [hvalue]
  cases hwritten : written.find? name with
  | none => simp [fallback?]
  | some v =>
      obtain ⟨b, hb, hname⟩ := isSome_attribute?_iff.1
        (hdeclared name (Dictionary.find?_isSome_iff.1 (by simp [hwritten])))
      cases hfound : d.attributes.reverse.findSome? fun b =>
          if b.name = name then some v <|> b.fallback else none with
      | none =>
          have := List.findSome?_eq_none_iff.1 hfound b (List.mem_reverse.2 hb)
          simp [hname] at this
      | some w =>
          obtain ⟨c, -, hc⟩ := List.exists_of_findSome?_eq_some hfound
          split at hc
          · cases hc
            rfl
          · cases hc

/-- What a declaration `Admits` is laid over the `fallbacks` by `complete`. -/
theorem Admits.complete_eq (hd : d.Admits written) (hordered : written.Ordered) :
    d.complete written = .ok (d.fallbacks.overlay written) := by
  have hfilled : (d.attributes.find? fun a => (valueFor written a).isNone) = none := by
    cases hfound : d.attributes.find? fun a => (valueFor written a).isNone with
    | none => rfl
    | some a => exact absurd hd (find?_eq_some_iff_firstMissing.1 hfound).not_admits
  rw [Declaration.complete_eq, hfilled]
  refine congrArg Except.ok ((Dictionary.Ordered.ofEntries _).ext
    ((Dictionary.Ordered.ofEntries _).overlay _) fun name => ?_)
  rw [Dictionary.ofEntries, Dictionary.find?_overlay, Dictionary.find?_reverse_filterMap,
    findSome?_valueFor hd.declared, Dictionary.find?_overlay, hordered.find?_reverse, find?_fallbacks]
  simp

end Declaration

/-! ## Synthesis -/

namespace Universe

variable {u : Universe} {d : Declaration} {written : Attributes} {tagType origin : Handle}

/-- Why `synthesize` makes no tag. What stands first is checked first: that the type is a tag type, then
that all names are declared, from the least on, then that no attribute is missing, in declared order. -/
inductive Rejects (u : Universe) (written : Attributes) (tagType origin : Handle) : SynthesisError → Prop where
  | notATagType : u.isTagType tagType = false → Rejects u written tagType origin (.notATagType tagType)
  | unknownAttribute {d : Declaration} {name : String} : u.get? tagType = some d → d.isTagType →
      name ∈ written.names → d.attribute? name = none →
      (∀ other ∈ written.names, other < name → (d.attribute? other).isSome) →
      Rejects u written tagType origin (.unknownAttribute d.name name (u.displayType origin))
  | missingAttribute {d : Declaration} {a : Attribute} : u.get? tagType = some d → d.isTagType →
      (∀ name ∈ written.names, (d.attribute? name).isSome) → d.FirstMissing written a →
      Rejects u written tagType origin (.missingAttribute d.name a.name (u.displayType origin))

theorem filter_get?_eq_none_iff :
    (u.get? tagType).filter (·.isTagType) = none ↔ u.isTagType tagType = false := by
  unfold isTagType Registry.isTagType get?
  cases u.registry.get? tagType <;> simp

theorem find?_names_eq_none_iff :
    (written.names.find? fun name => (d.attribute? name).isNone) = none ↔
      ∀ name ∈ written.names, (d.attribute? name).isSome := by
  simp [List.find?_eq_none, Option.isSome_iff_ne_none]

theorem find?_names_eq_some_iff (hordered : written.Ordered) {name : String} :
    (written.names.find? fun name => (d.attribute? name).isNone) = some name ↔
      name ∈ written.names ∧ d.attribute? name = none ∧
        ∀ other ∈ written.names, other < name → (d.attribute? other).isSome := by
  have hsorted : written.names.Pairwise (· < ·) := List.pairwise_map.2 hordered
  rw [find?_eq_some_iff_least hsorted]
  simp [Option.isSome_iff_ne_none]

/-- For a tag type `synthesize` checks the names first, and then, by `complete`, what is missing. -/
theorem synthesize_of_isTagType (hd : u.get? tagType = some d) (htype : d.isTagType) :
    u.synthesize written tagType origin =
      match written.names.find? fun name => (d.attribute? name).isNone with
      | some name => .error (.unknownAttribute d.name name (u.displayType origin))
      | none =>
        match d.complete written with
        | .ok done => .ok ⟨tagType, done⟩
        | .error name => .error (.missingAttribute d.name name (u.displayType origin)) := by
  have hfound : (u.get? tagType).filter (·.isTagType) = some d := Option.filter_eq_some_iff.2 ⟨hd, htype⟩
  unfold synthesize
  split
  · next hnone => cases hfound.symm.trans hnone
  · next hsome =>
    cases hfound.symm.trans hsome
    rfl

/-- What the declaration of a tag type `Admits` makes a tag by `synthesize`, over the `fallbacks`. -/
theorem synthesize_of_admits (origin : Handle) (hordered : written.Ordered)
    (hd : u.get? tagType = some d) (htype : d.isTagType) (hadmits : d.Admits written) :
    u.synthesize written tagType origin = .ok ⟨tagType, (u.fallbacks tagType).overlay written⟩ := by
  rw [synthesize_of_isTagType hd htype, find?_names_eq_none_iff.2 hadmits.declared,
    hadmits.complete_eq hordered, fallbacks_of_get? hd]

theorem Rejects.synthesize_eq {e : SynthesisError} (he : u.Rejects written tagType origin e)
    (hordered : written.Ordered) : u.synthesize written tagType origin = .error e := by
  cases he with
  | notATagType htype =>
      unfold synthesize
      rw [filter_get?_eq_none_iff.2 htype]
  | unknownAttribute hd htype hname hunknown hleast =>
      rw [synthesize_of_isTagType hd htype,
        (find?_names_eq_some_iff hordered).2 ⟨hname, hunknown, hleast⟩]
  | missingAttribute hd htype hdeclared hmissing =>
      rw [synthesize_of_isTagType hd htype, find?_names_eq_none_iff.2 hdeclared, hmissing.complete_eq]

/-- The declaration of a tag type `Admits` attributes, or else the universe `Rejects` them. -/
theorem admits_or_rejects (hordered : written.Ordered) (tagType origin : Handle) :
    (∃ d, u.get? tagType = some d ∧ d.isTagType ∧ d.Admits written) ∨
      ∃ e, u.Rejects written tagType origin e := by
  cases hfound : (u.get? tagType).filter (·.isTagType) with
  | none => exact .inr ⟨_, .notATagType (filter_get?_eq_none_iff.1 hfound)⟩
  | some d =>
      obtain ⟨hd, htype⟩ := Option.filter_eq_some_iff.1 hfound
      cases hknown : written.names.find? fun name => (d.attribute? name).isNone with
      | some name =>
          obtain ⟨hname, hunknown, hleast⟩ := (find?_names_eq_some_iff hordered).1 hknown
          exact .inr ⟨_, .unknownAttribute hd htype hname hunknown hleast⟩
      | none =>
          have hdeclared := find?_names_eq_none_iff.1 hknown
          rcases Declaration.admits_or_firstMissing hdeclared with hadmits | ⟨a, ha⟩
          · exact .inl ⟨d, hd, htype, hadmits⟩
          · exact .inr ⟨_, .missingAttribute hd htype hdeclared ha⟩

theorem synthesize_eq_error_iff (hordered : written.Ordered) {e : SynthesisError} :
    u.synthesize written tagType origin = .error e ↔ u.Rejects written tagType origin e := by
  refine ⟨fun he => ?_, fun he => he.synthesize_eq hordered⟩
  rcases u.admits_or_rejects hordered tagType origin with ⟨d, hd, htype, hadmits⟩ | ⟨e', he'⟩
  · cases he.symm.trans (synthesize_of_admits _ hordered hd htype hadmits)
  · cases he.symm.trans (he'.synthesize_eq hordered)
    exact he'

theorem exists_admits_of_synthesize (hordered : written.Ordered) {t : Tag}
    (ht : u.synthesize written tagType origin = .ok t) :
    ∃ d, u.get? tagType = some d ∧ d.isTagType ∧ d.Admits written := by
  rcases u.admits_or_rejects hordered tagType origin with hadmits | ⟨e, he⟩
  · exact hadmits
  · cases ht.symm.trans (he.synthesize_eq hordered)

/-- Attributes make a tag by `synthesize` exactly if the declaration of a tag type `Admits` them. The tag
has what is written over the `fallbacks`, with all declared names and no others, and is made from its own
attributes again, for whatever type. Otherwise the reason for which the universe `Rejects` them is reported. -/
theorem synthesize_outcome (u : Universe) (hordered : written.Ordered) (tagType origin : Handle) :
    ((∃ t, u.synthesize written tagType origin = .ok t) ↔
      ∃ d, u.get? tagType = some d ∧ d.isTagType ∧ d.Admits written) ∧
    (∀ t, u.synthesize written tagType origin = .ok t →
      t = ⟨tagType, (u.fallbacks tagType).overlay written⟩ ∧ t.attributes.Ordered ∧
      (∀ name, name ∈ t.attributes.names ↔ ∃ d ∈ u.get? tagType, ∃ a ∈ d.attributes, a.name = name) ∧
      (∀ name v, written.find? name = some v → t.attributes.find? name = some v) ∧
      ∀ origin', u.synthesize t.attributes tagType origin' = .ok t) ∧
    ∀ e, u.synthesize written tagType origin = .error e ↔ u.Rejects written tagType origin e := by
  have hbase := u.ordered_fallbacks tagType
  refine ⟨⟨fun ⟨t, ht⟩ => exists_admits_of_synthesize hordered ht, ?_⟩, fun t ht => ?_,
    fun e => synthesize_eq_error_iff hordered⟩
  · rintro ⟨d, hd, htype, hadmits⟩
    exact ⟨_, synthesize_of_admits _ hordered hd htype hadmits⟩
  · obtain ⟨d, hd, htype, hadmits⟩ := exists_admits_of_synthesize hordered ht
    have hmade := synthesize_of_admits origin hordered hd htype hadmits
    cases ht.symm.trans hmade
    refine ⟨rfl, hbase.overlay written, fun name => ?_, fun name v hv => ?_, fun origin' => ?_⟩
    · rw [fallbacks_of_get? hd, hadmits.mem_names_overlay, Declaration.isSome_attribute?_iff]
      simp [hd]
    · rw [Dictionary.find?_overlay, hordered.find?_reverse, hv]
      rfl
    · have hagain := synthesize_of_admits origin' (hbase.overlay written) hd htype
        (fallbacks_of_get? hd ▸ hadmits.overlay)
      rwa [Dictionary.overlay_overlay hbase] at hagain

/-- A ware has a name, and a price that is declared twice. -/
def priced : Universe :=
  Draft.ofEdits
    [.declare .tagType "a::Ware", .declare .classType "a::Shop",
      .write (.ofIndex 16) (.declares ⟨"price", some (.int 1)⟩),
      .write (.ofIndex 16) (.declares ⟨"name", none⟩),
      .write (.ofIndex 16) (.declares ⟨"price", some (.int 2)⟩)]
    (by decide +kernel) (by decide +kernel)

/-- A named ware has the last price of `priced`, for every type. Of two names that no ware has the lesser
one is reported, and only without them the name that is missing. -/
theorem synthesize_outcome_priced :
    let named : Attributes := [("name", .str "lamp")]
    let ware : Tag := ⟨.ofIndex 16, [("name", .str "lamp"), ("price", .int 2)]⟩
    let strange : Attributes := [("colour", .str "red"), ("size", .int 3)]
    named.Ordered ∧ strange.Ordered ∧ priced.synthesize named (.ofIndex 16) (.ofIndex 17) = .ok ware ∧
      (∀ origin, priced.synthesize ware.attributes (.ofIndex 16) origin = .ok ware) ∧
      priced.Rejects strange (.ofIndex 16) (.ofIndex 17) (.unknownAttribute "a::Ware" "colour" "a::Shop") ∧
      priced.Rejects [] (.ofIndex 16) (.ofIndex 17) (.missingAttribute "a::Ware" "name" "a::Shop") ∧
      priced.Rejects named (.ofIndex 17) (.ofIndex 17) (.notATagType (.ofIndex 17)) := by
  intro named ware strange
  have hnamed : named.Ordered := by decide
  have hstrange : strange.Ordered := by decide
  have hmade : priced.synthesize named (.ofIndex 16) (.ofIndex 17) = .ok ware := by decide +kernel
  obtain ⟨-, hok, -⟩ := synthesize_outcome priced hnamed (.ofIndex 16) (.ofIndex 17)
  refine ⟨hnamed, hstrange, hmade, (hok ware hmade).2.2.2.2, ?_, ?_, ?_⟩
  · exact ((synthesize_outcome priced hstrange _ _).2.2 _).1 (by decide +kernel)
  · exact ((synthesize_outcome priced .nil _ _).2.2 _).1 (by decide +kernel)
  · exact ((synthesize_outcome priced hnamed _ _).2.2 _).1 (by decide +kernel)

end Universe

/-! ## Fallbacks that are filled in beforehand -/

namespace Declaration

variable {d : Declaration} {written : Attributes} {a : Attribute} {name : String}

/-- The declarations of one name have fallbacks all, or none has. -/
def Uniform (d : Declaration) : Prop :=
  ∀ a ∈ d.attributes, ∀ b ∈ d.attributes, a.name = b.name → a.fallback.isSome → b.fallback.isSome

/-- A value for every declared name but one. -/
def allBut (d : Declaration) (name : String) : Attributes :=
  .ofEntries ((d.attributes.filter (·.name ≠ name)).map fun a => (a.name, .bool true))

theorem mem_names_allBut {other : String} :
    other ∈ (d.allBut name).names ↔ other ≠ name ∧ ∃ a ∈ d.attributes, a.name = other := by
  unfold allBut Dictionary.ofEntries
  rw [Dictionary.mem_names_overlay]
  constructor
  · rintro (hother | hother)
    · cases hother
    · obtain ⟨_, hentry, rfl⟩ := List.mem_map.1 hother
      obtain ⟨a, ha, rfl⟩ := List.mem_map.1 hentry
      obtain ⟨ha, hne⟩ := List.mem_filter.1 ha
      exact ⟨by simpa using hne, a, ha, rfl⟩
  · rintro ⟨hne, a, ha, rfl⟩
    have hkept : a ∈ d.attributes.filter (·.name ≠ name) := List.mem_filter.2 ⟨ha, by simpa using hne⟩
    exact .inr (List.mem_map.2 ⟨_, List.mem_map.2 ⟨a, hkept, rfl⟩, rfl⟩)

/-- Names that are declared stay declared with the fallbacks filled in. -/
theorem isSome_attribute?_of_mem_overlay (hname : name ∈ (d.fallbacks.overlay written).names) :
    name ∈ written.names ∨ (d.attribute? name).isSome := by
  rw [Dictionary.mem_names_overlay, mem_names_fallbacks] at hname
  rcases hname with ⟨a, ha, hname, -⟩ | hname
  · exact .inr (isSome_attribute?_iff.2 ⟨a, ha, hname⟩)
  · exact .inl hname

/-- With the `fallbacks` filled in the `FirstMissing` attribute stays the same, unless its name has a
fallback. -/
theorem FirstMissing.overlay (ha : d.FirstMissing written a) (hnone : d.fallback? a.name = none) :
    d.FirstMissing (d.fallbacks.overlay written) a := by
  obtain ⟨before, after, hsplit, ⟨hwritten, hfallback⟩, hbefore⟩ := ha
  refine ⟨before, after, hsplit, ⟨?_, hfallback⟩, fun b hb hnone => ?_⟩
  · rw [Dictionary.mem_names_overlay, mem_names_fallbacks_iff, hnone]
    simpa using hwritten
  · exact Dictionary.mem_names_overlay.2 (.inr (hbefore b hb hnone))

theorem FirstMissing.fallback?_of_overlay {b : Attribute} (hb : d.FirstMissing (d.fallbacks.overlay written) b) :
    d.fallback? b.name = none := by
  obtain ⟨-, -, -, ⟨hwritten, -⟩, -⟩ := hb
  rw [Dictionary.mem_names_overlay, mem_names_fallbacks_iff] at hwritten
  simpa using fun hsome => hwritten (.inl hsome)

/-- A `FirstMissing` attribute never has a fallback by another declaration exactly if the declarations are
`Uniform`. If they are not, then `allBut` the name in question can be written. -/
theorem uniform_iff : d.Uniform ↔ ∀ written : Attributes, written.Ordered →
    (∀ name ∈ written.names, (d.attribute? name).isSome) →
      ∀ a, d.FirstMissing written a → d.fallback? a.name = none := by
  constructor
  · intro huniform written _ _ a ha
    rw [fallback?_eq_none_iff]
    intro b hb hname
    obtain ⟨-, -, -, ⟨-, hnone⟩, -⟩ := id ha
    by_contra hfallback
    have := huniform b hb a ha.mem hname (Option.isSome_iff_ne_none.2 hfallback)
    simp [hnone] at this
  · intro hmissing a ha b hb hname hfallback
    by_contra hnone
    have hdeclared : ∀ name ∈ (d.allBut a.name).names, (d.attribute? name).isSome := fun _ hother =>
      isSome_attribute?_iff.2 (mem_names_allBut.1 hother).2
    rcases admits_or_firstMissing hdeclared with hadmits | ⟨c, hc⟩
    · have hwritten := hadmits.provided b hb (by simpa using hnone)
      exact (mem_names_allBut.1 hwritten).1 hname.symm
    · have hcname : c.name = a.name := by
        obtain ⟨-, -, -, ⟨hwritten, -⟩, -⟩ := id hc
        by_contra hne
        exact hwritten (mem_names_allBut.2 ⟨hne, c, hc.mem, rfl⟩)
      have := fallback?_eq_none_iff.1 (hmissing _ (Dictionary.Ordered.ofEntries _) hdeclared c hc) a ha
        hcname.symm
      simp [this] at hfallback

end Declaration

namespace Universe

variable {u : Universe} {d : Declaration} {written : Attributes} {tagType origin : Handle}

/-- Where a `FirstMissing` attribute is what attributes are rejected for, it has no fallback by another
declaration of its name. -/
def MissesNoFallback (u : Universe) (written : Attributes) (tagType : Handle) : Prop :=
  ∀ d a, u.get? tagType = some d → d.isTagType → (∀ name ∈ written.names, (d.attribute? name).isSome) →
    d.FirstMissing written a → d.fallback? a.name = none

theorem Rejects.overlay {e : SynthesisError} (he : u.Rejects written tagType origin e)
    (hmisses : u.MissesNoFallback written tagType) :
    u.Rejects ((u.fallbacks tagType).overlay written) tagType origin e := by
  cases he with
  | notATagType htype => exact .notATagType htype
  | unknownAttribute hd htype hname hunknown hleast =>
      rw [fallbacks_of_get? hd]
      refine .unknownAttribute hd htype (Dictionary.mem_names_overlay.2 (.inr hname)) hunknown
        fun other hother hlt => ?_
      exact (Declaration.isSome_attribute?_of_mem_overlay hother).elim (fun h => hleast other h hlt) id
  | missingAttribute hd htype hdeclared ha =>
      have hnone := hmisses _ _ hd htype hdeclared ha
      rw [fallbacks_of_get? hd]
      refine .missingAttribute hd htype (fun name hname => ?_) (ha.overlay hnone)
      exact (Declaration.isSome_attribute?_of_mem_overlay hname).elim (hdeclared name) id

theorem synthesize_overlay_of_missesNoFallback (hordered : written.Ordered)
    (hmisses : u.MissesNoFallback written tagType) (origin : Handle) :
    u.synthesize ((u.fallbacks tagType).overlay written) tagType origin
      = u.synthesize written tagType origin := by
  have hbase := u.ordered_fallbacks tagType
  rcases u.admits_or_rejects hordered tagType origin with ⟨d, hd, htype, hadmits⟩ | ⟨e, he⟩
  · have hfilled := fallbacks_of_get? hd ▸ hadmits.overlay
    rw [synthesize_of_admits origin hordered hd htype hadmits,
      synthesize_of_admits origin (hbase.overlay written) hd htype hfilled,
      Dictionary.overlay_overlay hbase]
  · rw [he.synthesize_eq hordered, (he.overlay hmisses).synthesize_eq (hbase.overlay written)]

theorem missesNoFallback_of_synthesize_overlay (hordered : written.Ordered)
    (heq : u.synthesize ((u.fallbacks tagType).overlay written) tagType origin
      = u.synthesize written tagType origin) : u.MissesNoFallback written tagType := by
  intro d a hd htype hdeclared ha
  rw [Rejects.synthesize_eq (.missingAttribute hd htype hdeclared ha) hordered,
    synthesize_eq_error_iff ((u.ordered_fallbacks tagType).overlay written), fallbacks_of_get? hd] at heq
  generalize a.name = name at heq ⊢
  generalize d.name = tag at heq
  cases heq with
  | missingAttribute hd' _ _ hb =>
      cases hd.symm.trans hd'
      exact hb.fallback?_of_overlay

/-- Whether the `fallbacks` are filled in beforehand makes no difference for `synthesize` unless the first
attribute that is missing has a fallback by another declaration of its name (`MissesNoFallback`). For a tag
type it never makes a difference exactly if its declaration is `Uniform`: no name is declared both with and
without fallback. -/
theorem synthesize_overlay_eq_iff (u : Universe) (tagType : Handle) :
    (∀ written : Attributes, written.Ordered → ∀ origin,
      (u.synthesize ((u.fallbacks tagType).overlay written) tagType origin
        = u.synthesize written tagType origin ↔ u.MissesNoFallback written tagType)) ∧
    ((∀ written : Attributes, written.Ordered → ∀ origin,
        u.synthesize ((u.fallbacks tagType).overlay written) tagType origin
          = u.synthesize written tagType origin) ↔
      ∀ d, u.get? tagType = some d → d.isTagType → d.Uniform) := by
  refine ⟨fun written hordered origin => ⟨missesNoFallback_of_synthesize_overlay hordered, fun hmisses =>
    synthesize_overlay_of_missesNoFallback hordered hmisses origin⟩, fun hall d hd htype => ?_,
    fun huniform written hordered origin => ?_⟩
  · refine Declaration.uniform_iff.2 fun written hordered hdeclared a ha => ?_
    exact missesNoFallback_of_synthesize_overlay hordered (hall written hordered .object) d a hd htype
      hdeclared ha
  · refine synthesize_overlay_of_missesNoFallback hordered (fun d a hd htype hdeclared ha => ?_) origin
    exact Declaration.uniform_iff.1 (huniform d hd htype) written hordered hdeclared a ha

/-- The container of items declares its content itself, without fallback, and is then made a container. -/
def collected : Universe :=
  Draft.ofEdits
    [.declare .tagType "a::Item", .declare .tagType "a::Items",
      .write (.ofIndex 17) (.declares ⟨"value", none⟩), .collect (.ofIndex 16) (.ofIndex 17)]
    (by decide +kernel) (by decide +kernel)

/-- Without content `synthesize` makes no container of `collected`, but with the fallback filled in an empty
one. -/
theorem synthesize_collected :
    collected.synthesize [] (.ofIndex 17) (.ofIndex 17)
        = .error (.missingAttribute "a::Items" "value" "a::Items") ∧
      collected.synthesize ((collected.fallbacks (.ofIndex 17)).overlay []) (.ofIndex 17) (.ofIndex 17)
        = .ok ⟨.ofIndex 17, [("value", .array [])]⟩ := by
  decide +kernel

/-- Where the content is written the fallback makes no difference. -/
theorem synthesize_overlay_eq_iff_collected :
    let written : Attributes := [("value", .array [(Tag.plain (.ofIndex 16)).toValue])]
    written.Ordered ∧
      collected.synthesize ((collected.fallbacks (.ofIndex 17)).overlay written) (.ofIndex 17) (.ofIndex 17)
        = collected.synthesize written (.ofIndex 17) (.ofIndex 17) ∧
      ¬ ∀ d, collected.get? (.ofIndex 17) = some d → d.isTagType → d.Uniform := by
  intro written
  have hordered : written.Ordered := by decide
  obtain ⟨hiff, hall⟩ := synthesize_overlay_eq_iff collected (.ofIndex 17)
  refine ⟨hordered, (hiff written hordered _).2 fun d a hd _ _ ha => ?_, fun huniform => ?_⟩
  · have hwritten : ∀ d ∈ collected.get? (.ofIndex 17), ∀ a ∈ d.attributes, a.name ∈ written.names := by
      decide +kernel
    obtain ⟨-, -, -, ⟨hmissing, -⟩, -⟩ := id ha
    exact absurd (hwritten d hd a ha.mem) hmissing
  · have heq := hall.2 huniform [] .nil (.ofIndex 17)
    revert heq
    decide +kernel

end Universe

end TagResolution
