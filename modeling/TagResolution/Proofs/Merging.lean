import TagResolution.Merge
import TagResolution.Proofs.Construction

/-!
# Which value is merged

Merged attributes are built from below, and every layer overwrites what is there: first the fallbacks, then
what is written on the tag, then what the aliases of the tags that are looked through set, from the farthest
tag to the one that is written on the type. Read for one attribute and from above, the first layer that has a
value for it decides, and nothing else that is written or declared makes a difference.

The main statement is `merge_decided`.
-/

namespace TagResolution

/-! ## Layers of entries -/

namespace Dictionary

variable {α β : Type} {d : Dictionary α}

/-- In an `Ordered` dictionary no name comes twice, so it does not matter from which end it is looked for. -/
theorem Ordered.find?_reverse (hd : d.Ordered) (key : String) : find? d.reverse key = d.find? key := by
  cases hfound : find? d.reverse key with
  | none =>
      refine (find?_eq_none_iff.2 fun hkey => ?_).symm
      exact find?_eq_none_iff.1 hfound (mem_names_reverse.2 hkey)
  | some value => exact (hd.find?_of_mem (List.mem_reverse.1 (mem_of_find? hfound))).symm

/-- Among entries that are made from a list, the last one that is made for a name comes first in reverse. -/
theorem find?_reverse_filterMap (l : List β) (name : β → String) (value? : β → Option α) (key : String) :
    find? (l.filterMap fun b => (value? b).map (name b, ·)).reverse key
      = l.reverse.findSome? fun b => if name b = key then value? b else none := by
  rw [← List.filterMap_reverse]
  induction l.reverse with
  | nil => rfl
  | cons b rest ih =>
      rw [List.filterMap_cons, List.findSome?_cons]
      cases value? b with
      | none => simpa using ih
      | some value =>
          by_cases hkey : name b = key
          · simp [find?_cons, hkey]
          · simpa [find?_cons, hkey] using ih

/-- Of layers that `overlay` lays one over the other, the topmost that has a value decides. -/
theorem find?_foldl_overlay (base : Dictionary α) (l : List β) (layer : β → Dictionary α) (key : String) :
    find? (l.foldl (fun d b => d.overlay (layer b)) base) key
      = (l.reverse.findSome? (fun b => find? (layer b).reverse key) <|> base.find? key) := by
  induction l generalizing base with
  | nil => rfl
  | cons b rest ih =>
      rw [List.foldl_cons, ih, find?_overlay, List.reverse_cons, List.findSome?_append]
      cases rest.reverse.findSome? fun b => find? (layer b).reverse key with
      | some value => rfl
      | none =>
          rw [List.findSome?_cons]
          cases find? (layer b).reverse key <;> rfl

end Dictionary

/-! ## What a declaration says about an attribute -/

namespace Declaration

variable {d : Declaration}

/-- The fallback of a name: of those that are declared for it the last. -/
def fallback? (d : Declaration) (name : String) : Option Value :=
  d.attributes.reverse.findSome? fun a => if a.name = name then a.fallback else none

/-- The attributes from which the aliases of the declaration set an attribute of a tag type, in written
order. -/
def sources (d : Declaration) (target : Handle) (name : String) : List String :=
  (d.aliases.filter fun a => a.target = target ∧ a.targetAttribute = name).map (·.source)

theorem find?_fallbacks (d : Declaration) (name : String) : d.fallbacks.find? name = d.fallback? name := by
  unfold fallbacks Dictionary.ofEntries
  rw [Dictionary.find?_overlay, Dictionary.find?_reverse_filterMap]
  simp [fallback?]

theorem fallback?_eq_none_iff {name : String} :
    d.fallback? name = none ↔ ∀ a ∈ d.attributes, a.name = name → a.fallback = none := by
  simp [fallback?, List.findSome?_eq_none_iff]

theorem mem_names_fallbacks_iff {name : String} :
    name ∈ d.fallbacks.names ↔ (d.fallback? name).isSome := by
  rw [← Dictionary.find?_isSome_iff, find?_fallbacks]

/-- The `fallbacks` name the attributes that have one. -/
theorem mem_names_fallbacks {name : String} :
    name ∈ d.fallbacks.names ↔ ∃ a ∈ d.attributes, a.name = name ∧ a.fallback.isSome := by
  rw [mem_names_fallbacks_iff, Option.isSome_iff_ne_none, Ne, fallback?_eq_none_iff]
  simp [Option.isSome_iff_ne_none]

/-- Of the attributes that the aliases in `redirected` take a value from, the last that is written counts. -/
theorem find?_reverse_redirected (d : Declaration) (target : Handle) (composed : Tag) (name : String) :
    Dictionary.find? (d.redirected target composed).reverse name
      = (d.sources target name).reverse.findSome? composed.attribute? := by
  unfold redirected sources
  rw [Dictionary.find?_reverse_filterMap, ← List.map_reverse, ← List.filter_reverse, ← List.filter_reverse,
    List.findSome?_map]
  induction d.aliases.reverse with
  | nil => rfl
  | cons a rest ih =>
      by_cases htarget : a.target = target
      · by_cases hname : a.targetAttribute = name <;>
          simp [List.findSome?_cons, htarget, hname, ih]
      · simpa [List.filter_cons, htarget] using ih

end Declaration

namespace Universe

variable (u : Universe)

/-- The fallback of an attribute of a tag type, by `Declaration.fallback?`. -/
def fallback? (tagType : Handle) (name : String) : Option Value := (u.get? tagType).bind (·.fallback? name)

/-- What is written on a composed tag for the attributes, its `sources`, from which aliases set an attribute
of a tag type, in the order of the aliases. -/
def readings (target : Handle) (name : String) (composed : Tag) : List (Option Value) :=
  (((u.get? composed.type).map (·.sources target name)).getD []).map composed.attribute?

/-- The value to which a composed tag sets an attribute of a tag type: the last of its `readings`. -/
def imposed? (target : Handle) (name : String) (composed : Tag) : Option Value :=
  (u.readings target name composed).reverse.findSome? id

theorem find?_fallbacks (tagType : Handle) (name : String) :
    (u.fallbacks tagType).find? name = u.fallback? tagType name := by
  unfold fallbacks fallback?
  cases u.get? tagType with
  | none => rfl
  | some d => exact d.find?_fallbacks name

theorem find?_reverse_redirected (target : Handle) (composed : Tag) (name : String) :
    Dictionary.find? (u.redirected target composed).reverse name = u.imposed? target name composed := by
  unfold redirected imposed? readings
  cases u.get? composed.type with
  | none => rfl
  | some d =>
      rw [← List.map_reverse, List.findSome?_map]
      exact d.find?_reverse_redirected target composed name

theorem fallbacks_of_get? {u : Universe} {h : Handle} {d : Declaration} (hd : u.get? h = some d) :
    u.fallbacks h = d.fallbacks := by
  simp [fallbacks, hd]

theorem ordered_fallbacks (h : Handle) : (u.fallbacks h).Ordered := by
  unfold fallbacks
  cases u.get? h with
  | none => exact .nil
  | some d => exact .ofEntries _

/-- Every overlay keeps the order of names. -/
theorem ordered_merge (s : Sighting) : (u.merge s).Ordered := by
  have hbase : (u.withFallbacks s.tag).Ordered := (u.ordered_fallbacks s.tag.type).overlay _
  unfold merge
  generalize u.withFallbacks s.tag = merged at hbase
  induction s.through generalizing merged with
  | nil => exact hbase
  | cons composed rest ih => exact ih _ (hbase.overlay _)

/-- The layers of `merge`, from above. -/
theorem find?_merge_eq (s : Sighting) (name : String) : (u.merge s).find? name =
    (s.through.reverse.findSome? (u.imposed? s.tag.type name)
      <|> Dictionary.find? s.tag.attributes.reverse name <|> u.fallback? s.tag.type name) := by
  unfold merge withFallbacks
  rw [Dictionary.find?_foldl_overlay, Dictionary.find?_overlay, find?_fallbacks]
  simp only [find?_reverse_redirected]

/-- The `fallbacks` lie below everything that `merge` has merged already. -/
theorem overlay_fallbacks_merge (s : Sighting) :
    (u.fallbacks s.tag.type).overlay (u.merge s) = u.merge s := by
  refine ((u.ordered_fallbacks s.tag.type).overlay _).ext (u.ordered_merge s) fun name => ?_
  rw [Dictionary.find?_overlay, (u.ordered_merge s).find?_reverse, find?_fallbacks, find?_merge_eq]
  cases s.through.reverse.findSome? (u.imposed? s.tag.type name) with
  | some v => rfl
  | none =>
      cases Dictionary.find? s.tag.attributes.reverse name with
      | some v => rfl
      | none => cases u.fallback? s.tag.type name <;> rfl

theorem find?_merge_of_ordered {s : Sighting} (hs : s.tag.attributes.Ordered) (name : String) :
    (u.merge s).find? name = (s.through.reverse.findSome? (u.imposed? s.tag.type name)
      <|> s.tag.attribute? name <|> u.fallback? s.tag.type name) := by
  rw [find?_merge_eq, hs.find?_reverse]
  rfl

/-- Which value composed tags set depends on their `readings`, and on nothing else of them. -/
theorem findSome?_imposed? (target : Handle) (name : String) (through : List Tag) :
    through.reverse.findSome? (u.imposed? target name)
      = (through.map (u.readings target name)).reverse.findSome? fun l => l.reverse.findSome? id := by
  rw [← List.map_reverse, List.findSome?_map]
  rfl

/-- What `merge` has for an attribute is decided by the first tag that sets it (`imposed?`), from the one
that is written on the type downwards; of several aliases of this tag by the last whose source it writes. If
no tag sets it, it is what is written on the sighted tag, or else its last fallback, or else nothing. So two
sightings are merged alike for a name if they agree in what is written and declared for it (`readings`),
whatever else their tags write and their universes declare. Written attributes are in order, as all
dictionaries are. -/
theorem merge_decided {s : Sighting} (hs : s.tag.attributes.Ordered) (name : String) :
    (u.merge s).find? name =
      (s.through.reverse.findSome? (u.imposed? s.tag.type name)
        <|> s.tag.attribute? name <|> u.fallback? s.tag.type name) ∧
    ∀ (u' : Universe) (s' : Sighting), s'.tag.attributes.Ordered →
      s'.through.map (u'.readings s'.tag.type name) = s.through.map (u.readings s.tag.type name) →
      s'.tag.attribute? name = s.tag.attribute? name →
      u'.fallback? s'.tag.type name = u.fallback? s.tag.type name →
      (u'.merge s').find? name = (u.merge s).find? name := by
  refine ⟨u.find?_merge_of_ordered hs name, fun u' s' hs' hthrough hwritten hfallback => ?_⟩
  rw [u.find?_merge_of_ordered hs, u'.find?_merge_of_ordered hs', findSome?_imposed?, findSome?_imposed?,
    hthrough, hwritten, hfallback]

/-- The place of a lamp has two fallbacks, and that of the lamp of a desk is written; a desk sets it by two
aliases, and so could an office, which has a desk. A class has an office that does not. -/
def lit : Universe :=
  Draft.ofEdits
    [.declare .tagType "a::Lamp", .declare .tagType "a::Desk", .declare .tagType "a::Office",
      .declare .classType "a::Class",
      .write (.ofIndex 16) (.declares ⟨"place", some (.int 1)⟩),
      .write (.ofIndex 16) (.declares ⟨"watts", some (.int 25)⟩),
      .write (.ofIndex 16) (.declares ⟨"watts", some (.int 40)⟩),
      .write (.ofIndex 17) (.aliases ⟨"left", .ofIndex 16, "place"⟩),
      .write (.ofIndex 17) (.aliases ⟨"right", .ofIndex 16, "place"⟩),
      .write (.ofIndex 18) (.aliases ⟨"front", .ofIndex 16, "place"⟩),
      .write (.ofIndex 17) (.tag ((Tag.plain (.ofIndex 16)).set "place" (.int 2))),
      .write (.ofIndex 18)
        (.tag (((Tag.plain (.ofIndex 17)).set "left" (.int 3)).set "right" (.int 4))),
      .write (.ofIndex 19) (.tag (.plain (.ofIndex 18)))]
    (by decide +kernel) (by decide +kernel)

/-- In `lit` the second alias of the desk decides the place, and the second fallback the watts. With a front
the office would decide. The colour of the desk makes no difference. -/
theorem merge_decided_lit :
    let lamp : Tag := (Tag.plain (.ofIndex 16)).set "place" (.int 2)
    let desk : Tag := ((Tag.plain (.ofIndex 17)).set "left" (.int 3)).set "right" (.int 4)
    let office : Tag := .plain (.ofIndex 18)
    lamp.attributes.Ordered ∧ ⟨lamp, [desk, office]⟩ ∈ lit.scan (.ofIndex 19) ∧
      (lit.merge ⟨lamp, [desk, office]⟩).find? "place" = some (.int 4) ∧
      (lit.merge ⟨lamp, [desk, office]⟩).find? "watts" = some (.int 40) ∧
      (lit.merge ⟨lamp, [desk, office.set "front" (.int 5)]⟩).find? "place" = some (.int 5) ∧
      (lit.merge ⟨lamp, [desk.set "colour" (.str "red"), office]⟩).find? "place"
        = (lit.merge ⟨lamp, [desk, office]⟩).find? "place" := by
  intro lamp desk office
  have hordered : lamp.attributes.Ordered := by decide
  refine ⟨hordered, by decide +kernel, ?_, ?_, ?_, ?_⟩
  · rw [(lit.merge_decided hordered "place").1]
    decide +kernel
  · rw [(lit.merge_decided hordered "watts").1]
    decide +kernel
  · rw [(lit.merge_decided hordered "place").1]
    decide +kernel
  · exact (lit.merge_decided hordered "place").2 lit _ hordered (by decide +kernel) rfl rfl

end Universe

end TagResolution
