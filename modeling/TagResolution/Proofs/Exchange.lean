import Mathlib.Data.List.Permutation
import TagResolution.Form

/-!
# Reading exchanged values

A value is encoded in one way, but the program that hands it on may list the fields of a record in another
order, and may put fields of its own into the records of tags, at any depth. `Value.Written` says which forms
a value has in this sense. Attributes may be called like a kind of value or like a field of a tag, so what
a record stands for follows from where it stands and never from its names.

The main statement is `Form.decode_written`: every form of a value is read as that value, so no form is one of
two values.
-/

namespace TagResolution

/-! ## Values of dictionaries -/

namespace Value

mutual

/-- All attributes inside a value are listed as dictionaries list them. -/
def Ordered : Value → Prop
  | .tag _ as => Dictionary.Ordered as ∧ EntriesOrdered as
  | .array items => ItemsOrdered items
  | _ => True

def EntriesOrdered : List (String × Value) → Prop
  | [] => True
  | (_, v) :: rest => Ordered v ∧ EntriesOrdered rest

def ItemsOrdered : List Value → Prop
  | [] => True
  | v :: rest => Ordered v ∧ ItemsOrdered rest

end

end Value

/-- All attributes of a tag and inside of it are listed as dictionaries list them. -/
def Tag.Ordered (t : Tag) : Prop := t.attributes.Ordered ∧ Value.EntriesOrdered t.attributes

/-! ## Forms of values -/

/-- The fields of a record that `Form.tag?` reads. -/
def Form.tagFields (fields : List (String × Form)) : List (String × Form) :=
  fields.filter fun field => field.1 = "ty" ∨ field.1 = "attributes"

namespace Value

mutual

/-- The forms that a value may have: `toForm`, up to the order of fields and fields that say nothing. -/
inductive Written : Value → Form → Prop
  | bool (b : Bool) : Written (.bool b) (.record [("Bool", .bool b)])
  | int (i : Int64) : Written (.int i) (.record [("Int", .number i.toInt 0)])
  | str (text : String) : Written (.str text) (.record [("Str", .text text)])
  | enum (constant : String) : Written (.enum constant) (.record [("Enum", .text constant)])
  | type (h : Handle) : Written (.type h) (.record [("Type", h.toForm)])
  | tag {h : Handle} {as : List (String × Value)} {f : Form} :
      TagWritten h as f → Written (.tag h as) (.record [("Tag", f)])
  | array {items : List Value} {forms : List Form} :
      ItemsWritten items forms → Written (.array items) (.record [("Array", .list forms)])

/-- The type and the attributes of a tag stand in any order among fields that say nothing about it, and its
attributes in any order. -/
inductive TagWritten : Handle → List (String × Value) → Form → Prop
  | record {h : Handle} {as : List (String × Value)} {entries listed fields : List (String × Form)} :
      EntriesWritten as entries → entries.Perm listed →
      (Form.tagFields fields).Perm [("ty", h.toForm), ("attributes", .record listed)] →
      TagWritten h as (.record fields)

inductive EntriesWritten : List (String × Value) → List (String × Form) → Prop
  | nil : EntriesWritten [] []
  | cons {name : String} {v : Value} {f : Form} {rest : List (String × Value)}
      {entries : List (String × Form)} :
      Written v f → EntriesWritten rest entries → EntriesWritten ((name, v) :: rest) ((name, f) :: entries)

inductive ItemsWritten : List Value → List Form → Prop
  | nil : ItemsWritten [] []
  | cons {v : Value} {f : Form} {rest : List Value} {forms : List Form} :
      Written v f → ItemsWritten rest forms → ItemsWritten (v :: rest) (f :: forms)

end

mutual

/-- The form that `toForm` encodes is one of those that a value may have. -/
theorem written_toForm : ∀ v : Value, v.Written v.toForm
  | .bool b => .bool b
  | .int i => .int i
  | .str text => .str text
  | .enum constant => .enum constant
  | .type h => .type h
  | .tag _ as => .tag (.record (entriesWritten_entryForms as) (.refl _) (.refl _))
  | .array items => .array (itemsWritten_itemForms items)

theorem entriesWritten_entryForms : ∀ as : List (String × Value), EntriesWritten as (entryForms as)
  | [] => .nil
  | (_, v) :: rest => .cons (written_toForm v) (entriesWritten_entryForms rest)

theorem itemsWritten_itemForms : ∀ items : List Value, ItemsWritten items (itemForms items)
  | [] => .nil
  | v :: rest => .cons (written_toForm v) (itemsWritten_itemForms rest)

end

end Value

namespace Tag

/-- The forms that a tag may have, by `Value.TagWritten`. -/
def Written (t : Tag) (f : Form) : Prop := Value.TagWritten t.type t.attributes f

theorem written_toForm (t : Tag) : t.Written t.toForm :=
  .record (Value.entriesWritten_entryForms t.attributes) (.refl _) (.refl _)

end Tag

namespace Form

theorem injective_of_decode {α : Type} {encode : α → Form} {decode : Form → Option α}
    (hdecode : ∀ a, decode (encode a) = some a) : Function.Injective encode := by
  intro a b hab
  rw [← Option.some_inj, ← hdecode a, hab, hdecode]

/-! ## Scalars -/

theorem int64?_number (i : Int64) : (Form.number i.toInt 0).int64? = some i := by
  have hrange : Int64.minValue.toInt ≤ i.toInt ∧ i.toInt ≤ Int64.maxValue.toInt :=
    ⟨i.le_toInt, i.toInt_le⟩
  rw [int64?, whole?, Option.bind_some, if_pos hrange, Int64.ofInt_toInt]

theorem handle?_toForm (h : Handle) : h.toForm.handle? = some h := by
  have hrange : (0 : Int) ≤ h.index ∧ (h.index : Int) < UInt32.size :=
    ⟨Int.natCast_nonneg _, Int.ofNat_lt.2 h.index_lt⟩
  rw [handle?, Handle.toForm, whole?, Option.bind_some, if_pos hrange, Int.toNat_natCast,
    Handle.ext_index (Handle.index_ofIndex h.index_lt)]

theorem nesting?_toForm (n : Nesting) : n.toForm.nesting? = some n := n.ofConstant?_constant

/-! ## Records of tags -/

/-- Fields that are none of the `tagFields` are skipped. -/
theorem tagOfFields?_tagFields (type : Option Handle) (attributes : Option Attributes)
    (fields : List (String × Form)) :
    tagOfFields? type attributes (tagFields fields) = tagOfFields? type attributes fields := by
  induction fields generalizing type attributes with
  | nil => rfl
  | cons field rest ih =>
      obtain ⟨name, body⟩ := field
      rw [tagFields, List.filter_cons]
      split
      · simp only [tagOfFields?, ← ih]
        rfl
      · next hother =>
        simp only [decide_eq_true_eq, not_or] at hother
        rw [tagOfFields?, if_neg hother.1, if_neg hother.2, ← ih]
        rfl

/-- The type and the attributes are read by `tagOfFields?` in either order. -/
theorem tagOfFields?_of_perm {fields : List (String × Form)} {f g : Form} {h : Handle} {as : Attributes}
    (hp : fields.Perm [("ty", f), ("attributes", g)]) (hh : f.handle? = some h)
    (has : g.attributes? = some as) : tagOfFields? none none fields = some ⟨h, as⟩ := by
  rcases List.perm_pair.1 hp with rfl | rfl <;> simp [tagOfFields?, hh, has]

theorem entries?_cons_eq_some_iff {e : String × Form} {rest : List (String × Form)}
    {as : List (String × Value)} : entries? (e :: rest) = some as ↔
      ∃ v vs, e.2.value? = some v ∧ entries? rest = some vs ∧ as = (e.1, v) :: vs := by
  obtain ⟨name, body⟩ := e
  rw [entries?]
  cases body.value? <;> cases entries? rest <;> simp [eq_comm]

theorem items?_cons_eq_some_iff {item : Form} {rest : List Form} {vs : List Value} :
    items? (item :: rest) = some vs ↔
      ∃ v others, item.value? = some v ∧ items? rest = some others ∧ vs = v :: others := by
  rw [items?]
  cases item.value? <;> cases items? rest <;> simp [eq_comm]

/-- Attributes are read by `entries?` in whatever order they are listed. -/
theorem exists_entries?_of_perm {entries listed : List (String × Form)} (hp : entries.Perm listed)
    {as : List (String × Value)} (has : entries? entries = some as) :
    ∃ as', entries? listed = some as' ∧ as.Perm as' := by
  induction hp generalizing as with
  | nil => exact ⟨as, has, .refl _⟩
  | cons e _ ih =>
      obtain ⟨v, vs, hv, hvs, rfl⟩ := entries?_cons_eq_some_iff.1 has
      obtain ⟨vs', hvs', hp⟩ := ih hvs
      exact ⟨_, entries?_cons_eq_some_iff.2 ⟨v, vs', hv, hvs', rfl⟩, hp.cons _⟩
  | swap e e' rest =>
      obtain ⟨v', _, hv', hrest, rfl⟩ := entries?_cons_eq_some_iff.1 has
      obtain ⟨v, vs, hv, hvs, rfl⟩ := entries?_cons_eq_some_iff.1 hrest
      have hrest' := entries?_cons_eq_some_iff.2 ⟨v', vs, hv', hvs, rfl⟩
      exact ⟨_, entries?_cons_eq_some_iff.2 ⟨v, _, hv, hrest', rfl⟩, .swap ..⟩
  | trans _ _ ih ih' =>
      obtain ⟨as', has', hp⟩ := ih has
      obtain ⟨as'', has'', hp'⟩ := ih' has'
      exact ⟨as'', has'', hp.trans hp'⟩

/-- A tag is read from a record by `Form.tag?` if its attributes are read from what is listed there. -/
theorem tag?_of_entries {h : Handle} {as : Attributes} (has : as.Ordered)
    {entries listed fields : List (String × Form)} (hentries : entries? entries = some as)
    (hlisted : entries.Perm listed)
    (hfields : (tagFields fields).Perm [("ty", h.toForm), ("attributes", .record listed)]) :
    (Form.record fields).tag? = some ⟨h, as⟩ := by
  obtain ⟨as', has', hp⟩ := exists_entries?_of_perm hlisted hentries
  have hread : (Form.record listed).attributes? = some as := by
    rw [attributes?, has', Option.map_some, has.ofEntries_of_perm hp]
  rw [tag?, ← tagOfFields?_tagFields, tagOfFields?_of_perm hfields (handle?_toForm h) hread]

/-! ## Reading -/

mutual

/-- A value is read by `Form.value?` from each of its `Written` forms. -/
theorem value?_of_written : ∀ (v : Value) {f : Form}, v.Ordered → v.Written f → f.value? = some v
  | .bool _, _, _, .bool _ => by simp [value?, bool?]
  | .int _, _, _, .int _ => by simp [value?, int64?_number]
  | .str _, _, _, .str _ => by simp [value?, Form.text?]
  | .enum _, _, _, .enum _ => by simp [value?, Form.text?]
  | .type _, _, _, .type _ => by simp [value?, handle?_toForm]
  | .tag _ as, _, hordered, .tag (.record hentries hlisted hfields) => by
      have hread := entries?_of_written as hordered.2 hentries
      have htag := tag?_of_entries hordered.1 hread hlisted hfields
      simp [value?, htag, Tag.toValue]
  | .array items, _, hordered, .array hitems => by
      have hread := items?_of_written items hordered hitems
      simp [value?, values?, hread]

theorem entries?_of_written : ∀ (as : List (String × Value)) {entries : List (String × Form)},
    Value.EntriesOrdered as → Value.EntriesWritten as entries → entries? entries = some as
  | [], _, _, .nil => rfl
  | (_, v) :: rest, _, ⟨hv, hrest⟩, .cons hwritten hentries =>
      entries?_cons_eq_some_iff.2
        ⟨v, rest, value?_of_written v hv hwritten, entries?_of_written rest hrest hentries, rfl⟩

theorem items?_of_written : ∀ (items : List Value) {forms : List Form},
    Value.ItemsOrdered items → Value.ItemsWritten items forms → items? forms = some items
  | [], _, _, .nil => rfl
  | v :: rest, _, ⟨hv, hrest⟩, .cons hwritten hforms =>
      items?_cons_eq_some_iff.2
        ⟨v, rest, value?_of_written v hv hwritten, items?_of_written rest hrest hforms, rfl⟩

end

/-- A tag is read by `Form.tag?` from each of its `Written` forms. -/
theorem tag?_of_written {t : Tag} {f : Form} (ht : t.Ordered) (hf : t.Written f) : f.tag? = some t := by
  obtain ⟨hordered, hinside⟩ := ht
  obtain ⟨hentries, hlisted, hfields⟩ := hf
  exact tag?_of_entries hordered (entries?_of_written t.attributes hinside hentries) hlisted hfields

/-- A value is read from each of its `Written` forms, in whatever order fields are listed and whatever
fields are added to the records of tags, and `toForm` is one of them; so no form is one of two values. The
same holds of tags. Nested configurations and handles are read from what they are encoded as. -/
theorem decode_written :
    (∀ v : Value, v.Ordered → v.Written v.toForm ∧
      ∀ f, v.Written f → f.value? = some v ∧ ∀ w : Value, w.Ordered → w.Written f → w = v) ∧
    (∀ t : Tag, t.Ordered → t.Written t.toForm ∧
      ∀ f, t.Written f → f.tag? = some t ∧ ∀ s : Tag, s.Ordered → s.Written f → s = t) ∧
    ((∀ n : Nesting, n.toForm.nesting? = some n) ∧ Function.Injective Nesting.toForm) ∧
    ((∀ h : Handle, h.toForm.handle? = some h) ∧ Function.Injective Handle.toForm) := by
  refine ⟨fun v hv => ⟨v.written_toForm, fun f hf => ?_⟩,
    fun t ht => ⟨t.written_toForm, fun f hf => ?_⟩,
    ⟨nesting?_toForm, injective_of_decode nesting?_toForm⟩,
    ⟨handle?_toForm, injective_of_decode handle?_toForm⟩⟩
  · have hread := value?_of_written v hv hf
    refine ⟨hread, fun w hw hwf => ?_⟩
    exact Option.some.inj ((value?_of_written w hw hwf).symm.trans hread)
  · have hread := tag?_of_written ht hf
    refine ⟨hread, fun s hs hsf => ?_⟩
    exact Option.some.inj ((tag?_of_written hs hsf).symm.trans hread)

/-- A tag whose attributes are called like a kind of value and like the fields of tags. -/
def labelledTag : Tag :=
  ⟨.ofIndex 16, [("Tag", .array [.int 1]), ("ty", .tag (.ofIndex 17) [("attributes", .str "ty")])]⟩

/-- A form of this tag, with fields in another order and further fields. -/
def labelled : Form :=
  .record
    [("note", .record [("ty", .null)]),
      ("attributes", .record
        [("ty", .record [("Tag", .record
            [("ty", .number 17 0), ("seen", .bool true),
              ("attributes", .record [("attributes", .record [("Str", .text "ty")])])])]),
          ("Tag", .record [("Array", .list [.record [("Int", .number 1 0)]])])]),
      ("ty", .number 16 0)]

/-- In `labelled` what is read as a tag and what as an attribute is told apart. -/
theorem decode_written_labelled :
    labelledTag.Ordered ∧ labelledTag.Written labelled ∧ labelled.tag? = some labelledTag := by
  have hnames : labelledTag.attributes.Ordered := List.pairwise_pair.2 (by decide)
  have hinside : Value.EntriesOrdered labelledTag.attributes := by
    simp [labelledTag, Value.EntriesOrdered, Value.Ordered, Value.ItemsOrdered, Dictionary.Ordered]
  have hordered : labelledTag.Ordered := ⟨hnames, hinside⟩
  have harray : Value.Written (.array [.int 1])
      (.record [("Array", .list [.record [("Int", .number 1 0)]])]) :=
    .array (.cons (.int 1) .nil)
  have hinner : Value.Written (.tag (.ofIndex 17) [("attributes", .str "ty")])
      (.record [("Tag", .record
        [("ty", .number 17 0), ("seen", .bool true),
          ("attributes", .record [("attributes", .record [("Str", .text "ty")])])])]) :=
    .tag (.record (.cons (.str "ty") .nil) (.refl _) (.refl _))
  have hwritten : labelledTag.Written labelled :=
    .record (.cons harray (.cons hinner .nil)) (.swap ..) (.swap ..)
  obtain ⟨-, hread⟩ := decode_written.2.1 labelledTag hordered
  exact ⟨hordered, hwritten, (hread labelled hwritten).1⟩

end Form

end TagResolution
