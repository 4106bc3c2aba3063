import TagResolution.Dictionary
import TagResolution.Handle
import TagResolution.Text.Quoted

/-!
# Tags and attribute values

A tag is an instance of a tag type with the attribute values that were written with it. Tags are
compared by value: two tags of one type with equal attributes are the same tag, wherever they are
written. A value may hold tags again, alone or in arrays.

A tag is shown as `@` and its type, followed by its attributes in parentheses if it has any. Texts are
quoted; enum constants and attribute names stand as they are. `Tag.renderWith` shows the type of the
outermost tag by a function of its handle, so that it can be shown with another name than its handle.
-/

namespace TagResolution

/-- The value of an attribute. -/
inductive Value where
  | bool (b : Bool)
  | int (i : Int64)
  | str (text : String)
  /-- An enum constant, by its name. -/
  | enum (constant : String)
  | type (type : Handle)
  | tag (type : Handle) (attributes : List (String × Value))
  | array (items : List Value)

/-- Attribute values by attribute name, in the order that `Dictionary.Ordered` describes. -/
abbrev Attributes := Dictionary Value

/-! ## Equality -/

namespace Value

mutual

/-- Whether two values are equal; `same_iff_eq` says that this is equality. -/
def same : Value → Value → Bool
  | .bool a, .bool b => a == b
  | .int a, .int b => a == b
  | .str a, .str b => a == b
  | .enum a, .enum b => a == b
  | .type a, .type b => a == b
  | .tag a as, .tag b bs => a == b && sameEntries as bs
  | .array as, .array bs => sameItems as bs
  | _, _ => false

def sameEntries : List (String × Value) → List (String × Value) → Bool
  | [], [] => true
  | (m, v) :: as, (n, w) :: bs => m == n && same v w && sameEntries as bs
  | _, _ => false

def sameItems : List Value → List Value → Bool
  | [], [] => true
  | v :: as, w :: bs => same v w && sameItems as bs
  | _, _ => false

end

mutual

theorem same_iff_eq : ∀ (v w : Value), same v w = true ↔ v = w
  | .bool a, w => by cases w <;> simp [same]
  | .int a, w => by cases w <;> simp [same]
  | .str a, w => by cases w <;> simp [same]
  | .enum a, w => by cases w <;> simp [same]
  | .type a, w => by cases w <;> simp [same]
  | .tag a as, w => by
    cases w with
    | tag b bs => simp [same, sameEntries_iff_eq as bs]
    | _ => simp [same]
  | .array as, w => by
    cases w with
    | array bs => simp [same, sameItems_iff_eq as bs]
    | _ => simp [same]

theorem sameEntries_iff_eq : ∀ (as bs : List (String × Value)), sameEntries as bs = true ↔ as = bs
  | [], bs => by cases bs <;> simp [sameEntries]
  | (m, v) :: as, bs => by
    cases bs with
    | nil => simp [sameEntries]
    | cons e bs =>
      obtain ⟨n, w⟩ := e
      simp [sameEntries, same_iff_eq v w, sameEntries_iff_eq as bs]

theorem sameItems_iff_eq : ∀ (as bs : List Value), sameItems as bs = true ↔ as = bs
  | [], bs => by cases bs <;> simp [sameItems]
  | v :: as, bs => by
    cases bs with
    | nil => simp [sameItems]
    | cons w bs => simp [sameItems, same_iff_eq v w, sameItems_iff_eq as bs]

end

end Value

instance : DecidableEq Value := fun v w => decidable_of_iff _ (Value.same_iff_eq v w)

/-- An instance of a tag type, with the attribute values written with it. -/
structure Tag where
  type : Handle
  attributes : Attributes
deriving DecidableEq

namespace Value

/-- The constant, if the value is an enum constant. -/
def constant? : Value → Option String
  | .enum constant => some constant
  | _ => none

/-- The type, if the value is a type. -/
def type? : Value → Option Handle
  | .type h => some h
  | _ => none

/-- The tag, if the value is a tag. -/
def tag? : Value → Option Tag
  | .tag h as => some ⟨h, as⟩
  | _ => none

/-- The tags among the elements of an array, or the tag itself. -/
def tags : Value → List Tag
  | .array items => items.filterMap tag?
  | v => v.tag?.toList

end Value

namespace Tag

/-- A tag without attributes. -/
def plain (type : Handle) : Tag := ⟨type, []⟩

/-- The tag with one more attribute, in place of the one of that name it may have. -/
def set (t : Tag) (name : String) (value : Value) : Tag :=
  { t with attributes := t.attributes.insert name value }

/-- The value written for an attribute, as `Dictionary.find?` reads it. -/
def attribute? (t : Tag) (name : String) : Option Value := t.attributes.find? name

/-- The tag as an attribute value. -/
def toValue (t : Tag) : Value := .tag t.type t.attributes

@[simp] theorem tag?_toValue (t : Tag) : t.toValue.tag? = some t := rfl

theorem attribute?_set (t : Tag) (name other : String) (value : Value) :
    (t.set name value).attribute? other = if name = other then some value else t.attribute? other :=
  Dictionary.find?_insert ..

end Tag

/-! ## Written form -/

namespace Value

/-- Written attributes in parentheses, or nothing when there are none. -/
def inParentheses : List String → String
  | [] => ""
  | entries => "(" ++ ", ".intercalate entries ++ ")"

mutual

def render : Value → String
  | .bool b => if b then "true" else "false"
  | .int i => toString i.toInt
  | .str text => Text.quote text
  | .enum constant => constant
  | .type h => h.render
  | .tag h as => "@" ++ h.render ++ inParentheses (renderEntries as)
  | .array items => "[" ++ ", ".intercalate (renderItems items) ++ "]"

def renderEntries : List (String × Value) → List String
  | [] => []
  | (name, v) :: rest => (name ++ " = " ++ render v) :: renderEntries rest

def renderItems : List Value → List String
  | [] => []
  | v :: rest => render v :: renderItems rest

end

end Value

namespace Tag

/-- The tag with its type shown by `typeText`; types inside its attributes show by handle. -/
def renderWith (typeText : Handle → String) (t : Tag) : String :=
  "@" ++ typeText t.type ++ Value.inParentheses (Value.renderEntries t.attributes)

def render (t : Tag) : String := t.renderWith Handle.render

end Tag

end TagResolution
