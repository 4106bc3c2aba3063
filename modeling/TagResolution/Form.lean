import TagResolution.Nesting
import TagResolution.Value

/-!
# Exchange form

Tags, values, handles and nested configurations have a form for exchange with other programs: a
tree of records, lists and scalars. A value is a record with one field, named for its kind; a tag
is a record of its type and its attributes. Encoding is total. Decoding accepts a tag with further
fields, which it skips, and a tag written as the list of its two fields.
-/

namespace TagResolution

/-- A tree of records, lists and scalars. -/
inductive Form where
  | null
  | bool (b : Bool)
  /-- The decimal fraction `mantissa / 10 ^ places`. -/
  | number (mantissa : Int) (places : Nat)
  | text (text : String)
  | list (items : List Form)
  | record (fields : List (String × Form))

/-! ## Encoding -/

namespace Handle

def toForm (h : Handle) : Form := .number h.index 0

end Handle

namespace Nesting

def toForm (n : Nesting) : Form := .text n.constant

end Nesting

namespace Value

/-- The record of a tag with this type and these encoded attributes. -/
def tagForm (type : Handle) (entries : List (String × Form)) : Form :=
  .record [("ty", type.toForm), ("attributes", .record entries)]

mutual

def toForm : Value → Form
  | .bool b => .record [("Bool", .bool b)]
  | .int i => .record [("Int", .number i.toInt 0)]
  | .str text => .record [("Str", .text text)]
  | .enum constant => .record [("Enum", .text constant)]
  | .type h => .record [("Type", h.toForm)]
  | .tag h as => .record [("Tag", tagForm h (entryForms as))]
  | .array items => .record [("Array", .list (itemForms items))]

def entryForms : List (String × Value) → List (String × Form)
  | [] => []
  | (name, v) :: rest => (name, toForm v) :: entryForms rest

def itemForms : List Value → List Form
  | [] => []
  | v :: rest => toForm v :: itemForms rest

end

end Value

namespace Tag

def toForm (t : Tag) : Form := Value.tagForm t.type (Value.entryForms t.attributes)

end Tag

/-! ## Decoding -/

namespace Form

def bool? : Form → Option Bool
  | .bool b => some b
  | _ => none

def text? : Form → Option String
  | .text s => some s
  | _ => none

/-- The whole number, if the form is one that is written without decimal places. -/
def whole? : Form → Option Int
  | .number mantissa 0 => some mantissa
  | _ => none

/-- A whole number of 64 bits with sign. -/
def int64? (f : Form) : Option Int64 :=
  f.whole?.bind fun i =>
    if Int64.minValue.toInt ≤ i ∧ i ≤ Int64.maxValue.toInt then some (Int64.ofInt i) else none

/-- A whole number of 32 bits without sign. -/
def handle? (f : Form) : Option Handle :=
  f.whole?.bind fun i => if 0 ≤ i ∧ i < UInt32.size then some (Handle.ofIndex i.toNat) else none

/-- A constant, alone or as the name of a record's one empty field. -/
def nesting? : Form → Option Nesting
  | .text constant => Nesting.ofConstant? constant
  | .record [(constant, .null)] => Nesting.ofConstant? constant
  | _ => none

mutual

def value? : Form → Option Value
  | .record [(kind, body)] =>
    if kind = "Bool" then body.bool?.map .bool
    else if kind = "Int" then body.int64?.map .int
    else if kind = "Str" then body.text?.map .str
    else if kind = "Enum" then body.text?.map .enum
    else if kind = "Type" then body.handle?.map .type
    else if kind = "Tag" then (tag? body).map Tag.toValue
    else if kind = "Array" then (values? body).map .array
    else none
  | _ => none

def tag? : Form → Option Tag
  | .record fields => tagOfFields? none none fields
  | .list [type, attributes] =>
    match type.handle?, attributes? attributes with
    | some h, some as => some ⟨h, as⟩
    | _, _ => none
  | _ => none

/-- The tag of a record, where `type` and `attributes` are what its earlier fields say. -/
def tagOfFields? (type : Option Handle) (attributes : Option Attributes) :
    List (String × Form) → Option Tag
  | [] =>
    match type, attributes with
    | some h, some as => some ⟨h, as⟩
    | _, _ => none
  | (name, body) :: rest =>
    if name = "ty" then
      match body.handle? with
      | some h => tagOfFields? (some h) attributes rest
      | none => none
    else if name = "attributes" then
      match attributes? body with
      | some as => tagOfFields? type (some as) rest
      | none => none
    else tagOfFields? type attributes rest

def attributes? : Form → Option Attributes
  | .record fields => (entries? fields).map Dictionary.ofEntries
  | _ => none

def entries? : List (String × Form) → Option (List (String × Value))
  | [] => some []
  | (name, body) :: rest =>
    match value? body, entries? rest with
    | some v, some vs => some ((name, v) :: vs)
    | _, _ => none

def values? : Form → Option (List Value)
  | .list items => items? items
  | _ => none

def items? : List Form → Option (List Value)
  | [] => some []
  | item :: rest =>
    match value? item, items? rest with
    | some v, some vs => some (v :: vs)
    | _, _ => none

end

end Form

end TagResolution
