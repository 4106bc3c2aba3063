import Std.Data.TreeMap

/-!
# Handles of declared types

A handle is a 32-bit number that stands for a declared type. Six types are built into every
universe and keep fixed handles, so that a search and the universe it runs over agree on them
without a look-up.
-/

namespace TagResolution

/-- A 32-bit number that stands for a declared type. -/
structure Handle where
  raw : UInt32
deriving DecidableEq

namespace Handle

/-- The position of a handle in a table of declarations. -/
def index (h : Handle) : Nat := h.raw.toNat

/-- The handle of a table position; `index_ofIndex` says that positions below `UInt32.size` come back. -/
def ofIndex (i : Nat) : Handle := ⟨UInt32.ofNat i⟩

theorem ext_index {a b : Handle} (h : a.index = b.index) : a = b := by
  cases a; cases b; simpa [index, UInt32.toNat_inj] using h

theorem index_ofIndex {i : Nat} (h : i < UInt32.size) : (ofIndex i).index = i :=
  UInt32.toNat_ofNat_of_lt' h

theorem index_lt (h : Handle) : h.index < UInt32.size := h.raw.toFin.isLt

/-! ## Order -/

instance : Ord Handle := ⟨fun a b => compare a.raw b.raw⟩

instance : Std.TransOrd Handle where
  eq_swap := Std.OrientedOrd.eq_swap (α := UInt32)
  isLE_trans := Std.TransOrd.isLE_trans (α := UInt32)

instance : Std.LawfulEqOrd Handle where
  compare_self := Std.ReflOrd.compare_self (α := UInt32)
  eq_of_compare {a b} h := by
    cases a; cases b
    exact congrArg Handle.mk (Std.LawfulEqOrd.eq_of_compare (α := UInt32) h)

/-! ## Built-in types -/

/-- The top of every class hierarchy. No search looks at it. -/
def object : Handle := ⟨0⟩

/-- How long a tag is kept. -/
def retention : Handle := ⟨1⟩

/-- Marks tags that belong to the documentation. -/
def documented : Handle := ⟨2⟩

/-- Marks tags that subclasses take over. -/
def inherited : Handle := ⟨3⟩

/-- Names the container of a tag type that may be written several times. -/
def repeatable : Handle := ⟨4⟩

/-- Says whether a nested type takes tags from its enclosing type. -/
def nestedConfiguration : Handle := ⟨5⟩

/-- How many types are built in. -/
def builtinCount : Nat := 6

/-- The index of the first handle given to a user declaration; those from `builtinCount` on are kept free. -/
def firstUser : Nat := 16

end Handle

/-- The types that every universe holds. -/
inductive Builtin where
  | object
  | retention
  | documented
  | inherited
  | repeatable
  | nestedConfiguration
deriving DecidableEq

namespace Builtin

/-- All built-in types, by handle. -/
def all : List Builtin :=
  [.object, .retention, .documented, .inherited, .repeatable, .nestedConfiguration]

def handle : Builtin → Handle
  | .object => .object
  | .retention => .retention
  | .documented => .documented
  | .inherited => .inherited
  | .repeatable => .repeatable
  | .nestedConfiguration => .nestedConfiguration

/-- The qualified name. -/
def name : Builtin → String
  | .object => "lang::Object"
  | .retention => "lang::tag::Retention"
  | .documented => "lang::tag::Documented"
  | .inherited => "lang::tag::Inherited"
  | .repeatable => "lang::tag::Repeatable"
  | .nestedConfiguration => "hallmark::NestedConfiguration"

/-- The name of the constant that holds the handle. -/
def constant : Builtin → String
  | .object => "OBJECT"
  | .retention => "RETENTION"
  | .documented => "DOCUMENTED"
  | .inherited => "INHERITED"
  | .repeatable => "REPEATABLE"
  | .nestedConfiguration => "NESTED_CONFIGURATION"

theorem mem_all (b : Builtin) : b ∈ all := by cases b <;> decide

end Builtin

namespace Handle

/-- The built-in type with this handle. -/
def builtin? (h : Handle) : Option Builtin := Builtin.all.find? (·.handle = h)

def isBuiltin (h : Handle) : Bool := h.index < builtinCount

/-- A built-in type shows as its `Builtin.name`, any other as its number. -/
def render (h : Handle) : String :=
  match h.builtin? with
  | some b => b.name
  | none => "type#" ++ toString h.index

/-- The form for diagnostics: the `Builtin.constant` of a built-in type, else the number. -/
def renderConstant (h : Handle) : String :=
  match h.builtin? with
  | some b => "TypeId::" ++ b.constant
  | none => "TypeId(" ++ toString h.index ++ ")"

theorem builtin?_handle (b : Builtin) : b.handle.builtin? = some b := by cases b <;> decide

end Handle

end TagResolution
