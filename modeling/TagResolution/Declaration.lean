import TagResolution.Value

/-!
# Declarations

A declaration introduces a class, an interface or a tag type under a qualified name. What else it
says about the type it says in clauses: a parent, an interface, an enclosing type, a tag, and for
tag types attributes and aliases. What is asked of declarations most often is kept in bits of their
own; `flagged_plain` and `Flagged.write` say that these bits agree with the rest.
-/

namespace TagResolution

/-- What a declaration introduces. -/
inductive Kind where
  | classType
  | interface
  | tagType
deriving DecidableEq

/-- Properties of a declaration, with a bit for each, which `Declaration.Flagged` ties to its other parts. -/
structure Flags where
  bits : BitVec 8
deriving DecidableEq

namespace Flags

def empty : Flags := ⟨0⟩

def interface : Flags := ⟨1⟩

def tagType : Flags := ⟨2⟩

/-- A tag type of `reservedTagNamespace`. -/
def reserved : Flags := ⟨4⟩

def nested : Flags := ⟨8⟩

/-- The properties of `f` and those of `g`. -/
def union (f g : Flags) : Flags := ⟨f.bits ||| g.bits⟩

/-- Whether `f` has all properties of `g`. -/
def contains (f g : Flags) : Bool := f.bits &&& g.bits = g.bits

theorem contains_union_self (f g : Flags) : (f.union g).contains g = true := by
  have habsorb : (f.bits ||| g.bits) &&& g.bits = g.bits := by
    ext i
    simp only [BitVec.getElem_and, BitVec.getElem_or]
    cases f.bits[i] <;> cases g.bits[i] <;> rfl
  exact decide_eq_true habsorb

theorem union_union_self (f g : Flags) : (f.union g).union g = f.union g := by
  simp only [union, BitVec.or_assoc, BitVec.or_self]

/-- A union with `g` brings nothing of `k` when `g` and `k` have no bit in common. -/
theorem contains_union_of_disjoint {g k : Flags} (hdisjoint : g.bits &&& k.bits = 0#8) (f : Flags) :
    (f.union g).contains k = f.contains k := by
  simp only [contains, union, BitVec.and_or_distrib_right, hdisjoint, BitVec.or_zero]

end Flags

/-- The properties that a declaration has for its `Kind`. -/
def Kind.flags : Kind → Flags
  | .classType => .empty
  | .interface => .interface
  | .tagType => .tagType

/-- An attribute of a tag type, with the value that holds where a tag writes none. -/
structure Attribute where
  name : String
  fallback : Option Value
deriving DecidableEq

/-- Lets an attribute of a tag type set an attribute of the tag types it is tagged with: where a
composed tag that writes `source` leads to a tag of type `target`, that tag gets the value as its
`targetAttribute`. -/
structure Alias where
  source : String
  target : Handle
  targetAttribute : String
deriving DecidableEq

/-- A declared type. -/
structure Declaration where
  /-- The qualified name. -/
  name : String
  kind : Kind
  flags : Flags
  parent : Option Handle
  /-- The interfaces that are implemented, or extended by an interface, in written order. -/
  interfaces : List Handle
  /-- The type that the declaration is nested in. -/
  enclosing : Option Handle
  /-- The tags on the declaration, in written order. -/
  tags : List Tag
  attributes : List Attribute
  aliases : List Alias
deriving DecidableEq

/-- One thing that a declaration says about its type, which `Declaration.write` adds. -/
inductive Clause where
  | parent (parent : Handle)
  | interface (interface : Handle)
  | enclosing (enclosing : Handle)
  | tag (tag : Tag)
  | declares (a : Attribute)
  | aliases (a : Alias)
deriving DecidableEq

/-- Names that start so are kept for built-in types. -/
def reservedNamespace : String := "lang::"

/-- Tag types whose names start so describe tags themselves and are never followed. -/
def reservedTagNamespace : String := "lang::tag::"

namespace Declaration

/-- The properties of a new declaration: those of its kind, and `Flags.reserved` for a tag type of
`reservedTagNamespace`. -/
def firstFlags (name : String) (kind : Kind) : Flags :=
  if kind = .tagType ∧ name.startsWith reservedTagNamespace then kind.flags.union .reserved
  else kind.flags

/-- A declaration without clauses. A class has `Handle.object`, the universal root, for its parent. -/
def plain (name : String) (kind : Kind) : Declaration where
  name := name
  kind := kind
  flags := firstFlags name kind
  parent := if kind = .classType then some .object else none
  interfaces := []
  enclosing := none
  tags := []
  attributes := []
  aliases := []

/-- Adds a clause. A later parent or enclosing type takes the place of an earlier one. An enclosing type
sets `Flags.nested`. -/
def write (d : Declaration) : Clause → Declaration
  | .parent h => { d with parent := some h }
  | .interface h => { d with interfaces := d.interfaces ++ [h] }
  | .enclosing h => { d with enclosing := some h, flags := d.flags.union .nested }
  | .tag t => { d with tags := d.tags ++ [t] }
  | .declares a => { d with attributes := d.attributes ++ [a] }
  | .aliases a => { d with aliases := d.aliases ++ [a] }

def isTagType (d : Declaration) : Bool := d.flags.contains .tagType

def isInterface (d : Declaration) : Bool := d.flags.contains .interface

def isNested (d : Declaration) : Bool := d.flags.contains .nested

/-- Whether the declaration is a tag type of `reservedTagNamespace`. -/
def isReserved (d : Declaration) : Bool := d.flags.contains .reserved

/-- The first attribute of this name. -/
def attribute? (d : Declaration) (name : String) : Option Attribute :=
  d.attributes.find? (·.name = name)

@[simp] theorem name_write (d : Declaration) (c : Clause) : (d.write c).name = d.name := by
  cases c <;> rfl

@[simp] theorem kind_write (d : Declaration) (c : Clause) : (d.write c).kind = d.kind := by
  cases c <;> rfl

theorem isSome_parent_write {d : Declaration} (h : d.parent.isSome) (c : Clause) :
    (d.write c).parent.isSome := by
  cases c <;> first | exact h | rfl

/-! ## Flags -/

/-- The `flags` of a declaration say what its other parts say. -/
structure Flagged (d : Declaration) : Prop where
  interface : d.isInterface = true ↔ d.kind = .interface
  tagType : d.isTagType = true ↔ d.kind = .tagType
  reserved : d.isReserved = true ↔ d.kind = .tagType ∧ d.name.startsWith reservedTagNamespace = true
  nested : d.isNested = true ↔ ∃ h, d.enclosing = some h

theorem flagged_plain (name : String) (kind : Kind) : (plain name kind).Flagged := by
  by_cases hname : name.startsWith reservedTagNamespace
  · cases kind <;> constructor <;>
      simp [isInterface, isTagType, isReserved, isNested, plain, firstFlags, Kind.flags, hname] <;> decide
  · cases kind <;> constructor <;>
      simp [isInterface, isTagType, isReserved, isNested, plain, firstFlags, Kind.flags, hname] <;> decide

/-- A clause that nests a type sets `Flags.nested` and no other bit; other clauses set none. -/
theorem Flagged.write {d : Declaration} (hd : d.Flagged) (c : Clause) : (d.write c).Flagged := by
  cases c with
  | enclosing h =>
      have hkept : ∀ k : Flags, Flags.nested.bits &&& k.bits = 0#8 →
          (d.flags.union .nested).contains k = d.flags.contains k :=
        fun k hk => Flags.contains_union_of_disjoint hk d.flags
      constructor
      · exact (Bool.eq_iff_iff.1 (hkept .interface rfl)).trans hd.interface
      · exact (Bool.eq_iff_iff.1 (hkept .tagType rfl)).trans hd.tagType
      · exact (Bool.eq_iff_iff.1 (hkept .reserved rfl)).trans hd.reserved
      · exact iff_of_true (Flags.contains_union_self d.flags .nested) ⟨h, rfl⟩
  | parent h => exact ⟨hd.interface, hd.tagType, hd.reserved, hd.nested⟩
  | interface h => exact ⟨hd.interface, hd.tagType, hd.reserved, hd.nested⟩
  | tag t => exact ⟨hd.interface, hd.tagType, hd.reserved, hd.nested⟩
  | declares a => exact ⟨hd.interface, hd.tagType, hd.reserved, hd.nested⟩
  | aliases a => exact ⟨hd.interface, hd.tagType, hd.reserved, hd.nested⟩

end Declaration

namespace Builtin

/-- The declaration that `Registry.builtin` starts with. -/
def declaration (b : Builtin) : Declaration :=
  match b with
  | .object => { Declaration.plain b.name .classType with parent := none }
  | .retention =>
    (Declaration.plain b.name .tagType).write (.declares ⟨"value", some (.enum "Runtime")⟩)
  | .documented => Declaration.plain b.name .tagType
  | .inherited => Declaration.plain b.name .tagType
  | .repeatable => (Declaration.plain b.name .tagType).write (.declares ⟨"value", none⟩)
  | .nestedConfiguration =>
    (((Declaration.plain b.name .tagType).write (.declares ⟨"value", none⟩)).write
      (.tag (.plain .documented))).write (.tag (.plain .inherited))

theorem name_declaration (b : Builtin) : b.declaration.name = b.name := by cases b <;> rfl

theorem flagged_declaration (b : Builtin) : b.declaration.Flagged := by
  have hplain := Declaration.flagged_plain b.name
  cases b with simp only [declaration]
  | object =>
      have hobject := hplain .classType
      exact ⟨hobject.interface, hobject.tagType, hobject.reserved, hobject.nested⟩
  | retention => exact (hplain .tagType).write _
  | documented => exact hplain .tagType
  | inherited => exact hplain .tagType
  | repeatable => exact (hplain .tagType).write _
  | nestedConfiguration => exact (((hplain .tagType).write _).write _).write _

end Builtin

end TagResolution
