import TagResolution.Universe.Fault

/-!
# Universes

A universe is a registry of declarations that has been checked and no longer changes. Its queries
answer for every handle: one that is not declared has no tags and leads nowhere.

The hierarchy of a type lists the type and what it is built on, in the order in which tags are
looked for: the type, the hierarchies of its interfaces, that of its parent and, when asked, that of
its enclosing type. Each type stands once, where it is met first; the universal root never.
-/

namespace TagResolution

namespace Registry

/-- No user declaration has a name of `reservedNamespace`. -/
def Unreserved (r : Registry) : Prop :=
  ∀ h d, r.get? h = some d → Handle.firstUser ≤ h.index → d.name.startsWith reservedNamespace = false

end Registry

/-- A registry for which `Registry.fault?` finds no fault. -/
structure Universe where
  registry : Registry
  sound : registry.Sound
  unreserved : registry.Unreserved
  checked : registry.fault? = none

namespace Universe

variable (u : Universe)

/-- The declaration of a handle. -/
def get? (h : Handle) : Option Declaration := u.registry.get? h

/-- The handle of a name. -/
def lookup? (name : String) : Option Handle := u.registry.lookup? name

/-- The number of declared types, the built-in ones included. -/
def size : Nat := u.registry.size

/-- All declarations, in the order of their names. -/
def toList : List (Handle × Declaration) := u.registry.toList

def declares (h : Handle) : Bool := (u.get? h).isSome

/-- The tags on the declaration of `h`, in written order. -/
def tags (h : Handle) : List Tag := ((u.get? h).map (·.tags)).getD []

def parent? (h : Handle) : Option Handle := u.registry.parent? h

/-- The interfaces of `h`, in written order. -/
def interfaces (h : Handle) : List Handle := ((u.get? h).map (·.interfaces)).getD []

def enclosing? (h : Handle) : Option Handle := u.registry.enclosing? h

def isNested (h : Handle) : Bool := (u.enclosing? h).isSome

def isTagType (h : Handle) : Bool := u.registry.isTagType h

/-- Whether `h` is a tag type of the reserved namespace. -/
def isReserved (h : Handle) : Bool := (u.get? h).any (·.isReserved)

def name? (h : Handle) : Option String := (u.get? h).map (·.name)

/-- The first tag of a type on the declaration of `h`. -/
def tag? (h tagType : Handle) : Option Tag := (u.tags h).find? (·.type = tagType)

/-- The tags on the declaration of `h` that a search or a scan may follow. -/
def openTags (h : Handle) : List Tag := (u.tags h).filter fun t => !u.isReserved t.type

/-- The tag type whose tags collect repeated tags of `tagType`. -/
def container? (tagType : Handle) : Option Handle :=
  (u.tag? tagType .repeatable).bind fun t => (t.attribute? "value").bind Value.type?

/-- The text that names a type: its qualified name, or its handle when it is not declared. -/
def displayType (h : Handle) : String := u.registry.displayType h

/-- The text of a tag, with the name of its type by `displayType`. -/
def displayTag (t : Tag) : String := t.renderWith u.displayType

/-! ## Hierarchies -/

/-- What the hierarchy of `h` continues with: interfaces, parent and, when asked, enclosing type. -/
def supertypes (withEnclosing : Bool) (h : Handle) : List Handle :=
  u.interfaces h ++ (u.parent? h).toList
    ++ (if withEnclosing then (u.enclosing? h).toList else [])

/-- Whether a hierarchy may list `h`: it is declared and not the universal root. -/
def listable (h : Handle) : Bool := h ≠ .object && u.declares h

/-- Adds the hierarchy of `h` to what has been met before. The number bounds the steps that lead
away from `h`. -/
def climb (withEnclosing : Bool) : Nat → Roster → Handle → Roster
  | 0, met, _ => met
  | bound + 1, met, h =>
    if !u.listable h || decide (h ∈ met) then met
    else (u.supertypes withEnclosing h).foldl (climb withEnclosing bound) (met.insert h)

/-- The hierarchy of `h`, with or without its enclosing types. -/
def hierarchy (h : Handle) (withEnclosing : Bool) : List Handle :=
  (u.climb withEnclosing (u.size + 1) .empty h).toList

/-! ## Flags -/

variable {u}

theorem flagged_of_get? {h : Handle} {d : Declaration} (hd : u.get? h = some d) : d.Flagged :=
  u.sound.flagged h d hd

theorem isTagType_iff {h : Handle} :
    u.isTagType h = true ↔ ∃ d, u.get? h = some d ∧ d.kind = .tagType :=
  Registry.isTagType_iff u.sound

theorem isReserved_iff_exists {h : Handle} : u.isReserved h = true ↔
    ∃ d, u.get? h = some d ∧ d.kind = .tagType ∧ d.name.startsWith reservedTagNamespace = true := by
  unfold isReserved
  rw [Option.any_eq_true]
  exact exists_congr fun d => and_congr_right fun hd => (flagged_of_get? hd).reserved

end Universe

end TagResolution
