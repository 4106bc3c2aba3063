import TagResolution.Universe

/-!
# Sightings of tags

A tag can be seen from a type when it is written on the type, or on the declaration of a tag type
whose tag can be seen. A scan lists all sightings from a type, the nearest first, and among equally
near ones in written order. Reserved tags are neither seen nor looked through, and no sighting
looks through one tag type twice.
-/

namespace TagResolution

/-- A tag as seen from a type. -/
structure Sighting where
  tag : Tag
  /-- The tags that are looked through, from the one whose type declares `tag` to the one that is
  written on the type. -/
  through : List Tag
deriving DecidableEq

namespace Sighting

/-- How many tags are looked through. -/
def distance (s : Sighting) : Nat := s.through.length

/-- The types of the tag and of the tags that are looked through. -/
def types (s : Sighting) : List Handle := s.tag.type :: s.through.map (·.type)

/-- Whether a type is the one of the tag or of a tag that is looked through. -/
def involves (s : Sighting) (h : Handle) : Bool :=
  s.tag.type = h || s.through.any fun t => t.type = h

theorem involves_iff {s : Sighting} {h : Handle} : s.involves h ↔ h ∈ s.types := by
  simp [involves, types, eq_comm (a := h)]

end Sighting

namespace Universe

variable (u : Universe)

/-- The `openTags` that are written on a type. -/
def present (h : Handle) : List Sighting := (u.openTags h).map fun t => ⟨t, []⟩

/-- What a sighting shows beyond itself: the `openTags` of its type, unless their type was looked through. -/
def beyond (s : Sighting) : List Sighting :=
  ((u.openTags s.tag.type).filter fun t => !s.involves t.type).map fun t => ⟨t, s.tag :: s.through⟩

/-- All sightings at a distance, then those `beyond` them. The number bounds the distance. -/
def outward : Nat → List Sighting → List Sighting
  | 0, _ => []
  | _ + 1, [] => []
  | bound + 1, near => near ++ outward bound (near.flatMap u.beyond)

/-- All sightings from a type, nearest first: those `present`, and `outward` from them. -/
def scan (h : Handle) : List Sighting := u.outward (u.size + 1) (u.present h)

/-- The nearest sighting of a tag of one type, the first one of `scan`. -/
def nearest? (h tagType : Handle) : Option Sighting :=
  (u.scan h).find? fun s => s.tag.type = tagType

end Universe

end TagResolution
