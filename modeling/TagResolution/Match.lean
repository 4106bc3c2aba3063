import TagResolution.Search

/-!
# Matches

What a resolver answers: where a match is anchored, where its tag is written, and through which tag
it was reached. A match shows its types and tags by handle or, given a universe, by name.
-/

namespace TagResolution

/-- A match for one tag type, with the attributes that `Universe.mergedAttributes` has for it at the root. -/
structure TagMatch where
  place : Place
  tag : Tag
  merged : Attributes
deriving DecidableEq

/-- A match for the first of several tag types. -/
structure CandidateMatch where
  place : Place
  tag : Tag
  /-- The tag types that were looked for, if they were kept. -/
  candidates : Option (List Handle)
deriving DecidableEq

/-- All tags of a type that were found together; one at least. -/
structure RepeatedMatch where
  place : Place
  tagType : Handle
  tags : List Tag
  tags_ne_nil : tags ≠ []
deriving DecidableEq

/-- A match of any kind. -/
inductive Match where
  | tag (m : TagMatch)
  | candidate (m : CandidateMatch)
  | repeated (m : RepeatedMatch)
deriving DecidableEq

namespace Place

/-- The type of the tag through which a match was reached. -/
def composedType (p : Place) : Option Handle := p.composed.map (·.type)

end Place

/-! ## Written form -/

/-- How the types and tags of a match are shown. -/
structure Labels where
  type : Handle → String
  tag : Tag → String

namespace Labels

/-- All types by handle, as `Handle.render` shows them. -/
def byHandle : Labels := ⟨Handle.render, Tag.render⟩

/-- Types, and the types of tags, by name, as `Universe.displayType` shows them. -/
def byName (u : Universe) : Labels := ⟨u.displayType, u.displayTag⟩

/-- A match of a kind at a place, followed by what was found. -/
def describe (l : Labels) (kind : String) (p : Place) (found : String) : String :=
  kind ++ " \x7b root_declaring_type: " ++ l.type p.root ++ ", declaring_type: "
    ++ l.type p.declaring ++ ", composed_tag: " ++ (p.composed.map l.tag).getD "None" ++ ", "
    ++ found ++ " \x7d"

end Labels

namespace Match

def place : Match → Place
  | .tag m => m.place
  | .candidate m => m.place
  | .repeated m => m.place

def render (l : Labels) : Match → String
  | .tag m => l.describe "TagDescriptor" m.place ("tag: " ++ l.tag m.tag)
  | .candidate m => l.describe "CandidateDescriptor" m.place ("tag: " ++ l.tag m.tag)
  | .repeated m =>
    l.describe "RepeatableDescriptor" m.place
      ("tags: [" ++ ", ".intercalate (m.tags.map l.tag) ++ "]")

end Match

end TagResolution
