import TagResolution.Nesting
import TagResolution.Sighting

/-!
# Merged attributes

The attributes that a sighted tag ends up with are the fallbacks that its type declares, overlaid by
the values written on the tag, overlaid by what aliases take from the tags that are looked through;
of those the tag nearest the scanned type decides. From merged attributes a complete tag is made
by checking them against the attributes that the tag type declares.

How far a search that stands at a nested type goes on is decided by the nearest nested configuration in
the hierarchy of that type, its enclosing types included. Of the first type that shows such a tag the
nearest one counts, also when its value is no valid choice.
-/

namespace TagResolution

/-- Why no tag can be made from attributes. Types are named by their qualified names. -/
inductive SynthesisError where
  | notATagType (h : Handle)
  | unknownAttribute (tag name origin : String)
  | missingAttribute (tag name origin : String)
deriving DecidableEq

namespace SynthesisError

def message : SynthesisError → String
  | .notATagType h => h.render ++ " is not a tag type"
  | .unknownAttribute tag name origin =>
    "`" ++ tag ++ "` declares no attribute `" ++ name ++ "` (synthesizing for `" ++ origin ++ "`)"
  | .missingAttribute tag name origin =>
    "`" ++ tag ++ "` attribute `" ++ name ++ "` has no value and no default (synthesizing for `"
      ++ origin ++ "`)"

end SynthesisError

namespace Declaration

/-- The fallbacks of the attributes; of one name the last counts. -/
def fallbacks (d : Declaration) : Attributes :=
  .ofEntries (d.attributes.filterMap fun a => a.fallback.map (a.name, ·))

/-- The attributes of a tag of type `target` that a composed tag sets, by the aliases that the
declaration of its type holds. -/
def redirected (d : Declaration) (target : Handle) (composed : Tag) : List (String × Value) :=
  (d.aliases.filter (·.target = target)).filterMap fun a =>
    (composed.attribute? a.source).map (a.targetAttribute, ·)

/-- Fills in every declared attribute, or fails with the name of the first that has neither value nor
fallback. -/
def complete (d : Declaration) (written : Attributes) : Except String Attributes :=
  d.attributes.foldlM (fun done a =>
    match written.find? a.name <|> a.fallback with
    | some v => .ok (done.insert a.name v)
    | none => .error a.name) []

end Declaration

namespace Universe

variable (u : Universe)

/-! ## Merging -/

/-- The `Declaration.fallbacks` of a tag type. -/
def fallbacks (tagType : Handle) : Attributes := ((u.get? tagType).map (·.fallbacks)).getD []

/-- The attributes of a tag of type `target` that a composed tag above it sets. -/
def redirected (target : Handle) (composed : Tag) : List (String × Value) :=
  ((u.get? composed.type).map (·.redirected target composed)).getD []

/-- The attributes of a tag, with the `fallbacks` of its type. -/
def withFallbacks (t : Tag) : Attributes := (u.fallbacks t.type).overlay t.attributes

/-- The attributes that a sighted tag ends up with: `withFallbacks`, overlaid by what each tag of `through`
has `redirected`. -/
def merge (s : Sighting) : Attributes :=
  s.through.foldl (fun merged composed => merged.overlay (u.redirected s.tag.type composed))
    (u.withFallbacks s.tag)

/-- The nearer of two sightings by `Sighting.distance`, the first on a tie. -/
def nearer (best : Option Sighting) (s : Sighting) : Option Sighting :=
  match best with
  | none => some s
  | some b => if s.distance < b.distance then some s else some b

/-- The `nearest?` sighting of a tag type from any of some types, earlier types first on a tie. -/
def nearestAmong (tagType : Handle) (best : Option Sighting) : List Handle → Option Sighting
  | [] => best
  | h :: rest =>
    match u.nearest? h tagType with
    | none => nearestAmong tagType best rest
    | some s => if s.distance = 0 then some s else nearestAmong tagType (nearer best s) rest

/-- The merged attributes of a tag type in the hierarchy of `root`, enclosing types left out. -/
def mergedAttributes (root tagType : Handle) : Option Attributes :=
  (u.nearestAmong tagType none (u.hierarchy root false)).map u.merge

/-! ## Synthesis -/

/-- The complete tag that attributes make, where `origin` is the type they were merged for. -/
def synthesize (attributes : Attributes) (tagType origin : Handle) : Except SynthesisError Tag :=
  match (u.get? tagType).filter (·.isTagType) with
  | none => .error (.notATagType tagType)
  | some d =>
    match attributes.names.find? fun name => (d.attribute? name).isNone with
    | some name => .error (.unknownAttribute d.name name (u.displayType origin))
    | none =>
      match d.complete attributes with
      | .ok done => .ok ⟨tagType, done⟩
      | .error name => .error (.missingAttribute d.name name (u.displayType origin))

/-- All sighted tags of a type, by `merge` and `synthesize`, none twice. -/
def localMergedTags (h tagType : Handle) : Except SynthesisError (List Tag) :=
  (((u.scan h).filter (·.tag.type = tagType)).mapM fun s =>
    u.synthesize (u.merge s) tagType h).map List.eraseDups

/-! ## Repeated tags -/

/-- The tags of a type that a sighting contributes: itself, or the elements of a `container?`. -/
def repeatedIn (tagType : Handle) (s : Sighting) : List Tag :=
  if s.tag.type = tagType then [⟨tagType, u.merge s⟩]
  else if some s.tag.type = u.container? tagType then
    (((u.merge s).find? "value").map Value.tags).getD []
      |>.filter (·.type = tagType)
      |>.map fun t => ⟨t.type, u.withFallbacks t⟩
  else []

/-- All tags of a type that can be seen from `h`, alone or in containers, with fallbacks filled in,
none twice. -/
def repeatedTags (h tagType : Handle) : List Tag :=
  ((u.scan h).flatMap (u.repeatedIn tagType)).eraseDups

/-! ## Nested configurations -/

/-- The nested configuration that counts for `h`. -/
def nesting? (h : Handle) : Option Nesting :=
  ((u.hierarchy h true).findSome? fun g => u.nearest? g .nestedConfiguration).bind fun s =>
    (((u.merge s).find? "value").bind Value.constant?).bind Nesting.ofConstant?

/-- The reach of a search at `h`, where `fallback` holds when nothing is configured. -/
def reach (fallback : Nesting) (h : Handle) : Reach := ((u.nesting? h).getD fallback).reach

end Universe

end TagResolution
