import TagResolution.Cache
import TagResolution.Match
import TagResolution.Settings

/-!
# Resolvers

A resolver answers which tags apply to a type. It finds the first match of a tag type, of several
tag types, or of a tag type that may be repeated, and from a match the next one above it. Wrong
arguments are refused before anything is searched.
-/

namespace TagResolution

/-! ## Errors -/

/-- Why a `Resolver` gives no answer. -/
inductive ResolveError where
  | notATagType (h : Handle)
  | reservedTagType (h : Handle)
  | noCandidates
  /-- A match of repeated tags is made of no tags. -/
  | noRepeated
  /-- The next match is asked from a `CandidateMatch` that did not keep what was looked for. -/
  | candidatesNotKept
  | missingAttributes (root tagType : Handle)
  | synthesis (e : SynthesisError)
deriving DecidableEq

/-- The broad reason for a `ResolveError`. -/
inductive ErrorKind where
  | invalidArgument
  | unsupportedOperation
  | illegalState
deriving DecidableEq

namespace ResolveError

def message : ResolveError → String
  | .notATagType h => h.render ++ " is not a tag type"
  | .reservedTagType h => h.render ++ " is a reserved tag type and is never resolved"
  | .noCandidates => "the list of candidate tag types must not be empty"
  | .noRepeated => "a repeatable descriptor needs at least one tag instance"
  | .candidatesNotKept =>
    "`CandidateDescriptor::next` is not supported: the descriptor retains no candidate tag types"
  | .missingAttributes root tagType =>
    "no merged attributes for " ++ tagType.render ++ " in the hierarchy of " ++ root.render
  | .synthesis e => e.message

def kind : ResolveError → ErrorKind
  | .notATagType _ => .invalidArgument
  | .reservedTagType _ => .invalidArgument
  | .noCandidates => .invalidArgument
  | .noRepeated => .invalidArgument
  | .candidatesNotKept => .unsupportedOperation
  | .missingAttributes _ _ => .illegalState
  | .synthesis _ => .illegalState

end ResolveError

namespace Universe

/-- The `localMergedTags` at the first of some types that has any. -/
def firstMergedTags (u : Universe) (tagType : Handle) : List Handle → Except SynthesisError (List Tag)
  | [] => .ok []
  | h :: rest =>
    match u.localMergedTags h tagType with
    | .error e => .error e
    | .ok [] => firstMergedTags u tagType rest
    | .ok tags => .ok tags

/-- The `reach` of types by their nested configurations, remembered in a `Cache`. -/
def cachedReach (u : Universe) (fallback : Nesting) : ReachSource Cache := fun h c =>
  let ((reach, _), c) := c.getOrCompute h fun c => ((u.reach fallback h, ()), c)
  (reach, c)

end Universe

/-! ## Resolvers -/

/-- A universe with what searches over it need besides. -/
structure Resolver (σ : Type) where
  types : Universe
  /-- Gathers the repeated tags of a type. -/
  collect : Handle → Handle → List Tag
  source : ReachSource σ

/-- An answer that may fail and that may change the memory of the source of reaches. -/
abbrev Resolution (σ α : Type) := ExceptT ResolveError (StateM σ) α

namespace Resolver

variable {σ α : Type}

/-- The resolver that remembers the reach of types, by `Universe.cachedReach`. -/
def cached (u : Universe) (nesting : Nesting) : Resolver Cache :=
  ⟨u, u.repeatedTags, u.cachedReach nesting⟩

/-- The resolver whose reach is a function of the type. -/
def ofReach (u : Universe) (reach : Handle → Reach) : Resolver σ :=
  ⟨u, u.repeatedTags, .ofFunction reach⟩

variable (r : Resolver σ)

/-! ### Arguments -/

/-- Only tag types that are not reserved are resolved. -/
def checkTagType (h : Handle) : Except ResolveError Unit :=
  if !r.types.isTagType h then .error (.notATagType h)
  else if r.types.isReserved h then .error (.reservedTagType h)
  else .ok ()

/-- Candidates are one tag type at least, none of them reserved. -/
def checkCandidates : List Handle → Except ResolveError Unit
  | [] => .error .noCandidates
  | candidates => candidates.forM r.checkTagType

/-! ### Reach -/

/-- The reach of a type, as the `source` of the resolver answers it. -/
def reach (h : Handle) : Resolution σ Reach := ExceptT.lift (r.source h)

/-- Whether a search at `h` goes on to its enclosing type. -/
def searchesEnclosing (h : Handle) : Resolution σ Bool := do
  if r.types.isNested h then return (← r.reach h) = .enclosing else return false

/-! ### Searching -/

/-- The first match of a query from a type on, if there is a type, by `Search.find`. -/
def search (q : Query α) : Option Handle → Resolution σ (Option (Hit α))
  | none => return none
  | some h => ExceptT.lift (Search.find r.types r.source q h)

/-- A match for one tag type, with its `mergedAttributes` at the root. -/
def typed (place : Place) (tag : Tag) : Except ResolveError TagMatch :=
  match r.types.mergedAttributes place.root tag.type with
  | some merged => .ok ⟨place, tag, merged⟩
  | none => .error (.missingAttributes place.root tag.type)

def tagFrom (tagType : Handle) (start : Option Handle) : Resolution σ (Option TagMatch) := do
  match ← r.search (.single r.types tagType) start with
  | some hit => return some (← liftExcept (r.typed hit.place hit.found))
  | none => return none

def candidateFrom (candidates : List Handle) (start : Option Handle) :
    Resolution σ (Option CandidateMatch) := do
  return (← r.search (.anyOf r.types candidates) start).map fun hit =>
    ⟨hit.place, hit.found, some candidates⟩

def repeatedFrom (tagType : Handle) (start : Option Handle) :
    Resolution σ (Option RepeatedMatch) := do
  return (← r.search (.repeated r.collect tagType) start).map fun hit =>
    ⟨hit.place, tagType, hit.found.1, hit.found.2⟩

/-- The first tag of a type from `h` on. -/
def findTag (h tagType : Handle) : Resolution σ (Option TagMatch) := do
  liftExcept (r.checkTagType tagType)
  r.tagFrom tagType (some h)

/-- The first tag of any of some types from `h` on. -/
def findCandidate (h : Handle) (candidates : List Handle) : Resolution σ (Option CandidateMatch) := do
  liftExcept (r.checkCandidates candidates)
  r.candidateFrom candidates (some h)

/-- The tags of a type at the first type from `h` on that has any. -/
def findRepeated (h tagType : Handle) : Resolution σ (Option RepeatedMatch) := do
  liftExcept (r.checkTagType tagType)
  r.repeatedFrom tagType (some h)

/-! ### From a match on -/

/-- The complete tag that the merged attributes of a match make, by `Universe.synthesize`. -/
def synthesize (m : TagMatch) : Except ResolveError Tag :=
  (r.types.synthesize m.merged m.tag.type m.place.root).mapError .synthesis

/-- The complete tag of a type that counts for `h`. -/
def findMerged (h tagType : Handle) : Resolution σ (Option Tag) := do
  match ← r.findTag h tagType with
  | some m => return some (← liftExcept (r.synthesize m))
  | none => return none

/-- The `localMergedTags` of the type of a match at the first type, in the `hierarchy` of the root, that has
any. Enclosing types belong to it as the reach of the root says. -/
def allMergedTags (m : TagMatch) : Resolution σ (List Tag) := do
  let reach ← r.reach m.place.root
  let types := r.types.hierarchy m.place.root (reach = .enclosing)
  liftExcept ((r.types.firstMergedTags m.tag.type types).mapError ResolveError.synthesis)

/-- The match of a candidate as a `TagMatch` for its tag type. -/
def typedMatch (m : CandidateMatch) : Except ResolveError TagMatch := do
  r.checkTagType m.tag.type
  r.typed m.place m.tag

/-- What `resolve` finds above a type: from its parent on or else, if its reach allows, from its enclosing
type on. -/
def above (root : Handle) (resolve : Option Handle → Resolution σ (Option α)) :
    Resolution σ (Option α) := do
  match ← resolve (r.types.parent? root) with
  | some found => return some found
  | none => if ← r.searchesEnclosing root then resolve (r.types.enclosing? root) else return none

def nextTag (m : TagMatch) : Resolution σ (Option TagMatch) :=
  r.above m.place.root (r.tagFrom m.tag.type)

def nextCandidate (m : CandidateMatch) : Resolution σ (Option CandidateMatch) := do
  match m.candidates with
  | none => throw .candidatesNotKept
  | some candidates =>
    liftExcept (r.checkCandidates candidates)
    r.above m.place.root (r.candidateFrom candidates)

def nextRepeated (m : RepeatedMatch) : Resolution σ (Option RepeatedMatch) :=
  r.above m.place.root (r.repeatedFrom m.tagType)

/-- The next match of the same kind above the root of a match. -/
def next : Match → Resolution σ (Option Match)
  | .tag m => return (← r.nextTag m).map .tag
  | .candidate m => return (← r.nextCandidate m).map .candidate
  | .repeated m => return (← r.nextRepeated m).map .repeated

/-- The matches above a match, at most `limit`, and the error that ends them, if one does. What
comes after the last match counts too if it is an error. -/
def walk (limit : Nat) (m : Match) (memory : σ) : (List Match × Option ResolveError) × σ :=
  match (r.next m).run memory with
  | (.error e, memory) => (([], some e), memory)
  | (.ok none, memory) => (([], none), memory)
  | (.ok (some above), memory) =>
    match limit with
    | 0 => (([], none), memory)
    | limit + 1 =>
      let ((rest, e), memory) := walk limit above memory
      ((above :: rest, e), memory)

end Resolver

end TagResolution
