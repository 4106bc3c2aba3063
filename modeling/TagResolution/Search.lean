import TagResolution.Merge
import TagResolution.TagSet

/-!
# Searches

A search looks for something at a type and then, hop by hop, at the types that it leads to, in a
fixed order: the tag types of its tags, its interfaces, its parent, and in the end its enclosing
type, if the reach of the type allows. The first match ends the search.

Tags may lead in circles. A search therefore takes the hop of a tag only once, wherever an equal
tag is written. All other hops lead upwards in an acyclic relation, so the number of hops in a row
is bounded by `Universe.searchBound`.
-/

namespace TagResolution

/-! ## Hops -/

/-- A step from a type to another one. -/
inductive Hop where
  /-- To the type of a tag that is written on the type. -/
  | tag (t : Tag)
  | interface (h : Handle)
  | parent (h : Handle)
  | enclosing (h : Handle)
deriving DecidableEq

namespace Hop

/-- Where a hop leads. -/
def target : Hop → Handle
  | .tag t => t.type
  | .interface h => h
  | .parent h => h
  | .enclosing h => h

end Hop

namespace Universe

/-- The hops from a type, in the order in which a search tries them. -/
def hops (u : Universe) (throughInterfaces : Bool) (h : Handle) : List Hop :=
  (u.openTags h).map .tag
    ++ (if throughInterfaces then (u.interfaces h).map .interface else [])
    ++ (u.parent? h).toList.map .parent
    ++ (u.enclosing? h).toList.map .enclosing

/-- The number of `tags` on all declarations. -/
def tagCount (u : Universe) : Nat := (u.toList.flatMap fun entry => entry.2.tags).length

/-- More hops than a search takes in a row: between two tags it meets no type twice. -/
def searchBound (u : Universe) : Nat := (u.tagCount + 1) * (u.size + 1)

end Universe

/-! ## Queries and hits -/

/-- What `Search.find` looks for. -/
structure Query (α : Type) where
  /-- What is found at a type itself. -/
  here? : Handle → Option α
  throughInterfaces : Bool

/-- Where `Search.find` found something. -/
structure Place where
  /-- The type at which a match is anchored. -/
  root : Handle
  /-- The type that declares the match. -/
  declaring : Handle
  /-- The tag on the root through which the match was reached, if it was reached so. -/
  composed : Option Tag
deriving DecidableEq

/-- A match of a search. -/
structure Hit (α : Type) where
  place : Place
  found : α
deriving DecidableEq

namespace Place

/-- A match at the type itself. -/
def here (h : Handle) : Place := ⟨h, h, none⟩

/-- The place of a match that was reached from `h` by a hop: tags and interfaces of a type belong
to it, parents and enclosing types stand for themselves. -/
def after (p : Place) (h : Handle) : Hop → Place
  | .tag t => { p with root := h, composed := some t }
  | .interface _ => { p with root := h }
  | .parent _ => p
  | .enclosing _ => p

end Place

/-! ## The search -/

/-- Answers the `Reach` of types, with a memory of its own. -/
abbrev ReachSource (σ : Type) := Handle → σ → Reach × σ

/-- A source that only depends on the type. -/
def ReachSource.ofFunction {σ : Type} (reach : Handle → Reach) : ReachSource σ :=
  fun h memory => (reach h, memory)

namespace Search

variable {σ α : Type}

/-- How far `Search.find` has come. -/
structure Progress (σ : Type) where
  /-- The tags whose hops were taken. -/
  visited : TagSet
  /-- The memory of the source of reaches. -/
  memory : σ

/-- The answer of `f` to each element in turn, until one is a match. -/
def firstHit {β γ π : Type} (f : β → π → Option γ × π) : List β → π → Option γ × π
  | [], p => (none, p)
  | x :: rest, p =>
    match f x p with
    | (some y, p) => (some y, p)
    | (none, p) => firstHit f rest p

/-- Whether a hop from `h` is taken. -/
def enter (source : ReachSource σ) (h : Handle) (hop : Hop) (p : Progress σ) : Bool × Progress σ :=
  match hop with
  | .tag t => if t ∈ p.visited then (false, p) else (true, { p with visited := p.visited.insert t })
  | .interface _ => (true, p)
  | .parent _ => (true, p)
  | .enclosing _ =>
    let (reach, memory) := source h p.memory
    (reach = .enclosing, { p with memory })

/-- What a hop from `h` leads to, where `go` searches at a type. -/
def follow (source : ReachSource σ) (go : Handle → Progress σ → Option (Hit α) × Progress σ)
    (h : Handle) (hop : Hop) (p : Progress σ) : Option (Hit α) × Progress σ :=
  match enter source h hop p with
  | (false, p) => (none, p)
  | (true, p) =>
    let (hit, p) := go hop.target p
    (hit.map fun hit => { hit with place := hit.place.after h hop }, p)

/-- The search at a type, where `go` searches at the types that it leads to. -/
def visit (u : Universe) (source : ReachSource σ) (q : Query α)
    (go : Handle → Progress σ → Option (Hit α) × Progress σ) (h : Handle) (p : Progress σ) :
    Option (Hit α) × Progress σ :=
  if h = .object then (none, p)
  else
    match q.here? h with
    | some found => (some ⟨.here h, found⟩, p)
    | none => firstHit (follow source go h) (u.hops q.throughInterfaces h) p

/-- The search at a type, at most `bound` hops deep. -/
def visitWithin (u : Universe) (source : ReachSource σ) (q : Query α) :
    Nat → Handle → Progress σ → Option (Hit α) × Progress σ
  | 0, _, p => (none, p)
  | bound + 1, h, p => visit u source q (visitWithin u source q bound) h p

/-- The first match from `h` on, with `Universe.searchBound` for the depth. -/
def find (u : Universe) (source : ReachSource σ) (q : Query α) (h : Handle) (memory : σ) :
    Option (Hit α) × σ :=
  let (hit, p) := visitWithin u source q u.searchBound h ⟨.empty, memory⟩
  (hit, p.memory)

end Search

/-! ## What is looked for -/

namespace Query

/-- The first tag of one type, as `Universe.tag?` finds it. -/
def single (u : Universe) (tagType : Handle) : Query Tag where
  here? h := u.tag? h tagType
  throughInterfaces := true

/-- The first tag of the first candidate that `Universe.tag?` finds on a declaration. -/
def anyOf (u : Universe) (candidates : List Handle) : Query Tag where
  here? h := candidates.findSome? (u.tag? h)
  throughInterfaces := true

/-- All tags of one type, as `collect` gathers them at a type; one at least. -/
def repeated (collect : Handle → Handle → List Tag) (tagType : Handle) :
    Query { tags : List Tag // tags ≠ [] } where
  here? h := if hne : collect h tagType ≠ [] then some ⟨collect h tagType, hne⟩ else none
  throughInterfaces := false

end Query

end TagResolution
