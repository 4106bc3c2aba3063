import Std.Data.TreeSet
import TagResolution.Registry
import TagResolution.Roster

/-!
# Faults of a set of declarations

What can be wrong with declarations, how each fault is reported, and the check of a whole registry:
every link and tag of a declaration has to point to a type of the right kind, and no type may be
reached from itself through parents, interfaces and enclosing types. The check reports the first
fault in the order of names; within a declaration parents come first, then interfaces, the
enclosing type, tags and aliases. Cycles count only once all links are right.

Cycles are found by a depth-first exploration of a relation on handles, `Cycle.explore`. It stops at
the first handle that it meets again on its own path, and remembers the handles that it has explored
to the end, so that each is explored once.
-/

namespace TagResolution

/-! ## Exploration -/

namespace Cycle

/-- Explores what `h` leads to, where `path` holds the handles that led to `h` and `done` those
explored before. Fails with the first handle that leads back to itself, and else remembers all that
it explored, each after everything it leads to. The number bounds the length of a path. -/
def explore (next : Handle → List Handle) :
    Nat → Std.TreeSet Handle → Roster → Handle → Except Handle Roster
  | 0, _, done, _ => .ok done
  | bound + 1, path, done, h =>
    if h ∈ path then .error h
    else if h ∈ done then .ok done
    else ((next h).foldlM (explore next bound (path.insert h)) done).map (·.insert h)

/-- A cycle that an exploration ran into. -/
structure Found where
  /-- Where the exploration began. -/
  start : Handle
  /-- A handle on the cycle. -/
  culprit : Handle
deriving DecidableEq

/-- Explores every start in turn by `explore`, until one leads into a cycle. -/
def first (next : Handle → List Handle) (bound : Nat) : Roster → List Handle → Option Found
  | _, [] => none
  | done, start :: rest =>
    match explore next bound ∅ done start with
    | .error culprit => some ⟨start, culprit⟩
    | .ok done' => first next bound done' rest

/-- The first of the starts that leads into a cycle, together with a handle on that cycle. -/
def find? (next : Handle → List Handle) (bound : Nat) (starts : List Handle) : Option Found :=
  first next bound .empty starts

end Cycle

/-! ## Faults -/

/-- What is wrong with a set of declarations. Types are named by their qualified names. -/
inductive Fault where
  | duplicateName (name : String)
  | reservedName (name : String)
  | unknownType (h : Handle)
  | invalidParent (type parent : String)
  | notAnInterface (type interface : String)
  | notATagType (type tag : String)
  | parentOnNonClass (type : String)
  | parentCycle (type : String)
  | enclosingCycle (type : String)
  | inheritanceCycle (type : String)
deriving DecidableEq

namespace Fault

def message : Fault → String
  | .duplicateName name => "type name `" ++ name ++ "` is declared twice"
  | .reservedName name => "`" ++ name ++ "` is in the reserved `lang::` namespace"
  | .unknownType h => h.render ++ " does not refer to a declared type"
  | .invalidParent type parent =>
    "`" ++ type ++ "` cannot extend `" ++ parent ++ "`: only classes can be extended by classes"
  | .notAnInterface type interface =>
    "`" ++ type ++ "` cannot implement `" ++ interface ++ "`: it is not an interface"
  | .notATagType type tag =>
    "`" ++ type ++ "` carries a tag of `" ++ tag ++ "`, which is not a tag type"
  | .parentOnNonClass type => "`" ++ type ++ "` is not a class and cannot have a parent"
  | .parentCycle type => "parent chain of `" ++ type ++ "` is cyclic"
  | .enclosingCycle type => "enclosing chain of `" ++ type ++ "` is cyclic"
  | .inheritanceCycle type =>
    "`" ++ type ++ "` is its own ancestor through parent, interface or enclosing links"

end Fault

namespace Declaration

/-- The types that one hop leads to: parent, interfaces, enclosing type. -/
def links (d : Declaration) : List Handle :=
  d.parent.toList ++ d.interfaces ++ d.enclosing.toList

end Declaration

namespace Registry

def isTagType (r : Registry) (h : Handle) : Bool := (r.get? h).any (·.isTagType)

/-- What `isTagType` reads in the flags of a declaration is its kind. -/
theorem isTagType_iff {r : Registry} (hr : r.Sound) {h : Handle} :
    r.isTagType h ↔ ∃ d, r.get? h = some d ∧ d.kind = .tagType := by
  unfold isTagType
  rw [Option.any_eq_true]
  exact exists_congr fun d => and_congr_right fun hd => (hr.flagged h d hd).tagType

/-! ## Faults of one declaration -/

/-- What `Fault` a parent makes: it is to be a declared class, and its child a class. -/
def parentFault? (r : Registry) (d : Declaration) (parent : Handle) : Option Fault :=
  match r.get? parent with
  | none => some (.unknownType parent)
  | some p =>
    if d.kind ≠ .classType then some (.parentOnNonClass d.name)
    else if p.kind ≠ .classType then some (.invalidParent d.name p.name)
    else none

/-- What `Fault` an interface makes: it is to be a declared interface. -/
def interfaceFault? (r : Registry) (d : Declaration) (interface : Handle) : Option Fault :=
  match r.get? interface with
  | none => some (.unknownType interface)
  | some i => if i.isInterface then none else some (.notAnInterface d.name i.name)

/-- What `Fault` an enclosing type makes: it is to be declared. -/
def enclosingFault? (r : Registry) (enclosing : Handle) : Option Fault :=
  if (r.get? enclosing).isSome then none else some (.unknownType enclosing)

/-- What `Fault` the type of a tag or the target of an alias makes: it is to be a declared tag type. -/
def tagFault? (r : Registry) (d : Declaration) (tagType : Handle) : Option Fault :=
  if r.isTagType tagType then none else some (.notATagType d.name (r.displayType tagType))

/-- The first fault of a declaration: of its parent, its interfaces, its enclosing type, its tags, its
aliases. -/
def declarationFault? (r : Registry) (d : Declaration) : Option Fault :=
  d.parent.bind (r.parentFault? d)
    <|> d.interfaces.findSome? (r.interfaceFault? d)
    <|> d.enclosing.bind r.enclosingFault?
    <|> d.tags.findSome? (fun t => r.tagFault? d t.type)
    <|> d.aliases.findSome? (fun a => r.tagFault? d a.target)

/-! ## Cycles -/

def parent? (r : Registry) (h : Handle) : Option Handle := (r.get? h).bind (·.parent)

def enclosing? (r : Registry) (h : Handle) : Option Handle := (r.get? h).bind (·.enclosing)

/-- The types that one hop from `h` leads to. -/
def links (r : Registry) (h : Handle) : List Handle := ((r.get? h).map (·.links)).getD []

/-- The first type, in the order of names, that a relation leads into a cycle, by `Cycle.find?`. -/
def cycle? (r : Registry) (next : Handle → List Handle) : Option Cycle.Found :=
  Cycle.find? next (r.size + 1) r.handles

def parentCycle? (r : Registry) : Option Fault :=
  (r.cycle? fun h => (r.parent? h).toList).map fun c => .parentCycle (r.displayType c.start)

def enclosingCycle? (r : Registry) : Option Fault :=
  (r.cycle? fun h => (r.enclosing? h).toList).map fun c => .enclosingCycle (r.displayType c.start)

/-- A cycle of all `links` together. Enclosing types are explored first, parents last. -/
def inheritanceCycle? (r : Registry) : Option Fault :=
  (r.cycle? fun h => (r.links h).reverse).map fun c => .inheritanceCycle (r.displayType c.culprit)

/-- The first fault of a registry: one of a declaration (`declarationFault?`), and only then a cycle. -/
def fault? (r : Registry) : Option Fault :=
  r.toList.findSome? (fun entry => r.declarationFault? entry.2)
    <|> r.parentCycle?
    <|> r.enclosingCycle?
    <|> r.inheritanceCycle?

end Registry

end TagResolution
