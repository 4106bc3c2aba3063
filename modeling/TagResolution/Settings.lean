import TagResolution.Nesting

/-!
# Settings

The settings of a resolver and how they are read from named variables. Each variable counts by
itself; one that cannot be read leaves its setting at the default. A capacity is read as a decimal
count: one or more ASCII digits, with or without one plus sign in front, leading zeros allowed.
-/

namespace TagResolution

/-! ## Decimal counts -/

namespace Text

/-- The value of an ASCII digit. -/
def digit? (c : Char) : Option Nat :=
  if c.isDigit then some (c.toNat - '0'.toNat) else none

/-- The number that `cs` continues, where `n` is what the digits before it say. -/
def readDigits (n : Nat) : List Char → Option Nat
  | [] => some n
  | c :: cs => (digit? c).bind fun d => readDigits (10 * n + d) cs

/-- The text without one leading plus sign. -/
def dropPlus : List Char → List Char
  | '+' :: cs => cs
  | cs => cs

/-- The count below `limit` that a text says. -/
def readCount (limit : Nat) (cs : List Char) : Option Nat :=
  match dropPlus cs with
  | [] => none
  | digits => (readDigits 0 digits).filter (· < limit)

example : readCount 256 "+0255".toList = some 255 ∧ readCount 256 "256".toList = none := by decide
example : readCount 256 "+".toList = none ∧ readCount 256 "-0".toList = none := by decide

end Text

/-! ## Settings -/

/-- The settings of a `Resolver`. -/
structure Settings where
  /-- For how many types the reach is remembered. -/
  cacheCapacity : Nat
  /-- What counts for types without nested configuration in their `hierarchy`. -/
  nesting : Nesting
deriving DecidableEq

namespace Settings

/-- The variable that sets `nesting`. -/
def nestingVariable : String := "HALLMARK_ENCLOSING_CONFIGURATION"

/-- The variable that sets `cacheCapacity`. -/
def cacheCapacityVariable : String := "HALLMARK_STRATEGY_CACHE_CAPACITY"

def defaultCacheCapacity : Nat := 32

protected def default : Settings := ⟨defaultCacheCapacity, .default⟩

/-- Sets the capacity, and to one if it is zero. -/
def withCacheCapacity (s : Settings) (capacity : Nat) : Settings :=
  { s with cacheCapacity := max capacity 1 }

def withNesting (s : Settings) (nesting : Nesting) : Settings := { s with nesting }

/-- The number that a text says between blanks, if it has 64 bits, by `Text.readCount`. -/
def readCapacity (text : String) : Option Nat := Text.readCount UInt64.size (Text.trim text.toList)

/-- The defaults, overlaid with `nestingVariable` and `cacheCapacityVariable`, as far as they can be read. -/
def ofLookup (lookup : String → Option String) : Settings :=
  let s :=
    match (lookup nestingVariable).map Nesting.read with
    | some (.ok nesting) => Settings.default.withNesting nesting
    | _ => Settings.default
  match (lookup cacheCapacityVariable).bind readCapacity with
  | some capacity => s.withCacheCapacity capacity
  | none => s

def render (s : Settings) : String :=
  "ResolverConfig \x7b strategy_cache_capacity: " ++ toString s.cacheCapacity
    ++ ", default_enclosing_configuration: " ++ s.nesting.constant ++ " \x7d"

end Settings

end TagResolution
