import TagResolution.Text.Blank
import TagResolution.Text.Quoted

/-!
# Nested configurations

A nested type either takes over the tags of its enclosing type or has only those of its own
hierarchy. Tag attributes name the choice exactly; settings are read more freely, without regard
to ASCII case and surrounding blanks.
-/

namespace TagResolution

/-- Whether a nested type takes tags from its enclosing type. -/
inductive Nesting where
  /-- Enclosing types are searched after the type hierarchy. -/
  | inherit
  /-- Only the type hierarchy is searched. -/
  | override
deriving DecidableEq

/-- How far a search goes beyond a type. -/
inductive Reach where
  /-- To interfaces and parents only. -/
  | hierarchy
  /-- In the end also to the enclosing type. -/
  | enclosing
deriving DecidableEq

/-- A text that `Nesting.read` does not know. -/
structure UnknownNesting where
  text : String
deriving DecidableEq

namespace UnknownNesting

def message (e : UnknownNesting) : String :=
  "invalid enclosing configuration " ++ Text.quote e.text ++ ", expected `inherit` or `override`"

end UnknownNesting

namespace Nesting

/-- The choice where nothing is configured. -/
protected def default : Nesting := .override

/-- The enum constant that stands for the choice in a tag attribute. -/
def constant : Nesting → String
  | .inherit => "Inherit"
  | .override => "Override"

/-- The choice that has an enum constant for its `constant`. -/
def ofConstant? (constant : String) : Option Nesting :=
  if constant = "Inherit" then some .inherit
  else if constant = "Override" then some .override
  else none

/-- The `Reach` that a choice gives to a search. -/
def reach : Nesting → Reach
  | .inherit => .enclosing
  | .override => .hierarchy

/-- Reads a choice from a setting. -/
def read (text : String) : Except UnknownNesting Nesting :=
  let word := (Text.trim text.toList).map Char.toLower
  if word = "inherit".toList then .ok .inherit
  else if word = "override".toList then .ok .override
  else .error ⟨text⟩

theorem ofConstant?_constant (n : Nesting) : ofConstant? n.constant = some n := by
  cases n <;> rfl

end Nesting

end TagResolution
