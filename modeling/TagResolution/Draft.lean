import TagResolution.Universe

/-!
# Drafts

A draft is a universe under construction. Declaring a name answers a handle at once, so that
declarations can refer to each other in any order. The first misuse is remembered and reported when
the draft is built; the links are checked only then.
-/

namespace TagResolution

/-- A `Universe` under construction. -/
structure Draft where
  registry : Registry
  /-- The first misuse so far. -/
  fault? : Option Fault
  sound : registry.Sound
  unreserved : fault? = none → registry.Unreserved

namespace Draft

/-- The draft that holds the built-in types. -/
def empty : Draft where
  registry := .builtin
  fault? := none
  sound := Registry.builtin_sound
  unreserved _ _ _ hd hi := absurd (Registry.index_lt_of_get? hd) (Nat.not_lt.2 hi)

/-- Remembers a misuse, if it is the first. -/
def fail (d : Draft) (f : Fault) : Draft where
  registry := d.registry
  fault? := d.fault? <|> some f
  sound := d.sound
  unreserved h := d.unreserved (by cases hf : d.fault? <;> simp_all)

/-- Notes that a name belongs to `reservedNamespace`. -/
def checkName (d : Draft) (name : String) : Draft :=
  if name.startsWith reservedNamespace then d.fail (.reservedName name) else d

theorem registry_checkName (d : Draft) (name : String) : (d.checkName name).registry = d.registry := by
  unfold checkName; split <;> rfl

theorem startsWith_of_checkName {d : Draft} {name : String} (h : (d.checkName name).fault? = none) :
    d.fault? = none ∧ name.startsWith reservedNamespace = false := by
  unfold checkName at h
  split at h
  · cases hf : d.fault? <;> simp [fail, hf] at h
  · next hn => exact ⟨h, by simpa using hn⟩

/-- Adds a declaration without clauses, `Declaration.plain`, under a name that is new. -/
def add (d : Draft) (kind : Kind) (name : String) (hnew : d.registry.names[name]? = none)
    (hsize : d.registry.slots.size < UInt32.size) : Draft where
  registry := d.registry.declare (.plain name kind)
  fault? := (d.checkName name).fault?
  sound := d.sound.declare hsize hnew
    (fun hk => by
      have hk : kind = .classType := hk
      simp [Declaration.plain, hk])
    (Declaration.flagged_plain name kind)
  unreserved hf h e he hi := by
    obtain ⟨hf, hn⟩ := startsWith_of_checkName hf
    rw [Registry.get?_declare hsize] at he
    split at he
    · cases he; exact hn
    · exact d.unreserved hf h e he hi

/-- Declares a type and answers its handle. A name that is taken, or that belongs to `reservedNamespace`, is
a misuse; of a taken name the handle it has is answered. A full registry takes no more declarations. -/
def declare (d : Draft) (kind : Kind) (name : String) : Handle × Draft :=
  match hnew : d.registry.names[name]? with
  | some h => (h, (d.checkName name).fail (.duplicateName name))
  | none =>
    if hsize : d.registry.slots.size < UInt32.size then
      (d.registry.next, d.add kind name hnew hsize)
    else (.ofIndex (UInt32.size - 1), d.checkName name)

/-- Adds a clause to a declaration, by `Registry.write`. A handle without declaration is a misuse. -/
def write (d : Draft) (h : Handle) (c : Clause) : Draft :=
  if (d.registry.get? h).isSome then
    { registry := d.registry.write h c
      fault? := d.fault?
      sound := d.sound.write h c
      unreserved := fun hf g e he hi => by
        rw [Registry.get?_write] at he
        split at he
        · obtain ⟨e', he', rfl⟩ := Option.map_eq_some_iff.1 he
          rw [Declaration.name_write]
          exact d.unreserved hf g e' he' hi
        · exact d.unreserved hf g e he hi }
  else d.fail (.unknownType h)

/-- Lets tags of `tagType` be written several times, collected by tags of `container`. -/
def collect (d : Draft) (tagType container : Handle) : Draft :=
  (d.write tagType (.tag ((Tag.plain .repeatable).set "value" (.type container)))).write container
    (.declares ⟨"value", some (.array [])⟩)

/-- The universe, if the draft holds no misuse and `Registry.fault?` finds no fault. -/
def build (d : Draft) : Except Fault Universe :=
  match hd : d.fault? with
  | some f => .error f
  | none =>
    match hr : d.registry.fault? with
    | some f => .error f
    | none => .ok ⟨d.registry, d.sound, d.unreserved hd, hr⟩

/-! ## Edits -/

/-- One step of the construction of a universe. -/
inductive Edit where
  | declare (kind : Kind) (name : String)
  | write (h : Handle) (c : Clause)
  | collect (tagType container : Handle)

/-- Performs an edit; a declaration answers its handle. -/
def perform (d : Draft) : Edit → Option Handle × Draft
  | .declare kind name => let (h, d') := d.declare kind name; (some h, d')
  | .write h c => (none, d.write h c)
  | .collect tagType container => (none, d.collect tagType container)

/-- The draft after a list of edits, each by `perform`. -/
def run (d : Draft) (edits : List Edit) : Draft := edits.foldl (fun d e => (d.perform e).2) d

end Draft

end TagResolution
