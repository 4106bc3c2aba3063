import TagResolution.Draft
import TagResolution.Proofs.Validity

/-!
# What a construction answers

The misuses of a list of edits are listed here by what each edit meets in the registry, apart from
the draft's own memory of the first one. The main statement is `build_run`: the draft after any
edits is accepted exactly if no edit was a misuse, all links are right and no chain of links is
cyclic; otherwise the first misuse, or the first kind of cycle, is reported.
-/

namespace TagResolution

open Relation

namespace Draft

/-! ## Misuses -/

/-- The misuse of a handle that is not declared. -/
def unknown (d : Draft) (h : Handle) : List Fault :=
  if (d.registry.get? h).isSome then [] else [.unknownType h]

/-- The misuses of one `Edit`, in the order in which they are noted. -/
def misuses (d : Draft) : Edit → List Fault
  | .declare _ name =>
    (if name.startsWith reservedNamespace then [.reservedName name] else [])
      ++ (if (d.registry.lookup? name).isSome then [.duplicateName name] else [])
  | .write h _ => d.unknown h
  | .collect tagType container => d.unknown tagType ++ d.unknown container

/-- The `misuses` of all edits, each judged by the registry that the edits before it leave. -/
def allMisuses (d : Draft) : List Edit → List Fault
  | [] => []
  | e :: rest => d.misuses e ++ (d.perform e).2.allMisuses rest

theorem fault?_fail (d : Draft) (f : Fault) : (d.fail f).fault? = (d.fault? <|> some f) := rfl

theorem fault?_checkName (d : Draft) (name : String) : (d.checkName name).fault?
    = (d.fault? <|> (if name.startsWith reservedNamespace then some (.reservedName name) else none)) := by
  unfold checkName
  split
  · rfl
  · simp

theorem fault?_add (d : Draft) (kind : Kind) (name : String)
    (hnew : d.registry.names[name]? = none) (hsize : d.registry.slots.size < UInt32.size) :
    (d.add kind name hnew hsize).fault? = (d.checkName name).fault? := rfl

theorem fault?_declare (d : Draft) (kind : Kind) (name : String) :
    (d.declare kind name).2.fault? = (d.fault? <|> (d.misuses (.declare kind name)).head?) := by
  unfold declare
  split
  · next h hname =>
    have hnoted : d.misuses (.declare kind name)
        = (if name.startsWith reservedNamespace then [.reservedName name] else [])
          ++ [.duplicateName name] := by
      simp [misuses, Registry.lookup?, hname]
    rw [fault?_fail, fault?_checkName, hnoted]
    cases d.fault? <;> split <;> simp
  · next hname =>
    have hnoted : d.misuses (.declare kind name)
        = if name.startsWith reservedNamespace then [.reservedName name] else [] := by
      simp [misuses, Registry.lookup?, hname]
    rw [hnoted]
    -- A full table changes what is declared, not what is noted.
    split
    · rw [fault?_add, fault?_checkName]
      split <;> simp
    · rw [fault?_checkName]
      split <;> simp

theorem fault?_write (d : Draft) (h : Handle) (c : Clause) :
    (d.write h c).fault? = (d.fault? <|> (d.unknown h).head?) := by
  unfold write unknown
  split
  · simp
  · simp [fault?_fail]

theorem isSome_get?_write (d : Draft) (h other : Handle) (c : Clause) :
    ((d.write h c).registry.get? other).isSome = (d.registry.get? other).isSome := by
  unfold write
  split
  · show ((d.registry.write h c).get? other).isSome = _
    rw [Registry.get?_write]
    split <;> simp
  · rfl

theorem fault?_perform (d : Draft) (e : Edit) :
    (d.perform e).2.fault? = (d.fault? <|> (d.misuses e).head?) := by
  cases e with
  | declare kind name => exact d.fault?_declare kind name
  | write h c => exact d.fault?_write h c
  | collect tagType container =>
      have hkept : ∀ c, (d.write tagType c).unknown container = d.unknown container := fun c => by
        rw [unknown, isSome_get?_write, unknown]
      show (Draft.write _ _ _).fault? = (d.fault? <|> (d.unknown tagType ++ d.unknown container).head?)
      rw [fault?_write, fault?_write, hkept, List.head?_append]
      cases d.fault? <;> simp

/-- A draft remembers the first of `allMisuses`. -/
theorem fault?_run (d : Draft) (edits : List Edit) :
    (d.run edits).fault? = (d.fault? <|> (d.allMisuses edits).head?) := by
  induction edits generalizing d with
  | nil => simp [run, allMisuses]
  | cons e rest ih =>
      show ((d.perform e).2.run rest).fault? = _
      rw [ih, fault?_perform, allMisuses, List.head?_append]
      cases d.fault? <;> simp

theorem fault?_run_empty (edits : List Edit) :
    (empty.run edits).fault? = (empty.allMisuses edits).head? := by
  rw [fault?_run]
  rfl

/-! ## Building -/

theorem build_of_misuse {d : Draft} {f : Fault} (hf : d.fault? = some f) : d.build = .error f := by
  unfold build
  split
  · next g hg => rw [Option.some.inj (hg.symm.trans hf)]
  · next hg => cases hg.symm.trans hf

theorem build_of_fault {d : Draft} {f : Fault} (hd : d.fault? = none)
    (hf : d.registry.fault? = some f) : d.build = .error f := by
  unfold build
  split
  · next g hg => cases hg.symm.trans hd
  · split
    · next g hg => rw [Option.some.inj (hg.symm.trans hf)]
    · next hg => cases hg.symm.trans hf

theorem build_of_valid {d : Draft} (hd : d.fault? = none) (hr : d.registry.fault? = none) :
    d.build = .ok ⟨d.registry, d.sound, d.unreserved hd, hr⟩ := by
  unfold build
  split
  · next g hg => cases hg.symm.trans hd
  · split
    · next g hg => cases hg.symm.trans hr
    · rfl

/-- A draft is accepted by `build` without misuse and without fault, and with the declarations it holds. -/
theorem build_eq_ok_iff (d : Draft) (u : Universe) : d.build = .ok u ↔
    d.fault? = none ∧ d.registry.fault? = none ∧ u.registry = d.registry := by
  constructor
  · intro hu
    cases hd : d.fault? with
    | some f => cases (build_of_misuse hd).symm.trans hu
    | none =>
        cases hr : d.registry.fault? with
        | some f => cases (build_of_fault hd hr).symm.trans hu
        | none =>
            cases (build_of_valid hd hr).symm.trans hu
            exact ⟨rfl, rfl, rfl⟩
  · rintro ⟨hd, hr, hu⟩
    rw [build_of_valid hd hr]
    cases u
    cases hu
    rfl

/-- The universe that edits make, of which none is a misuse and which are without fault together. -/
def ofEdits (edits : List Edit) (hd : (empty.run edits).fault? = none)
    (hr : (empty.run edits).registry.fault? = none) : Universe :=
  ⟨(empty.run edits).registry, (empty.run edits).sound, (empty.run edits).unreserved hd, hr⟩

/-- The draft after any edits is accepted by `build` exactly if no edit was a misuse (`allMisuses` is
empty), every link and tag points to a declared type of the right kind (`WellLinked`), and no chain of links
is cyclic (`Acyclic`). Else the first misuse is reported; and where only cycles are wrong, one of parents
before one of enclosing types before one that mixes links. What the edits leave in the registry of `run`,
which all of this speaks of, is said by `get?_run_iff`. -/
theorem build_run (edits : List Edit) :
    ((∃ u, (empty.run edits).build = .ok u) ↔
      empty.allMisuses edits = [] ∧ (empty.run edits).registry.WellLinked ∧
        (empty.run edits).registry.Acyclic) ∧
    (∀ u, (empty.run edits).build = .ok u → u.registry = (empty.run edits).registry) ∧
    (∀ f rest, empty.allMisuses edits = f :: rest → (empty.run edits).build = .error f) ∧
    (empty.allMisuses edits = [] → ¬ (empty.run edits).registry.WellLinked →
      ∃ f, (empty.run edits).build = .error f) ∧
    (empty.allMisuses edits = [] → (empty.run edits).registry.WellLinked →
      ¬ (empty.run edits).registry.Acyclic →
      let parentCycle := ∃ h, TransGen (empty.run edits).registry.HasParent h h
      let enclosingCycle := ∃ h, TransGen (empty.run edits).registry.HasEnclosing h h
      (parentCycle → ∃ name, (empty.run edits).build = .error (.parentCycle name)) ∧
      (¬ parentCycle → enclosingCycle →
        ∃ name, (empty.run edits).build = .error (.enclosingCycle name)) ∧
      (¬ parentCycle → ¬ enclosingCycle →
        ∃ name, (empty.run edits).build = .error (.inheritanceCycle name))) := by
  have hnoted := fault?_run_empty edits
  have hsound := (empty.run edits).sound
  have haccepted : (∃ u, (empty.run edits).build = .ok u) ↔
      empty.allMisuses edits = [] ∧ (empty.run edits).registry.WellLinked ∧
        (empty.run edits).registry.Acyclic := by
    rw [← Registry.fault?_eq_none_iff hsound, ← List.head?_eq_none_iff, ← hnoted]
    constructor
    · rintro ⟨u, hu⟩
      obtain ⟨hd, hr, -⟩ := (build_eq_ok_iff _ u).1 hu
      exact ⟨hd, hr⟩
    · rintro ⟨hd, hr⟩
      exact ⟨_, build_of_valid hd hr⟩
  refine ⟨haccepted, fun u hu => ((build_eq_ok_iff _ u).1 hu).2.2, ?_, ?_, ?_⟩
  · intro f rest hmisuses
    exact build_of_misuse (by rw [hnoted, hmisuses]; rfl)
  · intro _ hunlinked
    cases hb : (empty.run edits).build with
    | ok u => exact absurd (haccepted.1 ⟨u, hb⟩).2.1 hunlinked
    | error f => exact ⟨f, rfl⟩
  · intro hmisuses hlinked hcyclic
    have hnone : (empty.run edits).fault? = none := by rw [hnoted, hmisuses]; rfl
    refine ⟨fun hparent => ?_, fun hparent henclosing => ?_, fun hparent henclosing => ?_⟩
    · obtain ⟨name, hf⟩ := Registry.fault?_of_parent_cycle hsound hlinked hparent
      exact ⟨name, build_of_fault hnone hf⟩
    · obtain ⟨name, hf⟩ := Registry.fault?_of_enclosing_cycle hsound hlinked
        (not_exists.1 hparent) henclosing
      exact ⟨name, build_of_fault hnone hf⟩
    · obtain ⟨name, hf⟩ := Registry.fault?_of_mixed_cycle hsound hlinked
        (not_exists.1 hparent) (not_exists.1 henclosing) hcyclic
      exact ⟨name, build_of_fault hnone hf⟩

end Draft

end TagResolution
