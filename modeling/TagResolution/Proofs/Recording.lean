import TagResolution.Proofs.Registration

/-!
# What edits record

A declaration begins as `Declaration.plain` where its name is declared. Every clause that an edit writes on it
later is added by `Declaration.write`, in the order of the edits, and `Declaration.writeAll_eq` says what comes
of them: of parents and of enclosing types the last one counts, while interfaces, tags, attributes and aliases
are all kept. A clause that is written before its declaration is lost, but then `Draft.build` fails.

The main statements are `Draft.get?_run_iff`, on the registry of a draft after any edits, and
`Draft.get?_build_iff`, on a universe that is built.
-/

namespace TagResolution

/-! ## Clauses -/

namespace Clause

/-- The parent that a clause gives. -/
def parent? : Clause → Option Handle
  | .parent p => some p
  | _ => none

def interface? : Clause → Option Handle
  | .interface i => some i
  | _ => none

def enclosing? : Clause → Option Handle
  | .enclosing e => some e
  | _ => none

def tag? : Clause → Option Tag
  | .tag t => some t
  | _ => none

def attribute? : Clause → Option Attribute
  | .declares a => some a
  | _ => none

def alias? : Clause → Option Alias
  | .aliases a => some a
  | _ => none

end Clause

namespace Declaration

/-- The declaration with clauses added in their order, each by `write`. -/
def writeAll (d : Declaration) (clauses : List Clause) : Declaration := clauses.foldl write d

theorem writeAll_append (d : Declaration) (clauses later : List Clause) :
    d.writeAll (clauses ++ later) = (d.writeAll clauses).writeAll later :=
  List.foldl_append ..

/-- What clauses say together, when `write` adds them in order. Of parents and of enclosing types the last
one counts; whatever else is written stands behind what the declaration had. -/
theorem writeAll_eq (d : Declaration) (clauses : List Clause) : d.writeAll clauses =
    { name := d.name
      kind := d.kind
      flags := if clauses.filterMap Clause.enclosing? = [] then d.flags else d.flags.union .nested
      parent := (clauses.filterMap Clause.parent?).getLast? <|> d.parent
      interfaces := d.interfaces ++ clauses.filterMap Clause.interface?
      enclosing := (clauses.filterMap Clause.enclosing?).getLast? <|> d.enclosing
      tags := d.tags ++ clauses.filterMap Clause.tag?
      attributes := d.attributes ++ clauses.filterMap Clause.attribute?
      aliases := d.aliases ++ clauses.filterMap Clause.alias? } := by
  have hlast : ∀ (h : Handle) (l : List Handle) (before : Option Handle),
      ((h :: l).getLast? <|> before) = (l.getLast? <|> some h) := by
    intro h l before
    cases hl : l.getLast? <;> simp [List.getLast?_cons, hl]
  induction clauses generalizing d with
  | nil => simp [writeAll]
  | cons c rest ih =>
      show (d.write c).writeAll rest = _
      rw [ih]
      cases c <;> simp [write, List.filterMap_cons, Clause.parent?, Clause.interface?, Clause.enclosing?,
        Clause.tag?, Clause.attribute?, Clause.alias?, hlast, Flags.union_union_self]

theorem writeAll_tags (d : Declaration) (written : List Tag) :
    d.writeAll (written.map .tag) = { d with tags := d.tags ++ written } := by
  rw [writeAll_eq]
  simp [List.filterMap_map, Function.comp_def, Clause.parent?, Clause.interface?, Clause.enclosing?,
    Clause.tag?, Clause.attribute?, Clause.alias?]

@[simp] theorem kind_writeAll (d : Declaration) (clauses : List Clause) :
    (d.writeAll clauses).kind = d.kind := by
  rw [writeAll_eq]

end Declaration

namespace Draft

/-! ## One edit -/

/-- The clauses that an edit writes on `h`. -/
def Edit.clauses (h : Handle) : Edit → List Clause
  | .declare _ _ => []
  | .write g c => if g = h then [c] else []
  | .collect tagType container =>
    (if tagType = h then [.tag ((Tag.plain .repeatable).set "value" (.type container))] else [])
      ++ (if container = h then [.declares ⟨"value", some (.array [])⟩] else [])

/-- The declaration by which an edit introduces `h`: a new name takes the next handle, while there is one. -/
def introduced? (d : Draft) (h : Handle) : Edit → Option Declaration
  | .declare kind name =>
    if d.registry.lookup? name = none ∧ d.registry.slots.size < UInt32.size ∧ d.registry.next = h then
      some (.plain name kind)
    else none
  | .write _ _ => none
  | .collect _ _ => none

variable (d : Draft) (h : Handle)

theorem get?_write_clauses (g : Handle) (c : Clause) : (d.write g c).registry.get? h
    = (d.registry.get? h).map (·.writeAll (if g = h then [c] else [])) := by
  rw [get?_registry_write]
  split
  · rfl
  · exact Option.map_id'.symm

theorem introduced?_eq_some_iff {e : Edit} {first : Declaration} : d.introduced? h e = some first ↔
    ∃ kind name, e = .declare kind name ∧ d.registry.lookup? name = none ∧
      d.registry.slots.size < UInt32.size ∧ d.registry.next = h ∧ first = .plain name kind := by
  cases e with
  | declare kind name =>
      simp only [introduced?, Option.ite_none_right_eq_some, Option.some.injEq, Edit.declare.injEq]
      constructor
      · rintro ⟨⟨hnew, hsize, hnext⟩, hfirst⟩
        exact ⟨kind, name, ⟨rfl, rfl⟩, hnew, hsize, hnext, hfirst.symm⟩
      · rintro ⟨_, _, ⟨rfl, rfl⟩, hnew, hsize, hnext, rfl⟩
        exact ⟨⟨hnew, hsize, hnext⟩, rfl⟩
  | write g c => simp [introduced?]
  | collect tagType container => simp [introduced?]

/-- What `introduced?` answers was not declared before. -/
theorem get?_of_introduced? {e : Edit} {first : Declaration} (hfirst : d.introduced? h e = some first) :
    d.registry.get? h = none := by
  obtain ⟨_, _, -, -, hsize, rfl, -⟩ := (d.introduced?_eq_some_iff h).1 hfirst
  exact Registry.get?_next hsize

/-- An edit introduces a declaration (`introduced?`), or it writes its `clauses` on one. -/
theorem get?_perform (e : Edit) : (d.perform e).2.registry.get? h
    = (d.introduced? h e <|> (d.registry.get? h).map (·.writeAll (e.clauses h))) := by
  cases e with
  | declare kind name =>
      show (d.declare kind name).2.registry.get? h
        = (d.introduced? h (.declare kind name) <|> (d.registry.get? h).map (·.writeAll []))
      have hkept : (d.registry.get? h).map (·.writeAll []) = d.registry.get? h := Option.map_id'
      rw [hkept, introduced?]
      cases hname : d.registry.lookup? name with
      | some g =>
          rw [(registry_declare_of_taken hname kind).2.1]
          simp
      | none =>
          by_cases hsize : d.registry.slots.size < UInt32.size
          · rw [(registry_declare_of_new hname hsize kind).2, Registry.get?_declare hsize]
            by_cases hnext : h = d.registry.next
            · simp [hsize, hnext]
            · simp [hnext, Ne.symm hnext]
          · rw [registry_declare_of_full hname hsize kind]
            simp [hsize]
  | write g c => exact d.get?_write_clauses h g c
  | collect tagType container =>
      show (Draft.write _ _ _).registry.get? h = Option.map _ _
      rw [get?_write_clauses, get?_write_clauses, Option.map_map]
      congr 1
      funext e
      exact (e.writeAll_append _ _).symm

/-! ## A list of edits -/

/-- The clauses that edits write on `h`, in their order. -/
def clausesFor (h : Handle) (edits : List Edit) : List Clause := edits.flatMap (Edit.clauses h)

theorem clausesFor_cons (h : Handle) (e : Edit) (rest : List Edit) :
    clausesFor h (e :: rest) = e.clauses h ++ clausesFor h rest :=
  List.flatMap_cons

theorem clausesFor_append (h : Handle) (edits later : List Edit) :
    clausesFor h (edits ++ later) = clausesFor h edits ++ clausesFor h later :=
  List.flatMap_append

/-- What stands in the registry after `run` is what stood there, or what an edit introduced, with all
clauses added that were written on it since. -/
theorem get?_run_iff (edits : List Edit) (e : Declaration) : (d.run edits).registry.get? h = some e ↔
    (∃ first, d.registry.get? h = some first ∧ e = first.writeAll (clausesFor h edits)) ∨
      ∃ before edit later first, edits = before ++ edit :: later ∧
        (d.run before).introduced? h edit = some first ∧ e = first.writeAll (clausesFor h later) := by
  induction edits generalizing d with
  | nil =>
      show d.registry.get? h = some e ↔ _
      simp [clausesFor, Declaration.writeAll]
  | cons edit rest ih =>
      have hclauses : ∀ first : Declaration, first.writeAll (clausesFor h (edit :: rest))
          = (first.writeAll (edit.clauses h)).writeAll (clausesFor h rest) := by
        intro first
        rw [clausesFor_cons, Declaration.writeAll_append]
      show ((d.perform edit).2.run rest).registry.get? h = some e ↔ _
      rw [ih, get?_perform]
      constructor
      · rintro (⟨first, hfirst, rfl⟩ | ⟨before, edit', later, first, rfl, hfirst, rfl⟩)
        · cases hnew : d.introduced? h edit with
          | some first' =>
              rw [hnew] at hfirst
              cases hfirst
              exact .inr ⟨[], edit, rest, first, rfl, hnew, rfl⟩
          | none =>
              rw [hnew] at hfirst
              obtain ⟨first', hold, rfl⟩ := Option.map_eq_some_iff.1 hfirst
              exact .inl ⟨first', hold, (hclauses first').symm⟩
        · exact .inr ⟨edit :: before, edit', later, first, rfl, hfirst, rfl⟩
      · rintro (⟨first, hfirst, rfl⟩ | ⟨before, edit', later, first, hsplit, hfirst, rfl⟩)
        · refine .inl ⟨first.writeAll (edit.clauses h), ?_, hclauses first⟩
          cases hnew : d.introduced? h edit with
          | some first' => cases (d.get?_of_introduced? h hnew).symm.trans hfirst
          | none =>
              rw [hfirst]
              rfl
        · cases before with
          | nil =>
              cases hsplit
              refine .inl ⟨first, ?_, rfl⟩
              have hnew : d.introduced? h edit = some first := hfirst
              rw [hnew]
              rfl
          | cons _ before =>
              cases hsplit
              exact .inr ⟨before, edit', later, first, rfl, hfirst, rfl⟩

/-- Edits that introduce nothing under a handle only add their clauses. -/
theorem get?_run_of_not_introduced {edits : List Edit}
    (hnone : ∀ edit ∈ edits, ∀ before : Draft, before.introduced? h edit = none) :
    (d.run edits).registry.get? h = (d.registry.get? h).map (·.writeAll (clausesFor h edits)) := by
  ext e
  rw [get?_run_iff, Option.map_eq_some_iff]
  constructor
  · rintro (⟨first, hfirst, rfl⟩ | ⟨before, edit, later, first, rfl, hfirst, -⟩)
    · exact ⟨first, hfirst, rfl⟩
    · have hmem : edit ∈ before ++ edit :: later := List.mem_append_right before (.head later)
      cases (hnone edit hmem (d.run before)).symm.trans hfirst
  · rintro ⟨first, hfirst, rfl⟩
    exact .inl ⟨first, hfirst, rfl⟩

/-- The edits that write tags on a type. -/
def tagged (h : Handle) (written : List Tag) : List Edit := written.map fun t => .write h (.tag t)

theorem clausesFor_tagged (h g : Handle) (written : List Tag) :
    clausesFor g (tagged h written) = if h = g then written.map .tag else [] := by
  induction written with
  | nil => simp [clausesFor, tagged]
  | cons t rest ih =>
      show clausesFor g (.write h (.tag t) :: tagged h rest) = _
      rw [clausesFor_cons, ih]
      by_cases heq : h = g <;> simp [Edit.clauses, heq]

/-- Tags that are `tagged` on a type stand behind the tags that it has. -/
theorem get?_run_tagged (d : Draft) (h g : Handle) (written : List Tag) :
    (d.run (tagged h written)).registry.get? g =
      if h = g then (d.registry.get? g).map fun e => { e with tags := e.tags ++ written }
      else d.registry.get? g := by
  have hnone : ∀ edit ∈ tagged h written, ∀ before : Draft, before.introduced? g edit = none := by
    intro edit hmem before
    obtain ⟨t, -, rfl⟩ := List.mem_map.1 hmem
    rfl
  rw [get?_run_of_not_introduced d g hnone, clausesFor_tagged]
  split
  · exact congrArg (Option.map · _) (funext fun e => e.writeAll_tags written)
  · exact Option.map_id'

/-! ## Universes -/

theorem allMisuses_append (edits later : List Edit) :
    d.allMisuses (edits ++ later) = d.allMisuses edits ++ (d.run edits).allMisuses later := by
  induction edits generalizing d with
  | nil => rfl
  | cons e rest ih =>
      show d.misuses e ++ (d.perform e).2.allMisuses (rest ++ later) = _
      rw [ih, ← List.append_assoc]
      rfl

theorem isSome_of_unknown_eq_nil {d : Draft} {h : Handle} (hnone : d.unknown h = []) :
    (d.registry.get? h).isSome := by
  unfold unknown at hnone
  split at hnone
  · assumption
  · cases hnone

/-- Without misuses clauses are written only on what is declared. -/
theorem isSome_of_mem_clauses {d : Draft} {h : Handle} {e : Edit} (hnone : d.misuses e = []) {c : Clause}
    (hc : c ∈ e.clauses h) : (d.registry.get? h).isSome := by
  cases e with
  | declare kind name => cases hc
  | write g c' =>
      have heq : g = h := by
        by_contra hne
        simp [Edit.clauses, hne] at hc
      exact heq ▸ isSome_of_unknown_eq_nil hnone
  | collect tagType container =>
      obtain ⟨htag, hcontainer⟩ := List.append_eq_nil_iff.1 hnone
      rcases List.mem_append.1 hc with hc | hc
      · have heq : tagType = h := by
          by_contra hne
          simp [hne] at hc
        exact heq ▸ isSome_of_unknown_eq_nil htag
      · have heq : container = h := by
          by_contra hne
          simp [hne] at hc
        exact heq ▸ isSome_of_unknown_eq_nil hcontainer

/-- Without misuses no clause is written on a handle before it is declared. -/
theorem clausesFor_eq_nil {d : Draft} {h : Handle} {edits : List Edit} (hnone : d.allMisuses edits = [])
    (hget : (d.run edits).registry.get? h = none) : clausesFor h edits = [] := by
  induction edits generalizing d with
  | nil => rfl
  | cons e rest ih =>
      obtain ⟨hhead, hrest⟩ := List.append_eq_nil_iff.1 hnone
      have hlater : clausesFor h rest = [] := ih hrest hget
      have hnow : e.clauses h = [] := by
        refine List.eq_nil_iff_forall_not_mem.2 fun c hc => ?_
        obtain ⟨first, hfirst⟩ := Option.isSome_iff_exists.1 (isSome_of_mem_clauses hhead hc)
        obtain ⟨last, hlast, -⟩ := d.keeps_run (e :: rest) h first hfirst
        cases hget.symm.trans hlast
      rw [clausesFor_cons, hnow, hlater]
      rfl

/-- The declaration with which a handle begins: it is built in, or `introduced?` by one of the edits. -/
inductive Begins (edits : List Edit) : Handle → Declaration → Prop where
  | builtin (b : Builtin) : Begins edits b.handle b.declaration
  | introduced {before later : List Edit} {edit : Edit} {h : Handle} {first : Declaration} :
      edits = before ++ edit :: later → (empty.run before).introduced? h edit = some first →
      Begins edits h first

/-- In a universe that `build` makes every declaration is the one with which its handle `Begins`, with all
clauses added that the edits write on it. -/
theorem get?_build_iff {edits : List Edit} {u : Universe} (hu : (empty.run edits).build = .ok u) {h : Handle}
    {e : Declaration} : u.get? h = some e ↔
      ∃ first, Begins edits h first ∧ e = first.writeAll (clausesFor h edits) := by
  obtain ⟨hfault, -, hregistry⟩ := (build_eq_ok_iff _ u).1 hu
  have hnone : empty.allMisuses edits = [] := by
    rwa [fault?_run_empty, List.head?_eq_none_iff] at hfault
  -- The clauses before the edit that introduces a handle are none, so all clauses may be taken.
  have hlater : ∀ {before edit later} {first : Declaration}, edits = before ++ edit :: later →
      (empty.run before).introduced? h edit = some first → clausesFor h edits = clausesFor h later := by
    rintro before edit later first rfl hfirst
    rw [allMisuses_append, List.append_eq_nil_iff] at hnone
    have hbefore : clausesFor h before = [] :=
      clausesFor_eq_nil hnone.1 (get?_of_introduced? _ h hfirst)
    have hnow : edit.clauses h = [] := by
      obtain ⟨kind, name, rfl, -⟩ := (introduced?_eq_some_iff _ h).1 hfirst
      rfl
    rw [clausesFor_append, hbefore, clausesFor_cons, hnow]
    rfl
  rw [Universe.get?, hregistry, get?_run_iff]
  constructor
  · rintro (⟨first, hfirst, rfl⟩ | ⟨before, edit, later, first, hsplit, hfirst, rfl⟩)
    · obtain ⟨b, rfl, rfl⟩ := Registry.get?_builtin_iff.1 hfirst
      exact ⟨_, .builtin b, rfl⟩
    · exact ⟨first, .introduced hsplit hfirst, by rw [hlater hsplit hfirst]⟩
  · rintro ⟨first, ⟨b⟩ | ⟨hsplit, hfirst⟩, rfl⟩
    · exact .inl ⟨_, Registry.get?_builtin_iff.2 ⟨b, rfl, rfl⟩, rfl⟩
    · exact .inr ⟨_, _, _, first, hsplit, hfirst, by rw [hlater hsplit hfirst]⟩

end Draft

end TagResolution
