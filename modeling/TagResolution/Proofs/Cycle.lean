import Mathlib.Data.List.Perm.Subperm
import Mathlib.Logic.Relation
import TagResolution.Universe.Fault

/-!
# Explorations find exactly the cycles

An exploration remembers a handle only after everything that the handle leads to, so what it has
remembered is layered: every member leads to members behind it. That rules out cycles among the
remembered handles and ranks them. The path, on the other hand, always leads to the handle that is
explored next, so a handle that is met again on the path leads back to itself.

The main statements are `find?_eq_none_iff` (nothing is found iff there is no cycle), `find?_eq_some`
(what is found lies on a cycle that the start leads to), `exists_rank_of_find?_eq_none` (without
cycles the handles have ranks that every step lowers) and `endless_iff` (where every handle has at most
one successor, the chains that never end are those that lead to a cycle).
-/

namespace TagResolution.Cycle

open Relation

/-- One step of the relation that `next` gives by its successors. -/
def Leads (next : Handle → List Handle) (g h : Handle) : Prop := h ∈ next g

/-- Every member leads only to members behind it. -/
def Layered (next : Handle → List Handle) : List Handle → Prop
  | [] => True
  | h :: rest => (∀ n ∈ next h, n ∈ rest) ∧ Layered next rest

/-- How many members stand behind the first occurrence of a handle, itself included. -/
def height : List Handle → Handle → Nat
  | [], _ => 0
  | g :: rest, h => if g = h then rest.length + 1 else height rest h

variable {next : Handle → List Handle}

/-! ## Layers -/

namespace Layered

theorem mem_of_leads {l : List Handle} (hl : Layered next l) {h n : Handle} (hh : h ∈ l)
    (hn : n ∈ next h) : n ∈ l := by
  induction l with
  | nil => cases hh
  | cons g rest ih =>
      rcases List.mem_cons.1 hh with rfl | hh
      · exact .tail _ (hl.1 n hn)
      · exact .tail _ (ih hl.2 hh)

theorem mem_of_reflTransGen {l : List Handle} (hl : Layered next l) {h g : Handle} (hh : h ∈ l)
    (hg : ReflTransGen (Leads next) h g) : g ∈ l := by
  induction hg with
  | refl => exact hh
  | tail _ hstep ih => exact hl.mem_of_leads ih hstep

theorem insert {r : Roster} (hr : Layered next r.newestFirst) {h : Handle}
    (hnext : ∀ n ∈ next h, n ∈ r) : Layered next (r.insert h).newestFirst := by
  by_cases hm : h ∈ r
  · rw [Roster.insert_of_mem hm]
    exact hr
  · rw [Roster.newestFirst_insert_of_not_mem hm]
    exact ⟨hnext, hr⟩

theorem height_le (l : List Handle) (h : Handle) : height l h ≤ l.length := by
  induction l with
  | nil => exact Nat.le_refl _
  | cons g rest ih =>
      unfold height
      split
      · exact Nat.le_refl _
      · exact Nat.le_succ_of_le ih

theorem height_lt_of_leads {l : List Handle} (hl : Layered next l) (hnodup : l.Nodup) {h n : Handle}
    (hh : h ∈ l) (hn : n ∈ next h) : height l n < height l h := by
  induction l with
  | nil => cases hh
  | cons g rest ih =>
      obtain ⟨hg, hrest⟩ := List.nodup_cons.1 hnodup
      have hne : ∀ {m}, m ∈ rest → g ≠ m := fun hm he => hg (he ▸ hm)
      rcases List.mem_cons.1 hh with rfl | hh
      · have hbehind := hl.1 n hn
        rw [height, height, if_neg (hne hbehind), if_pos rfl]
        exact Nat.lt_succ_of_le (height_le rest n)
      · have hbehind := hl.2.mem_of_leads hh hn
        rw [height, height, if_neg (hne hbehind), if_neg (hne hh)]
        exact ih hl.2 hrest hh

theorem height_lt_of_transGen {l : List Handle} (hl : Layered next l) (hnodup : l.Nodup)
    {h g : Handle} (hh : h ∈ l) (hg : TransGen (Leads next) h g) : height l g < height l h := by
  induction hg with
  | single hstep => exact hl.height_lt_of_leads hnodup hh hstep
  | tail hreach hstep ih =>
      have hmem := hl.mem_of_reflTransGen hh hreach.to_reflTransGen
      exact Nat.lt_trans (hl.height_lt_of_leads hnodup hmem hstep) ih

/-- Nothing that a member of a `Layered` list leads to lies on a cycle. -/
theorem not_transGen {l : List Handle} (hl : Layered next l) (hnodup : l.Nodup) {h g : Handle}
    (hh : h ∈ l) (hg : ReflTransGen (Leads next) h g) : ¬ TransGen (Leads next) g g := fun hcycle =>
  Nat.lt_irrefl _ (hl.height_lt_of_transGen hnodup (hl.mem_of_reflTransGen hh hg) hcycle)

end Layered

/-! ## One exploration -/

/-- What `explore` answers from some handles: they are remembered after everything they lead to, or they
lead to a cycle. -/
def Outcome (next : Handle → List Handle) (done : Roster) (starts : List Handle) :
    Except Handle Roster → Prop
  | .ok done' =>
    Layered next done'.newestFirst ∧ (∀ g ∈ done, g ∈ done') ∧ (∀ h ∈ starts, h ∈ done')
      ∧ ∀ g ∈ done', g ∈ done ∨ ∃ h ∈ starts, ReflTransGen (Leads next) h g
  | .error c => (∃ h ∈ starts, ReflTransGen (Leads next) h c) ∧ TransGen (Leads next) c c

namespace Outcome

variable {done done₁ : Roster} {h c : Handle} {rest : List Handle}

theorem cons {answer : Except Handle Roster} (hhead : Outcome next done [h] (.ok done₁))
    (htail : Outcome next done₁ rest answer) : Outcome next done (h :: rest) answer := by
  obtain ⟨-, hkept, hheld, hnew⟩ := hhead
  cases answer with
  | error c =>
      obtain ⟨⟨g, hg, hc⟩, hcycle⟩ := htail
      exact ⟨⟨g, .tail _ hg, hc⟩, hcycle⟩
  | ok done₂ =>
      obtain ⟨hlayers₂, hkept₂, hheld₂, hnew₂⟩ := htail
      refine ⟨hlayers₂, fun g hg => hkept₂ g (hkept g hg), fun g hg => ?_, fun g hg => ?_⟩
      · rcases List.mem_cons.1 hg with rfl | hg
        · exact hkept₂ g (hheld g (.head _))
        · exact hheld₂ g hg
      · rcases hnew₂ g hg with hg | ⟨h', hh', hreach⟩
        · rcases hnew g hg with hg | ⟨h', hh', hreach⟩
          · exact .inl hg
          · exact .inr ⟨h', List.mem_cons.2 (.inl (List.mem_singleton.1 hh')), hreach⟩
        · exact .inr ⟨h', .tail _ hh', hreach⟩

theorem cons_error (hhead : Outcome next done [h] (.error c)) :
    Outcome next done (h :: rest) (.error c) := by
  obtain ⟨⟨g, hg, hc⟩, hcycle⟩ := hhead
  exact ⟨⟨g, List.mem_cons.2 (.inl (List.mem_singleton.1 hg)), hc⟩, hcycle⟩

/-- A handle is remembered by `explore` once everything it leads to is. -/
theorem remembered (hnext : Outcome next done (next h) (.ok done₁)) :
    Outcome next done [h] (.ok (done₁.insert h)) := by
  obtain ⟨hlayers, hkept, hheld, hreached⟩ := hnext
  refine ⟨hlayers.insert hheld, fun g hg => ?_, fun g hg => ?_, fun g hg => ?_⟩
  · exact Roster.mem_insert.2 (.inr (hkept g hg))
  · exact Roster.mem_insert.2 (.inl (List.mem_singleton.1 hg))
  · rcases Roster.mem_insert.1 hg with rfl | hg
    · exact .inr ⟨g, .head _, .refl⟩
    · rcases hreached g hg with hg | ⟨n, hn, hreach⟩
      · exact .inl hg
      · exact .inr ⟨h, .head _, .head hn hreach⟩

theorem of_next_error (hnext : Outcome next done (next h) (.error c)) :
    Outcome next done [h] (.error c) := by
  obtain ⟨⟨n, hn, hc⟩, hcycle⟩ := hnext
  exact ⟨⟨h, .head _, .head hn hc⟩, hcycle⟩

/-- A handle that is remembered need not be explored again. -/
theorem of_mem (hdone : Layered next done.newestFirst) (hh : h ∈ done) :
    Outcome next done [h] (.ok done) := by
  refine ⟨hdone, fun _ hg => hg, fun g hg => ?_, fun _ hg => .inl hg⟩
  rw [List.mem_singleton.1 hg]
  exact hh

theorem foldlM {f : Roster → Handle → Except Handle Roster} {done : Roster} {l : List Handle}
    (hdone : Layered next done.newestFirst)
    (hf : ∀ h ∈ l, ∀ done, Layered next done.newestFirst → Outcome next done [h] (f done h)) :
    Outcome next done l (l.foldlM f done) := by
  induction l generalizing done with
  | nil => exact ⟨hdone, fun _ hg => hg, nofun, fun _ hg => .inl hg⟩
  | cons h rest ih =>
      have hhead := hf h (.head _) done hdone
      rw [List.foldlM_cons]
      cases hfh : f done h with
      | error c =>
          rw [hfh] at hhead
          exact hhead.cons_error
      | ok done₁ =>
          rw [hfh] at hhead
          exact hhead.cons (ih hhead.1 fun g hg => hf g (.tail _ hg))

end Outcome

/-- The path of `explore`, as a list: its handles lie in a closed set, none twice, and each leads to the
handle that is explored next. -/
structure OnPath (next : Handle → List Handle) (all : List Handle) (path : Std.TreeSet Handle)
    (trail : List Handle) (h : Handle) : Prop where
  mem_iff : ∀ g, g ∈ path ↔ g ∈ trail
  nodup : trail.Nodup
  mem_all : ∀ g ∈ trail, g ∈ all
  leads : ∀ g ∈ trail, TransGen (Leads next) g h

namespace OnPath

variable {all : List Handle} {path : Std.TreeSet Handle} {trail : List Handle} {h : Handle}

theorem empty (next : Handle → List Handle) (all : List Handle) (h : Handle) :
    OnPath next all ∅ [] h where
  mem_iff g := by simp
  nodup := .nil
  mem_all := nofun
  leads := nofun

theorem length_le (hp : OnPath next all path trail h) : trail.length ≤ all.length :=
  (List.subperm_of_subset hp.nodup hp.mem_all).length_le

theorem insert (hp : OnPath next all path trail h) (hh : h ∈ all) (hnew : h ∉ path) {n : Handle}
    (hn : n ∈ next h) : OnPath next all (path.insert h) (h :: trail) n where
  mem_iff g := by
    rw [Std.TreeSet.mem_insert, Std.LawfulEqCmp.compare_eq_iff_eq, List.mem_cons, hp.mem_iff]
    exact or_congr_left eq_comm
  nodup := List.nodup_cons.2 ⟨fun hm => hnew ((hp.mem_iff h).2 hm), hp.nodup⟩
  mem_all g hg := by
    rcases List.mem_cons.1 hg with rfl | hg
    · exact hh
    · exact hp.mem_all g hg
  leads g hg := by
    rcases List.mem_cons.1 hg with rfl | hg
    · exact .single hn
    · exact (hp.leads g hg).tail hn

end OnPath

/-- With a bound that exceeds what the path leaves of a closed set, `explore` ends in an `Outcome`. -/
theorem outcome_explore {all : List Handle} (hclosed : ∀ h ∈ all, ∀ n ∈ next h, n ∈ all) {bound : Nat}
    {path : Std.TreeSet Handle} {trail : List Handle} {done : Roster} {h : Handle} (hh : h ∈ all)
    (hp : OnPath next all path trail h) (hbound : all.length < bound + trail.length)
    (hdone : Layered next done.newestFirst) :
    Outcome next done [h] (explore next bound path done h) := by
  induction bound generalizing path trail done h with
  | zero =>
      -- A path cannot be longer than the closed set that its handles lie in.
      have := hp.length_le
      omega
  | succ bound ih =>
      unfold explore
      split
      · next hmem =>
        -- The path leads to the handle, which is on the path: this is a cycle.
        have hloop := hp.leads h ((hp.mem_iff h).1 hmem)
        exact ⟨⟨h, .head _, .refl⟩, hloop⟩
      · next hnew =>
        split
        · next hknown => exact .of_mem hdone hknown
        · have hnext : Outcome next done (next h)
              ((next h).foldlM (explore next bound (path.insert h)) done) := by
            apply Outcome.foldlM hdone
            intro n hn done hdone
            refine ih (hclosed h hh n hn) (hp.insert hh hnew hn) ?_ hdone
            rw [List.length_cons]
            omega
          cases hres : (next h).foldlM (explore next bound (path.insert h)) done with
          | error c =>
              rw [hres] at hnext
              exact hnext.of_next_error
          | ok done' =>
              rw [hres] at hnext
              exact hnext.remembered

/-! ## All starts -/

section Starts

variable {starts : List Handle} {bound : Nat}

/-- What `first` answers for some starts in turn: all are remembered in layers, or one is the first that
leads to a cycle. -/
def FirstOutcome (next : Handle → List Handle) (all : List Handle) (done : Roster)
    (rest : List Handle) : Option Found → Prop
  | none => ∃ done' : Roster, Layered next done'.newestFirst ∧ (∀ g ∈ done, g ∈ done') ∧
      (∀ h ∈ rest, h ∈ done') ∧ ∀ g ∈ done', g ∈ all
  | some found => ∃ before after, rest = before ++ found.start :: after ∧
      (∀ h ∈ before, ∀ g, ReflTransGen (Leads next) h g → ¬ TransGen (Leads next) g g) ∧
      ReflTransGen (Leads next) found.start found.culprit ∧
      TransGen (Leads next) found.culprit found.culprit

theorem first_cons_of_error {done : Roster} {start culprit : Handle}
    (hres : explore next bound ∅ done start = .error culprit) (rest : List Handle) :
    first next bound done (start :: rest) = some ⟨start, culprit⟩ := by
  simp [first, hres]

theorem first_cons_of_ok {done done' : Roster} {start : Handle}
    (hres : explore next bound ∅ done start = .ok done') (rest : List Handle) :
    first next bound done (start :: rest) = first next bound done' rest := by
  simp [first, hres]

theorem mem_of_reflTransGen (hclosed : ∀ h ∈ starts, ∀ n ∈ next h, n ∈ starts) {h g : Handle}
    (hh : h ∈ starts) (hg : ReflTransGen (Leads next) h g) : g ∈ starts := by
  induction hg with
  | refl => exact hh
  | tail _ hstep ih => exact hclosed _ ih _ hstep

theorem firstOutcome_first (hclosed : ∀ h ∈ starts, ∀ n ∈ next h, n ∈ starts)
    (hbound : starts.length < bound) {done : Roster} (hdone : Layered next done.newestFirst)
    (hsub : ∀ g ∈ done, g ∈ starts) {rest : List Handle} (hrest : ∀ h ∈ rest, h ∈ starts) :
    FirstOutcome next starts done rest (first next bound done rest) := by
  induction rest generalizing done with
  | nil => exact ⟨done, hdone, fun _ hg => hg, nofun, hsub⟩
  | cons start rest ih =>
      have hstart := hrest start (.head _)
      have houtcome := outcome_explore hclosed hstart (.empty next starts start)
        (by simpa using hbound) hdone
      cases hres : explore next bound ∅ done start with
      | error c =>
          rw [first_cons_of_error hres]
          rw [hres] at houtcome
          obtain ⟨⟨h, hh, hreach⟩, hcycle⟩ := houtcome
          rw [List.mem_singleton.1 hh] at hreach
          exact ⟨[], rest, rfl, nofun, hreach, hcycle⟩
      | ok done' =>
          rw [hres] at houtcome
          obtain ⟨hlayers, hkept, hheld, hnew⟩ := houtcome
          have hsub' : ∀ g ∈ done', g ∈ starts := by
            intro g hg
            rcases hnew g hg with hg | ⟨h, hh, hreach⟩
            · exact hsub g hg
            · rw [List.mem_singleton.1 hh] at hreach
              exact mem_of_reflTransGen hclosed hstart hreach
          have hmem := hheld start (.head _)
          have htail := ih hlayers hsub' fun h hh => hrest h (.tail _ hh)
          rw [first_cons_of_ok hres]
          cases hfirst : first next bound done' rest with
          | none =>
              rw [hfirst] at htail
              obtain ⟨done₂, hlayers₂, hkept₂, hheld₂, hsub₂⟩ := htail
              refine ⟨done₂, hlayers₂, fun g hg => hkept₂ g (hkept g hg), fun h hh => ?_, hsub₂⟩
              rcases List.mem_cons.1 hh with rfl | hh
              · exact hkept₂ h hmem
              · exact hheld₂ h hh
          | some found =>
              rw [hfirst] at htail
              obtain ⟨before, after, heq, hbefore, hreach, hcycle⟩ := htail
              refine ⟨start :: before, after, by rw [heq]; rfl, fun h hh => ?_, hreach, hcycle⟩
              rcases List.mem_cons.1 hh with rfl | hh
              · exact fun g => hlayers.not_transGen done'.nodup hmem
              · exact hbefore h hh

theorem firstOutcome_find? (hclosed : ∀ h ∈ starts, ∀ n ∈ next h, n ∈ starts)
    (hbound : starts.length < bound) :
    FirstOutcome next starts .empty starts (find? next bound starts) := by
  have hempty : Layered next Roster.empty.newestFirst := trivial
  exact firstOutcome_first hclosed hbound hempty (fun g hg => absurd hg (Roster.not_mem_empty g))
    fun _ hh => hh

/-- The culprit of `find?` lies on a cycle to which the start leads, and no start before it leads to one. -/
theorem find?_eq_some (hclosed : ∀ h ∈ starts, ∀ n ∈ next h, n ∈ starts)
    (hbound : starts.length < bound) {found : Found} (h : find? next bound starts = some found) :
    ∃ before after, starts = before ++ found.start :: after ∧
      (∀ h ∈ before, ∀ g, ReflTransGen (Leads next) h g → ¬ TransGen (Leads next) g g) ∧
      ReflTransGen (Leads next) found.start found.culprit ∧
      TransGen (Leads next) found.culprit found.culprit := by
  have houtcome := firstOutcome_find? hclosed hbound
  rw [h] at houtcome
  exact houtcome

/-- Where `find?` finds no cycle the starts can be ranked so that every step leads to a lower rank. -/
theorem exists_rank_of_find?_eq_none (hclosed : ∀ h ∈ starts, ∀ n ∈ next h, n ∈ starts)
    (hbound : starts.length < bound) (h : find? next bound starts = none) :
    ∃ rank : Handle → Nat, (∀ g, rank g ≤ starts.length) ∧
      ∀ g ∈ starts, ∀ n ∈ next g, rank n < rank g := by
  have houtcome := firstOutcome_find? hclosed hbound
  rw [h] at houtcome
  obtain ⟨done, hlayers, -, hheld, hsub⟩ := houtcome
  have hlength := (List.subperm_of_subset done.nodup fun g hg => hsub g hg).length_le
  refine ⟨height done.newestFirst, fun g => ?_, fun g hg n hn => ?_⟩
  · exact Nat.le_trans (Layered.height_le _ g) hlength
  · exact hlayers.height_lt_of_leads done.nodup (hheld g hg) hn

theorem find?_eq_none_iff (hclosed : ∀ h ∈ starts, ∀ n ∈ next h, n ∈ starts)
    (hbound : starts.length < bound) :
    find? next bound starts = none ↔ ∀ h ∈ starts, ¬ TransGen (Leads next) h h := by
  constructor
  · intro hnone h hh
    have houtcome := firstOutcome_find? hclosed hbound
    rw [hnone] at houtcome
    obtain ⟨done, hlayers, -, hheld, -⟩ := houtcome
    exact hlayers.not_transGen done.nodup (hheld h hh) .refl
  · intro hacyclic
    -- Whatever is found lies on a cycle, and the starts are closed, so it is a start itself.
    cases hfind : find? next bound starts with
    | none => rfl
    | some found =>
        obtain ⟨before, after, heq, -, hreach, hcycle⟩ := find?_eq_some hclosed hbound hfind
        have hstart : found.start ∈ starts := by
          rw [heq]
          exact List.mem_append_right _ (.head _)
        exact absurd hcycle (hacyclic _ (mem_of_reflTransGen hclosed hstart hreach))

end Starts

/-! ## Chains -/

/-- One step of the relation that `next` gives, with at most one successor. -/
def StepsTo (next : Handle → Option Handle) (g h : Handle) : Prop := next g = some h

/-- Where a chain of `StepsTo` stands after some steps, unless it ends before. -/
def along (next : Handle → Option Handle) : Nat → Handle → Option Handle
  | 0, h => some h
  | n + 1, h => (next h).bind (along next n)

/-- A chain that can be followed for any number of steps. -/
def Endless (next : Handle → Option Handle) (h : Handle) : Prop := ∀ n, (along next n h).isSome

section Chains

variable {next : Handle → Option Handle} {starts : List Handle} {g h : Handle} {n : Nat}

theorem leads_toList : Leads (fun h => (next h).toList) = StepsTo next := by
  funext g h
  simp [Leads, StepsTo]

@[simp] theorem along_zero (next : Handle → Option Handle) (h : Handle) : along next 0 h = some h := rfl

theorem along_succ_of_stepsTo (hg : StepsTo next h g) (n : Nat) :
    along next (n + 1) h = along next n g := by
  simp [along, show next h = some g from hg]

theorem along_add (m n : Nat) : along next (m + n) h = (along next m h).bind (along next n) := by
  induction m generalizing h with
  | zero => simp
  | succ m ih =>
      rw [Nat.succ_add]
      cases hg : next h with
      | none => simp [along, hg]
      | some g => simp [along, hg, ih]

theorem reflTransGen_of_along (hg : along next n h = some g) : ReflTransGen (StepsTo next) h g := by
  induction n generalizing h with
  | zero =>
      cases hg
      exact .refl
  | succ n ih =>
      obtain ⟨m, hstep, hm⟩ := Option.bind_eq_some_iff.1 hg
      exact .head hstep (ih hm)

theorem transGen_of_along (hg : along next (n + 1) h = some g) : TransGen (StepsTo next) h g := by
  obtain ⟨m, hstep, hm⟩ := Option.bind_eq_some_iff.1 hg
  exact .head' hstep (reflTransGen_of_along hm)

/-- A chain that leads to a cycle is `Endless`: wherever it stands, it leads to the cycle still. -/
theorem endless_of_cycle (hreach : ReflTransGen (StepsTo next) h g)
    (hcycle : TransGen (StepsTo next) g g) : Endless next h := by
  intro n
  induction n generalizing h with
  | zero => rfl
  | succ n ih =>
      obtain ⟨m, hstep, hm⟩ : ∃ m, StepsTo next h m ∧ ReflTransGen (StepsTo next) m g := by
        rcases ReflTransGen.cases_head hreach with rfl | hhead
        · exact TransGen.head'_iff.1 hcycle
        · exact hhead
      rw [along_succ_of_stepsTo hstep]
      exact ih hm

theorem mem_of_along (hclosed : ∀ g ∈ starts, ∀ n, StepsTo next g n → n ∈ starts) (hh : h ∈ starts)
    (hg : along next n h = some g) : g ∈ starts := by
  induction n generalizing h with
  | zero =>
      cases hg
      exact hh
  | succ n ih =>
      obtain ⟨m, hstep, hm⟩ := Option.bind_eq_some_iff.1 hg
      exact ih (hclosed h hh m hstep) hm

/-- Among finitely many handles a chain is `Endless` exactly if it leads to a cycle. -/
theorem endless_iff (hclosed : ∀ g ∈ starts, ∀ n, StepsTo next g n → n ∈ starts) (hh : h ∈ starts) :
    Endless next h ↔ ∃ g, ReflTransGen (StepsTo next) h g ∧ TransGen (StepsTo next) g g := by
  constructor
  · intro hendless
    by_contra hacyclic
    choose stand hstand using fun n => Option.isSome_iff_exists.1 (hendless n)
    -- A chain without cycle stands at another handle after each step, and there are too few of them.
    have hbehind : ∀ i j, i < j → stand i ≠ stand j := by
      intro i j hlt heq
      obtain ⟨k, rfl⟩ := Nat.exists_eq_add_of_lt hlt
      have hlater : along next (i + (k + 1)) h = along next (k + 1) (stand i) := by
        rw [along_add, hstand i, Option.bind_some]
      have hloop : along next (k + 1) (stand i) = some (stand i) :=
        calc along next (k + 1) (stand i)
          _ = along next (i + (k + 1)) h := hlater.symm
          _ = some (stand (i + k + 1)) := hstand _
          _ = some (stand i) := by rw [heq]
      exact hacyclic ⟨stand i, reflTransGen_of_along (hstand i), transGen_of_along hloop⟩
    have hnodup : ((List.range (starts.length + 1)).map stand).Nodup :=
      List.pairwise_map.2 (List.pairwise_lt_range.imp fun hlt => hbehind _ _ hlt)
    have hsub : ∀ g ∈ (List.range (starts.length + 1)).map stand, g ∈ starts := by
      intro g hg
      obtain ⟨n, -, rfl⟩ := List.mem_map.1 hg
      exact mem_of_along hclosed hh (hstand n)
    have hlength := (List.subperm_of_subset hnodup hsub).length_le
    simp only [List.length_map, List.length_range] at hlength
    omega
  · rintro ⟨g, hreach, hcycle⟩
    exact endless_of_cycle hreach hcycle

end Chains

end TagResolution.Cycle
