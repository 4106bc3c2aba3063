import TagResolution.Proofs.Cycle

/-!
# Explorations step by step

An exploration is given by recursion. The same handles can be explored by loops that keep their own
account of the path. A `Pursuit` follows one chain after the other, where every handle has at most one
successor, and remembers the handles whose chains end. A `Traversal` keeps a stack of handles with the
successors that are still to be taken, and marks each handle it meets: grey while it is on the stack, black
once all its successors are taken.

The main statements are `Pursuit.finds_find?` and `Traversal.finds_find?`, by which both loops come to an
end and find what the recursion finds.
-/

namespace TagResolution.Cycle

open Relation

/-- One state of a loop comes to another after some steps of `advance`. -/
def Comes {State : Type} (advance : State → State) : State → State → Prop :=
  ReflTransGen fun s t => advance s = t

section Comes

variable {State : Type} {advance : State → State} {s t v : State}

theorem Comes.refl (advance : State → State) (s : State) : Comes advance s s := ReflTransGen.refl

theorem Comes.step (hstep : advance s = t) (h : Comes advance t v) : Comes advance s v :=
  ReflTransGen.head hstep h

theorem Comes.trans (h : Comes advance s t) (h' : Comes advance t v) : Comes advance s v :=
  ReflTransGen.trans h h'

end Comes

/-! ## Chains one after the other -/

/-- The state of a loop that follows the chains of some starts, as `advance` does. -/
inductive Pursuit where
  /-- No chain is being followed. The chains of the handles in `ends` are known to end. -/
  | resting (ends : Roster) (starts : List Handle)
  /-- The chain of `start` is being followed. It met the handles in `met`, the last one first, and goes on
  with `current`. -/
  | following (ends : Roster) (starts : List Handle) (start : Handle) (met : List Handle)
      (current : Option Handle)
  /-- The chain of `start` came back to a handle that it had met. -/
  | looping (start : Handle)

namespace Pursuit

/-- A chain is left where it ends or comes to a handle whose chain is known to end, and then the chains of
all handles that it met are known to end. -/
def advance (next : Handle → Option Handle) : Pursuit → Pursuit
  | .resting ends [] => .resting ends []
  | .resting ends (start :: rest) => .following ends rest start [] (some start)
  | .following ends rest _ met none => .resting (met.foldl .insert ends) rest
  | .following ends rest start met (some h) =>
    if h ∈ ends then .resting (met.foldl .insert ends) rest
    else if h ∈ met then .looping start
    else .following ends rest start (h :: met) (next h)
  | .looping start => .looping start

/-- What `advance` comes to from some starts in the end: a start whose chain loops, or nothing. -/
def Finds (next : Handle → Option Handle) (ends : Roster) (starts : List Handle) : Option Handle → Prop
  | some start => Comes (advance next) (.resting ends starts) (.looping start)
  | none => ∃ ends', Comes (advance next) (.resting ends starts) (.resting ends' [])

/-- Where a `Pursuit` comes to when a chain has been explored, by the answer of `explore`. -/
def after (start : Handle) (rest met : List Handle) : Except Handle Roster → Pursuit
  | .error _ => .looping start
  | .ok ends => .resting (met.foldl .insert ends) rest

variable {next : Handle → Option Handle} {all rest met : List Handle} {ends : Roster} {start h : Handle}

theorem Finds.of_comes {ends' : Roster} {starts : List Handle} {answer : Option Handle}
    (hcomes : Comes (advance next) (.resting ends starts) (.resting ends' rest))
    (hrest : Finds next ends' rest answer) : Finds next ends starts answer := by
  cases answer with
  | some start => exact hcomes.trans hrest
  | none =>
      obtain ⟨ends'', hend⟩ := hrest
      exact ⟨ends'', hcomes.trans hend⟩

theorem advance_known (hknown : h ∈ ends) : advance next (.following ends rest start met (some h))
    = .resting (met.foldl .insert ends) rest := by
  simp [advance, hknown]

theorem advance_met (hnew : h ∉ ends) (hmet : h ∈ met) :
    advance next (.following ends rest start met (some h)) = .looping start := by
  simp [advance, hnew, hmet]

theorem advance_new (hnew : h ∉ ends) (hout : h ∉ met) :
    advance next (.following ends rest start met (some h))
      = .following ends rest start (h :: met) (next h) := by
  simp [advance, hnew, hout]

/-- A `Pursuit` follows a chain as `explore` explores it, where no handle on the path is known to end. -/
theorem comes_explore (hclosed : ∀ h ∈ all, ∀ n ∈ (next h).toList, n ∈ all) {bound : Nat}
    {path : Std.TreeSet Handle} (hh : h ∈ all) (hp : OnPath (fun h => (next h).toList) all path met h)
    (hbound : all.length < bound + met.length) (hends : ∀ g ∈ met, g ∉ ends) :
    Comes (advance next) (.following ends rest start met (some h))
      (after start rest met (explore (fun h => (next h).toList) bound path ends h)) := by
  induction bound generalizing path met h with
  | zero =>
      have := hp.length_le
      omega
  | succ bound ih =>
      unfold explore
      split
      · next hmet =>
        have hmem : h ∈ met := (hp.mem_iff h).1 hmet
        exact .step (advance_met (hends h hmem) hmem) (.refl ..)
      · next hout =>
        have hmem : h ∉ met := fun hm => hout ((hp.mem_iff h).2 hm)
        split
        · next hknown => exact .step (advance_known hknown) (.refl ..)
        · next hnew =>
          refine .step (advance_new hnew hmem) ?_
          cases hn : next h with
          | none => exact .step rfl (.refl ..)
          | some n =>
              have hnext : n ∈ (next h).toList := by simp [hn]
              have hends' : ∀ g ∈ h :: met, g ∉ ends := by
                simpa [hnew] using hends
              have hrest := ih (hclosed h hh n hnext) (hp.insert hh hout hnext)
                (by rw [List.length_cons]; omega) hends'
              -- The chain goes on with one handle, and what it meets there is remembered before `h`.
              cases hres : explore (fun h => (next h).toList) bound (path.insert h) ends n with
              | error c => simpa [hres, after, Except.map] using hrest
              | ok ends' => simpa [hres, after, Except.map] using hrest

theorem finds_first (hclosed : ∀ h ∈ all, ∀ n ∈ (next h).toList, n ∈ all) {bound : Nat}
    (hbound : all.length < bound) {starts : List Handle} (hstarts : ∀ h ∈ starts, h ∈ all) :
    Finds next ends starts ((first (fun h => (next h).toList) bound ends starts).map (·.start)) := by
  induction starts generalizing ends with
  | nil => exact ⟨ends, .refl ..⟩
  | cons start rest ih =>
      have hchain : Comes (advance next) (.following ends rest start [] (some start))
          (after start rest [] (explore (fun h => (next h).toList) bound ∅ ends start)) :=
        comes_explore hclosed (hstarts start (.head _)) (.empty _ all start) (by simpa using hbound)
          nofun
      have hfollowed := Comes.step (rfl : advance next (.resting ends (start :: rest)) = _) hchain
      cases hres : explore (fun h => (next h).toList) bound ∅ ends start with
      | error c =>
          rw [first_cons_of_error hres]
          rw [hres] at hfollowed
          exact hfollowed
      | ok ends' =>
          rw [first_cons_of_ok hres]
          rw [hres] at hfollowed
          exact .of_comes hfollowed (ih fun h hh => hstarts h (.tail _ hh))

/-- The `Pursuit` of all chains ends, and it finds the start that `find?` finds. -/
theorem finds_find? (hclosed : ∀ h ∈ all, ∀ n ∈ (next h).toList, n ∈ all) {bound : Nat}
    (hbound : all.length < bound) :
    Finds next .empty all ((find? (fun h => (next h).toList) bound all).map (·.start)) :=
  finds_first hclosed hbound fun _ hh => hh

end Pursuit

/-! ## A stack of handles -/

/-- What is known of a handle that was met. -/
inductive Mark where
  /-- Some of its successors are still to be taken. -/
  | grey
  /-- Everything that it leads to was met, and none of that lies on a cycle. -/
  | black

/-- The state of a loop that explores what some starts lead to, with a `Mark` on each handle that was met. -/
inductive Traversal where
  /-- The stack holds handles with the successors that are still to be taken, the newest one first. -/
  | going (marks : Std.TreeMap Handle Mark) (stack : List (Handle × List Handle)) (starts : List Handle)
  /-- A successor was grey. -/
  | closed (culprit : Handle)

namespace Traversal

/-- The newest handle is left when all its successors are taken. A successor that was not met before comes
onto the stack, and so does a start where the stack is empty. -/
def advance (next : Handle → List Handle) : Traversal → Traversal
  | .going marks [] [] => .going marks [] []
  | .going marks [] (start :: rest) =>
    if start ∈ marks then .going marks [] rest
    else .going (marks.insert start .grey) [(start, next start)] rest
  | .going marks ((h, []) :: stack) starts => .going (marks.insert h .black) stack starts
  | .going marks ((h, n :: pending) :: stack) starts =>
    match marks[n]? with
    | some .grey => .closed n
    | some .black => .going marks ((h, pending) :: stack) starts
    | none => .going (marks.insert n .grey) ((n, next n) :: (h, pending) :: stack) starts
  | .closed culprit => .closed culprit

/-- The handles marked `Mark.grey` are those on the path of `explore`, and those marked `Mark.black` are
done. -/
structure Marked (marks : Std.TreeMap Handle Mark) (path : Std.TreeSet Handle) (done : Roster) : Prop where
  grey : ∀ g, marks[g]? = some .grey ↔ g ∈ path
  black : ∀ g, marks[g]? = some .black ↔ g ∈ done

/-- A `Traversal` comes to this stack when `explore` gives this answer. -/
def Arrives (next : Handle → List Handle) (s : Traversal) (path : Std.TreeSet Handle)
    (stack : List (Handle × List Handle)) (starts : List Handle) : Except Handle Roster → Prop
  | .error c => Comes (advance next) s (.closed c)
  | .ok done => ∃ marks, Marked marks path done ∧ Comes (advance next) s (.going marks stack starts)

/-- What a `Traversal` from some starts finds in the end: a handle that was still `Mark.grey` when it was
met again, or nothing. -/
def Finds (next : Handle → List Handle) (marks : Std.TreeMap Handle Mark) (starts : List Handle) :
    Option Handle → Prop
  | some culprit => Comes (advance next) (.going marks [] starts) (.closed culprit)
  | none => ∃ marks', Comes (advance next) (.going marks [] starts) (.going marks' [] [])

variable {next : Handle → List Handle} {all starts pending : List Handle} {done : Roster}
  {marks : Std.TreeMap Handle Mark} {path : Std.TreeSet Handle} {stack : List (Handle × List Handle)}
  {h n : Handle} {s t : Traversal}

theorem Finds.of_comes {marks' : Std.TreeMap Handle Mark} {rest : List Handle} {answer : Option Handle}
    (hcomes : Comes (advance next) (.going marks [] starts) (.going marks' [] rest))
    (hrest : Finds next marks' rest answer) : Finds next marks starts answer := by
  cases answer with
  | some culprit => exact hcomes.trans hrest
  | none =>
      obtain ⟨marks'', hend⟩ := hrest
      exact ⟨marks'', hcomes.trans hend⟩

/-! ### Marks -/

theorem marked_empty : Marked ∅ ∅ .empty where
  grey g := by simp
  black g := by simp

namespace Marked

theorem not_mem (hm : Marked marks path done) (hout : h ∉ path) (hnew : h ∉ done) : marks[h]? = none := by
  cases hmark : marks[h]? with
  | none => rfl
  | some m =>
      cases m with
      | grey => exact absurd ((hm.grey h).1 hmark) hout
      | black => exact absurd ((hm.black h).1 hmark) hnew

/-- A handle that comes onto the stack is grey. -/
theorem enter (hm : Marked marks path done) (hnew : h ∉ done) :
    Marked (marks.insert h .grey) (path.insert h) done where
  grey g := by
    rw [Std.TreeMap.getElem?_insert, Std.TreeSet.mem_insert, ← hm.grey]
    split
    · next heq => simp [heq]
    · next hne => simp [hne]
  black g := by
    rw [Std.TreeMap.getElem?_insert, ← hm.black]
    split
    · next heq =>
      rw [← Std.LawfulEqCmp.compare_eq_iff_eq.1 heq]
      simp [mt (hm.black h).1 hnew]
    · rfl

/-- A handle that leaves the stack is black. -/
theorem leave (hm : Marked marks (path.insert h) done) (hout : h ∉ path) :
    Marked (marks.insert h .black) path (done.insert h) where
  grey g := by
    have hgrey := hm.grey g
    rw [Std.TreeSet.mem_insert] at hgrey
    rw [Std.TreeMap.getElem?_insert]
    split
    · next heq =>
      rw [← Std.LawfulEqCmp.compare_eq_iff_eq.1 heq]
      simp [hout]
    · next hne => simp [hgrey, hne]
  black g := by
    rw [Std.TreeMap.getElem?_insert, Roster.mem_insert, ← hm.black]
    split
    · next heq => simp [Std.LawfulEqCmp.compare_eq_iff_eq.1 heq]
    · next hne =>
      have hother : g ≠ h := fun heq => hne (by rw [heq]; exact Std.ReflCmp.compare_self)
      simp [hother]

end Marked

/-! ### One handle -/

theorem Arrives.of_comes {answer : Except Handle Roster} (hcomes : Comes (advance next) s t)
    (ht : Arrives next t path stack starts answer) : Arrives next s path stack starts answer := by
  cases answer with
  | error c => exact hcomes.trans ht
  | ok done =>
      obtain ⟨marks, hm, hend⟩ := ht
      exact ⟨marks, hm, hcomes.trans hend⟩

theorem Arrives.step {answer : Except Handle Roster} (hstep : advance next s = t)
    (ht : Arrives next t path stack starts answer) : Arrives next s path stack starts answer :=
  .of_comes (.step hstep (.refl ..)) ht

/-- Successors that are taken one after the other are explored one after the other. -/
theorem arrives_foldlM {f : Roster → Handle → Except Handle Roster} {l : List Handle}
    (hm : Marked marks path done)
    (hf : ∀ n ∈ l, ∀ marks done pending, Marked marks path done →
      Arrives next (.going marks ((h, n :: pending) :: stack) starts) path ((h, pending) :: stack) starts
        (f done n)) :
    Arrives next (.going marks ((h, l) :: stack) starts) path ((h, []) :: stack) starts
      (l.foldlM f done) := by
  induction l generalizing marks done with
  | nil => exact ⟨marks, hm, .refl ..⟩
  | cons n rest ih =>
      have hhead := hf n (.head _) marks done rest hm
      rw [List.foldlM_cons]
      cases hfn : f done n with
      | error c =>
          rw [hfn] at hhead
          exact hhead
      | ok done' =>
          rw [hfn] at hhead
          obtain ⟨marks', hm', hcomes⟩ := hhead
          exact .of_comes hcomes (ih hm' fun g hg => hf g (.tail _ hg))

/-- A handle that comes onto the stack leaves it when `foldlM` has explored its successors. -/
theorem arrives_enter {f : Roster → Handle → Except Handle Roster} (hm : Marked marks path done)
    (hout : h ∉ path) (hnew : h ∉ done)
    (hf : ∀ n ∈ next h, ∀ marks done pending, Marked marks (path.insert h) done →
      Arrives next (.going marks ((h, n :: pending) :: stack) starts) (path.insert h)
        ((h, pending) :: stack) starts (f done n)) :
    Arrives next (.going (marks.insert h .grey) ((h, next h) :: stack) starts) path stack starts
      (((next h).foldlM f done).map (·.insert h)) := by
  have htaken := arrives_foldlM (hm.enter hnew) hf
  cases hres : (next h).foldlM f done with
  | error c =>
      rw [hres] at htaken
      exact htaken
  | ok done' =>
      rw [hres] at htaken
      obtain ⟨marks', hm', hcomes⟩ := htaken
      exact ⟨marks'.insert h .black, hm'.leave hout, hcomes.trans (.step rfl (.refl ..))⟩

/-- A successor is taken from the stack as `explore` explores it: what is `Mark.grey` is on the path, and
what is `Mark.black` was explored before. -/
theorem arrives_explore (hclosed : ∀ h ∈ all, ∀ n ∈ next h, n ∈ all) {bound : Nat} {trail : List Handle}
    {g : Handle} (hh : h ∈ all) (hp : OnPath next all path trail h)
    (hbound : all.length < bound + trail.length) (hm : Marked marks path done) :
    Arrives next (.going marks ((g, h :: pending) :: stack) starts) path ((g, pending) :: stack) starts
      (explore next bound path done h) := by
  induction bound generalizing path trail done h marks stack pending g with
  | zero =>
      have := hp.length_le
      omega
  | succ bound ih =>
      unfold explore
      split
      · next hpath =>
        refine .step ?_ (.refl ..)
        simp [advance, (hm.grey h).2 hpath]
      · next hout =>
        split
        · next hdone =>
          refine ⟨marks, hm, .step ?_ (.refl ..)⟩
          simp [advance, (hm.black h).2 hdone]
        · next hnew =>
          have hstep : advance next (.going marks ((g, h :: pending) :: stack) starts)
              = .going (marks.insert h .grey) ((h, next h) :: (g, pending) :: stack) starts := by
            simp [advance, hm.not_mem hout hnew]
          refine .step hstep (arrives_enter hm hout hnew fun n hn marks done pending hm => ?_)
          refine ih (hclosed h hh n hn) (hp.insert hh hout hn) ?_ hm
          rw [List.length_cons]
          omega

/-! ### All starts -/

/-- A start is passed over where it was met before, and else what it leads to is explored. -/
theorem arrives_start (hclosed : ∀ h ∈ all, ∀ n ∈ next h, n ∈ all) {bound : Nat} (hh : h ∈ all)
    (hbound : all.length < bound) (hm : Marked marks ∅ done) :
    Arrives next (.going marks [] (h :: starts)) ∅ [] starts (explore next bound ∅ done h) := by
  cases bound with
  | zero => cases hbound
  | succ bound =>
      have hout : h ∉ (∅ : Std.TreeSet Handle) := by simp
      rw [explore, if_neg hout]
      split
      · next hdone =>
        have hmark : h ∈ marks := by
          rw [← Std.TreeMap.isSome_getElem?_iff_mem, (hm.black h).2 hdone]
          rfl
        exact ⟨marks, hm, .step (by simp [advance, hmark]) (.refl ..)⟩
      · next hnew =>
        have hmark : h ∉ marks := by
          rw [← Std.TreeMap.isSome_getElem?_iff_mem, hm.not_mem hout hnew]
          nofun
        have hstep : advance next (.going marks [] (h :: starts))
            = .going (marks.insert h .grey) [(h, next h)] starts := by
          simp [advance, hmark]
        refine .step hstep (arrives_enter hm hout hnew fun n hn marks done pending hm => ?_)
        refine arrives_explore hclosed (hclosed h hh n hn)
          ((OnPath.empty next all h).insert hh hout hn) ?_ hm
        simpa using hbound

theorem finds_first (hclosed : ∀ h ∈ all, ∀ n ∈ next h, n ∈ all) {bound : Nat}
    (hbound : all.length < bound) (hstarts : ∀ h ∈ starts, h ∈ all) (hm : Marked marks ∅ done) :
    Finds next marks starts ((first next bound done starts).map (·.culprit)) := by
  induction starts generalizing marks done with
  | nil => exact ⟨marks, .refl ..⟩
  | cons start rest ih =>
      have hstart : Arrives next (.going marks [] (start :: rest)) ∅ [] rest
          (explore next bound ∅ done start) :=
        arrives_start hclosed (hstarts start (.head _)) hbound hm
      cases hres : explore next bound ∅ done start with
      | error c =>
          rw [first_cons_of_error hres]
          rw [hres] at hstart
          exact hstart
      | ok done' =>
          rw [first_cons_of_ok hres]
          rw [hres] at hstart
          obtain ⟨marks', hm', hcomes⟩ := hstart
          exact .of_comes hcomes (ih (fun h hh => hstarts h (.tail _ hh)) hm')

/-- The `Traversal` of all that the starts lead to ends, and it finds the culprit that `find?` finds. -/
theorem finds_find? (hclosed : ∀ h ∈ all, ∀ n ∈ next h, n ∈ all) {bound : Nat}
    (hbound : all.length < bound) :
    Finds next ∅ all ((find? next bound all).map (·.culprit)) :=
  finds_first hclosed hbound (fun _ hh => hh) marked_empty

end Traversal

end TagResolution.Cycle
