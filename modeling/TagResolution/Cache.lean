import Std.Data.TreeMap
import TagResolution.Merge

/-!
# Cache of reaches

A bounded memory for the reach of types. Time goes by with every access, and every remembered type
has the time of its last use. A second table lists the remembered types by these times; when the
memory grows beyond its capacity, the first type of that table leaves.
-/

namespace TagResolution

/-- The remembered reach of a type, with the time of its last use. -/
structure CacheEntry where
  reach : Reach
  used : UInt64
deriving DecidableEq

/-- A bounded memory for the `Reach` of types. -/
structure Cache where
  capacity : Nat
  capacity_pos : 0 < capacity
  entries : Std.TreeMap Handle CacheEntry
  /-- The remembered types, by the times of their last uses. -/
  recency : Std.TreeMap UInt64 Handle
  /-- The time of the latest access. After `2 ^ 64` accesses it begins anew. -/
  clock : UInt64

namespace Cache

/-- An empty cache for `capacity` types, and for one at least. -/
def ofCapacity (capacity : Nat) : Cache where
  capacity := max capacity 1
  capacity_pos := by omega
  entries := ∅
  recency := ∅
  clock := 0

def size (c : Cache) : Nat := c.entries.size

/-- Whether a type is remembered. Unlike `get?`, this is no use of its entry. -/
def contains (c : Cache) (h : Handle) : Bool := c.entries.contains h

def tick (c : Cache) : Cache := { c with clock := c.clock + 1 }

/-- Remembers the reach of a type as used now. -/
def record (c : Cache) (h : Handle) (r : Reach) : Cache :=
  { c with
    entries := c.entries.insert h ⟨r, c.clock⟩
    recency := c.recency.insert c.clock h }

/-- Takes a time off the table `recency`. -/
def unlist (c : Cache) (t : UInt64) : Cache := { c with recency := c.recency.erase t }

/-- Forgets the reach of a type. -/
def forget (c : Cache) (h : Handle) : Cache := { c with entries := c.entries.erase h }

/-- The remembered reach of a type, which thereby becomes the one used last. -/
def get? (c : Cache) (h : Handle) : Option Reach × Cache :=
  let c := c.tick
  match c.entries[h]? with
  | none => (none, c)
  | some e => (some e.reach, (c.unlist e.used).record h e.reach)

/-- Forgets the type that was not used for the longest time, the first one of `recency`. -/
def dropOldest (c : Cache) : Cache :=
  match c.recency.toList.head? with
  | none => c
  | some (used, h) => (c.unlist used).forget h

/-- Remembers the reach of a type that is not remembered yet, for which `dropOldest` makes room. -/
def add (c : Cache) (h : Handle) (r : Reach) : Cache :=
  let c := c.tick.record h r
  if c.size ≤ c.capacity then c else c.dropOldest

/-- Remembers a computed reach, unless the type has one by now, which then counts. -/
def publish (c : Cache) (h : Handle) (r : Reach) : Reach × Cache :=
  match c.get? h with
  | (some known, c) => (known, c)
  | (none, c) => (r, c.add h r)

/-- The reach of a type, computed and remembered if it is not known. The computation may use the
cache, and what it reports besides is answered when it ran. -/
def getOrCompute {τ : Type} (c : Cache) (h : Handle) (compute : Cache → (Reach × τ) × Cache) :
    (Reach × Option τ) × Cache :=
  match c.get? h with
  | (some known, c) => ((known, none), c)
  | (none, c) =>
    let ((r, report), c) := compute c
    let (r, c) := c.publish h r
    ((r, some report), c)

def render (c : Cache) : String :=
  "StrategyCache \x7b capacity: " ++ toString c.capacity ++ ", len: " ++ toString c.size ++ " \x7d"

/-! ## The two tables -/

section Tables

variable {c : Cache} {g h : Handle} {e : CacheEntry}

theorem contains_eq_isSome : c.contains h = c.entries[h]?.isSome :=
  Std.TreeMap.contains_eq_isSome_getElem?

theorem get?_of_none (hnone : c.entries[h]? = none) : c.get? h = (none, c.tick) := by
  show (match c.entries[h]? with | none => _ | some e => _) = _
  rw [hnone]

theorem get?_of_some (he : c.entries[h]? = some e) :
    c.get? h = (some e.reach, (c.tick.unlist e.used).record h e.reach) := by
  show (match c.entries[h]? with | none => _ | some e => _) = _
  rw [he]

theorem fst_get? : (c.get? h).1 = c.entries[h]?.map (·.reach) := by
  cases he : c.entries[h]? with
  | none => rw [get?_of_none he]; rfl
  | some e => rw [get?_of_some he]; rfl

theorem getElem?_entries_record (c : Cache) (h g : Handle) (r : Reach) :
    (c.record h r).entries[g]? = if h = g then some ⟨r, c.clock⟩ else c.entries[g]? := by
  simp only [record, Std.TreeMap.getElem?_insert, Std.LawfulEqCmp.compare_eq_iff_eq]

theorem getElem?_recency_record (c : Cache) (h : Handle) (r : Reach) (t : UInt64) :
    (c.record h r).recency[t]? = if c.clock = t then some h else c.recency[t]? := by
  simp only [record, Std.TreeMap.getElem?_insert, Std.LawfulEqCmp.compare_eq_iff_eq]

theorem getElem?_recency_unlist (c : Cache) (t s : UInt64) :
    (c.unlist t).recency[s]? = if t = s then none else c.recency[s]? := by
  simp only [unlist, Std.TreeMap.getElem?_erase, Std.LawfulEqCmp.compare_eq_iff_eq]

theorem getElem?_entries_forget (c : Cache) (h g : Handle) :
    (c.forget h).entries[g]? = if h = g then none else c.entries[g]? := by
  simp only [forget, Std.TreeMap.getElem?_erase, Std.LawfulEqCmp.compare_eq_iff_eq]

theorem size_record_of_none (hnone : c.entries[h]? = none) (r : Reach) :
    (c.record h r).size = c.size + 1 := by
  have hmem : h ∉ c.entries := by
    rw [Std.TreeMap.mem_iff_isSome_getElem?, hnone]
    exact nofun
  simp [size, record, Std.TreeMap.size_insert, hmem]

theorem size_record_of_some (he : c.entries[h]? = some e) (r : Reach) :
    (c.record h r).size = c.size := by
  have hmem : h ∈ c.entries := Std.TreeMap.mem_iff_isSome_getElem?.2 (by rw [he]; rfl)
  simp [size, record, Std.TreeMap.size_insert, hmem]

theorem size_forget_of_some (he : c.entries[h]? = some e) : (c.forget h).size = c.size - 1 := by
  have hmem : h ∈ c.entries := Std.TreeMap.mem_iff_isSome_getElem?.2 (by rw [he]; rfl)
  simp [size, forget, Std.TreeMap.size_erase, hmem]

/-- Some time stands first in `recency`, and its type is the one that `dropOldest` forgets. -/
theorem exists_oldest {t : UInt64} (ht : c.recency[t]? = some h) :
    ∃ oldest g, c.recency[oldest]? = some g ∧
      (∀ t h, c.recency[t]? = some h → oldest ≤ t) ∧
      c.dropOldest = (c.unlist oldest).forget g := by
  have hordered := Std.TreeMap.ordered_keys_toList (t := c.recency)
  have hmem := Std.TreeMap.mem_toList_iff_getElem?_eq_some.2 ht
  cases hlist : c.recency.toList with
  | nil =>
      rw [hlist] at hmem
      cases hmem
  | cons first rest =>
      obtain ⟨oldest, g⟩ := first
      rw [hlist] at hordered
      refine ⟨oldest, g, ?_, ?_, ?_⟩
      · refine Std.TreeMap.mem_toList_iff_getElem?_eq_some.1 ?_
        rw [hlist]
        exact .head _
      · intro t h ht
        have hmem := Std.TreeMap.mem_toList_iff_getElem?_eq_some.2 ht
        rw [hlist] at hmem
        rcases List.mem_cons.1 hmem with he | hrest
        · cases he
          exact UInt64.le_refl _
        · have hlt := (List.pairwise_cons.1 hordered).1 _ hrest
          exact UInt64.le_of_lt (Std.compare_eq_lt.1 hlt)
      · unfold dropOldest
        rw [hlist]
        rfl

end Tables

/-! ## Accesses -/

/-- One access to a cache. -/
inductive Access where
  | inspect
  | get (h : Handle)
  | contains (h : Handle)
  /-- Asks for the reach of a type, which is computed as `r` after the accesses of `during`. -/
  | compute (h : Handle) (r : Reach) (during : List Access)

/-- What an access answers. -/
inductive Answer where
  | inspect
  | get (r : Option Reach)
  | contains (held : Bool)
  /-- The reach, and whether it was computed. -/
  | compute (r : Reach) (ran : Bool)
deriving DecidableEq

mutual

/-- Performs an access. The answers are listed as they are given, each with the cache as it is then; those
`during` a computation come before the answer to the access that computes. -/
def access : Access → Cache → List (Answer × Cache) × Cache
  | .inspect, c => ([(.inspect, c)], c)
  | .get h, c =>
    let (r, c) := c.get? h
    ([(.get r, c)], c)
  | .contains h, c => ([(.contains (c.contains h), c)], c)
  | .compute h r during, c =>
    let ((r, trace), c) := c.getOrCompute h fun c =>
      let (trace, c) := accessAll during c
      ((r, trace), c)
    (trace.getD [] ++ [(.compute r trace.isSome, c)], c)

/-- Performs accesses one after the other, each by `access`. -/
def accessAll : List Access → Cache → List (Answer × Cache) × Cache
  | [], c => ([], c)
  | a :: rest, c =>
    let (trace, c) := access a c
    let (more, c) := accessAll rest c
    (trace ++ more, c)

end

end Cache

end TagResolution
