import Mathlib
import TagResolution.Settings
import TagResolution.Proofs.Numerals

/-!
# Variables

What each of the two variables may say, and what counts when it says something else. A choice of nested
configuration is said by its word, in any mixture of capital and small ASCII letters, and a capacity by a
numeral for a number of 64 bits; blanks around them do not count. What one variable says does not depend
on the other.

The main statement is `Settings.ofLookup_reads`.
-/

namespace TagResolution

namespace Text

/-! ## ASCII case -/

/-- The first is the capital of the second, a small ASCII letter. -/
def IsCapitalOf (c d : Char) : Prop := c.isUpper ∧ d.toNat = c.toNat + 32

/-- The same character, or the same ASCII letter as a capital and as a small letter. -/
def SameLetter (c d : Char) : Prop := c = d ∨ IsCapitalOf c d ∨ IsCapitalOf d c

theorem isUpper_iff_toNat {c : Char} : c.isUpper ↔ 65 ≤ c.toNat ∧ c.toNat ≤ 90 := by
  simp [Char.isUpper, UInt32.le_iff_toNat_le]

theorem toNat_toLower (c : Char) : c.toLower.toNat = if c.isUpper then c.toNat + 32 else c.toNat := by
  split
  · next hupper =>
    have hbounds := isUpper_iff_toNat.1 hupper
    have hvalid : (c.toNat + 32).isValidChar := .inl (by omega)
    rw [Char.toLower_eq_of_isUpper hupper, Char.toNat_ofNat, if_pos hvalid]
  · next hother => rw [Char.toLower_eq_of_not_isUpper hother]

/-- Two characters have the same `toLower` exactly if they are the `SameLetter`. -/
theorem toLower_eq_iff {c d : Char} : c.toLower = d.toLower ↔ SameLetter c d := by
  unfold SameLetter IsCapitalOf
  rw [← Char.toNat_inj, ← Char.toNat_inj, toNat_toLower, toNat_toLower]
  simp only [isUpper_iff_toNat]
  split <;> split <;> omega

theorem map_toLower_eq_iff {cs ds : List Char} :
    cs.map Char.toLower = ds.map Char.toLower ↔ List.Forall₂ SameLetter cs ds := by
  rw [← List.forall₂_eq_eq_eq, List.forall₂_map_left_iff, List.forall₂_map_right_iff]
  simp only [toLower_eq_iff]

/-! ## Blanks in numerals -/

theorem not_isBlank_of_isDigit {c : Char} (hc : c.isDigit) : ¬ isBlank c := by
  have hrange : 48 ≤ c.toNat ∧ c.toNat ≤ 57 := Char.isDigit_iff_toNat.1 hc
  intro hblank
  simp [isBlank, blankRanges] at hblank
  omega

theorem Numeral.not_isBlank {cs : List Char} {n : Nat} (hn : Numeral cs n) : ∀ c ∈ cs, ¬ isBlank c := by
  cases hn with
  | plain hne hdigits => exact fun c hc => not_isBlank_of_isDigit (hdigits c hc)
  | signed hne hdigits =>
      refine List.forall_mem_cons.2 ⟨by decide, fun c hc => ?_⟩
      exact not_isBlank_of_isDigit (hdigits c hc)

end Text

namespace Nesting

/-! ## Choices -/

/-- The word that a setting has for a choice. -/
def word : Nesting → String
  | .inherit => "inherit"
  | .override => "override"

/-- A text names a choice if it is the `word` for it, up to blanks around and ASCII case. -/
def NamedBy (n : Nesting) (text : String) : Prop :=
  ∃ core, Text.Strips text.toList core ∧ List.Forall₂ Text.SameLetter core n.word.toList

variable {n : Nesting} {text : String}

theorem namedBy_iff : n.NamedBy text ↔ (Text.trim text.toList).map Char.toLower = n.word.toList := by
  have hword : n.word.toList.map Char.toLower = n.word.toList := by cases n <;> decide
  unfold NamedBy
  simp only [← Text.trim_eq_iff, ← Text.map_toLower_eq_iff, hword, exists_eq_left']

theorem read_eq_ok_iff : read text = .ok n ↔ n.NamedBy text := by
  rw [namedBy_iff, read]
  split
  · next hinherit => cases n <;> simp [word, hinherit]
  · next hinherit =>
    split
    · next hoverride => cases n <;> simp [word, hoverride]
    · next hoverride =>
      cases n with
      | inherit => exact ⟨nofun, fun h => absurd h hinherit⟩
      | override => exact ⟨nofun, fun h => absurd h hoverride⟩

theorem toOption_read_eq_some_iff : (read text).toOption = some n ↔ n.NamedBy text := by
  rw [← read_eq_ok_iff]
  cases read text <;> simp [Except.toOption]

end Nesting

namespace Settings

/-! ## Capacities -/

/-- A text states a count if it is a `Text.Numeral` for a number of 64 bits, up to blanks around. -/
def States (text : String) (n : Nat) : Prop :=
  (∃ core, Text.Strips text.toList core ∧ Text.Numeral core n) ∧ n < UInt64.size

theorem readCapacity_eq_some_iff {text : String} {n : Nat} :
    readCapacity text = some n ↔ States text n := by
  rw [readCapacity, Text.readCount_eq_some_iff, States]
  simp only [← Text.trim_eq_iff, exists_eq_left']

/-- What may stand around the digits of a number. -/
structure Padding where
  before : List Char
  plus : Bool
  zeros : Nat
  after : List Char
  before_blank : ∀ c ∈ before, Text.isBlank c
  after_blank : ∀ c ∈ after, Text.isBlank c

namespace Padding

/-- A number in decimal digits, with padding. -/
def write (p : Padding) (n : Nat) : String :=
  .ofList (p.before ++
    ((if p.plus then ['+'] else []) ++ List.replicate p.zeros '0' ++ (toString n).toList) ++ p.after)

/-- A number of 64 bits is stated by its digits, with any `Padding`. -/
theorem states_write (p : Padding) {n : Nat} (hn : n < UInt64.size) : States (p.write n) n := by
  have hnumeral := Text.numeral_toString p.plus p.zeros n
  refine ⟨⟨_, ?_, hnumeral⟩, hn⟩
  rw [write, String.toList_ofList]
  exact .of_not_isBlank p.before_blank hnumeral.not_isBlank p.after_blank

end Padding

/-! ## Variables -/

/-- What is said counts, and where nothing is said the fallback. -/
def Overlaid {α : Type} (said : α → Prop) (fallback a : α) : Prop :=
  said a ∨ (∀ b, ¬ said b) ∧ a = fallback

theorem getD_eq_iff {α : Type} {o : Option α} {said : α → Prop} (hsaid : ∀ a, o = some a ↔ said a)
    (fallback a : α) : o.getD fallback = a ↔ Overlaid said fallback a := by
  unfold Overlaid
  simp only [← hsaid]
  cases o with
  | none => simp [eq_comm]
  | some b => simp

variable (lookup : String → Option String)

theorem nesting_ofLookup : (ofLookup lookup).nesting =
    ((lookup nestingVariable).bind fun text => (Nesting.read text).toOption).getD .override := by
  unfold ofLookup
  cases (lookup cacheCapacityVariable).bind readCapacity <;>
    cases lookup nestingVariable with
    | none => rfl
    | some text => cases hread : Nesting.read text <;> simp [hread] <;> rfl

theorem cacheCapacity_ofLookup : (ofLookup lookup).cacheCapacity =
    (((lookup cacheCapacityVariable).bind readCapacity).map fun n => max n 1).getD 32 := by
  unfold ofLookup
  cases (lookup cacheCapacityVariable).bind readCapacity with
  | none => split <;> rfl
  | some n => rfl

theorem nesting_ofLookup_eq_iff (nesting : Nesting) : (ofLookup lookup).nesting = nesting ↔
    Overlaid (fun n : Nesting => ∃ text ∈ lookup nestingVariable, n.NamedBy text) .override nesting := by
  rw [nesting_ofLookup]
  refine getD_eq_iff (fun n => ?_) _ _
  simp [Option.bind_eq_some_iff, Nesting.toOption_read_eq_some_iff]

theorem cacheCapacity_ofLookup_eq_iff (capacity : Nat) : (ofLookup lookup).cacheCapacity = capacity ↔
    Overlaid (fun c => ∃ text ∈ lookup cacheCapacityVariable, ∃ n, States text n ∧ c = max 1 n) 32
      capacity := by
  rw [cacheCapacity_ofLookup]
  refine getD_eq_iff (fun c => ?_) _ _
  simp only [Option.map_eq_some_iff, Option.bind_eq_some_iff, readCapacity_eq_some_iff]
  constructor
  · rintro ⟨n, ⟨text, htext, hn⟩, rfl⟩
    exact ⟨text, htext, n, hn, Nat.max_comm n 1⟩
  · rintro ⟨text, htext, n, hn, rfl⟩
    exact ⟨n, ⟨text, htext, hn⟩, Nat.max_comm n 1⟩

/-- What the two variables say counts, each by itself. The choice is the one whose word the first variable
is, and else `override`; the capacity is the number of 64 bits that the second variable is a numeral for, but
at least one, and else 32. A number of 64 bits that is written in decimal digits is read again. -/
theorem ofLookup_reads :
    (∀ nesting, (ofLookup lookup).nesting = nesting ↔
      Overlaid (fun n : Nesting => ∃ text ∈ lookup nestingVariable, n.NamedBy text) .override nesting) ∧
    (∀ capacity, (ofLookup lookup).cacheCapacity = capacity ↔
      Overlaid (fun c => ∃ text ∈ lookup cacheCapacityVariable, ∃ n, States text n ∧ c = max 1 n) 32
        capacity) ∧
    (∀ other, other nestingVariable = lookup nestingVariable →
      (ofLookup other).nesting = (ofLookup lookup).nesting) ∧
    (∀ other, other cacheCapacityVariable = lookup cacheCapacityVariable →
      (ofLookup other).cacheCapacity = (ofLookup lookup).cacheCapacity) ∧
    0 < (ofLookup lookup).cacheCapacity ∧
    ∀ n < UInt64.size, ∀ p : Padding, lookup cacheCapacityVariable = some (p.write n) →
      (ofLookup lookup).cacheCapacity = max 1 n := by
  have hcapacity := cacheCapacity_ofLookup_eq_iff lookup
  refine ⟨nesting_ofLookup_eq_iff lookup, hcapacity, fun other hsame => ?_, fun other hsame => ?_, ?_,
    fun n hn p htext => ?_⟩
  · rw [nesting_ofLookup, hsame, ← nesting_ofLookup]
  · rw [cacheCapacity_ofLookup, hsame, ← cacheCapacity_ofLookup]
  · rcases (hcapacity _).1 rfl with ⟨text, -, n, -, hmax⟩ | ⟨-, hdefault⟩
    · omega
    · omega
  · exact (hcapacity _).2 (.inl ⟨p.write n, htext, n, p.states_write hn, rfl⟩)

/-- Both variables say something, in an unusual way. -/
def unusual (key : String) : Option String :=
  if key = nestingVariable then some " inHERIT\t"
  else if key = cacheCapacityVariable then some " +008\n"
  else none

theorem ofLookup_reads_unusual : (ofLookup unusual).nesting = .inherit ∧
    (ofLookup unusual).cacheCapacity = 8 ∧
    (ofLookup fun key =>
      if key = nestingVariable then some "sometimes" else unusual key).cacheCapacity = 8 := by
  obtain ⟨hnesting, -, -, hcapacity, -, hwritten⟩ := ofLookup_reads unusual
  have hnamed : Nesting.inherit.NamedBy " inHERIT\t" := Nesting.namedBy_iff.2 (by decide)
  let padding : Padding := ⟨[' '], true, 2, ['\n'], List.forall_mem_singleton.2 (by decide),
    List.forall_mem_singleton.2 (by decide)⟩
  have hread : (ofLookup unusual).cacheCapacity = 8 :=
    (hwritten 8 (by decide) padding (by decide)).trans (by decide)
  refine ⟨(hnesting .inherit).2 (.inl ⟨" inHERIT\t", by decide, hnamed⟩), hread, ?_⟩
  exact (hcapacity _ (by decide)).trans hread

/-- A number with more than 64 bits, a second sign and an empty text leave the default. -/
example : ["18446744073709551616", "++8", " "].map readCapacity = [none, none, none] := by decide

end Settings

end TagResolution
