import TagResolution.Settings

/-!
# Numerals

A count is read from a numeral, and from nothing else: one or more ASCII digits, with or without one
plus sign in front. Leading zeros do not change what it says. A count is read with numbers of 64 bits
if the loop over the digits gives up as soon as a product or a sum has more; since no digit makes a
number smaller, this gives the same as to compare the whole number with the limit.

The main statements are `readCount_eq_some_iff` and `scanCount_eq`.
-/

namespace TagResolution.Text

/-! ## What is read -/

/-- One or more ASCII digits, with or without a plus sign in front, say the number that they are the decimal
digits of, by `Nat.ofDigitChars`. -/
inductive Numeral : List Char → Nat → Prop
  | plain {digits : List Char} : digits ≠ [] → (∀ c ∈ digits, c.isDigit) →
      Numeral digits (Nat.ofDigitChars 10 digits 0)
  | signed {digits : List Char} : digits ≠ [] → (∀ c ∈ digits, c.isDigit) →
      Numeral ('+' :: digits) (Nat.ofDigitChars 10 digits 0)

variable {c : Char} {cs : List Char} {n m limit : Nat}

theorem digit?_eq_some_iff {d : Nat} : digit? c = some d ↔ c.isDigit ∧ c.toNat - '0'.toNat = d := by
  simp [digit?]

theorem readDigits_eq_some_iff :
    readDigits n cs = some m ↔ (∀ c ∈ cs, c.isDigit) ∧ Nat.ofDigitChars 10 cs n = m := by
  induction cs generalizing n with
  | nil => simp [readDigits]
  | cons c cs ih =>
      simp only [readDigits, Option.bind_eq_some_iff, digit?_eq_some_iff, ih,
        List.forall_mem_cons, Nat.ofDigitChars_cons]
      constructor
      · rintro ⟨-, ⟨hc, rfl⟩, hcs, hm⟩
        exact ⟨⟨hc, hcs⟩, hm⟩
      · rintro ⟨⟨hc, hcs⟩, hm⟩
        exact ⟨_, ⟨hc, rfl⟩, hcs, hm⟩

theorem dropPlus_of_isDigit (hcs : ∀ c ∈ cs, c.isDigit) : dropPlus cs = cs := by
  unfold dropPlus
  split
  · exact absurd (hcs '+' (.head _)) (by decide)
  · rfl

theorem eq_dropPlus (cs : List Char) : cs = dropPlus cs ∨ cs = '+' :: dropPlus cs := by
  unfold dropPlus
  split
  · exact .inr rfl
  · exact .inl rfl

theorem numeral_iff : Numeral cs n ↔ dropPlus cs ≠ [] ∧ (∀ c ∈ dropPlus cs, c.isDigit) ∧
    Nat.ofDigitChars 10 (dropPlus cs) 0 = n := by
  constructor
  · rintro (⟨hne, hdigits⟩ | ⟨hne, hdigits⟩)
    · rw [dropPlus_of_isDigit hdigits]
      exact ⟨hne, hdigits, rfl⟩
    · exact ⟨hne, hdigits, rfl⟩
  · rintro ⟨hne, hdigits, rfl⟩
    rcases eq_dropPlus cs with heq | heq
    · rw [← heq] at hne hdigits ⊢
      exact .plain hne hdigits
    · generalize dropPlus cs = digits at *
      exact heq ▸ .signed hne hdigits

/-- By `readCount` the numerals for numbers below the limit are read, and nothing else is. -/
theorem readCount_eq_some_iff : readCount limit cs = some n ↔ Numeral cs n ∧ n < limit := by
  rw [numeral_iff, readCount]
  split
  · next hnil => simp [hnil]
  · next hne =>
    rw [Option.filter_eq_some_iff, readDigits_eq_some_iff, decide_eq_true_eq]
    exact ⟨fun h => ⟨⟨hne, h.1⟩, h.2⟩, fun h => ⟨h.1.2, h.2⟩⟩

/-- The number that `toString` writes is read again, whatever sign and zeros stand in front. -/
theorem numeral_toString (plus : Bool) (zeros n : Nat) :
    Numeral ((if plus then ['+'] else []) ++ List.replicate zeros '0' ++ (toString n).toList) n := by
  have htoList : (toString n).toList = Nat.toDigits 10 n := Nat.toList_repr
  have hne : List.replicate zeros '0' ++ Nat.toDigits 10 n ≠ [] := by simp
  have hdigits : ∀ c ∈ List.replicate zeros '0' ++ Nat.toDigits 10 n, c.isDigit := by
    intro c hc
    rcases List.mem_append.1 hc with hc | hc
    · rw [List.eq_of_mem_replicate hc]
      decide
    · exact Nat.isDigit_of_mem_toDigits (by decide) (by decide) hc
  have hvalue : Nat.ofDigitChars 10 (List.replicate zeros '0' ++ Nat.toDigits 10 n) 0 = n := by
    rw [Nat.ofDigitChars_append, Nat.ofDigitChars_replicate_zero, Nat.mul_zero,
      Nat.ofDigitChars_ten_toDigits]
  rw [htoList, List.append_assoc]
  cases plus with
  | false => simpa [hvalue] using Numeral.plain hne hdigits
  | true => simpa [hvalue] using Numeral.signed hne hdigits

/-! ## Numbers of 64 bits -/

/-- The number, if it has 64 bits. -/
def fit? (n : Nat) : Option UInt64 := if h : n < UInt64.size then some (.ofNatLT n h) else none

/-- Like `readDigits`, but with numbers of 64 bits, and given up where a product or a sum has more. -/
def scanDigits (n : UInt64) : List Char → Option UInt64
  | [] => some n
  | c :: cs =>
    (fit? (10 * n.toNat)).bind fun tenfold =>
      (digit? c).bind fun d => (fit? (tenfold.toNat + d)).bind fun next => scanDigits next cs

/-- The count of 64 bits that a text says, read by `scanDigits`. -/
def scanCount (cs : List Char) : Option UInt64 :=
  match dropPlus cs with
  | [] => none
  | digits => scanDigits 0 digits

theorem exists_fit? (hn : n < UInt64.size) : ∃ k, fit? n = some k ∧ k.toNat = n :=
  ⟨.ofNatLT n hn, dif_pos hn, UInt64.toNat_ofNatLT⟩

theorem fit?_eq_none (hn : ¬ n < UInt64.size) : fit? n = none := dif_neg hn

/-- No digit makes a number smaller. -/
theorem le_of_readDigits (hm : readDigits n cs = some m) : n ≤ m := by
  induction cs generalizing n with
  | nil => exact Nat.le_of_eq (Option.some.inj hm)
  | cons c cs ih =>
      obtain ⟨d, -, hm⟩ := Option.bind_eq_some_iff.1 hm
      have := ih hm
      omega

theorem filter_readDigits_eq_none (hn : ¬ n < limit) :
    (readDigits n cs).filter (· < limit) = none := by
  refine Option.filter_eq_none_iff.2 fun m hm => ?_
  have hle := le_of_readDigits hm
  simp only [decide_eq_true_eq]
  omega

/-- The loop `scanDigits` with numbers of 64 bits reads the numbers that have 64 bits. -/
theorem scanDigits_eq (n : UInt64) (cs : List Char) :
    (scanDigits n cs).map UInt64.toNat = (readDigits n.toNat cs).filter (· < UInt64.size) := by
  induction cs generalizing n with
  | nil =>
      have hfits : n.toNat < UInt64.size := n.toNat_lt
      simp [scanDigits, readDigits, Option.filter_some, hfits]
  | cons c cs ih =>
      cases hd : digit? c with
      | none => simp [scanDigits, readDigits, hd]
      | some d =>
          have hread : readDigits n.toNat (c :: cs) = readDigits (10 * n.toNat + d) cs := by
            simp [readDigits, hd]
          rw [hread]
          by_cases hsum : 10 * n.toNat + d < UInt64.size
          · obtain ⟨tenfold, hproduct, htenfold⟩ := exists_fit? (n := 10 * n.toNat) (by omega)
            obtain ⟨next, hnext, heq⟩ := exists_fit? hsum
            have hscan : scanDigits n (c :: cs) = scanDigits next cs := by
              simp [scanDigits, hd, hproduct, htenfold, hnext]
            rw [hscan, ih, heq]
          · rw [filter_readDigits_eq_none hsum, Option.map_eq_none_iff]
            -- Either the product has too many bits already, or the sum has.
            by_cases hten : 10 * n.toNat < UInt64.size
            · obtain ⟨tenfold, hproduct, htenfold⟩ := exists_fit? hten
              simp [scanDigits, hd, hproduct, htenfold, fit?_eq_none hsum]
            · simp [scanDigits, fit?_eq_none hten]

/-- Counts of 64 bits may be read by `scanCount` or by `readCount`. -/
theorem scanCount_eq (cs : List Char) :
    (scanCount cs).map UInt64.toNat = readCount UInt64.size cs := by
  unfold scanCount readCount
  cases dropPlus cs with
  | nil => rfl
  | cons c rest => exact scanDigits_eq 0 (c :: rest)

end TagResolution.Text
