/-!
# Bitmaps

A row of bits, stored in 64-bit words. The search for a clear bit goes through the words from the
first on and takes the lowest clear bit of the first word that has one; seen from outside, it takes
the first clear bit of the row (`firstClear?_eq_some`, `firstClear?_eq_none`).
-/

namespace DemandPaging.Swap

/-- A row of bits in 64-bit words. -/
structure Bitmap where
  words : Array (BitVec 64)
deriving DecidableEq

namespace Bitmap

/-- Enough words for `count` bits, all clear. -/
def clear (count : Nat) : Bitmap :=
  ⟨Array.replicate ((count + 63) / 64) 0#64⟩

/-- The bit at `index`, if there is a word for it. -/
def test? (bitmap : Bitmap) (index : Nat) : Option Bool :=
  bitmap.words[index / 64]?.map (·.getLsbD (index % 64))

/-- The word with one bit set or cleared. -/
def putBit (word : BitVec 64) (bit : Nat) (on : Bool) : BitVec 64 :=
  if on then word ||| BitVec.twoPow 64 bit else word &&& ~~~BitVec.twoPow 64 bit

/-- The bitmap with one bit set or cleared; bits without a word are left out. -/
def put (bitmap : Bitmap) (index : Nat) (on : Bool) : Bitmap :=
  ⟨bitmap.words.modify (index / 64) (putBit · (index % 64) on)⟩

/-- The lowest clear bit of a word. -/
def lowestClear? (word : BitVec 64) : Option Nat :=
  (List.range 64).find? fun bit => !word.getLsbD bit

/-- The first clear bit among the words from number `index` on. -/
def firstClearFrom? (index : Nat) : List (BitVec 64) → Option Nat
  | [] => none
  | word :: words =>
    match lowestClear? word with
    | some bit => some (64 * index + bit)
    | none => firstClearFrom? (index + 1) words

/-- The first clear bit. -/
def firstClear? (bitmap : Bitmap) : Option Nat :=
  firstClearFrom? 0 bitmap.words.toList

/-! ## Setting and clearing -/

theorem getLsbD_putBit (word : BitVec 64) {bit : Nat} (i : Nat) (on : Bool) (hb : bit < 64) :
    (putBit word bit on).getLsbD i = if i = bit then on else word.getLsbD i := by
  by_cases h : i = bit
  · subst h
    cases on <;> simp [putBit, hb]
  · have hne : ¬bit = i := fun e => h e.symm
    by_cases hi : i < 64
    · cases on <;> simp [putBit, h, hi]
    · have hz : word.getLsbD i = false := BitVec.getLsbD_of_ge _ _ (Nat.le_of_not_lt hi)
      cases on <;> simp [putBit, h, hne, hi, hz]

/-- Setting or clearing a bit leaves the others alone. -/
theorem test?_put (bitmap : Bitmap) (index other : Nat) (on : Bool) :
    (bitmap.put index on).test? other =
      if other = index then (bitmap.test? index).map fun _ => on else bitmap.test? other := by
  have hlt : index % 64 < 64 := Nat.mod_lt _ (by decide)
  simp only [test?, put, Array.getElem?_modify]
  by_cases hw : index / 64 = other / 64
  · rw [if_pos hw, ← hw, Option.map_map]
    by_cases h : other = index
    · subst h
      simp [getLsbD_putBit _ _ _ hlt, Function.comp_def]
    · have hb : ¬other % 64 = index % 64 := by omega
      simp [getLsbD_putBit _ _ _ hlt, h, hb, Function.comp_def]
  · have h : ¬other = index := fun e => hw (by rw [e])
    rw [if_neg hw, if_neg h]

/-! ## Searching -/

theorem lowestClear?_eq_some {word : BitVec 64} {bit : Nat} :
    lowestClear? word = some bit ↔
      bit < 64 ∧ word.getLsbD bit = false ∧ ∀ i < bit, word.getLsbD i = true := by
  simp [lowestClear?, List.find?_range_eq_some, and_left_comm]

theorem lowestClear?_eq_none {word : BitVec 64} :
    lowestClear? word = none ↔ ∀ i < 64, word.getLsbD i = true := by
  simp [lowestClear?]

/-- The bit at an index of a row of words. -/
def bitOf? (words : List (BitVec 64)) (index : Nat) : Option Bool :=
  words[index / 64]?.map (·.getLsbD (index % 64))

theorem bitOf?_toList (bitmap : Bitmap) (index : Nat) :
    bitOf? bitmap.words.toList index = bitmap.test? index := by
  simp [bitOf?, test?]

theorem bitOf?_cons_of_lt (word : BitVec 64) (words : List (BitVec 64)) {i : Nat} (hi : i < 64) :
    bitOf? (word :: words) i = some (word.getLsbD i) := by
  simp [bitOf?, Nat.div_eq_of_lt hi, Nat.mod_eq_of_lt hi]

theorem bitOf?_cons_add (word : BitVec 64) (words : List (BitVec 64)) (i : Nat) :
    bitOf? (word :: words) (i + 64) = bitOf? words i := by
  simp [bitOf?]

theorem bitOf?_cons_of_le (word : BitVec 64) (words : List (BitVec 64)) {i : Nat} (hi : 64 ≤ i) :
    bitOf? (word :: words) i = bitOf? words (i - 64) := by
  have h := bitOf?_cons_add word words (i - 64)
  rwa [Nat.sub_add_cancel hi] at h

theorem firstClearFrom?_eq_some {start : Nat} {words : List (BitVec 64)} {index : Nat} :
    firstClearFrom? start words = some index ↔
      ∃ k, index = 64 * start + k ∧ bitOf? words k = some false ∧
        ∀ i < k, bitOf? words i = some true := by
  induction words generalizing start with
  | nil => simp [firstClearFrom?, bitOf?]
  | cons word words ih =>
    rw [firstClearFrom?]
    cases hw : lowestClear? word with
    | some bit =>
      obtain ⟨hlt, hclear, hset⟩ := lowestClear?_eq_some.1 hw
      have hb : bitOf? (word :: words) bit = some false := by
        rw [bitOf?_cons_of_lt _ _ hlt, hclear]
      have hs : ∀ i < bit, bitOf? (word :: words) i = some true := fun i hi => by
        rw [bitOf?_cons_of_lt _ _ (Nat.lt_trans hi hlt), hset i hi]
      constructor
      · intro h
        exact ⟨bit, (Option.some.inj h).symm, hb, hs⟩
      · rintro ⟨k, rfl, hk, hbelow⟩
        have hge : ¬k < bit := fun h => by simp [hs k h] at hk
        have hle : ¬bit < k := fun h => by simp [hbelow bit h] at hb
        rw [show k = bit by omega]
    | none =>
      have hset := lowestClear?_eq_none.1 hw
      simp only [ih]
      constructor
      · rintro ⟨k, rfl, hk, hbelow⟩
        refine ⟨k + 64, by omega, by rw [bitOf?_cons_add, hk], fun i hi => ?_⟩
        by_cases h : i < 64
        · rw [bitOf?_cons_of_lt _ _ h, hset i h]
        · rw [bitOf?_cons_of_le _ _ (Nat.le_of_not_lt h), hbelow _ (by omega)]
      · rintro ⟨k, rfl, hk, hbelow⟩
        have h64 : 64 ≤ k := Nat.le_of_not_lt fun h => by
          simp [bitOf?_cons_of_lt _ _ h, hset k h] at hk
        refine ⟨k - 64, by omega, ?_, fun i hi => ?_⟩
        · rw [← bitOf?_cons_of_le _ _ h64, hk]
        · rw [← bitOf?_cons_add word, hbelow _ (by omega)]

theorem firstClearFrom?_eq_none {start : Nat} {words : List (BitVec 64)} :
    firstClearFrom? start words = none ↔ ∀ i, bitOf? words i ≠ some false := by
  induction words generalizing start with
  | nil => simp [firstClearFrom?, bitOf?]
  | cons word words ih =>
    rw [firstClearFrom?]
    cases hw : lowestClear? word with
    | some bit =>
      obtain ⟨hlt, hclear, _⟩ := lowestClear?_eq_some.1 hw
      simp only [reduceCtorEq, false_iff]
      intro h
      exact h bit (by rw [bitOf?_cons_of_lt _ _ hlt, hclear])
    | none =>
      have hset := lowestClear?_eq_none.1 hw
      simp only [ih]
      constructor
      · intro h i
        by_cases hi : i < 64
        · simp [bitOf?_cons_of_lt _ _ hi, hset i hi]
        · rw [bitOf?_cons_of_le _ _ (Nat.le_of_not_lt hi)]
          exact h _
      · intro h i
        rw [← bitOf?_cons_add word]
        exact h _

/-- The search finds a clear bit with no clear bit before it. -/
theorem firstClear?_eq_some {bitmap : Bitmap} {index : Nat} :
    bitmap.firstClear? = some index ↔
      bitmap.test? index = some false ∧ ∀ i < index, bitmap.test? i = some true := by
  simp only [firstClear?, firstClearFrom?_eq_some, bitOf?_toList, Nat.mul_zero, Nat.zero_add,
    exists_eq_left']

/-- The search finds nothing only if no bit is clear. -/
theorem firstClear?_eq_none {bitmap : Bitmap} :
    bitmap.firstClear? = none ↔ ∀ i, bitmap.test? i ≠ some false := by
  simp only [firstClear?, firstClearFrom?_eq_none, bitOf?_toList]

end Bitmap

end DemandPaging.Swap
