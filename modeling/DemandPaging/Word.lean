/-!
# Machine words

Sums, differences and products of 64-bit unsigned words, kept as natural numbers. Each operation
answers `none` where the exact result is not a word, so a caller has to say what an overflow means.
-/

namespace DemandPaging.Word

/-- Every word is below this bound, the 64th power of two. -/
abbrev bound : Nat := 0x10000000000000000

/-- The value `n`, if it is a word. -/
def ofNat? (n : Nat) : Option Nat :=
  if n < bound then some n else none

/-- The sum of two words, if it is a word. -/
def add? (a b : Nat) : Option Nat :=
  ofNat? (a + b)

/-- The product of two words, if it is a word. -/
def mul? (a b : Nat) : Option Nat :=
  ofNat? (a * b)

/-- The difference of two words, if it is not negative. -/
def sub? (a b : Nat) : Option Nat :=
  if b ≤ a then some (a - b) else none

/-- The sum of signed words, which wraps around to a signed word. -/
def signedSum (values : List Int) : Int :=
  values.foldl (fun sum value => (sum + value).bmod bound) 0

theorem ofNat?_eq_some {n m : Nat} : ofNat? n = some m ↔ n < bound ∧ m = n := by
  by_cases h : n < bound <;> simp [ofNat?, h, eq_comm]

theorem ofNat?_eq_none {n : Nat} : ofNat? n = none ↔ bound ≤ n := by
  by_cases h : n < bound
  · simp [ofNat?, h]
  · simp [ofNat?, h, Nat.le_of_not_lt h]

theorem add?_of_lt {a b : Nat} (h : a + b < bound) : add? a b = some (a + b) :=
  ofNat?_eq_some.2 ⟨h, rfl⟩

theorem add?_eq_none {a b : Nat} : add? a b = none ↔ bound ≤ a + b :=
  ofNat?_eq_none

theorem mul?_of_lt {a b : Nat} (h : a * b < bound) : mul? a b = some (a * b) :=
  ofNat?_eq_some.2 ⟨h, rfl⟩

theorem sub?_of_le {a b : Nat} (h : b ≤ a) : sub? a b = some (a - b) :=
  if_pos h

end DemandPaging.Word
