/-!
# Page table flags

The low bits of a page table entry say what may be done with a page and what has been done.
-/

namespace DemandPaging.PageTable

/-- One flag of a page table entry. -/
inductive Flag where
  /-- The entry maps a page. -/
  | valid
  /-- The page may be read. -/
  | readable
  /-- The page may be written. -/
  | writable
  /-- The page may be executed. -/
  | executable
  /-- The page may be used in user mode. -/
  | userMode
  /-- The mapping exists in every address space. -/
  | everywhere
  /-- The page was used since the flag was last cleared. -/
  | accessed
  /-- The page was written since the flag was last cleared. -/
  | dirty
deriving DecidableEq

namespace Flag

/-- Every flag, from the lowest bit to the highest. -/
def all : List Flag :=
  [valid, readable, writable, executable, userMode, everywhere, accessed, dirty]

/-- The bit that holds the flag. -/
def bit : Flag → Nat
  | valid => 0
  | readable => 1
  | writable => 2
  | executable => 3
  | userMode => 4
  | everywhere => 5
  | accessed => 6
  | dirty => 7

/-- The letter of the flag. -/
def letter : Flag → String
  | valid => "V"
  | readable => "R"
  | writable => "W"
  | executable => "X"
  | userMode => "U"
  | everywhere => "G"
  | accessed => "A"
  | dirty => "D"

theorem bit_lt (flag : Flag) : flag.bit < 8 := by
  cases flag <;> decide

theorem bit_inj {a b : Flag} : a.bit = b.bit ↔ a = b := by
  cases a <;> cases b <;> decide

end Flag

/-- A combination of flags. Bits that no flag uses may be set as well. -/
structure Flags where
  bits : BitVec 16
deriving DecidableEq

namespace Flags

/-- The combination in which only bits that some flag uses are kept. -/
def declared (bits : BitVec 16) : Flags :=
  ⟨bits &&& 0xff#16⟩

/-- Whether a flag is set. -/
def has (flags : Flags) (flag : Flag) : Bool :=
  flags.bits.getLsbD flag.bit

/-- The combination with one flag set or cleared. -/
def put (flags : Flags) (flag : Flag) (on : Bool) : Flags :=
  if on then ⟨flags.bits ||| BitVec.twoPow 16 flag.bit⟩
  else ⟨flags.bits &&& ~~~BitVec.twoPow 16 flag.bit⟩

/-- The combination of exactly the given flags. -/
def ofList (flags : List Flag) : Flags :=
  flags.foldl (fun acc flag => acc.put flag true) ⟨0⟩

/-- The letters of the flags that are set, lowest bit first, with a bar between them. -/
def letters (flags : Flags) : String :=
  "|".intercalate ((Flag.all.filter flags.has).map Flag.letter)

/-- Setting or clearing a flag leaves the others alone. -/
theorem has_put (flags : Flags) (flag other : Flag) (on : Bool) :
    (flags.put flag on).has other = if other = flag then on else flags.has other := by
  have hlt : other.bit < 16 := Nat.lt_trans other.bit_lt (by decide)
  by_cases h : other = flag
  · subst h
    cases on <;> simp [put, has, hlt]
  · have hne : ¬other.bit = flag.bit := fun e => h (Flag.bit_inj.1 e)
    cases on <;> simp [put, has, hlt, h, hne]

/-! ## Declared combinations -/

/-- Every bit that is set belongs to a flag. -/
def IsDeclared (flags : Flags) : Prop :=
  ∀ i, 8 ≤ i → flags.bits.getLsbD i = false

theorem getLsbD_bits_declared (bits : BitVec 16) (i : Nat) :
    (declared bits).bits.getLsbD i = (bits.getLsbD i && decide (i < 8)) := by
  have hmask : (0xff#16) = (BitVec.allOnes 8).setWidth 16 := by decide
  rw [declared, hmask, BitVec.getLsbD_and, BitVec.getLsbD_setWidth, BitVec.getLsbD_allOnes]
  by_cases h : i < 16
  · simp [h]
  · simp [BitVec.getLsbD_of_ge bits i (by omega)]

theorem isDeclared_declared (bits : BitVec 16) : (declared bits).IsDeclared := by
  intro i hi
  simp [getLsbD_bits_declared, Nat.not_lt.2 hi]

/-- Nothing is lost of a combination in which only flags are set. -/
theorem IsDeclared.declared_eq {flags : Flags} (h : flags.IsDeclared) :
    declared flags.bits = flags := by
  cases flags with
  | mk bits =>
    rw [mk.injEq]
    apply BitVec.eq_of_getLsbD_eq
    intro i _
    have hd := getLsbD_bits_declared bits i
    by_cases h8 : i < 8
    · simpa [h8] using hd
    · have hz : bits.getLsbD i = false := h i (Nat.le_of_not_lt h8)
      simpa [h8, hz] using hd

theorem IsDeclared.put {flags : Flags} (h : flags.IsDeclared) (flag : Flag) (on : Bool) :
    (flags.put flag on).IsDeclared := by
  intro i hi
  have hne : ¬flag.bit = i := by
    have := flag.bit_lt
    omega
  cases on <;> simp [Flags.put, h i hi, hne]

end Flags

end DemandPaging.PageTable
