import DemandPaging.Address
import DemandPaging.PageTable.Flags

/-!
# Page table entries

An entry is one 64-bit word: the flags in its low bits, and above ten bits the number of the frame,
of which 44 bits are kept.
-/

namespace DemandPaging.PageTable

/-- A packed page table entry. -/
structure Entry where
  bits : BitVec 64
deriving DecidableEq

namespace Entry

/-- The entry for a frame and its flags. -/
def pack (frame : Frame) (flags : Flags) : Entry :=
  ⟨BitVec.ofNat 64 frame <<< 10 ||| flags.bits.setWidth 64⟩

/-- The frame that the entry names. -/
def frame (entry : Entry) : Frame :=
  (entry.bits.extractLsb' 10 44).toNat

/-- The flags of the entry. -/
def flags (entry : Entry) : Flags :=
  .declared (entry.bits.setWidth 16)

/-- Whether a flag of the entry is set. -/
def has (entry : Entry) (flag : Flag) : Bool :=
  entry.flags.has flag

/-- The entry with one flag set or cleared; the frame and the other flags are packed again. -/
def put (entry : Entry) (flag : Flag) (on : Bool) : Entry :=
  pack entry.frame (entry.flags.put flag on)

/-- Whether the entry maps a page. -/
def isValid (entry : Entry) : Bool :=
  entry.has .valid

/-- Whether the page may be written. -/
def isWritable (entry : Entry) : Bool :=
  entry.has .writable

/-- The entry as a diagnostic shows it. -/
def debug (entry : Entry) : String :=
  "PageTableEntry \x7b bits: " ++ toString entry.bits.toNat ++ " \x7d"

/-! ## Packing and unpacking -/

/-- Frames below this bound, the 44th power of two, fit into an entry. -/
def frameBound : Nat := 0x100000000000

/-- The bits of an entry: above ten bits those of the frame, and below those of the flags. -/
theorem getLsbD_bits_pack (frame : Frame) (flags : Flags) {i : Nat} (hi : i < 64) :
    (pack frame flags).bits.getLsbD i =
      (decide (10 ≤ i) && frame.testBit (i - 10) || flags.bits.getLsbD i) := by
  simp only [pack, BitVec.getLsbD_or, BitVec.getLsbD_shiftLeft, BitVec.getLsbD_ofNat,
    BitVec.getLsbD_setWidth, hi, decide_true, Bool.true_and]
  by_cases h : i < 10
  · simp [h, Nat.not_le.2 h]
  · have hlt : i - 10 < 64 := by omega
    simp [h, hlt, Nat.le_of_not_lt h]

/-- The frame of an entry is the one that was packed, whatever flags are packed with it. -/
theorem frame_pack {frame : Frame} {flags : Flags} (hf : frame < frameBound)
    (h : flags.IsDeclared) : (pack frame flags).frame = frame := by
  have hbits : (pack frame flags).bits.extractLsb' 10 44 = BitVec.ofNat 44 frame := by
    apply BitVec.eq_of_getLsbD_eq
    intro i hi
    rw [BitVec.getLsbD_extractLsb', getLsbD_bits_pack _ _ (by omega), h _ (by omega),
      BitVec.getLsbD_ofNat]
    simp [hi]
  rw [Entry.frame, hbits, BitVec.toNat_ofNat]
  exact Nat.mod_eq_of_lt hf

/-- The flags of an entry are the ones that were packed, whatever frame is packed with them. -/
theorem flags_pack {frame : Frame} {flags : Flags} (h : flags.IsDeclared) :
    (pack frame flags).flags = flags := by
  have hbits : Flags.declared ((pack frame flags).bits.setWidth 16) = .declared flags.bits := by
    rw [Flags.mk.injEq]
    apply BitVec.eq_of_getLsbD_eq
    intro i _
    rw [Flags.getLsbD_bits_declared, Flags.getLsbD_bits_declared, BitVec.getLsbD_setWidth]
    by_cases h8 : i < 8
    · have hlow : ¬10 ≤ i := by omega
      rw [getLsbD_bits_pack _ _ (by omega)]
      simp [h8, hlow, show i < 16 by omega]
    · simp [h8]
  exact hbits.trans h.declared_eq

theorem isDeclared_flags (entry : Entry) : entry.flags.IsDeclared :=
  Flags.isDeclared_declared _

theorem frame_lt (entry : Entry) : entry.frame < frameBound :=
  BitVec.isLt _

/-- Setting or clearing a flag keeps the frame. -/
@[simp] theorem frame_put (entry : Entry) (flag : Flag) (on : Bool) :
    (entry.put flag on).frame = entry.frame :=
  frame_pack entry.frame_lt (entry.isDeclared_flags.put flag on)

/-- Setting or clearing a flag keeps the other flags. -/
theorem has_put (entry : Entry) (flag other : Flag) (on : Bool) :
    (entry.put flag on).has other = if other = flag then on else entry.has other := by
  rw [has, put, flags_pack (entry.isDeclared_flags.put flag on), Flags.has_put]
  rfl

end Entry

end DemandPaging.PageTable
