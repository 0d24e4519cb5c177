import DemandPaging.Layout

/-!
# Byte strings and page contents

Contents change in one way only: a run of bytes is laid over a base from some position on, and what
would stick out beyond the end of the base is lost.
-/

namespace DemandPaging

/-- A string of bytes of any length. -/
abbrev Bytes := Array UInt8

namespace Bytes

/-- The base with `run` laid over it from `offset` on; the size of the base does not change. -/
def overlay (base : Bytes) (offset : Nat) (run : Bytes) : Bytes :=
  Array.ofFn fun i : Fin base.size =>
    if h : offset ≤ i.val ∧ i.val - offset < run.size then run[i.val - offset] else base[i]

/-- The bytes of `bytes` from `offset` on, at most `count` of them. -/
def slice (bytes : Bytes) (offset count : Nat) : Bytes :=
  bytes.extract offset (offset + count)

@[simp] theorem size_overlay (base : Bytes) (offset : Nat) (run : Bytes) :
    (overlay base offset run).size = base.size := by
  simp [overlay]

theorem getElem?_overlay (base : Bytes) (offset : Nat) (run : Bytes) (i : Nat) :
    (overlay base offset run)[i]? =
      if i < base.size ∧ offset ≤ i ∧ i - offset < run.size then run[i - offset]?
      else base[i]? := by
  by_cases hi : i < base.size
  · by_cases h : offset ≤ i ∧ i - offset < run.size
    · simp [overlay, hi, h]
    · simp only [overlay, Array.getElem?_ofFn, hi, h, true_and]
      simp
  · simp [overlay, hi]

theorem size_slice (bytes : Bytes) (offset count : Nat) :
    (slice bytes offset count).size = min count (bytes.size - offset) := by
  simp only [slice, Array.size_extract]
  omega

theorem getElem?_slice (bytes : Bytes) (offset count i : Nat) :
    (slice bytes offset count)[i]? = if i < count then bytes[offset + i]? else none := by
  by_cases h : i < count
  · simp only [slice, Array.getElem?_extract, h, if_true]
    split
    · rfl
    · rw [Array.getElem?_eq_none (by omega)]
  · rw [if_neg h, Array.getElem?_eq_none]
    rw [size_slice]
    omega

end Bytes

/-- The contents of one page. -/
abbrev PageBytes := Vector UInt8 pageSize

/-- The contents of one disk sector. -/
abbrev Sector := Vector UInt8 sectorSize

namespace PageBytes

/-- A page filled with one byte. -/
def filled (byte : UInt8) : PageBytes :=
  Vector.replicate pageSize byte

/-- The page of zeros. -/
def zero : PageBytes :=
  filled 0

/-- The page with `run` laid over it from `offset` on. -/
def overlay (page : PageBytes) (offset : Nat) (run : Bytes) : PageBytes :=
  ⟨Bytes.overlay page.toArray offset run, by simp⟩

/-- The bytes of the page from `offset` on, at most `count` of them. -/
def slice (page : PageBytes) (offset count : Nat) : Bytes :=
  Bytes.slice page.toArray offset count

/-- The page that starts with `run` and is zero after it. -/
def padded (run : Bytes) : PageBytes :=
  zero.overlay 0 run

theorem sector_bound (index : Fin sectorsPerPage) (i : Fin sectorSize) :
    sectorSize * index.val + i.val < pageSize := by
  have := index.isLt
  have := i.isLt
  simp only [sectorSize, sectorsPerPage, pageSize] at *
  omega

theorem sector_index_bound (i : Fin pageSize) : i.val / sectorSize < sectorsPerPage := by
  have := i.isLt
  simp only [sectorSize, sectorsPerPage, pageSize] at *
  omega

/-- Sector number `index` of the page. -/
def sector (page : PageBytes) (index : Fin sectorsPerPage) : Sector :=
  Vector.ofFn fun i =>
    have := sector_bound index i
    page[sectorSize * index.val + i.val]

/-- The page whose sectors are given. -/
def ofSectors (sectors : Vector Sector sectorsPerPage) : PageBytes :=
  Vector.ofFn fun i =>
    have := sector_index_bound i
    have : i.val % sectorSize < sectorSize := Nat.mod_lt _ (by decide)
    sectors[i.val / sectorSize][i.val % sectorSize]

theorem ofSectors_sector (page : PageBytes) : ofSectors (Vector.ofFn page.sector) = page := by
  apply Vector.ext
  intro i hi
  simp only [ofSectors, sector, Vector.getElem_ofFn, Nat.div_add_mod]

theorem sector_ofSectors (sectors : Vector Sector sectorsPerPage) (index : Fin sectorsPerPage) :
    (ofSectors sectors).sector index = sectors[index] := by
  apply Vector.ext
  intro i hi
  have hdiv : (sectorSize * index.val + i) / sectorSize = index.val := by
    rw [Nat.mul_add_div (by decide), Nat.div_eq_of_lt hi, Nat.add_zero]
  have hmod : (sectorSize * index.val + i) % sectorSize = i := by
    rw [Nat.mul_add_mod, Nat.mod_eq_of_lt hi]
  simp only [ofSectors, sector, Vector.getElem_ofFn, hdiv, hmod]
  rfl

end PageBytes

end DemandPaging
