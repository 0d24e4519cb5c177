import DemandPaging.Bytes
import DemandPaging.Panic

/-!
# Disks

A disk is a row of sectors that are read and written one at a time.
-/

namespace DemandPaging

/-- The contents of a disk. -/
structure Disk where
  sectors : Array Sector

namespace Disk

/-- A disk of zeroed sectors. -/
def zeroed (sectors : Nat) : Disk :=
  ⟨Array.replicate sectors (Vector.replicate sectorSize 0)⟩

/-- The number of sectors. -/
def size (disk : Disk) : Nat :=
  disk.sectors.size

/-- The contents of a sector. -/
def read (disk : Disk) (sector : Nat) : Except Panic Sector :=
  match disk.sectors[sector]? with
  | some contents => .ok contents
  | none => .error .outOfBounds

/-- Replaces the contents of a sector. -/
def write (disk : Disk) (sector : Nat) (contents : Sector) : Except Panic Disk :=
  if sector < disk.size then .ok ⟨disk.sectors.setIfInBounds sector contents⟩
  else .error .outOfBounds

/-- Writing a sector leaves the others alone. -/
theorem read_of_write {disk written : Disk} {sector : Nat} {contents : Sector}
    (h : disk.write sector contents = .ok written) (other : Nat) :
    written.read other = if other = sector then .ok contents else disk.read other := by
  unfold write at h
  split at h
  · next hlt =>
    cases h
    by_cases ho : other = sector
    · subst ho
      simp [read, size] at hlt ⊢
      simp [hlt]
    · simp [read, Ne.symm ho, ho]
  · cases h

end Disk

end DemandPaging
