import DemandPaging.Swap.Bitmap
import DemandPaging.Swap.Disk

/-!
# The swap area

The disk that anonymous pages are moved to when they lose their frame. It is divided into slots of
one page each; a tail that is too short for a page is no slot. A free slot is found by first fit.
-/

namespace DemandPaging

/-- The number of a swap slot. -/
abbrev Slot := Nat

/-- The swap disk and the record of which slots are in use. -/
structure SwapArea where
  disk : Disk
  bitmap : Swap.Bitmap
  /-- How many slots are in use. -/
  used : Nat

namespace SwapArea

/-- The swap area on a disk, with every slot free. -/
def onDisk (disk : Disk) : SwapArea :=
  ⟨disk, .clear (disk.size / sectorsPerPage), 0⟩

/-- The number of slots. -/
def slotCount (area : SwapArea) : Nat :=
  area.disk.size / sectorsPerPage

/-- Takes the first free slot, if there is one. -/
def alloc? (area : SwapArea) : Option (Slot × SwapArea) :=
  match area.bitmap.firstClear? with
  | none => none
  | some slot =>
    if area.slotCount ≤ slot then none
    else some (slot, { area with bitmap := area.bitmap.put slot true, used := area.used + 1 })

/-- Whether a slot is in use. The record may have room for a few slots more than there are. -/
def isUsed (area : SwapArea) (slot : Slot) : Except Panic Bool :=
  match area.bitmap.test? slot with
  | some used => .ok used
  | none => .error .outOfBounds

/-- Gives a slot back. -/
def release (area : SwapArea) (slot : Slot) : Except Panic SwapArea := do
  unless ← area.isUsed slot do
    throw (.doubleFree slot)
  let used ← checked (Word.sub? area.used 1)
  return { area with bitmap := area.bitmap.put slot false, used }

/-- Only slots in use may be read and written. -/
def requireUsed (area : SwapArea) (slot : Slot) : Except Panic Unit := do
  unless ← area.isUsed slot do
    throw .assertionFailed

/-- The sector in which a part of a slot is stored. -/
def sectorOf (slot : Slot) (index : Fin sectorsPerPage) : Nat :=
  slot * sectorsPerPage + index.val

/-- Writes a page to a slot, sector by sector. -/
def write (area : SwapArea) (slot : Slot) (page : PageBytes) : Except Panic SwapArea := do
  area.requireUsed slot
  let disk ← (List.finRange sectorsPerPage).foldlM
    (fun disk index => Disk.write disk (sectorOf slot index) (page.sector index)) area.disk
  return { area with disk }

/-- Reads the page in a slot, sector by sector. -/
def read (area : SwapArea) (slot : Slot) : Except Panic PageBytes := do
  area.requireUsed slot
  let sectors ← (Vector.finRange sectorsPerPage).mapM
    fun index => area.disk.read (sectorOf slot index)
  return .ofSectors sectors

/-- Takes free slots until `count` are taken or none is left, and lists them in order. -/
def allocMany (area : SwapArea) : Nat → List Slot × SwapArea
  | 0 => ([], area)
  | count + 1 =>
    match area.alloc? with
    | none => ([], area)
    | some (slot, area) =>
      let (slots, area) := area.allocMany count
      (slot :: slots, area)

end SwapArea

end DemandPaging
