import DemandPaging.Address

/-!
# The frame table

Every frame that a page occupies is listed with its owner, in the order in which the frames were
taken. The list is scanned in a circle by a hand that rests between two scans; entries that leave
the list leave the hand at the entry it would have examined next.
-/

namespace DemandPaging

/-- The number of an address space. -/
abbrev SpaceId := Nat

/-- A frame in use, and the page that occupies it. -/
structure FrameEntry where
  frame : Frame
  space : SpaceId
  vpn : VirtPage
deriving DecidableEq

/-- The frames in use. -/
structure FrameTable where
  entries : List FrameEntry
  /-- The position of the entry to be examined next. -/
  hand : Nat
  /-- How many pages have lost their frame to another page. -/
  evictions : Nat
deriving DecidableEq

namespace FrameTable

/-- The table without entries. -/
def empty : FrameTable :=
  ⟨[], 0, 0⟩

/-- The number of frames in use. -/
def size (table : FrameTable) : Nat :=
  table.entries.length

/-- Whether no frame is in use. -/
def isEmpty (table : FrameTable) : Bool :=
  table.entries.isEmpty

/-- Lists one more frame in use. -/
def push (table : FrameTable) (entry : FrameEntry) : FrameTable :=
  { table with entries := table.entries ++ [entry] }

/-- Removes the entry at a position. -/
def removeAt (table : FrameTable) (index : Nat) : FrameTable :=
  let entries := table.entries.eraseIdx index
  let hand := if index < table.hand then table.hand - 1 else table.hand
  { table with entries, hand := if entries.length ≤ hand then 0 else hand }

/-- Removes the first entry of a frame, if there is one. -/
def removeFrame (table : FrameTable) (frame : Frame) : FrameTable :=
  match table.entries.findIdx? (·.frame == frame) with
  | none => table
  | some index => table.removeAt index

end FrameTable

end DemandPaging
