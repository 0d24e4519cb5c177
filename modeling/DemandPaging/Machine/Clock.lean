import DemandPaging.Machine.Basic

/-!
# The clock

The victim of an eviction is found by a scan of the frame table from the hand on. Every entry the
scan passes loses its accessed flag, and the first entry without one is the victim. Two rounds are
enough: in the second no flag is left.
-/

namespace DemandPaging

/-- The address spaces by number. -/
abbrev SpaceMap := Std.TreeMap SpaceId Space

namespace FrameEntry

/-- Whether the page of an entry was used since its accessed flag was last cleared. -/
def isAccessed (entry : FrameEntry) (spaces : SpaceMap) : Bool :=
  (spaces[entry.space]?).any (·.table.isAccessed entry.vpn)

/-- Clears the accessed flag of the page of an entry. -/
def clearAccessed (entry : FrameEntry) (spaces : SpaceMap) : SpaceMap :=
  match spaces[entry.space]? with
  | none => spaces
  | some space =>
    spaces.insert entry.space { space with table := space.table.setAccessed entry.vpn false }

end FrameEntry

/-- Where a scan of the frame table ended. -/
structure Scan where
  /-- The position of the last entry examined. -/
  examined : Nat
  /-- Where the next scan starts. -/
  hand : Nat
  /-- The address spaces, with the flags the scan has cleared. -/
  spaces : SpaceMap

namespace FrameTable

/-- At most `steps` steps of a scan. A step examines the entry at the hand, moves the hand on, and
ends the scan unless the entry's page was accessed. -/
def scan (entries : List FrameEntry) : Nat → Scan → Scan
  | 0, state => state
  | steps + 1, state =>
    let index := state.hand % entries.length
    let moved := { state with examined := index, hand := (index + 1) % entries.length }
    match entries[index]? with
    | none => moved
    | some entry =>
      if entry.isAccessed moved.spaces then
        scan entries steps { moved with spaces := entry.clearAccessed moved.spaces }
      else moved

/-- The scan that chooses a victim: two rounds from the hand on. -/
def victimScan (table : FrameTable) (spaces : SpaceMap) : Scan :=
  scan table.entries (2 * table.size) ⟨table.hand, table.hand, spaces⟩

end FrameTable

namespace MachineM

/-- Chooses the victim of an eviction and takes its entry out of the frame table. -/
def takeVictim : MachineM FrameEntry := do
  let m ← get
  if m.frames.isEmpty then
    panic .noFrameToEvict
  let scan := m.frames.victimScan m.spaces
  match m.frames.entries[scan.examined]? with
  | none => panic .outOfBounds
  | some entry =>
    set { m with
      spaces := scan.spaces
      frames := { m.frames with hand := scan.hand }.removeAt scan.examined }
    return entry

end MachineM

end DemandPaging
