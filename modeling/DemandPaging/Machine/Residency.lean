import DemandPaging.Machine.Clock

/-!
# Residency

How pages come into frames and leave them. A page that is claimed takes a free frame if there is
one and otherwise the frame of a victim, is filled from where its contents are, and is mapped. A
victim is unmapped first, so that nobody can change it while its contents are saved.
-/

namespace DemandPaging.MachineM

/-! ## Leaving a frame -/

/-- Saves the contents of a page that loses its frame: an anonymous page is moved to a swap slot, a
file page is written back if it is dirty. -/
def swapOut (page : Page) (frame : Frame) (dirty : Bool) : MachineM Page :=
  match page.kind with
  | .uninit _ => panic (.untouchedResident page.vpn)
  | .anon (some _) => panic .assertionFailed
  | .anon none => do
    let slot ← saveToSwap frame
    emit (.swappedOut page.vpn slot)
    return { page with kind := .anon (some slot) }
  | .file segment => do
    if dirty then
      saveSegment segment frame
    return page

/-- Takes the frame of a victim and zeroes it. -/
def evict : MachineM Frame := do
  let entry ← takeVictim
  let dirty ← unmapPage entry.space entry.vpn
  let page ← swapOut (← page entry.space entry.vpn) entry.frame dirty
  putPage entry.space page.vacate
  storeFrame entry.frame PageBytes.zero
  modify fun m => { m with frames := { m.frames with evictions := m.frames.evictions + 1 } }
  emit (.evicted entry.vpn entry.frame)
  return entry.frame

/-- A zeroed frame: a free one if there is one, else the frame of a victim. -/
def acquireFrame : MachineM Frame := do
  match (← get).pool.alloc? with
  | some (frame, pool) =>
    modify fun m => { m with pool }
    return frame
  | none => evict

/-- Takes a page of an address space out of its frame, if it has one, and gives the frame back. A
file page is written back if it is dirty. -/
def vacateFrame (s : SpaceId) (page : Page) : MachineM Page := do
  match page.frame with
  | none => return page
  | some frame =>
    let dirty ← unmapPage s page.vpn
    match page.kind with
    | .file segment => if dirty then saveSegment segment frame
    | _ => pure ()
    modify fun m => { m with frames := m.frames.removeFrame frame }
    releaseFrame frame
    return page.vacate

/-! ## Coming into a frame -/

/-- Fills a zeroed frame with the contents of a page that is not resident. The first touch gives
the page its type; if the page is anonymous then, it no longer refers to the file it was read from.
If the file is too short the page stays as it was. -/
def swapIn (page : Page) (frame : Frame) : MachineM Page :=
  match page.kind with
  | .uninit .zero => return { page with kind := .anon none }
  | .uninit (.copy segment) => do
    loadSegment segment frame
    releaseBacking segment.backing
    return { page with kind := .anon none }
  | .uninit (.share segment) => do
    loadSegment segment frame
    return { page with kind := .file segment }
  | .anon none => return page
  | .anon (some slot) => do
    loadFromSwap slot frame
    releaseSlot slot
    emit (.swappedIn page.vpn slot)
    return { page with kind := .anon none }
  | .file segment => do
    loadSegment segment frame
    return page

/-- Maps a page that was filled, and lists its frame as occupied. -/
def install (s : SpaceId) (page : Page) (frame : Frame) : MachineM Unit := do
  let page ← page.occupy frame
  mapPage s page.vpn frame page.writable
  pushFrame frame s page.vpn
  putPage s page

/-- Runs an action that fills a frame; unless it succeeds, the frame goes back to the pool. -/
def guardFrame {α : Type} (frame : Frame) (action : MachineM α) : MachineM α :=
  onStop action (releaseFrame frame)

/-- Makes a registered page resident, if it is not. -/
def claim (s : SpaceId) (vpn : VirtPage) : MachineM Unit := do
  let page ← page s vpn
  unless page.isResident do
    let frame ← acquireFrame
    install s (← guardFrame frame (swapIn page frame)) frame

end DemandPaging.MachineM
