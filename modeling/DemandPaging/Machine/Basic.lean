import DemandPaging.FramePool.Basic
import DemandPaging.FrameTable
import DemandPaging.Log.Event
import DemandPaging.Space

/-!
# The machine

Everything that the address spaces of all processes share, and the address spaces themselves.
An action changes the machine and ends with a value, with an error number that its caller may deal
with, or with a panic that nobody deals with. What an action has changed before it ends with an
error stays changed. Whoever holds something that must not outlive a failure gives it back before
the failure goes on to the caller, be it an error or a panic.
-/

namespace DemandPaging

/-- The state of the machine. -/
structure Machine where
  pool : FramePool
  frames : FrameTable
  swap : SwapArea
  files : FileStore
  spaces : Std.TreeMap SpaceId Space
  /-- The number of the next address space. Numbers are not used twice. -/
  nextSpace : SpaceId
  /-- What the machine has reported, the latest last. -/
  events : Array Event

/-- Why an action did not end with a value. -/
inductive Stop where
  | failed (error : Errno)
  | panicked (panic : Panic)
deriving DecidableEq

/-- An action of the machine. -/
abbrev MachineM := EStateM Stop Machine

/-- Counts of the machine's resources. -/
structure Stats where
  frames : Nat
  resident : Nat
  evictions : Nat
  slots : Nat
  slotsInUse : Nat
deriving DecidableEq

namespace Machine

/-- The machine with all frames and swap slots free and no address space. -/
def boot (frames : Nat) (disk : Disk) (files : FileStore) : Machine :=
  let swap := SwapArea.onDisk disk
  { pool := .fresh (FramePool.classesFor frames) frames
    frames := .empty
    swap
    files
    spaces := ∅
    nextSpace := 0
    events := #[.started frames swap.slotCount] }

/-- The address space of a number. -/
def space? (m : Machine) (s : SpaceId) : Option Space :=
  m.spaces[s]?

/-- The registered page of an address space. -/
def page? (m : Machine) (s : SpaceId) (vpn : VirtPage) : Option Page :=
  (m.space? s).bind (·.pages[vpn]?)

/-- The counts of the machine's resources. -/
def stats (m : Machine) : Stats :=
  { frames := m.pool.total
    resident := m.frames.size
    evictions := m.frames.evictions
    slots := m.swap.slotCount
    slotsInUse := m.swap.used }

end Machine

namespace MachineM

variable {α : Type}

/-- Ends the action with an error. -/
def fail (error : Errno) : MachineM α :=
  throw (.failed error)

/-- Ends the action with a panic. -/
def panic (panic : Panic) : MachineM α :=
  throw (.panicked panic)

/-- The value of a computation that may panic. -/
def ofExcept : Except Panic α → MachineM α
  | .ok a => pure a
  | .error e => panic e

instance : MonadLift (Except Panic) MachineM :=
  ⟨ofExcept⟩

/-- The value of a computation that may fail. -/
def ofResult : Except Errno α → MachineM α
  | .ok a => pure a
  | .error e => fail e

/-- Runs an action and hands its error, if it ends with one, to the caller. A panic is not held
up. -/
def attempt (action : MachineM α) : MachineM (Except Errno α) := fun m =>
  match action m with
  | .ok a m' => .ok (.ok a) m'
  | .error (.failed e) m' => .ok (.error e) m'
  | .error (.panicked p) m' => .error (.panicked p) m'

/-- Runs an action and, unless it ends with a value, cleans up before the error or the panic goes on
to the caller. If the cleanup after a panic panics too, nothing else is cleaned up. -/
def onStop (action : MachineM α) (cleanup : MachineM Unit) : MachineM α := fun m =>
  match action m with
  | .ok a m' => .ok a m'
  | .error (.failed e) m' => (do cleanup; fail e : MachineM α) m'
  | .error (.panicked p) m' =>
    match cleanup m' with
    | .ok _ m'' => .error (.panicked p) m''
    | .error (.failed _) m'' => .error (.panicked p) m''
    | .error (.panicked q) m'' => .error (.panicked (.whileUnwinding p q)) m''

theorem onStop_of_ok {action : MachineM α} {m m' : Machine} {a : α} (h : action m = .ok a m')
    (cleanup : MachineM Unit) : onStop action cleanup m = .ok a m' := by
  simp only [onStop, h]

theorem onStop_of_failed {action : MachineM α} {m m' : Machine} {e : Errno}
    (h : action m = .error (.failed e) m') (cleanup : MachineM Unit) :
    onStop action cleanup m = (do cleanup; fail e : MachineM α) m' := by
  simp only [onStop, h]

theorem onStop_of_panicked {action : MachineM α} {m m' : Machine} {p : Panic}
    (h : action m = .error (.panicked p) m') (cleanup : MachineM Unit) :
    ∃ q m'', onStop action cleanup m = .error (.panicked q) m'' := by
  simp only [onStop, h]
  cases cleanup m' with
  | ok _ m'' => exact ⟨p, m'', rfl⟩
  | error stop m'' =>
      cases stop with
      | failed _ => exact ⟨p, m'', rfl⟩
      | panicked q => exact ⟨.whileUnwinding p q, m'', rfl⟩

theorem onStop_of_cleaned {action : MachineM α} {cleanup : MachineM Unit} {m m' m'' : Machine}
    {p : Panic} (h : action m = .error (.panicked p) m') (hclean : cleanup m' = .ok () m'') :
    onStop action cleanup m = .error (.panicked p) m'' := by
  simp only [onStop, h, hclean]

theorem onStop_of_unwinding {action : MachineM α} {cleanup : MachineM Unit} {m m' m'' : Machine}
    {p q : Panic} (h : action m = .error (.panicked p) m')
    (hclean : cleanup m' = .error (.panicked q) m'') :
    onStop action cleanup m = .error (.panicked (.whileUnwinding p q)) m'' := by
  simp only [onStop, h, hclean]

/-- Reports an event. -/
def emit (event : Event) : MachineM Unit :=
  modify fun m => { m with events := m.events.push event }

/-! ## Address spaces and pages -/

/-- The address space of a number. -/
def space (s : SpaceId) : MachineM Space := do
  match (← get).space? s with
  | some space => pure space
  | none => panic (.noSpace s)

/-- Replaces an address space. -/
def putSpace (s : SpaceId) (space : Space) : MachineM Unit :=
  modify fun m => { m with spaces := m.spaces.insert s space }

/-- The registered page of an address space. -/
def page (s : SpaceId) (vpn : VirtPage) : MachineM Page := do
  match (← space s).pages[vpn]? with
  | some page => pure page
  | none => panic (.lostPage vpn)

/-- Registers a page in its place, whatever was there before. -/
def putPage (s : SpaceId) (page : Page) : MachineM Unit := do
  let space ← space s
  putSpace s { space with pages := space.pages.insert page.vpn page }

/-- Removes a page from the registered pages of an address space. -/
def erasePage (s : SpaceId) (vpn : VirtPage) : MachineM Unit := do
  let space ← space s
  putSpace s { space with pages := space.pages.erase vpn }

/-- Maps a page of an address space to a frame. -/
def mapPage (s : SpaceId) (vpn : VirtPage) (frame : Frame) (writable : Bool) : MachineM Unit := do
  let space ← space s
  let table ← space.table.map vpn frame writable
  putSpace s { space with table }

/-- Removes the mapping of a page and tells whether it was dirty. -/
def unmapPage (s : SpaceId) (vpn : VirtPage) : MachineM Bool := do
  let space ← space s
  let (dirty, table) ← space.table.unmap vpn
  putSpace s { space with table }
  return dirty

/-! ## Frames, slots and files -/

/-- The contents of a frame. -/
def loadFrame (frame : Frame) : MachineM PageBytes := do
  (← get).pool.load frame

/-- Replaces the contents of a frame. -/
def storeFrame (frame : Frame) (bytes : PageBytes) : MachineM Unit := do
  let pool ← (← get).pool.store frame bytes
  modify fun m => { m with pool }

/-- Gives a frame back to the pool. -/
def releaseFrame (frame : Frame) : MachineM Unit := do
  let pool ← (← get).pool.release frame
  modify fun m => { m with pool }

/-- Lists a frame as occupied. -/
def pushFrame (frame : Frame) (s : SpaceId) (vpn : VirtPage) : MachineM Unit :=
  modify fun m => { m with frames := m.frames.push ⟨frame, s, vpn⟩ }

/-- Moves the contents of a frame to a free slot; without one the machine cannot go on. -/
def saveToSwap (frame : Frame) : MachineM Slot := do
  match (← get).swap.alloc? with
  | none =>
    emit (.swapFull (← get).swap.used)
    panic .outOfSwapSlots
  | some (slot, swap) =>
    let swap ← swap.write slot (← loadFrame frame)
    modify fun m => { m with swap }
    return slot

/-- Copies the contents of a slot into a frame. -/
def loadFromSwap (slot : Slot) (frame : Frame) : MachineM Unit := do
  storeFrame frame (← (← get).swap.read slot)

/-- Gives a slot back. -/
def releaseSlot (slot : Slot) : MachineM Unit := do
  let swap ← (← get).swap.release slot
  modify fun m => { m with swap }

/-- Adds a reference to a backing. -/
def retainBacking (id : BackingId) : MachineM Unit :=
  modify fun m => { m with files := m.files.retain id }

/-- Drops a reference to a backing. -/
def releaseBacking (id : BackingId) : MachineM Unit :=
  modify fun m => { m with files := m.files.release id }

/-- Adds the reference that a page holds, if it holds one. -/
def retainPage (page : Page) : MachineM Unit :=
  match page.backing? with
  | none => pure ()
  | some id => retainBacking id

/-- Drops the reference that a page holds, if it holds one. -/
def releasePage (page : Page) : MachineM Unit :=
  match page.backing? with
  | none => pure ()
  | some id => releaseBacking id

/-- Reads a segment into a page, and tells whether every byte of it came. -/
def readSegment (segment : Segment) (page : PageBytes) : MachineM (PageBytes × Bool) := do
  let (page, complete) := segment.loadInto (← get).files page
  unless complete do
    emit (.shortRead segment.offset segment.readBytes)
  return (page, complete)

/-- Reads a segment into a frame. The frame is left half filled if the file is too short. -/
def loadSegment (segment : Segment) (frame : Frame) : MachineM Unit := do
  let (page, complete) ← readSegment segment (← loadFrame frame)
  storeFrame frame page
  unless complete do
    fail .ioError

/-- Writes the file's part of a page back. Nobody learns of a write that came short but the log. -/
def writeSegment (segment : Segment) (page : PageBytes) : MachineM Unit := do
  let (written, files) := segment.writeBack (← get).files page
  modify fun m => { m with files }
  unless written = segment.readBytes do
    emit (.shortWrite written segment.readBytes segment.offset)

/-- Writes the file's part of a frame back. -/
def saveSegment (segment : Segment) (frame : Frame) : MachineM Unit := do
  writeSegment segment (← loadFrame frame)

end MachineM

end DemandPaging
