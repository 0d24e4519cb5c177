import DemandPaging.Machine.Fork

/-!
# Operations

The requests that processes, the processor and the file system make to the machine, as data: what
each of them does is a run of the actions, and a state is reachable if some sequence of requests
leads to it.
-/

namespace DemandPaging

/-- A request to the machine. -/
inductive Op where
  | create
  | drop (s : SpaceId)
  | fork (s : SpaceId)
  | copy (dst src : SpaceId)
  | alloc (s : SpaceId) (va : VirtAddr) (writable : Bool) (loader : Loader) (target : PageType)
  | claim (s : SpaceId) (va : VirtAddr)
  | fault (s : SpaceId) (fault : PageFault)
  | setUserSp (s : SpaceId) (userSp : Nat)
  | setupStack (s : SpaceId)
  | read (s : SpaceId) (va : VirtAddr) (buffer : Bytes)
  | write (s : SpaceId) (va : VirtAddr) (data : Bytes)
  | remove (s : SpaceId) (va : VirtAddr)
  | recycle (s : SpaceId)
  | map (s : SpaceId) (va : VirtAddr) (length : Nat) (writable : Bool) (file : FileId)
      (offset : Nat)
  | unmap (s : SpaceId) (va : VirtAddr)
  | loadExecutable (s : SpaceId) (va : VirtAddr) (file : FileId) (offset readBytes zeroBytes : Nat)
      (writable : Bool)
  | mapCall (s : SpaceId) (descriptors : Descriptors) (addr length : Nat) (writable : Bool)
      (fd offset : Nat)
  | unmapCall (s : SpaceId) (addr : Nat)
  /-- An access by the processor itself. -/
  | access (s : SpaceId) (va : VirtAddr) (write : Bool)
  /-- Sets or clears the accessed and the dirty flag, where a value is given. -/
  | setFlags (s : SpaceId) (va : VirtAddr) (accessed dirty : Option Bool)
  | reopen (file : FileId) (base : VirtPage) (pages : Nat)
  | release (backing : BackingId)
  | truncate (file : FileId) (length : Nat)
  | writeFile (file : FileId) (offset : Nat) (data : Bytes)

/-- What a request is answered with. -/
inductive Reply where
  | done
  | space (s : SpaceId)
  | address (addr : Nat)
  | frame (frame : Frame)
  | accessFault (fault : AccessFault)
  | flags (accessed dirty : Bool)
  | backing (backing : BackingId)
  | count (n : Nat)
  /-- A buffer, and the error that ended reading into it. -/
  | buffer (bytes : Bytes) (error : Option Errno)
deriving DecidableEq

namespace MachineM

/-- An access by the processor: it goes through the page table, and a fault is only reported. -/
def processorAccess (s : SpaceId) (va : VirtAddr) (write : Bool) : MachineM Reply := do
  let space ← space s
  match space.table.access va.page write with
  | .error fault => return .accessFault fault
  | .ok (frame, table) =>
    putSpace s { space with table }
    return .frame frame

/-- Sets or clears the accessed and the dirty flag of a page, where a value is given, and tells
what both are then. -/
def setFlags (s : SpaceId) (va : VirtAddr) (accessed dirty : Option Bool) : MachineM Reply := do
  let space ← space s
  let first := accessed.elim space.table (space.table.setAccessed va.page)
  let table := dirty.elim first (first.setDirty va.page)
  putSpace s { space with table }
  return .flags (table.isAccessed va.page) (table.isDirty va.page)

/-- Cuts a file. -/
def truncate (file : FileId) (length : Nat) : MachineM Unit :=
  modify fun m => { m with files := m.files.modifyFile file (·.truncate length) }

/-- Writes to a file with one write, and tells how many bytes were stored. -/
def writeFile (file : FileId) (offset : Nat) (data : Bytes) : MachineM Nat := do
  let count := (← get).files.writeCount file offset data.size
  modify fun m => { m with files := m.files.writeAt file offset data }
  return count

end MachineM

namespace Op

/-- What a request does, where pages that are all visited are visited in a given order. -/
def execBy (visit : Visit) : Op → MachineM Reply
  | create => .space <$> MachineM.createSpace
  | drop s => do MachineM.dropSpaceBy visit s; return .done
  | fork s => .space <$> MachineM.forkBy visit s
  | copy dst src => do MachineM.copySpaceBy visit dst src; return .done
  | alloc s va writable loader target => do
    MachineM.alloc s va writable loader target
    return .done
  | claim s va => do MachineM.claimAt s va; return .done
  | fault s f => do MachineM.handleFault s f; return .done
  | setUserSp s userSp => do MachineM.setUserSp s userSp; return .done
  | setupStack s => do return .address (← MachineM.setupStack s).val
  | read s va buffer => do
    let (bytes, error) ← MachineM.readUser s va buffer
    return .buffer bytes error
  | write s va data => do MachineM.writeUser s va data; return .done
  | remove s va => do MachineM.remove s va; return .done
  | recycle s => do MachineM.recycleBy visit s; return .done
  | map s va length writable file offset => do
    return .address (← MachineM.mapFile s va length writable file offset).val
  | unmap s va => do MachineM.unmap s va; return .done
  | loadExecutable s va file offset readBytes zeroBytes writable => do
    MachineM.loadExecutable s va file offset readBytes zeroBytes writable
    return .done
  | mapCall s descriptors addr length writable fd offset =>
    .address <$> MachineM.mapCall s descriptors addr length writable fd offset
  | unmapCall s addr => do MachineM.unmapCall s addr; return .done
  | access s va isWrite => MachineM.processorAccess s va isWrite
  | setFlags s va accessed dirty => MachineM.setFlags s va accessed dirty
  | reopen file base pages => .backing <$> MachineM.reopen file base pages
  | release backing => do MachineM.releaseBacking backing; return .done
  | truncate file length => do MachineM.truncate file length; return .done
  | writeFile file offset data => .count <$> MachineM.writeFile file offset data

/-- What a request does. -/
def exec (op : Op) : MachineM Reply :=
  op.execBy .ascending

end Op

namespace Machine

/-- The machine after a request, whether the request succeeded or failed; none after a panic. -/
def step? (m : Machine) (visit : Visit) (op : Op) : Option Machine :=
  match op.execBy visit m with
  | .ok _ m' => some m'
  | .error (.failed _) m' => some m'
  | .error (.panicked _) _ => none

/-- The machine after a sequence of requests, each with the order in which it visits pages; none if
one of them ended in a panic. -/
def run? (m : Machine) (requests : List (Visit × Op)) : Option Machine :=
  requests.foldlM (fun m (visit, op) => m.step? visit op) m

end Machine

end DemandPaging
