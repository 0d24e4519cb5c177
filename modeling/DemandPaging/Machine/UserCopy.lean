import DemandPaging.Machine.Faulting

/-!
# Copying from and to user memory

A range of user addresses is cut at page boundaries and copied page by page. Each page is accessed
through the page table; an access that finds the page missing raises a fault and is tried again.
A copy stops at the first page that cannot be accessed, with the pages before it copied.
-/

namespace DemandPaging

/-- The part of a range of addresses that lies in one page. -/
structure Chunk where
  page : VirtPage
  /-- Where the part starts in its page. -/
  offset : Nat
  /-- Where the part starts in the range. -/
  position : Nat
  length : Nat
deriving DecidableEq

namespace Chunk

/-- The part of the range from `va` to before `stop` that lies in the page with a number. -/
def ofPage (va : VirtAddr) (stop : Nat) (number : Nat) : Chunk :=
  let first := max va.val (number * pageSize)
  let last := min stop ((number + 1) * pageSize)
  ⟨⟨number⟩, first - number * pageSize, first - va.val, last - first⟩

/-- The parts of the `length` addresses from `va` on, in ascending order. -/
def split (va : VirtAddr) (length : Nat) : List Chunk :=
  let stop := va.val + length
  let first := va.page.number
  let count := if length = 0 then 0 else (stop - 1) / pageSize + 1 - first
  (List.range' first count).map (ofPage va stop)

end Chunk

/-- Whether `length` addresses from `va` on are words and, if there are any, user addresses. -/
def isUserRange (va : VirtAddr) (length : Nat) : Bool :=
  va.val + length < Word.bound &&
    (length == 0 || va.isUser && VirtAddr.isUser ⟨va.val + length - 1⟩)

namespace MachineM

/-- The parts of a range of user addresses. -/
def userChunks (va : VirtAddr) (length : Nat) : MachineM (List Chunk) :=
  if isUserRange va length then pure (Chunk.split va length) else fail .badAddress

/-- The frame of a page, after an access of the page through the page table, tried at most
`attempts` times. A fault that was resolved leaves the page mapped, so the second try passes. -/
def accessPage (s : SpaceId) (vpn : VirtPage) (write : Bool) : Nat → MachineM Frame
  | 0 => panic (.accessUnsettled vpn)
  | attempts + 1 => do
    let space ← space s
    match space.table.access vpn write with
    | .ok (frame, table) =>
      putSpace s { space with table }
      return frame
    | .error .protection =>
      emit (.readOnlyPage vpn)
      fail .badAddress
    | .error .notPresent =>
      handleFault s ⟨vpn.start.val, write, false, true⟩
      accessPage s vpn write attempts

/-- How often an access is tried: once more after its fault was resolved. -/
def accessAttempts : Nat := 2

/-- The frame of a page, after an access of the page. -/
def userFrame (s : SpaceId) (vpn : VirtPage) (write : Bool) : MachineM Frame :=
  accessPage s vpn write accessAttempts

/-- Copies the parts of a range into a buffer, until one cannot be accessed. -/
def readChunks (s : SpaceId) : List Chunk → Bytes → MachineM (Bytes × Option Errno)
  | [], buffer => return (buffer, none)
  | chunk :: chunks, buffer => do
    match ← attempt (userFrame s chunk.page false) with
    | .error e => return (buffer, some e)
    | .ok frame =>
      let bytes ← loadFrame frame
      readChunks s chunks (buffer.overlay chunk.position (bytes.slice chunk.offset chunk.length))

/-- Reads user memory from `va` on into a buffer. The answer is the buffer, which keeps what was
read before an error, and the error if there is one. -/
def readUser (s : SpaceId) (va : VirtAddr) (buffer : Bytes) : MachineM (Bytes × Option Errno) := do
  match ← attempt (userChunks va buffer.size) with
  | .error e => return (buffer, some e)
  | .ok chunks => readChunks s chunks buffer

/-- Copies one part of the data to its page. -/
def writeChunk (s : SpaceId) (data : Bytes) (chunk : Chunk) : MachineM Unit := do
  let frame ← userFrame s chunk.page true
  let page ← loadFrame frame
  storeFrame frame (page.overlay chunk.offset (data.slice chunk.position chunk.length))

/-- Writes data to user memory from `va` on. -/
def writeUser (s : SpaceId) (va : VirtAddr) (data : Bytes) : MachineM Unit := do
  let chunks ← userChunks va data.size
  chunks.forM (writeChunk s data)

end MachineM

end DemandPaging
