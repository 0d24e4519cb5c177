import DemandPaging.File.Descriptors
import DemandPaging.Machine.UserCopy

/-!
# Mappings

A file can be mapped into an address space, and an executable's segment loaded into it. Neither
takes a frame: the pages are registered, all or none, and filled when they are touched. The pages
of a mapping share one backing; to unmap any of them is to unmap all that are left in the space.
-/

namespace DemandPaging

/-- The number of pages that hold `length` bytes. -/
def pagesFor (length : Nat) : Nat :=
  (length + (pageSize - 1)) / pageSize

/-- How many of the bytes from the start of a run belong to its page number `index`. -/
def bytesOfPage (total index : Nat) : Nat :=
  min (total - index * pageSize) pageSize

namespace MachineM

/-- Refuses the request unless its arguments are sound. -/
def require (sound : Bool) : MachineM Unit :=
  unless sound do
    fail .invalidArgument

/-- Refuses the request if one of the `count` pages from `base` on is registered. -/
def requireUnoccupied (s : SpaceId) (base : VirtPage) (count : Nat) : MachineM Unit := do
  if (← space s).pages.occupied base count then
    fail .alreadyExists

/-- Opens a file again for a mapping. -/
def reopen (file : FileId) (base : VirtPage) (pages : Nat) : MachineM BackingId := do
  let (backing, files) ← ofResult ((← get).files.reopen file base pages)
  modify fun m => { m with files }
  return backing

/-- The segment of page number `index` of a run whose file part starts at `offset`. -/
def runSegment (backing : BackingId) (offset readBytes index : Nat) : Except Panic Segment := do
  let start ← checked (Word.mul? index pageSize)
  let offset ← checked (Word.add? offset start)
  Segment.make backing offset readBytes

/-- Page number `index` of a mapping. -/
def mappedPage (backing : BackingId) (base : VirtPage) (writable : Bool) (offset mapped : Nat)
    (index : Nat) : Except Panic Page := do
  let segment ← runSegment backing offset (bytesOfPage mapped index) index
  let vpn ← checked (base.add? index)
  return .untouched vpn writable (.share segment)

/-- Maps `length` bytes of a file from `offset` on to the pages from `va` on. Pages that lie beyond
the end of the file show zeros. -/
def mapFile (s : SpaceId) (va : VirtAddr) (length : Nat) (writable : Bool) (file : FileId)
    (offset : Nat) : MachineM VirtAddr := do
  require (va.val != 0 && va.isAligned && length != 0 && offset % pageSize == 0)
  require (va.val + length ≤ userEnd)
  require ((← get).files.length file != 0)
  let base := va.page
  let count := pagesFor length
  let span ← checked (Word.mul? count pageSize)
  require (Word.add? offset span).isSome
  requireUnoccupied s base count
  let backing ← reopen file base count
  let mapped := min length ((← get).files.backingLength backing - offset)
  let pages ← ofExcept <|
    (List.range count).mapM (mappedPage backing base writable offset mapped)
  registerAll s pages
  releaseBacking backing
  emit (.mapped va count offset)
  return va

/-- The pages of an address space that belong to a mapping, in ascending order. -/
def pagesOfMapping (space : Space) (id : BackingId) (backing : Backing) : List VirtPage :=
  space.pages.keys.filter fun vpn =>
    backing.base.number ≤ vpn.number && vpn.number < backing.base.number + backing.pages
      && (space.pages[vpn]?).any fun page => page.mapping? == some id

/-- Unmaps the file that the page at an address shows: removes every page of the space that belongs
to the same mapping. -/
def unmap (s : SpaceId) (va : VirtAddr) : MachineM Unit := do
  let space ← space s
  match (space.pageAt? va).bind Page.mapping? with
  | none => fail .invalidArgument
  | some id =>
    match (← get).files.backing? id with
    | none => panic (.closedBacking id)
    | some backing =>
      if 0 < backing.pages then
        let _ ← checked (backing.base.add? (backing.pages - 1))
      let pages := pagesOfMapping space id backing
      emit (.unmapped backing.base pages.length)
      pages.forM fun vpn => remove s vpn.start

/-- What the first touch of page number `index` of an executable's segment does: bytes of the file
are read if the page has any, and there is no need of the file otherwise. -/
def segmentTouch (backing : Option BackingId) (offset readBytes index : Nat) :
    Except Panic FirstTouch :=
  let bytes := bytesOfPage readBytes index
  match backing with
  | none => return .zero
  | some backing =>
    if bytes = 0 then return .zero
    else return .copy (← runSegment backing offset bytes index)

/-- Page number `index` of an executable's segment. -/
def segmentPage (backing : Option BackingId) (base : VirtPage) (writable : Bool)
    (offset readBytes index : Nat) : Except Panic Page := do
  let touch ← segmentTouch backing offset readBytes index
  let vpn ← checked (base.add? index)
  return .untouched vpn writable touch

/-- Loads a segment of an executable to the pages from `va` on: `readBytes` bytes of the file from
`offset` on, and `zeroBytes` zeros after them. -/
def loadExecutable (s : SpaceId) (va : VirtAddr) (file : FileId)
    (offset readBytes zeroBytes : Nat) (writable : Bool) : MachineM Unit := do
  let total := readBytes + zeroBytes
  require (total < Word.bound)
  require (va.isAligned && offset % pageSize == 0 && total % pageSize == 0)
  require (va.val + total ≤ userEnd)
  require (Word.add? offset total).isSome
  let base := va.page
  let count := total / pageSize
  requireUnoccupied s base count
  let backing ← if readBytes = 0 then pure none else some <$> reopen file base count
  let pages ← ofExcept <|
    (List.range count).mapM (segmentPage backing base writable offset readBytes)
  registerAll s pages
  match backing with
  | none => pure ()
  | some backing => releaseBacking backing

/-! ## System calls -/

/-- The system call that maps the file of a descriptor. The console cannot be mapped. -/
def mapCall (s : SpaceId) (descriptors : Descriptors) (addr length : Nat) (writable : Bool)
    (fd offset : Nat) : MachineM Nat := do
  emit (.mapCall addr length fd offset)
  if consoleDescriptors.contains fd then
    emit (.consoleDescriptor fd)
    fail .badFile
  match descriptors.file? fd with
  | none => fail .badFile
  | some file => return (← mapFile s ⟨addr⟩ length writable file offset).val

/-- The system call that unmaps a file. -/
def unmapCall (s : SpaceId) (addr : Nat) : MachineM Unit := do
  emit (.unmapCall addr)
  unmap s ⟨addr⟩

end MachineM

end DemandPaging
