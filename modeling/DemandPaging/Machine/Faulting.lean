import DemandPaging.Machine.Registry

/-!
# Page faults

A fault on a registered page brings the page in, unless it is a write to a page that may only be
read. A fault on an unregistered page grows the stack if it is a stack access. Every other fault is
refused, and the process that caused it should not go on.
-/

namespace DemandPaging

/-- What the processor tells about a fault. -/
structure PageFault where
  addr : Nat
  write : Bool
  /-- Whether the processor was in user mode. -/
  user : Bool
  /-- Whether the page was not mapped; otherwise the access was not permitted. -/
  notPresent : Bool
deriving DecidableEq

namespace MachineM

/-- Registers a stack page and makes it resident. -/
def growStack (s : SpaceId) (vpn : VirtPage) : MachineM Unit := do
  emit (.stackGrown vpn)
  alloc s vpn.start true .zero .anon
  claimAt s vpn.start

/-- Resolves a page fault. -/
def handleFault (s : SpaceId) (fault : PageFault) : MachineM Unit := do
  emit (.pageFault fault.addr fault.write fault.user)
  let va : VirtAddr := ⟨fault.addr⟩
  let space ← space s
  if !va.isUser then
    emit (.kernelAddress va)
    fail .badAddress
  else if !fault.notPresent then
    emit (.readOnlyAddress va)
    fail .badAddress
  else
    match space.pageAt? va with
    | some page =>
      if fault.write && !page.writable then
        emit (.readOnlyAddress va)
        fail .badAddress
      else claim s va.page
    | none =>
      if space.isStackAccess va then growStack s va.page
      else
        emit (.invalidAccess va space.userSp)
        fail .badAddress

/-- Changes the stack pointer of a process. -/
def setUserSp (s : SpaceId) (userSp : Nat) : MachineM Unit := do
  putSpace s { ← space s with userSp }

/-- Registers the first page of the stack, makes it resident, and answers with the stack pointer
that the process starts with. -/
def setupStack (s : SpaceId) : MachineM VirtAddr := do
  let bottom : VirtAddr := ⟨userStackTop - pageSize⟩
  alloc s bottom true .zero .anon
  claimAt s bottom
  setUserSp s userStackTop
  return ⟨userStackTop⟩

end MachineM

end DemandPaging
