import DemandPaging.Machine.Residency

/-!
# Registering and removing pages

A registered page takes nothing but its entry, and a reference to its backing if it has one, until
it is touched. A page that is removed gives back all that it holds: its frame or its swap slot, and
its reference.
-/

namespace DemandPaging

/-- An order in which the pages of an address space are visited. -/
structure Visit where
  order : List VirtPage → List VirtPage
  perm : ∀ pages, (order pages).Perm pages

/-- The pages are visited in ascending order. -/
def Visit.ascending : Visit :=
  ⟨id, fun pages => .refl pages⟩

namespace MachineM

/-! ## Single pages -/

/-- Registers a page that was never touched. A page that is not registered keeps no reference. -/
def register (s : SpaceId) (page : Page) : MachineM Unit := do
  let space ← space s
  let pages ← ofResult (space.pages.register page)
  retainPage page
  putSpace s { space with pages }

/-- Registers several pages that were never touched, or none of them. -/
def registerAll (s : SpaceId) (run : List Page) : MachineM Unit := do
  let space ← space s
  let pages ← ofResult (space.pages.registerAll run)
  run.forM retainPage
  putSpace s { space with pages }

/-- Registers a page at an address, to be filled by the first touch. -/
def alloc (s : SpaceId) (va : VirtAddr) (writable : Bool) (loader : Loader) (target : PageType) :
    MachineM Unit := do
  unless va.isAligned && va.isUser do
    fail .invalidArgument
  let touch ← ofResult (FirstTouch.make loader target)
  register s (.untouched va.page writable touch)

/-- Makes the registered page at an address resident without an access. -/
def claimAt (s : SpaceId) (va : VirtAddr) : MachineM Unit := do
  unless (← space s).pages.contains va.page do
    fail .badAddress
  claim s va.page

/-- Gives back what a page holds that is registered no more. -/
def destroy (s : SpaceId) (page : Page) : MachineM Unit := do
  let page ← vacateFrame s page
  match page.kind with
  | .anon (some slot) => releaseSlot slot
  | _ => pure ()
  releasePage page

/-- Removes the page of a number, if it is registered. -/
def discard (s : SpaceId) (vpn : VirtPage) : MachineM Unit := do
  match (← space s).pages[vpn]? with
  | none => pure ()
  | some page =>
    erasePage s vpn
    destroy s page

/-- Removes the page at an address. -/
def remove (s : SpaceId) (va : VirtAddr) : MachineM Unit := do
  unless (← space s).pages.contains va.page do
    fail .invalidArgument
  discard s va.page

/-! ## Whole address spaces -/

/-- A new address space without pages. -/
def createSpace : MachineM SpaceId := do
  let s := (← get).nextSpace
  modify fun m => { m with nextSpace := s + 1 }
  putSpace s .empty
  return s

/-- Removes the pages of an address space, in the order given; with all of them gone, nothing may
be mapped. -/
def recycleInOrder (s : SpaceId) (order : List VirtPage) : MachineM Unit := do
  let count := (← space s).pages.size
  if 0 < count then
    emit (.recycling count)
  order.forM (discard s)
  unless (← space s).table.isEmpty do
    panic .assertionFailed

/-- Removes all pages of an address space, as a visit orders them. -/
def recycleBy (visit : Visit) (s : SpaceId) : MachineM Unit := do
  recycleInOrder s (visit.order (← space s).pages.keys)

/-- Removes an address space with all its pages, as a visit orders them. -/
def dropSpaceBy (visit : Visit) (s : SpaceId) : MachineM Unit := do
  recycleBy visit s
  modify fun m => { m with spaces := m.spaces.erase s }

/-- Removes an address space with all its pages. -/
def dropSpace (s : SpaceId) : MachineM Unit :=
  dropSpaceBy .ascending s

end MachineM

end DemandPaging
