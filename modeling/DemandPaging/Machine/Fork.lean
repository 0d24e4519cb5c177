import DemandPaging.Machine.Mapping

/-!
# Forking

A child starts with a copy of its parent's address space. Pages that were never touched stay so;
every other page is copied into a frame of its own, whether or not the parent's page is resident.
The file pages of both share one backing. A child that cannot be completed is dropped again, even
if it is a panic that ends the copying.
-/

namespace DemandPaging.MachineM

/-- Copies the contents of a page that was touched into a frame, from wherever they are. -/
def copyContents (page : Page) (frame : Frame) : MachineM Unit :=
  match page.frame with
  | some source => do
    let pool ← (← get).pool.copy frame source
    modify fun m => { m with pool }
  | none =>
    match page.kind with
    | .anon (some slot) => loadFromSwap slot frame
    | .anon none => pure ()
    | .file segment => loadSegment segment frame
    | .uninit _ => panic (.copyUntouched page.vpn)

/-- The copy of a page, before it has a frame. It takes no slot, whatever slot the page has. -/
def childKind : PageKind → PageKind
  | .uninit touch => .uninit touch
  | .anon _ => .anon none
  | .file segment => .file segment

/-- Copies one page of an address space to another. The frame for the copy may be the one that the
page itself occupied, so the page is looked up again once the frame is there. -/
def copyPage (dst src : SpaceId) (vpn : VirtPage) : MachineM Unit := do
  let parentPage ← page src vpn
  if (← space dst).pages.contains vpn then
    fail .alreadyExists
  if parentPage.isUninit then
    register dst parentPage
  else
    let frame ← acquireFrame
    let parentPage ← page src vpn
    guardFrame frame (copyContents parentPage frame)
    retainPage parentPage
    install dst ⟨vpn, parentPage.writable, none, childKind parentPage.kind⟩ frame

/-- Copies the pages of an address space to another, in the order given. -/
def copyInOrder (dst src : SpaceId) (order : List VirtPage) : MachineM Unit := do
  emit (.copying (← space src).pages.size)
  order.forM (copyPage dst src)

/-- Copies all pages of an address space to another, as a visit orders them. -/
def copySpaceBy (visit : Visit) (dst src : SpaceId) : MachineM Unit := do
  copyInOrder dst src (visit.order (← space src).pages.keys)

/-- Makes a child of an address space, with its pages copied as a visit orders them. A child that
fails leaves no trace and takes no number. -/
def forkBy (visit : Visit) (s : SpaceId) : MachineM SpaceId := do
  let parent ← space s
  let child := (← get).nextSpace
  putSpace child { Space.empty with userSp := parent.userSp }
  onStop (copyInOrder child s (visit.order parent.pages.keys)) (dropSpaceBy visit child)
  modify fun m => { m with nextSpace := child + 1 }
  return child

end DemandPaging.MachineM
