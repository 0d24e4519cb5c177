import DemandPaging.File.Segment
import DemandPaging.Swap.Area

/-!
# Pages

What is known about one registered page of an address space: where it is, and where its contents
are while it occupies no frame.
-/

namespace DemandPaging

/-- What becomes of the contents of a page. -/
inductive PageType where
  /-- The page belongs to its address space alone and is moved to the swap area. -/
  | anon
  /-- The page shows a file and is written back to it. -/
  | file
deriving DecidableEq

namespace PageType

/-- The name of the type. -/
def render : PageType → String
  | anon => "anon"
  | file => "file"

end PageType

/-- Where the first contents of a page come from. -/
inductive Loader where
  | zero
  | file (segment : Segment)
deriving DecidableEq

/-- What the first touch of a page does. A page of zeros belongs to no file. -/
inductive FirstTouch where
  /-- The page starts as zeros and is anonymous. -/
  | zero
  /-- The page starts with the segment's bytes and is anonymous. -/
  | copy (segment : Segment)
  /-- The page shows the segment. -/
  | share (segment : Segment)
deriving DecidableEq

namespace FirstTouch

/-- The first touch that was asked for; a file page cannot start as zeros. -/
def make (loader : Loader) (target : PageType) : Except Errno FirstTouch :=
  match loader, target with
  | .zero, .anon => .ok .zero
  | .zero, .file => .error .invalidArgument
  | .file segment, .anon => .ok (.copy segment)
  | .file segment, .file => .ok (.share segment)

/-- The type of the page after its first touch. -/
def target : FirstTouch → PageType
  | zero | copy _ => .anon
  | share _ => .file

/-- The segment that the first touch reads. -/
def segment? : FirstTouch → Option Segment
  | zero => none
  | copy segment | share segment => some segment

end FirstTouch

/-- The state of a page's contents. -/
inductive PageKind where
  /-- The page was never touched. -/
  | uninit (touch : FirstTouch)
  /-- The contents are in the frame, or else in the slot. -/
  | anon (slot : Option Slot)
  /-- The contents are in the frame, or else in the segment. -/
  | file (segment : Segment)
deriving DecidableEq

/-- A registered page. -/
structure Page where
  vpn : VirtPage
  writable : Bool
  /-- The frame that the page occupies, if it is resident. -/
  frame : Option Frame
  kind : PageKind
deriving DecidableEq

namespace Page

/-- A page that was never touched. -/
def untouched (vpn : VirtPage) (writable : Bool) (touch : FirstTouch) : Page :=
  ⟨vpn, writable, none, .uninit touch⟩

/-- Whether the page occupies a frame. -/
def isResident (page : Page) : Bool :=
  page.frame.isSome

/-- Whether the page was never touched. -/
def isUninit (page : Page) : Bool :=
  match page.kind with
  | .uninit _ => true
  | _ => false

/-- The type of the page, as it is or will be after the first touch. -/
def type (page : Page) : PageType :=
  match page.kind with
  | .uninit touch => touch.target
  | .anon _ => .anon
  | .file _ => .file

/-- The swap slot that holds the contents. -/
def slot? (page : Page) : Option Slot :=
  match page.kind with
  | .anon slot => slot
  | _ => none

/-- The segment to whose backing the page refers. -/
def segment? (page : Page) : Option Segment :=
  match page.kind with
  | .uninit touch => touch.segment?
  | .anon _ => none
  | .file segment => some segment

/-- The backing that the page refers to. -/
def backing? (page : Page) : Option BackingId :=
  page.segment?.map Segment.backing

/-- The backing of the mapping that the page belongs to. An executable's page is in no mapping. -/
def mapping? (page : Page) : Option BackingId :=
  match page.type with
  | .anon => none
  | .file => page.backing?

/-- Gives a frame to a page that has none. -/
def occupy (page : Page) (frame : Frame) : Except Panic Page :=
  match page.frame with
  | some _ => .error (.alreadyResident page.vpn)
  | none => .ok { page with frame := some frame }

/-- The page without its frame. -/
def vacate (page : Page) : Page :=
  { page with frame := none }

end Page

end DemandPaging
