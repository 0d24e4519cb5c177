import DemandPaging.Address
import DemandPaging.Swap.Area
import DemandPaging.Log.Console

/-!
# Events

What the machine reports while it works. An event is a value; its level and its text are derived
from it, so that the machine itself never handles text.
-/

namespace DemandPaging

/-- Something the machine reports. -/
inductive Event where
  | started (frames slots : Nat)
  | pageFault (addr : Nat) (write user : Bool)
  | kernelAddress (va : VirtAddr)
  | readOnlyAddress (va : VirtAddr)
  | readOnlyPage (page : VirtPage)
  | stackGrown (page : VirtPage)
  | invalidAccess (va : VirtAddr) (userSp : Nat)
  | swapFull (used : Nat)
  | swappedOut (page : VirtPage) (slot : Slot)
  | swappedIn (page : VirtPage) (slot : Slot)
  | evicted (page : VirtPage) (frame : Frame)
  | shortRead (offset expected : Nat)
  | shortWrite (written expected offset : Nat)
  | mapped (va : VirtAddr) (pages offset : Nat)
  | unmapped (base : VirtPage) (pages : Nat)
  | copying (pages : Nat)
  | recycling (pages : Nat)
  | mapCall (addr len fd offset : Nat)
  | unmapCall (addr : Nat)
  | consoleDescriptor (fd : Nat)
deriving DecidableEq

namespace Event

/-- How severe an event is. -/
def level : Event → Level
  | swapFull _ | shortWrite .. => .error
  | kernelAddress _ | readOnlyAddress _ | readOnlyPage _ | invalidAccess .. | shortRead ..
  | consoleDescriptor _ => .warn
  | started .. => .info
  | pageFault .. => .trace
  | stackGrown _ | swappedOut .. | swappedIn .. | evicted .. | mapped .. | unmapped .. | copying _
  | recycling _ | mapCall .. | unmapCall _ => .debug

/-- The text of an event. -/
def text : Event → String
  | started frames slots => s!"vm: {frames} user pages, {slots} swap slots"
  | pageFault addr write user =>
    s!"page fault at {Text.hex addr}, write: {write}, user: {user}"
  | kernelAddress va => s!"page fault on kernel address {va.render}"
  | readOnlyAddress va => s!"write to read-only page at {va.render}"
  | readOnlyPage page => s!"write to read-only page {page.render}"
  | stackGrown page => s!"grow stack to {page.render}"
  | invalidAccess va userSp => s!"invalid access to {va.render}, user sp {Text.hex userSp}"
  | swapFull used => s!"swap is full, {used} slots in use"
  | swappedOut page slot => s!"swap out {page.render} to slot {slot}"
  | swappedIn page slot => s!"swap in {page.render} from slot {slot}"
  | evicted page frame => s!"evict {page.render} from {frame.render}"
  | shortRead offset expected =>
    s!"short read at offset {Text.hex offset}, expect {expected} bytes"
  | shortWrite written expected offset =>
    s!"write back {written}/{expected} bytes at offset {Text.hex offset}"
  | mapped va pages offset => s!"mmap {va.render}, {pages} pages, offset {Text.hex offset}"
  | unmapped base pages => s!"munmap {base.render}, {pages} pages"
  | copying pages => s!"copy {pages} pages for fork"
  | recycling pages => s!"recycle {pages} user pages"
  | mapCall addr len fd offset =>
    s!"mmap addr: {Text.hex addr}, len: {Text.hex len}, fd: {fd}, offset: {Text.hex offset}"
  | unmapCall addr => s!"munmap addr: {Text.hex addr}"
  | consoleDescriptor fd => s!"cannot map console fd {fd}"

/-- The line that reaches the console for an event, if one does. -/
def line? (event : Event) (console : Console) : Option String :=
  console.line? event.level event.text

end Event

end DemandPaging
