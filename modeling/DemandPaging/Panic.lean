import DemandPaging.Address

/-!
# Panics

A broken internal rule stops the machine: unlike an error number, it is not an answer to the caller.
What was under construction is cleaned up on the way out. A cleanup that panics as well ends at once
with both.
-/

namespace DemandPaging

/-- Why the machine stopped. -/
inductive Panic where
  /-- An anonymous page has to leave its frame and no swap slot is free. -/
  | outOfSwapSlots
  /-- A frame is wanted although no frame is in use. -/
  | noFrameToEvict
  /-- A frame is copied onto itself. -/
  | copyOntoItself
  /-- A swap slot is given back twice. -/
  | doubleFree (slot : Nat)
  /-- A frame number names no frame of the pool. -/
  | outOfPool (frame : Frame)
  /-- A mapping is removed where there is none. -/
  | notMapped (page : VirtPage)
  /-- A mapping is installed over another. -/
  | alreadyMapped (page : VirtPage)
  /-- A page that occupies a frame is given a second one. -/
  | alreadyResident (page : VirtPage)
  /-- A page that was never touched occupies a frame. -/
  | untouchedResident (page : VirtPage)
  /-- A page that was never touched is copied as if it had contents. -/
  | copyUntouched (page : VirtPage)
  /-- A frame or an address space refers to a page that is not registered. -/
  | lostPage (page : VirtPage)
  /-- A page refers to a backing that is closed. -/
  | closedBacking (backing : Nat)
  /-- An address space is used that does not exist. -/
  | noSpace (space : Nat)
  /-- An access keeps faulting although every fault was resolved. -/
  | accessUnsettled (page : VirtPage)
  /-- An index lies outside its table. -/
  | outOfBounds
  /-- A sum, difference or product is not a word. -/
  | arithmeticOverflow
  /-- An internal assertion without a text of its own does not hold. -/
  | assertionFailed
  /-- The cleanup after a panic panics in turn. -/
  | whileUnwinding (first second : Panic)
deriving DecidableEq, Inhabited

namespace Panic

/-- The text of a panic. -/
def message : Panic → String
  | outOfSwapSlots => "out of swap slots"
  | noFrameToEvict => "no frame to evict"
  | copyOntoItself => "copy a page onto itself"
  | doubleFree slot => s!"double free of swap slot {slot}"
  | outOfPool frame => frame.render ++ " out of pool"
  | notMapped page => page.render ++ " is invalid before unmapping"
  | alreadyMapped page => page.render ++ " is mapped before mapping"
  | alreadyResident page => page.render ++ " is already resident"
  | untouchedResident page =>
    "internal error: entered unreachable code: uninit page " ++ page.render ++ " is resident"
  | copyUntouched page =>
    "internal error: entered unreachable code: copy uninit page " ++ page.render
  | lostPage page => page.render ++ " is not registered"
  | closedBacking backing => s!"backing {backing} is closed"
  | noSpace space => s!"address space {space} does not exist"
  | accessUnsettled page => page.render ++ " keeps faulting"
  | outOfBounds => "out of bounds"
  | arithmeticOverflow => "arithmetic overflow"
  | assertionFailed => "assertion failed"
  | whileUnwinding _ _ => "panic in a destructor during cleanup"

end Panic

/-- The value of a checked word operation, or the panic for its overflow. -/
def checked {α : Type} : Option α → Except Panic α
  | some a => .ok a
  | none => .error .arithmeticOverflow

@[simp] theorem checked_some {α : Type} (a : α) : checked (some a) = .ok a := rfl

@[simp] theorem checked_none {α : Type} :
    checked (none : Option α) = .error .arithmeticOverflow := rfl

end DemandPaging
