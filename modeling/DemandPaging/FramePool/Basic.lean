import DemandPaging.Bytes
import DemandPaging.Panic
import DemandPaging.FramePool.Buddy

/-!
# The frame pool

The physical memory that user pages live in. A frame is handed out zeroed, to one owner at a time,
until it is given back; when none is left the pool says so and it is for others to make room.
-/

namespace DemandPaging

/-- The frames of physical memory, with their contents. -/
structure FramePool where
  /-- How many size classes the blocks of free frames have. -/
  classes : Nat
  /-- The frames that are not handed out. -/
  free : List FramePool.Block
  /-- How many frames are handed out. -/
  allocated : Nat
  /-- The contents of every frame. -/
  memory : Array PageBytes

namespace FramePool

/-- A pool of `total` frames, all free. -/
def fresh (classes total : Nat) : FramePool :=
  ⟨classes, freshBlocks classes total, 0, Array.replicate total PageBytes.zero⟩

/-- The number of size classes that a pool of fewer than `2 ^ 32` frames is built with. -/
def buddyClasses : Nat :=
  32

/-- The number of size classes with which a pool of `total` frames loses none of them. -/
def classesFor (total : Nat) : Nat :=
  max buddyClasses (total.log2 + 1)

/-- The number of frames, free or not. -/
def total (pool : FramePool) : Nat :=
  pool.memory.size

/-- Hands out a frame, zeroed, if one is free. -/
def alloc? (pool : FramePool) : Option (Frame × FramePool) :=
  (takeFrame? pool.free).map fun (frame, free) =>
    (frame, { pool with
      free
      allocated := pool.allocated + 1
      memory := pool.memory.setIfInBounds frame PageBytes.zero })

/-- Gives a frame back. -/
def release (pool : FramePool) (frame : Frame) : Except Panic FramePool := do
  if pool.total ≤ frame then
    throw (.outOfPool frame)
  let allocated ← checked (Word.sub? pool.allocated 1)
  return { pool with free := giveFrame pool.classes frame pool.free, allocated }

/-- The contents of a frame. -/
def load (pool : FramePool) (frame : Frame) : Except Panic PageBytes :=
  match pool.memory[frame]? with
  | some page => .ok page
  | none => .error .outOfBounds

/-- Replaces the contents of a frame. -/
def store (pool : FramePool) (frame : Frame) (page : PageBytes) : Except Panic FramePool :=
  if frame < pool.total then
    .ok { pool with memory := pool.memory.setIfInBounds frame page }
  else
    .error .outOfBounds

/-- Copies the contents of frame `src` to another frame `dst`. -/
def copy (pool : FramePool) (dst src : Frame) : Except Panic FramePool := do
  if dst = src then
    throw .copyOntoItself
  pool.store dst (← pool.load src)

/-- The end of a run of `count` bytes at `offset`, which has to lie inside a page. -/
def runEnd (offset count : Nat) : Except Panic Nat := do
  let stop ← checked (Word.add? offset count)
  if pageSize < stop then
    throw .outOfBounds
  return stop

/-- The `count` bytes of a frame from `offset` on. -/
def read (pool : FramePool) (frame : Frame) (offset count : Nat) : Except Panic Bytes := do
  let page ← pool.load frame
  let _ ← runEnd offset count
  return page.slice offset count

/-- Writes bytes into a frame from `offset` on. -/
def write (pool : FramePool) (frame : Frame) (offset : Nat) (bytes : Bytes) :
    Except Panic FramePool := do
  let page ← pool.load frame
  let _ ← runEnd offset bytes.size
  pool.store frame (page.overlay offset bytes)

/-- Writing a frame leaves the others alone. -/
theorem load_of_store {pool stored : FramePool} {frame : Frame} {page : PageBytes}
    (h : pool.store frame page = .ok stored) (other : Frame) :
    stored.load other = if other = frame then .ok page else pool.load other := by
  unfold store at h
  split at h
  · next hlt =>
    cases h
    by_cases ho : other = frame
    · subst ho
      simp [load, total] at hlt ⊢
      simp [hlt]
    · simp [load, Ne.symm ho, ho]
  · cases h

end FramePool

end DemandPaging
