import DemandPaging.Address

/-!
# Free blocks

Free frames are kept as blocks of `2 ^ order` consecutive frames, for a number of size classes: the
order of a block is below that number. A request splits the first block down to one frame; a frame
that comes back is joined with its buddy as long as the buddy is free. A block that is joined past
the last class is kept nowhere, and its frames are lost. The list of blocks is in ascending order of
size, blocks of one size in ascending order of place.
-/

namespace DemandPaging.FramePool

/-- A run of `2 ^ order` consecutive frames. -/
structure Block where
  order : Nat
  start : Frame
deriving DecidableEq

namespace Block

/-- The number of frames in a block of an order. -/
def frames (order : Nat) : Nat :=
  1 <<< order

/-- Whether the first block stands before the second in a list of blocks. -/
def precedes (a b : Block) : Bool :=
  a.order < b.order || (a.order == b.order && a.start < b.start)

/-- The block that makes up a block of the next order together with this one. -/
def buddy (block : Block) : Block :=
  { block with start := block.start ^^^ frames block.order }

/-- The block made up of a block and its buddy. -/
def joined (block : Block) : Block :=
  ⟨block.order + 1, min block.start block.buddy.start⟩

/-- The upper halves that are left when the block is split down to its first frame. -/
def upperHalves (block : Block) : List Block :=
  (List.range block.order).map fun order => ⟨order, block.start + frames order⟩

end Block

/-- Puts a block at its place in a list of blocks, once. -/
def insertBlock (block : Block) : List Block → List Block
  | [] => [block]
  | b :: bs =>
    if block = b then b :: bs
    else if block.precedes b then block :: b :: bs
    else b :: insertBlock block bs

/-- Takes the first frame of the first block, if there is one, and leaves the rest of that block. -/
def takeFrame? : List Block → Option (Frame × List Block)
  | [] => none
  | b :: bs => some (b.start, b.upperHalves ++ bs)

/-- Puts a block back, joined with its buddy as often as the buddy is there. `classes` is how many
size classes there are from the block's own on; past the last one the block is lost. -/
def joinBlock : Nat → Block → List Block → List Block
  | 0, _, blocks => blocks
  | classes + 1, block, blocks =>
    if block.buddy ∈ blocks then joinBlock classes block.joined (blocks.erase block.buddy)
    else insertBlock block blocks

/-- Puts a frame back into blocks of a number of size classes. -/
def giveFrame (classes : Nat) (frame : Frame) (blocks : List Block) : List Block :=
  joinBlock classes ⟨0, frame⟩ blocks

/-- The order of the first block cut from `rest` free frames at `start`: the largest one that fits,
that has a size class and to whose size `start` is aligned. A block at frame 0 has at most 32
frames. -/
def cutOrder (classes start rest : Nat) : Nat :=
  ((List.range (min (rest.log2 + 1) classes)).reverse.find? fun order =>
    start % Block.frames order == 0 && (start != 0 || order ≤ 5)).getD 0

/-- Cuts `rest` free frames at `start` into blocks, from the left, at most `cuts` of them. -/
def cutBlocks (classes : Nat) : Nat → Nat → Nat → List Block
  | 0, _, _ => []
  | cuts + 1, start, rest =>
    if rest = 0 then []
    else
      let block : Block := ⟨cutOrder classes start rest, start⟩
      let size := Block.frames block.order
      insertBlock block (cutBlocks classes cuts (start + size) (rest - size))

/-- The blocks of a pool in which the frames below `total` are all free. -/
def freshBlocks (classes total : Nat) : List Block :=
  cutBlocks classes total 0 total

end DemandPaging.FramePool
