import DemandPaging.File.Store
import DemandPaging.Panic

/-!
# Segments

A segment is the part of a file that belongs to one page: some bytes from an offset on, at most a
page of them. The rest of the page is zero and belongs to no file.
-/

namespace DemandPaging

/-- The part of a backing that one page holds. -/
structure Segment where
  backing : BackingId
  /-- Where the part starts in the file. -/
  offset : Nat
  /-- How many bytes of the page come from the file. -/
  readBytes : Nat
  readBytes_le : readBytes ≤ pageSize
deriving DecidableEq

namespace Segment

/-- The segment with the given place and size. No segment is longer than a page. -/
def make (backing : BackingId) (offset readBytes : Nat) : Except Panic Segment :=
  if h : readBytes ≤ pageSize then .ok ⟨backing, offset, readBytes, h⟩
  else .error .assertionFailed

/-- The bytes that one read of the segment delivers. -/
def fetch (segment : Segment) (store : FileStore) : Bytes :=
  match store.backing? segment.backing with
  | none => #[]
  | some backing => store.readAt backing.file segment.offset segment.readBytes

/-- Reads the segment into a page, and tells whether every byte of it came. Only then the rest of
the page is zeroed; otherwise the page keeps what the read did not reach. -/
def loadInto (segment : Segment) (store : FileStore) (page : PageBytes) : PageBytes × Bool :=
  let bytes := segment.fetch store
  if bytes.size = segment.readBytes then (.padded bytes, true)
  else (page.overlay 0 bytes, false)

/-- Writes the file's part of a page back with one write, and tells how many bytes were stored. -/
def writeBack (segment : Segment) (store : FileStore) (page : PageBytes) : Nat × FileStore :=
  match store.backing? segment.backing with
  | none => (0, store)
  | some backing =>
    (store.writeCount backing.file segment.offset segment.readBytes,
      store.writeAt backing.file segment.offset (page.slice 0 segment.readBytes))

end Segment

end DemandPaging
