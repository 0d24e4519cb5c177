import DemandPaging.Bytes
import DemandPaging.Errno

/-!
# Files

A file is a byte string of fixed capacity: writing replaces bytes but never makes it longer. A file
may misbehave: it may refuse to be opened again, claim a length that is not its own, or move fewer
bytes in one call than it was asked for.
-/

namespace DemandPaging

/-- A file and the number of handles that are open on it. -/
structure File where
  data : Bytes
  handles : Nat := 1
  /-- The error with which opening another handle fails, if it does. -/
  reopenError : Option Errno := none
  /-- The length that the file claims to have, if it is not the real one. -/
  claimedLength : Option Nat := none
  /-- The largest number of bytes that one read moves, if there is a limit. -/
  readCap : Option Nat := none
  /-- The largest number of bytes that one write moves, if there is a limit. -/
  writeCap : Option Nat := none
deriving DecidableEq

namespace File

/-- The number of bytes in a call, after the limit for one call. -/
def capped (cap : Option Nat) (count : Nat) : Nat :=
  match cap with
  | none => count
  | some limit => min count limit

/-- The length the file says it has. -/
def length (file : File) : Nat :=
  file.claimedLength.getD file.data.size

/-- The bytes that one read of `count` bytes at `offset` delivers. -/
def readAt (file : File) (offset count : Nat) : Bytes :=
  file.data.slice offset (capped file.readCap count)

/-- How many bytes one write of `count` bytes at `offset` stores. -/
def writeCount (file : File) (offset count : Nat) : Nat :=
  min (capped file.writeCap count) (file.data.size - offset)

/-- The file after one write at `offset`. -/
def writeAt (file : File) (offset : Nat) (bytes : Bytes) : File :=
  { file with
    data := file.data.overlay offset (bytes.slice 0 (file.writeCount offset bytes.size)) }

/-- The file cut to at most `length` bytes. -/
def truncate (file : File) (length : Nat) : File :=
  { file with data := file.data.slice 0 length }

/-- The file with one more open handle. -/
def openHandle (file : File) : File :=
  { file with handles := file.handles + 1 }

/-- The file with one open handle less. -/
def closeHandle (file : File) : File :=
  { file with handles := file.handles - 1 }

theorem size_readAt (file : File) (offset count : Nat) :
    (file.readAt offset count).size = min (capped file.readCap count) (file.data.size - offset) :=
  Bytes.size_slice _ _ _

@[simp] theorem size_data_writeAt (file : File) (offset : Nat) (bytes : Bytes) :
    (file.writeAt offset bytes).data.size = file.data.size :=
  Bytes.size_overlay _ _ _

end File

end DemandPaging
