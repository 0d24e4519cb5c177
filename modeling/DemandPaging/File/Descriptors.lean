import DemandPaging.File.Store

/-!
# Descriptors

A process names its open files by small numbers. Each descriptor holds a handle of its own.
-/

namespace DemandPaging

/-- The descriptors of a process and the files they name. -/
structure Descriptors where
  entries : List (Nat × FileId)
deriving DecidableEq

namespace Descriptors

/-- No descriptors. -/
def empty : Descriptors :=
  ⟨[]⟩

/-- The file that a descriptor names. -/
def file? (descriptors : Descriptors) (fd : Nat) : Option FileId :=
  descriptors.entries.lookup fd

/-- Opens a handle on a file and names it by a descriptor. If the descriptor named a file before,
that handle is closed. -/
def assign (descriptors : Descriptors) (store : FileStore) (fd : Nat) (id : FileId) :
    Descriptors × FileStore :=
  let opened := store.modifyFile id File.openHandle
  match descriptors.file? fd with
  | none => (⟨(fd, id) :: descriptors.entries⟩, opened)
  | some old =>
    (⟨(fd, id) :: descriptors.entries.filter (·.1 != fd)⟩, opened.modifyFile old File.closeHandle)

end Descriptors

end DemandPaging
