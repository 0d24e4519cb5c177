import DemandPaging.Address
import DemandPaging.File.Basic
import Std.Data.TreeMap

/-!
# Backings

The pages of one mapping share one backing: a file that was opened again for the mapping alone.
References to a backing are counted, and its handle is closed together with the last of them.
-/

namespace DemandPaging

/-- The number of a file. -/
abbrev FileId := Nat

/-- The number of a backing. Numbers are not used twice. -/
abbrev BackingId := Nat

/-- A file that was opened again for a mapping. -/
structure Backing where
  file : FileId
  /-- The first page of the mapping. -/
  base : VirtPage
  /-- The number of pages of the mapping. -/
  pages : Nat
  /-- How many pages and other holders refer to the backing. -/
  refs : Nat
deriving DecidableEq

/-- All files, and the backings that are referred to. -/
structure FileStore where
  files : Array File
  backings : Std.TreeMap BackingId Backing
  nextBacking : BackingId

namespace FileStore

/-- The store of the given files, without backings. -/
def ofFiles (files : Array File) : FileStore :=
  ⟨files, ∅, 0⟩

/-- The store with one file changed. -/
def modifyFile (store : FileStore) (id : FileId) (f : File → File) : FileStore :=
  { store with files := store.files.modify id f }

/-- The length a file says it has. -/
def length (store : FileStore) (id : FileId) : Nat :=
  (store.files[id]?).elim 0 File.length

/-- The bytes that one read of a file delivers. -/
def readAt (store : FileStore) (id : FileId) (offset count : Nat) : Bytes :=
  (store.files[id]?).elim #[] (·.readAt offset count)

/-- How many bytes one write to a file stores. -/
def writeCount (store : FileStore) (id : FileId) (offset count : Nat) : Nat :=
  (store.files[id]?).elim 0 (·.writeCount offset count)

/-- The store after one write to a file. -/
def writeAt (store : FileStore) (id : FileId) (offset : Nat) (bytes : Bytes) : FileStore :=
  store.modifyFile id (·.writeAt offset bytes)

/-- Why a file cannot be opened again, if it cannot. -/
def reopenError? (store : FileStore) (id : FileId) : Option Errno :=
  match store.files[id]? with
  | none => some .badFile
  | some file => file.reopenError

/-- Opens a file again as the backing of `pages` pages from `base` on. Whoever asks for the backing
holds its first reference. -/
def reopen (store : FileStore) (id : FileId) (base : VirtPage) (pages : Nat) :
    Except Errno (BackingId × FileStore) :=
  match store.reopenError? id with
  | some e => .error e
  | none =>
    let opened := store.modifyFile id File.openHandle
    .ok (store.nextBacking, { opened with
      backings := opened.backings.insert store.nextBacking ⟨id, base, pages, 1⟩
      nextBacking := store.nextBacking + 1 })

/-- The backing of a number, as long as it is referred to. -/
def backing? (store : FileStore) (id : BackingId) : Option Backing :=
  store.backings[id]?

/-- Adds a reference to a backing. -/
def retain (store : FileStore) (id : BackingId) : FileStore :=
  match store.backing? id with
  | none => store
  | some backing =>
    { store with backings := store.backings.insert id { backing with refs := backing.refs + 1 } }

/-- Drops a reference to a backing. With the last one its handle is closed. -/
def release (store : FileStore) (id : BackingId) : FileStore :=
  match store.backing? id with
  | none => store
  | some backing =>
    if backing.refs ≤ 1 then
      let closed := store.modifyFile backing.file File.closeHandle
      { closed with backings := closed.backings.erase id }
    else
      { store with backings := store.backings.insert id { backing with refs := backing.refs - 1 } }

/-- The length that the file of a backing says it has. -/
def backingLength (store : FileStore) (id : BackingId) : Nat :=
  (store.backing? id).elim 0 fun backing => store.length backing.file

/-! ## Backings after a change -/

@[simp] theorem backing?_modifyFile (store : FileStore) (file : FileId) (f : File → File)
    (id : BackingId) : (store.modifyFile file f).backing? id = store.backing? id := rfl

/-- One more reference is counted, at its own backing alone. -/
theorem backing?_retain (store : FileStore) (id other : BackingId) :
    (store.retain id).backing? other =
      if id = other then
        (store.backing? id).map fun backing => { backing with refs := backing.refs + 1 }
      else store.backing? other := by
  unfold retain
  split
  · next h => split <;> simp_all
  · next backing h =>
    rw [h]
    simp only [backing?, Std.TreeMap.getElem?_insert, Std.compare_eq_iff_eq, Option.map_some]

/-- The last reference takes its backing with it; any other is only counted off. -/
theorem backing?_release (store : FileStore) (id other : BackingId) :
    (store.release id).backing? other =
      if id = other then
        (store.backing? id).bind fun backing =>
          if backing.refs ≤ 1 then none else some { backing with refs := backing.refs - 1 }
      else store.backing? other := by
  unfold release
  split
  · next h => split <;> simp_all
  · next backing h =>
    rw [h, Option.bind_some]
    split
    · simp only [backing?, modifyFile, Std.TreeMap.getElem?_erase, Std.compare_eq_iff_eq]
    · simp only [backing?, Std.TreeMap.getElem?_insert, Std.compare_eq_iff_eq]

end FileStore

end DemandPaging
