import DemandPaging.Panic
import DemandPaging.PageTable.Entry
import Std.Data.TreeMap

/-!
# Page tables

A page table maps virtual pages to frames. An access goes through the table as it would go through
the memory management unit: it is checked against the entry, and an access that passes leaves the
accessed flag set, a write also the dirty flag.
-/

namespace DemandPaging

/-- Why an access did not pass the page table. -/
inductive AccessFault where
  /-- The page is not mapped. -/
  | notPresent
  /-- The page is mapped and the access is a write to a page that may only be read. -/
  | protection
deriving DecidableEq

namespace AccessFault

/-- The name of the fault. -/
def render : AccessFault → String
  | notPresent => "NotPresent"
  | protection => "Protection"

end AccessFault

/-- The mappings of one address space. -/
structure PageTable where
  entries : Std.TreeMap VirtPage PageTable.Entry

namespace PageTable

/-- The table without mappings. -/
def empty : PageTable :=
  ⟨∅⟩

/-- The flags of a fresh mapping. -/
def freshFlags (writable : Bool) : Flags :=
  .ofList (if writable then [.valid, .readable, .userMode, .writable]
    else [.valid, .readable, .userMode])

/-- The entry of a page. -/
def lookup? (table : PageTable) (page : VirtPage) : Option Entry :=
  table.entries[page]?

/-- The entry of a page, if it maps the page. -/
def present? (table : PageTable) (page : VirtPage) : Option Entry :=
  (table.lookup? page).filter Entry.isValid

/-- Maps a page that is not mapped to a frame. -/
def map (table : PageTable) (page : VirtPage) (frame : Frame) (writable : Bool) :
    Except Panic PageTable :=
  match table.present? page with
  | some _ => .error (.alreadyMapped page)
  | none => .ok ⟨table.entries.insert page (.pack frame (freshFlags writable))⟩

/-- Removes the mapping of a page and tells whether it was dirty. -/
def unmap (table : PageTable) (page : VirtPage) : Except Panic (Bool × PageTable) :=
  match table.lookup? page with
  | none => .error (.notMapped page)
  | some entry => .ok (entry.has .dirty, ⟨table.entries.erase page⟩)

/-- The frame that a page is mapped to. -/
def frame? (table : PageTable) (page : VirtPage) : Option Frame :=
  (table.present? page).map Entry.frame

/-- Whether a flag of a page's entry is set; a page without an entry has no flag set. -/
def has (table : PageTable) (page : VirtPage) (flag : Flag) : Bool :=
  (table.lookup? page).any (·.has flag)

/-- Sets or clears a flag of a page's entry; a page without an entry stays without. -/
def put (table : PageTable) (page : VirtPage) (flag : Flag) (on : Bool) : PageTable :=
  match table.lookup? page with
  | none => table
  | some entry => ⟨table.entries.insert page (entry.put flag on)⟩

/-- Whether a page was used since the flag was last cleared. -/
def isAccessed (table : PageTable) (page : VirtPage) : Bool :=
  table.has page .accessed

/-- Sets or clears the accessed flag of a page. -/
def setAccessed (table : PageTable) (page : VirtPage) (on : Bool) : PageTable :=
  table.put page .accessed on

/-- Whether a page was written since the flag was last cleared. -/
def isDirty (table : PageTable) (page : VirtPage) : Bool :=
  table.has page .dirty

/-- Sets or clears the dirty flag of a page. -/
def setDirty (table : PageTable) (page : VirtPage) (on : Bool) : PageTable :=
  table.put page .dirty on

/-- One access of a page. It answers with the frame and notes the access in the flags, or says why
it does not pass and changes nothing. -/
def access (table : PageTable) (page : VirtPage) (write : Bool) :
    Except AccessFault (Frame × PageTable) :=
  match table.present? page with
  | none => .error .notPresent
  | some entry =>
    if write && !entry.isWritable then .error .protection
    else
      let used := entry.put .accessed true
      let marked := if write then used.put .dirty true else used
      .ok (marked.frame, ⟨table.entries.insert page marked⟩)

/-- The number of entries. -/
def size (table : PageTable) : Nat :=
  table.entries.size

/-- Whether the table has no entry. -/
def isEmpty (table : PageTable) : Bool :=
  table.entries.isEmpty

/-! ## Entries after a change -/

theorem lookup?_insert (table : PageTable) (page other : VirtPage) (entry : Entry) :
    (PageTable.mk (table.entries.insert page entry)).lookup? other =
      if page = other then some entry else table.lookup? other := by
  simp only [lookup?, Std.TreeMap.getElem?_insert, Std.compare_eq_iff_eq]

theorem lookup?_erase (table : PageTable) (page other : VirtPage) :
    (PageTable.mk (table.entries.erase page)).lookup? other =
      if page = other then none else table.lookup? other := by
  simp only [lookup?, Std.TreeMap.getElem?_erase, Std.compare_eq_iff_eq]

/-- Setting or clearing a flag of one page leaves the other pages alone. -/
theorem lookup?_put (table : PageTable) (page other : VirtPage) (flag : Flag) (on : Bool) :
    (table.put page flag on).lookup? other =
      if page = other then (table.lookup? page).map (·.put flag on) else table.lookup? other := by
  unfold put
  split
  · next h => split <;> simp_all
  · next e h => simp [lookup?_insert, h]

end PageTable

end DemandPaging
