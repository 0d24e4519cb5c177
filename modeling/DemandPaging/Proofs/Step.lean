import DemandPaging.Proofs.View
import DemandPaging.Proofs.PageTable.Mapping
import DemandPaging.Machine.Fork

/-! # Steps of a machine

Everything that a request does to a machine is a sequence of small steps: a frame is taken, a page
loses its frame, a page is brought in, a page is registered or discarded, an access is noted. Each
step has a label that says what it concerns, and the labels that a request may use bound what the
request does.
-/

namespace DemandPaging

namespace Page

def retainedIn (page : Page) (files : FileStore) : FileStore :=
  page.backing?.elim files files.retain

def releasedIn (page : Page) (files : FileStore) : FileStore :=
  page.backing?.elim files files.release

end Page

/-- The files after a page lost its frame: a dirty file page is written back. -/
def PageKind.savedIn (kind : PageKind) (bytes : PageBytes) (dirty : Bool) (files : FileStore) :
    FileStore :=
  match kind with
  | .file segment => if dirty then (segment.writeBack files bytes).2 else files
  | _ => files

/-- Where the contents of a page go when an eviction takes its frame. -/
inductive Spill (swap : SwapArea) : PageKind → PageBytes → PageKind → SwapArea → Prop where
  | anon {bytes : PageBytes} {slot : Slot} {taken written : SwapArea} :
      swap.alloc? = some (slot, taken) → taken.write slot bytes = .ok written →
      Spill swap (.anon none) bytes (.anon (some slot)) written
  | file {bytes : PageBytes} (segment : Segment) :
      Spill swap (.file segment) bytes (.file segment) swap

/-- Where the contents of a page come from when it gets a frame. -/
inductive Fill (swap : SwapArea) (files : FileStore) :
    PageKind → PageBytes → PageKind → SwapArea → FileStore → Prop where
  | zero : Fill swap files (.uninit .zero) PageBytes.zero (.anon none) swap files
  | copy {segment : Segment} {bytes : PageBytes} :
      segment.loadInto files PageBytes.zero = (bytes, true) →
      Fill swap files (.uninit (.copy segment)) bytes (.anon none) swap
        (files.release segment.backing)
  | share {segment : Segment} {bytes : PageBytes} :
      segment.loadInto files PageBytes.zero = (bytes, true) →
      Fill swap files (.uninit (.share segment)) bytes (.file segment) swap files
  | slot {slot : Slot} {bytes : PageBytes} {freed : SwapArea} :
      swap.read slot = .ok bytes → swap.release slot = .ok freed →
      Fill swap files (.anon (some slot)) bytes (.anon none) freed files
  | file {segment : Segment} {bytes : PageBytes} :
      segment.loadInto files PageBytes.zero = (bytes, true) →
      Fill swap files (.file segment) bytes (.file segment) swap files

/-- What a fork finds in a page that was touched. -/
inductive Found (pool : FramePool) (swap : SwapArea) (files : FileStore) :
    Option Frame → PageKind → PageBytes → Prop where
  | resident {frame : Frame} {kind : PageKind} {bytes : PageBytes} :
      pool.load frame = .ok bytes → Found pool swap files (some frame) kind bytes
  | slot {slot : Slot} {bytes : PageBytes} :
      swap.read slot = .ok bytes → Found pool swap files none (.anon (some slot)) bytes
  | file {segment : Segment} {bytes : PageBytes} :
      segment.loadInto files PageBytes.zero = (bytes, true) →
      Found pool swap files none (.file segment) bytes

/-! ## Labels -/

/-- What a step concerns. -/
inductive Deed where
  /-- A free frame is taken. -/
  | take (frame : Frame)
  /-- The clock passes some pages. -/
  | sweep
  /-- A page loses its frame to whoever asked for one. -/
  | evict (s : SpaceId) (vpn : VirtPage)
  /-- The contents of a frame that no page occupies change. -/
  | spoil (frame : Frame)
  /-- A frame that no page occupies goes back. -/
  | giveBack (frame : Frame)
  /-- A page gets a frame. -/
  | bring (s : SpaceId) (vpn : VirtPage)
  /-- A page is registered whose backing the request itself refers to. -/
  | register (s : SpaceId) (page : Page)
  /-- A page is registered whose backing is the caller's affair. -/
  | adopt (s : SpaceId) (page : Page)
  /-- A page that was never touched is registered in a second address space. -/
  | inherit (dst src : SpaceId) (vpn : VirtPage)
  /-- A page that was touched is copied to a second address space. -/
  | copy (dst src : SpaceId) (vpn : VirtPage)
  /-- A page is removed with all that it holds. -/
  | discard (s : SpaceId) (vpn : VirtPage)
  /-- An access of a mapped page is noted. -/
  | touch (s : SpaceId) (vpn : VirtPage) (write : Bool)
  /-- The notes of use of a mapped page are changed from outside. -/
  | adjust (s : SpaceId) (vpn : VirtPage)
  /-- The contents of a mapped page change. -/
  | store (s : SpaceId) (vpn : VirtPage)
  | create (s : SpaceId)
  /-- The number of the next address space moves on. -/
  | next
  | drop (s : SpaceId)
  | setUserSp (s : SpaceId)
  /-- A file is opened as a backing for the request. -/
  | pin (file : FileId)
  /-- The request drops its reference to a backing. -/
  | unpin (id : BackingId)
  /-- The contents of a file are changed from outside. -/
  | edit (file : FileId)
  /-- A file is opened as a backing from outside. -/
  | reopen (file : FileId)
  /-- A reference to a backing is dropped from outside. -/
  | release (id : BackingId)

/-! ## Labels of the steps that actions take -/

/-- The labels of the steps that make room for a page. -/
def Deed.room : Set Deed :=
  {d | match d with
    | .take _ | .sweep | .evict _ _ | .spoil _ | .giveBack _ => True
    | _ => False}

def Deed.claiming (s : SpaceId) (vpn : VirtPage) : Set Deed :=
  insert (.bring s vpn) Deed.room

def Deed.resolving (s : SpaceId) (vpn : VirtPage) : Set Deed :=
  insert (.register s (.untouched vpn true .zero)) (Deed.claiming s vpn)

def Deed.reaching (s : SpaceId) (vpn : VirtPage) : Set Deed :=
  {d | d ∈ Deed.resolving s vpn ∨ ∃ write, d = .touch s vpn write}

/-- The labels of the steps that resolve a fault: a page is brought in, a stack page after it was
registered. -/
def Deed.faulting (s : SpaceId) : Set Deed :=
  {d | d ∈ Deed.room ∨ (∃ vpn, d = .bring s vpn) ∨
    ∃ vpn, d = .register s (.untouched vpn true .zero)}

def Deed.accessing (s : SpaceId) : Set Deed :=
  {d | d ∈ Deed.faulting s ∨ ∃ vpn write, d = .touch s vpn write}

def Deed.writing (s : SpaceId) : Set Deed :=
  {d | d ∈ Deed.accessing s ∨ ∃ vpn, d = .store s vpn}

def Deed.copying (dst src : SpaceId) : Set Deed :=
  {d | d ∈ Deed.room ∨ (∃ vpn, d = .inherit dst src vpn) ∨ ∃ vpn, d = .copy dst src vpn}

def Deed.discarding (s : SpaceId) : Set Deed :=
  {d | ∃ vpn, d = .discard s vpn}

def Deed.dropping (s : SpaceId) : Set Deed :=
  insert (.drop s) (Deed.discarding s)

/-- The labels of the steps that make a child of an address space. -/
def Deed.making (child s : SpaceId) : Set Deed :=
  {d | d ∈ Deed.copying child s ∨ d = .create child ∨ d = .next}

/-- The labels of the steps that make a child of an address space, or fail to. -/
def Deed.forking (child s : SpaceId) : Set Deed :=
  {d | d ∈ Deed.copying child s ∨ d ∈ Deed.dropping child ∨ d = .create child ∨ d = .next}

def Deed.registering (s : SpaceId) : Set Deed :=
  {d | ∃ page, d = .register s page}

def Deed.mapping (s : SpaceId) (file : FileId) : Set Deed :=
  {d | d ∈ Deed.registering s ∨ d = .pin file ∨ ∃ id, d = .unpin id}

namespace View

def put (V : View) (s : SpaceId) (vpn : VirtPage) (page : Option Page)
    (entry : Option PageTable.Entry) : View :=
  { V with page := setAt V.page s vpn page, entry := setAt V.entry s vpn entry }

def registered (V : View) (s : SpaceId) (page : Page) : View :=
  { V with page := setAt V.page s page.vpn (some page), files := page.retainedIn V.files }

/-- The view after a page got the first frame that was held, filled with some bytes. -/
def occupied (V : View) (s : SpaceId) (page : Page) (frame : Frame) (pool : FramePool)
    (rest : List Frame) : View :=
  { V.put s page.vpn (some { page with frame := some frame })
      (some (PageTable.Entry.fresh frame page.writable)) with
    frames := V.frames.push ⟨frame, s, page.vpn⟩
    pool
    held := rest }

end View

/-! ## Steps -/

/-- One step of a machine, as its view shows it. -/
inductive Step : Deed → View → View → Prop where
  | take {V : View} {frame : Frame} {pool : FramePool} (free : V.pool.alloc? = some (frame, pool)) :
      Step (.take frame) V { V with pool, held := frame :: V.held }
  | sweep {V : View} {aged : SpaceId → VirtPage → Option PageTable.Entry} (hand : ℕ)
      (passed : ∀ s vpn, Option.Rel PageTable.Entry.Aged (V.entry s vpn) (aged s vpn))
      (inside : hand < V.frames.entries.length) :
      Step .sweep V { V with entry := aged, frames := { V.frames with hand } }
  | evict {V : View} {i : ℕ} {e : FrameEntry} {page : Page} {entry : PageTable.Entry}
      {bytes : PageBytes} {kind : PageKind} {swap : SwapArea} {pool : FramePool}
      (full : V.pool.alloc? = none) (victim : V.frames.entries[i]? = some e)
      (found : V.page e.space e.vpn = some page) (mapped : V.entry e.space e.vpn = some entry)
      (loaded : V.pool.load e.frame = .ok bytes) (spilled : Spill V.swap page.kind bytes kind swap)
      (zeroed : V.pool.store e.frame PageBytes.zero = .ok pool) :
      Step (.evict e.space e.vpn) V
        { V.put e.space e.vpn (some { page with frame := none, kind }) none with
          frames := { V.frames.removeAt i with evictions := V.frames.evictions + 1 }
          pool
          swap
          files := page.kind.savedIn bytes (entry.has .dirty) V.files
          held := e.frame :: V.held }
  | spoil {V : View} {frame : Frame} {bytes : PageBytes} {pool : FramePool}
      (mem : frame ∈ V.held) (stored : V.pool.store frame bytes = .ok pool) :
      Step (.spoil frame) V { V with pool }
  | giveBack {V : View} {frame : Frame} {rest : List Frame} {pool : FramePool}
      (first : V.held = frame :: rest) (freed : V.pool.release frame = .ok pool) :
      Step (.giveBack frame) V { V with pool, held := rest }
  | bring {V : View} {s : SpaceId} {vpn : VirtPage} {page : Page} {frame : Frame}
      {rest : List Frame} {bytes : PageBytes} {kind : PageKind} {swap : SwapArea}
      {files : FileStore} {pool : FramePool} (found : V.page s vpn = some page)
      (absent : page.frame = none) (first : V.held = frame :: rest)
      (filled : Fill V.swap V.files page.kind bytes kind swap files)
      (stored : V.pool.store frame bytes = .ok pool) :
      Step (.bring s vpn) V
        { V.occupied s { page with kind } frame pool rest with swap, files }
  | register {V : View} {s : SpaceId} {vpn : VirtPage} {writable : Bool} {touch : FirstTouch}
      (live : V.Live s) (fresh : V.page s vpn = none) (inside : vpn.number < userPages)
      (pinned : ∀ segment, touch.segment? = some segment → segment.backing ∈ V.pins) :
      Step (.register s (.untouched vpn writable touch)) V
        (V.registered s (.untouched vpn writable touch))
  | adopt {V : View} {s : SpaceId} {vpn : VirtPage} {writable : Bool} {touch : FirstTouch}
      (live : V.Live s) (fresh : V.page s vpn = none) (inside : vpn.number < userPages) :
      Step (.adopt s (.untouched vpn writable touch)) V
        (V.registered s (.untouched vpn writable touch))
  | inherit {V : View} {dst src : SpaceId} {vpn : VirtPage} {page : Page} (live : V.Live dst)
      (found : V.page src vpn = some page) (untouched : page.isUninit = true)
      (fresh : V.page dst vpn = none) :
      Step (.inherit dst src vpn) V (V.registered dst page)
  | copy {V : View} {dst src : SpaceId} {vpn : VirtPage} {page : Page} {frame : Frame}
      {rest : List Frame} {bytes : PageBytes} {pool : FramePool} (live : V.Live dst)
      (found : V.page src vpn = some page) (touched : page.isUninit = false)
      (fresh : V.page dst vpn = none) (first : V.held = frame :: rest)
      (copied : Found V.pool V.swap V.files page.frame page.kind bytes)
      (stored : V.pool.store frame bytes = .ok pool) :
      Step (.copy dst src vpn) V
        { V.occupied dst ⟨vpn, page.writable, none, MachineM.childKind page.kind⟩ frame pool rest
          with files := page.retainedIn V.files }
  | discardResident {V : View} {s : SpaceId} {vpn : VirtPage} {page : Page} {frame : Frame}
      {entry : PageTable.Entry} {bytes : PageBytes} {pool : FramePool}
      (found : V.page s vpn = some page) (resident : page.frame = some frame)
      (mapped : V.entry s vpn = some entry) (loaded : V.pool.load frame = .ok bytes)
      (freed : V.pool.release frame = .ok pool) :
      Step (.discard s vpn) V
        { V.put s vpn none none with
          frames := V.frames.removeFrame frame
          pool
          files := page.releasedIn (page.kind.savedIn bytes (entry.has .dirty) V.files) }
  | discardSlot {V : View} {s : SpaceId} {vpn : VirtPage} {page : Page} {slot : Slot}
      {swap : SwapArea} (found : V.page s vpn = some page) (absent : page.frame = none)
      (inSlot : page.slot? = some slot) (freed : V.swap.release slot = .ok swap) :
      Step (.discard s vpn) V
        { V with page := setAt V.page s vpn none, swap, files := page.releasedIn V.files }
  | discardBare {V : View} {s : SpaceId} {vpn : VirtPage} {page : Page}
      (found : V.page s vpn = some page) (absent : page.frame = none) (bare : page.slot? = none) :
      Step (.discard s vpn) V
        { V with page := setAt V.page s vpn none, files := page.releasedIn V.files }
  | touch {V : View} {s : SpaceId} {vpn : VirtPage} {entry : PageTable.Entry} {write : Bool}
      (mapped : V.entry s vpn = some entry) (allowed : write = true → entry.isWritable = true) :
      Step (.touch s vpn write) V
        { V with entry := setAt V.entry s vpn (some (entry.marked write)) }
  | adjust {V : View} {s : SpaceId} {vpn : VirtPage} {entry other : PageTable.Entry}
      (mapped : V.entry s vpn = some entry) (same : entry.SameMapping other) :
      Step (.adjust s vpn) V { V with entry := setAt V.entry s vpn (some other) }
  | store {V : View} {s : SpaceId} {vpn : VirtPage} {page : Page} {frame : Frame}
      {entry : PageTable.Entry} {bytes : PageBytes} {pool : FramePool}
      (found : V.page s vpn = some page) (resident : page.frame = some frame)
      (mapped : V.entry s vpn = some entry) (allowed : entry.isWritable = true)
      (dirty : entry.has .dirty = true) (stored : V.pool.store frame bytes = .ok pool) :
      Step (.store s vpn) V { V with pool }
  | create {V : View} {s : SpaceId} {userSp : ℕ} (dead : ¬V.Live s)
      (empty : ∀ vpn, V.page s vpn = none) :
      Step (.create s) V { V with userSp := Function.update V.userSp s (some userSp) }
  | next {V : View} : Step .next V { V with nextSpace := V.nextSpace + 1 }
  | drop {V : View} {s : SpaceId} (empty : ∀ vpn, V.page s vpn = none) :
      Step (.drop s) V { V with userSp := Function.update V.userSp s none }
  | setUserSp {V : View} {s : SpaceId} {userSp : ℕ} (live : V.Live s) :
      Step (.setUserSp s) V { V with userSp := Function.update V.userSp s (some userSp) }
  | pin {V : View} {file : FileId} {base : VirtPage} {pages : ℕ} {id : BackingId}
      {files : FileStore} (inside : base.number + pages ≤ userPages)
      (opened : V.files.reopen file base pages = .ok (id, files)) :
      Step (.pin file) V { V with files, pins := id :: V.pins }
  | unpin {V : View} {id : BackingId} {rest : List BackingId} (first : V.pins = id :: rest) :
      Step (.unpin id) V { V with files := V.files.release id, pins := rest }
  | edit {V : View} {file : FileId} (change : File → File)
      (kept : ∀ content, (change content).handles = content.handles) :
      Step (.edit file) V { V with files := V.files.modifyFile file change }
  | reopen {V : View} {file : FileId} {base : VirtPage} {pages : ℕ} {id : BackingId}
      {files : FileStore} (opened : V.files.reopen file base pages = .ok (id, files)) :
      Step (.reopen file) V { V with files }
  | release {V : View} (id : BackingId) :
      Step (.release id) V { V with files := V.files.release id }

/-- A sequence of steps with labels of some kind. -/
def Steps (deeds : Set Deed) : View → View → Prop :=
  Relation.ReflTransGen fun V W => ∃ d ∈ deeds, Step d V W

namespace Steps

variable {deeds more : Set Deed} {U V W : View} {d : Deed}

theorem refl (V : View) : Steps deeds V V :=
  Relation.ReflTransGen.refl

theorem of_eq (h : W = V) : Steps deeds V W := by
  rw [h]
  exact refl V

theorem single (h : Step d V W) (hd : d ∈ deeds) : Steps deeds V W :=
  Relation.ReflTransGen.single ⟨d, hd, h⟩

theorem trans (h : Steps deeds U V) (h' : Steps deeds V W) : Steps deeds U W :=
  Relation.ReflTransGen.trans h h'

theorem tail (h : Steps deeds U V) (h' : Step d V W) (hd : d ∈ deeds) : Steps deeds U W :=
  h.trans (single h' hd)

theorem mono (hsub : deeds ⊆ more) (h : Steps deeds V W) : Steps more V W := by
  refine Relation.ReflTransGen.mono ?_ _ _ h
  rintro U U' ⟨d, hd, hstep⟩
  exact ⟨d, hsub hd, hstep⟩

/-- What every step keeps is kept by a sequence of steps. -/
theorem invariant (h : Steps deeds V W) (inv : View → Prop)
    (hstep : ∀ d ∈ deeds, ∀ V W, Step d V W → inv V → inv W) (hinv : inv V) : inv W := by
  induction h with
  | refl => exact hinv
  | tail _ hlast ih =>
      obtain ⟨d, hd, hstep'⟩ := hlast
      exact hstep d hd _ _ hstep' ih

end Steps

end DemandPaging
