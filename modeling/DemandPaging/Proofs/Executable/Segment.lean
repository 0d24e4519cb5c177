import DemandPaging.Proofs.FlatMemory.UserCopy
import DemandPaging.Proofs.Lineage

/-! # The pages of a loaded segment

A page of a segment is filled once, by its first touch, from a file that stays as it is. Before that
it is as it was registered, and afterwards it is anonymous and has what was stored to it last. It
refers to the file until it is touched, and never writes to it.
-/

namespace DemandPaging

/-! ## Files that stay as they are -/

/-- Whether a backing is open on a file. -/
def FileStore.OpenOn (files : FileStore) (file : FileId) (id : BackingId) : Prop :=
  ∃ backing, files.backing? id = some backing ∧ backing.file = file

/-- Byte `i` of a page is a byte of a file. -/
def View.ShowsFile (V : View) (file : FileId) (s : SpaceId) (vpn : VirtPage) (i : ℕ) : Prop :=
  ∃ segment, V.shared s vpn = some segment ∧ V.files.OpenOn file segment.backing ∧
    i < segment.readBytes

/-- A file has some content, and pages that show the file have it in their frames. -/
structure View.Upholds (V : View) (file : FileId) (content : File) : Prop where
  consistent : V.Consistent
  numbered : V.Numbered
  file?_eq : V.files.file? file = some content
  shown : ∀ {s vpn segment bytes entry}, V.Resident s vpn segment bytes entry →
    V.files.OpenOn file segment.backing → ∀ {x i}, segment.Covers x i → x < content.data.size →
      bytes[i]? = content.data[x]?

/-- A page that has the bytes of its file is written back without effect. -/
theorem Segment.file?_writeBack_of_shown {segment : Segment} {files : FileStore} {backing : Backing}
    {content : File} {page : PageBytes}
    (hopen : files.backing? segment.backing = some backing)
    (hfile : files.file? backing.file = some content)
    (hshown : ∀ {x i}, segment.Covers x i → x < content.data.size →
      page[i]? = content.data[x]?) :
    (segment.writeBack files page).2.file? backing.file = some content := by
  rw [file?_writeBack hopen, if_pos rfl, hfile, Option.map_some]
  have hdata : (content.writeAt segment.offset (page.slice 0 segment.readBytes)).data =
      content.data := by
    refine Array.ext_getElem? fun x => ?_
    rw [File.getElem?_writeAt, size_slice]
    split
    · next hin =>
      have hlt := hin.2.trans_le (content.writeCount_le segment.offset segment.readBytes)
      have hroom : content.writeCount segment.offset segment.readBytes ≤
          content.data.size - segment.offset := min_le_right _ _
      rw [PageBytes.slice, Bytes.getElem?_slice, if_pos hlt, Nat.zero_add, Vector.getElem?_toArray]
      exact hshown ⟨hlt, Nat.add_sub_cancel' hin.1⟩ (by omega)
    · rfl
  exact congrArg (fun data => some { content with data }) hdata

section

variable {V W : View} {d : Deed} {file : FileId} {content : File} {id : BackingId} {s : SpaceId}
  {vpn : VirtPage} {segment : Segment} {bytes : PageBytes} {entry : PageTable.Entry} {x i : ℕ}

theorem Step.openOn_of_lt (hstep : Step d V W) (hlt : id < V.files.nextBacking)
    (h : W.files.OpenOn file id) : V.files.OpenOn file id := by
  obtain ⟨after, hafter, hfile⟩ := h
  obtain ⟨before, hbefore, hsame⟩ := hstep.backing?_of_lt hlt hafter
  exact ⟨before, hbefore, hsame.trans hfile⟩

namespace View.Upholds

/-- What is in the frame of a page was there before, or is in the file. -/
theorem of_origin (h : V.Upholds file content) (hstep : Step d V W)
    (horigin : V.Origin d s vpn segment bytes entry) (hopen : W.files.OpenOn file segment.backing)
    (hcovers : segment.Covers x i) (hx : x < content.data.size) :
    bytes[i]? = content.data[x]? := by
  have hpos := Nat.zero_lt_of_lt hcovers.lt
  have hshown : ∀ {t other}, V.Resident t vpn segment bytes other →
      bytes[i]? = content.data[x]? := fun hV =>
    h.shown hV (hstep.openOn_of_lt (h.numbered.lt_next hV hpos) hopen) hcovers hx
  have hfilled : ∀ {t}, V.Fillable t vpn segment bytes → bytes[i]? = content.data[x]? := by
    intro t hfill
    obtain ⟨backing, hbacking⟩ := hfill.exists_backing hpos
    obtain ⟨other, hother, hfile⟩ := hstep.openOn_of_lt (h.numbered.files.lt_next hbacking) hopen
    obtain rfl := Option.some.inj (hbacking.symm.trans hother)
    rw [Segment.getElem?_of_loadInto_of_covers hfill.loaded hbacking hcovers, hfile,
      FileStore.byte?_of_file? h.file?_eq]
  cases horigin with
  | stayed hV => exact hshown hV
  | filled deed absent hfill => exact hfilled hfill
  | copied deed hV => exact hshown hV
  | read deed hfill => exact hfilled hfill

theorem file?_writeBack (h : V.Upholds file content) (hV : V.Resident s vpn segment bytes entry) :
    (segment.writeBack V.files bytes).2.file? file = some content := by
  cases hopen : V.files.backing? segment.backing with
  | none => rw [Segment.writeBack_of_closed hopen, h.file?_eq]
  | some backing =>
      by_cases hfile : backing.file = file
      · subst hfile
        exact Segment.file?_writeBack_of_shown hopen h.file?_eq fun hcovers hx =>
          h.shown hV ⟨backing, hopen, rfl⟩ hcovers hx
      · rw [Segment.file?_writeBack hopen, if_neg hfile, h.file?_eq]

end View.Upholds

theorem Step.upholds (hstep : Step d V W) (hedit : d ≠ .edit file)
    (hstore : ∀ s vpn, d ≠ .store s vpn) (h : V.Upholds file content) :
    W.Upholds file content := by
  refine ⟨hstep.consistent h.consistent, hstep.viewNumbered h.consistent h.numbered, ?_,
    fun {s vpn segment bytes entry} hW hopen {x i} hcovers hx => ?_⟩
  · rcases hstep.file?_cases h.consistent hedit with
      hsame | ⟨s, vpn, segment, bytes, entry, hV, -, -, hW⟩
    · exact hsame.trans h.file?_eq
    · exact hW.trans (h.file?_writeBack hV)
  · exact h.of_origin hstep (hstep.origin h.consistent (hstore s vpn) hW) hopen hcovers hx

/-- A page is stored to where it does not show the file. -/
theorem View.Upholds.stored {number : ℕ} {page : Page} {frame : Frame} {pool : FramePool}
    {va : VirtAddr} {data : Bytes} (h : V.Upholds file content)
    (hstep : Step (.store s ⟨number⟩) V { V with pool }) (hp : V.page s ⟨number⟩ = some page)
    (hframe : page.frame = some frame) (hload : V.pool.load frame = .ok bytes)
    (hstore : V.pool.store frame (bytes.overlay
      (Chunk.ofPage va (va.val + data.size) number).offset
      (data.slice (Chunk.ofPage va (va.val + data.size) number).position
        (Chunk.ofPage va (va.val + data.size) number).length)) = .ok pool)
    (hspared : ∀ i, V.ShowsFile file s ⟨number⟩ i →
      ¬(va.val ≤ number * pageSize + i ∧ number * pageSize + i < va.val + data.size)) :
    View.Upholds { V with pool } file content := by
  refine ⟨hstep.consistent h.consistent, hstep.viewNumbered h.consistent h.numbered, h.file?_eq,
    fun {t u segment after entry} hW hopen {x i} hcovers hx => ?_⟩
  by_cases hsame : s = t ∧ (⟨number⟩ : VirtPage) = u
  · obtain ⟨rfl, rfl⟩ := hsame
    obtain ⟨rfl, hV⟩ := hW.of_stored hp hframe hload hstore
    rw [Chunk.getElem?_stored va number bytes data (hcovers.lt.trans_le segment.readBytes_le),
      if_neg (hspared i ⟨segment, hV.shared_eq, hopen, hcovers.lt⟩)]
    exact h.shown hV hopen hcovers hx
  · have hd : Deed.store s ⟨number⟩ ≠ .store t u := by
      intro he
      injection he with hs hu
      exact hsame ⟨hs, hu⟩
    exact h.of_origin hstep (hstep.origin h.consistent hd hW) hopen hcovers hx

end

/-! ## Segments -/

/-- A segment of an executable, loaded to pages of an address space. -/
structure LoadedSegment where
  space : SpaceId
  base : VirtPage
  pages : ℕ
  writable : Bool
  backing : BackingId
  file : FileId
  /-- What the file has. -/
  content : File
  offset : ℕ
  /-- How many bytes of the file the pages start with. -/
  readBytes : ℕ

namespace LoadedSegment

variable {L : LoadedSegment} {index other i : ℕ}

def page (L : LoadedSegment) (index : ℕ) : VirtPage :=
  ⟨L.base.number + index⟩

def start (L : LoadedSegment) : ℕ :=
  L.base.number * pageSize

/-- The backing that the segment opens, if bytes of it come from the file. -/
def backing? (L : LoadedSegment) : Option BackingId :=
  if L.readBytes = 0 then none else some L.backing

def untouched (L : LoadedSegment) (index : ℕ) : Page :=
  MachineM.segmentAt L.backing? L.base L.writable L.offset L.readBytes index

/-- The byte that the segment starts with at a position: bytes of the file, and zeros after them. -/
def byte? (L : LoadedSegment) (position : ℕ) : Option UInt8 :=
  if position < L.readBytes then L.content.data[L.offset + position]? else some 0

/-- The file ends within the part of it that a page starts with. -/
def Short (L : LoadedSegment) (index : ℕ) : Prop :=
  0 < bytesOfPage L.readBytes index ∧
    L.content.data.size < L.offset + index * pageSize + bytesOfPage L.readBytes index

/-- Flat memory where nothing is known but the segment as it was loaded. -/
def flat (L : LoadedSegment) : Flat := fun s addr =>
  if s = L.space ∧ L.start ≤ addr ∧ addr < L.start + L.pages * pageSize then
    L.byte? (addr - L.start)
  else none

theorem page_inj (h : L.page index = L.page other) : index = other :=
  Nat.add_left_cancel (VirtPage.mk.inj h)

theorem page_mul_add (L : LoadedSegment) (index i : ℕ) :
    (L.page index).number * pageSize + i = L.start + (index * pageSize + i) := by
  rw [page, start, Nat.add_mul, Nat.add_assoc]

theorem flat_page (hindex : index < L.pages) (hi : i < pageSize) :
    L.flat L.space ((L.page index).number * pageSize + i) = L.byte? (index * pageSize + i) := by
  have hnext : index * pageSize + pageSize ≤ L.pages * pageSize := by
    rw [← Nat.succ_mul]
    exact Nat.mul_le_mul_right pageSize hindex
  rw [page_mul_add, flat, if_pos ⟨rfl, Nat.le_add_right _ _, by omega⟩, Nat.add_sub_cancel_left]

theorem byte?_page (hi : i < pageSize) :
    L.byte? (index * pageSize + i) =
      if i < bytesOfPage L.readBytes index then L.content.data[L.offset + index * pageSize + i]?
      else some 0 := by
  have hiff : index * pageSize + i < L.readBytes ↔ i < bytesOfPage L.readBytes index := by
    simp only [bytesOfPage]
    omega
  simp only [byte?, hiff, Nat.add_assoc]

theorem touch_cases (L : LoadedSegment) (index : ℕ) :
    bytesOfPage L.readBytes index = 0 ∧
        (L.untouched index).kind = .uninit .zero ∨
      0 < bytesOfPage L.readBytes index ∧ L.readBytes ≠ 0 ∧ (L.untouched index).kind =
        .uninit (.copy (MachineM.segmentOf L.backing L.offset L.readBytes index)) := by
  simp only [untouched, MachineM.segmentAt, Page.untouched, MachineM.touchOf, backing?]
  by_cases hread : L.readBytes = 0
  · left
    simp [hread, bytesOfPage]
  · rw [if_neg hread]
    by_cases hbytes : bytesOfPage L.readBytes index = 0
    · exact .inl ⟨hbytes, by simp only [hbytes, if_true]⟩
    · exact .inr ⟨Nat.pos_of_ne_zero hbytes, hread, by simp only [hbytes, if_false]⟩

end LoadedSegment

/-! ## Steps -/

/-- The file of a loaded segment has the content that the segment was loaded with, and the backing
of the segment counts the pages that are still to be filled. -/
structure View.Serves (V : View) (L : LoadedSegment) : Prop
    extends V.Upholds L.file L.content where
  lt_next : L.readBytes ≠ 0 → L.backing < V.files.nextBacking
  file_eq : L.readBytes ≠ 0 → ∀ {backing}, V.files.backing? L.backing = some backing →
    backing.file = L.file
  tallies : L.readBytes ≠ 0 → V.Tallies L.backing

/-- Steps that neither change the file of a segment directly nor interfere with its backing. -/
structure Deed.Shelters (L : LoadedSegment) (d : Deed) : Prop where
  edits : d ≠ .edit L.file
  accounts : L.readBytes ≠ 0 → d.Accounts L.backing

/-- A page of a segment: it was never touched, or it is anonymous and has the bytes that are known
of it. In the second case the file had all of its part. -/
inductive View.Stands (V : View) (L : LoadedSegment) (index : ℕ) (memory : Flat) : Prop where
  | untouched (page_eq : V.page L.space (L.page index) = some (L.untouched index))
      (known : ∀ i < pageSize, memory L.space ((L.page index).number * pageSize + i) =
        L.byte? (index * pageSize + i))
  | touched {page : Page} {bytes : PageBytes}
      (page_eq : V.page L.space (L.page index) = some page)
      (writable_eq : page.writable = L.writable) (complete : ¬L.Short index)
      (contents_eq : V.contents L.space (L.page index) = some bytes)
      (known : ∀ i < pageSize,
        memory L.space ((L.page index).number * pageSize + i) = bytes[i]?)

section

variable {V W : View} {L : LoadedSegment} {d : Deed} {index i : ℕ} {memory : Flat}

theorem Step.serves_of_upholds (hstep : Step d V W) (hd : d.Shelters L) (h : V.Serves L)
    (hW : W.Upholds L.file L.content) : W.Serves L := by
  refine ⟨hW, fun hread => lt_of_lt_of_le (h.lt_next hread) hstep.nextBacking_le,
    fun hread {after} hafter => ?_, fun hread => ?_⟩
  · obtain ⟨before, hbefore, hsame⟩ := hstep.backing?_of_lt (h.lt_next hread) hafter
    exact hsame.symm.trans (h.file_eq hread hbefore)
  · exact hstep.tallies h.consistent h.numbered.files (hd.accounts hread)
      (fun _ _ => h.lt_next hread) (h.tallies hread)

theorem Step.serves (hstep : Step d V W) (hd : d.Shelters L)
    (hstore : ∀ s vpn, d ≠ .store s vpn) (h : V.Serves L) : W.Serves L :=
  hstep.serves_of_upholds hd h (hstep.upholds hd.edits hstore h.toUpholds)

namespace View.Serves

theorem exists_backing (h : V.Serves L) (hread : L.readBytes ≠ 0) {s : SpaceId} {vpn : VirtPage}
    (hpage : V.backing s vpn = some L.backing) :
    ∃ backing, V.files.backing? L.backing = some backing ∧ backing.file = L.file := by
  obtain ⟨backing, hopen⟩ :=
    (FileStore.refs_pos_iff h.numbered.files).mp ((h.tallies hread).refs_pos hpage)
  exact ⟨backing, hopen, h.file_eq hread hopen⟩

theorem size_fetch (h : V.Serves L) (hread : L.readBytes ≠ 0) {backing : Backing}
    (hopen : V.files.backing? L.backing = some backing) (index : ℕ) :
    ((MachineM.segmentOf L.backing L.offset L.readBytes index).fetch V.files).size =
      min (File.capped L.content.readCap (bytesOfPage L.readBytes index))
        (L.content.data.size - (L.offset + index * pageSize)) := by
  have hbacking : V.files.backing?
      (MachineM.segmentOf L.backing L.offset L.readBytes index).backing = some backing := hopen
  rw [Segment.size_fetch, hbacking, Option.map_some, Option.elim_some, h.file_eq hread hopen,
    FileStore.size_readAt, h.file?_eq, Option.elim_some]
  rfl

/-- A page that is filled is anonymous then, and starts as it should; so the file had all of its
part. -/
theorem filled (h : V.Serves L) {bytes : PageBytes} {kind : PageKind} {swap : SwapArea}
    {files : FileStore}
    (hfill : Fill V.swap V.files (L.untouched index).kind bytes kind swap files) :
    kind = .anon none ∧ ¬L.Short index ∧
      ∀ i < pageSize, bytes[i]? = L.byte? (index * pageSize + i) := by
  rcases L.touch_cases index with ⟨hnone, hkind⟩ | ⟨hpos, hread, hkind⟩
  · rw [hkind] at hfill
    cases hfill with
    | zero =>
        refine ⟨rfl, fun hshort => hshort.1.ne' hnone, fun i hi => ?_⟩
        rw [LoadedSegment.byte?_page hi, hnone, if_neg (Nat.not_lt_zero i)]
        simp [PageBytes.zero, PageBytes.filled, hi]
  · rw [hkind] at hfill
    cases hfill with
    | copy hload =>
        obtain ⟨backing, hopen⟩ := Segment.exists_backing_of_loadInto hload hpos
        have hfile := h.file_eq hread hopen
        refine ⟨rfl, fun hshort => ?_, fun i hi => ?_⟩
        · obtain ⟨hsize, -⟩ := Segment.eq_padded_of_loadInto hload
          rw [h.size_fetch hread hopen] at hsize
          have hle : bytesOfPage L.readBytes index ≤
              L.content.data.size - (L.offset + index * pageSize) :=
            hsize.symm.trans_le (min_le_right _ _)
          have hlt := hshort.2
          omega
        · rw [LoadedSegment.byte?_page hi]
          split
          · next hlt =>
            rw [Segment.getElem?_of_loadInto_of_covers hload hopen ⟨hlt, rfl⟩, hfile,
              FileStore.byte?_of_file? h.file?_eq]
            rfl
          · next hle => exact Segment.getElem?_of_loadInto_of_le hload (Nat.le_of_not_lt hle) hi

end View.Serves

/-! ### Single pages -/

theorem Step.exists_becomes (hstep : Step d V W) (h : V.Consistent) {s : SpaceId} {vpn : VirtPage}
    {page : Page} (hdiscard : d ≠ .discard s vpn) (hp : V.page s vpn = some page) :
    ∃ after, W.page s vpn = some after ∧ page.Becomes after := by
  cases hstep.pageChange h s vpn with
  | same page_eq => exact ⟨page, page_eq.trans hp, .refl page⟩
  | moved found now becomes =>
      obtain rfl := Option.some.inj (hp.symm.trans found)
      exact ⟨_, now, becomes⟩
  | gone now deed => exact (hdiscard deed).elim
  | registered fresh => cases fresh.symm.trans hp
  | inherited fresh => cases fresh.symm.trans hp

/-- A page that has no frame stays as it is, unless it is brought in or removed. -/
theorem Step.page_of_absent (hstep : Step d V W) (h : V.Consistent) {s : SpaceId} {vpn : VirtPage}
    {page : Page} (hbring : d ≠ .bring s vpn) (hdiscard : d ≠ .discard s vpn)
    (hp : V.page s vpn = some page) (habsent : page.frame = none) :
    W.page s vpn = some page := by
  have hfresh : ∀ {t u}, V.page t u = none → ¬(t = s ∧ u = vpn) := by
    rintro t u hnone ⟨rfl, rfl⟩
    cases hnone.symm.trans hp
  cases hstep with
  | evict full victim found mapped loaded spilled zeroed =>
      refine (setAt_of_ne ?_).trans hp
      rintro ⟨rfl, rfl⟩
      have hframe := (h.listed _).mp (List.mem_of_getElem? victim)
      rw [View.frame_of_page hp, habsent] at hframe
      cases hframe
  | bring found absent first filled stored =>
      have hvpn := (h.settled found).vpn_eq
      subst hvpn
      refine (setAt_of_ne ?_).trans hp
      rintro ⟨rfl, rfl⟩
      exact hbring rfl
  | register live fresh | adopt live fresh | copy live found touched fresh =>
      exact (setAt_of_ne (hfresh fresh)).trans hp
  | inherit live found untouched fresh =>
      have hvpn := (h.settled found).vpn_eq
      subst hvpn
      exact (setAt_of_ne (hfresh fresh)).trans hp
  | discardResident | discardSlot | discardBare =>
      refine (setAt_of_ne ?_).trans hp
      rintro ⟨rfl, rfl⟩
      exact hdiscard rfl
  | take | sweep | spoil | giveBack | touch | adjust | store | create | next | drop | setUserSp
  | pin | unpin | edit | reopen | release => exact hp

theorem Page.of_contents? {page : Page} {pool : FramePool} {swap : SwapArea} {bytes : PageBytes}
    (h : page.contents? pool swap = some bytes) : page.type = .anon ∧ page.segment? = none := by
  obtain ⟨vpn, writable, frame, kind⟩ := page
  cases kind with
  | uninit touch =>
      cases touch with
      | zero => exact ⟨rfl, rfl⟩
      | copy segment => cases h
      | share segment => cases h
  | anon slot => exact ⟨rfl, rfl⟩
  | file segment => cases h

namespace View.Stands

theorem congr {memory' : Flat} (h : V.Stands L index memory)
    (hsame : ∀ i < pageSize, memory' L.space ((L.page index).number * pageSize + i) =
      memory L.space ((L.page index).number * pageSize + i)) : V.Stands L index memory' := by
  cases h with
  | untouched page_eq known =>
      exact .untouched page_eq fun i hi => (hsame i hi).trans (known i hi)
  | touched page_eq writable_eq complete contents_eq known =>
      exact .touched page_eq writable_eq complete contents_eq fun i hi =>
        (hsame i hi).trans (known i hi)

theorem exists_page (h : V.Stands L index memory) :
    ∃ page, V.page L.space (L.page index) = some page ∧ page.type = .anon ∧
      page.writable = L.writable := by
  cases h with
  | untouched page_eq known => exact ⟨_, page_eq, MachineM.type_segmentAt _ _ _ _ _ _, rfl⟩
  | @touched page bytes page_eq writable_eq complete contents_eq known =>
      rw [View.contents_of_page page_eq] at contents_eq
      exact ⟨page, page_eq, (Page.of_contents? contents_eq).1, writable_eq⟩

theorem page_of_short (h : V.Stands L index memory) (hshort : L.Short index) :
    V.page L.space (L.page index) = some (L.untouched index) := by
  cases h with
  | untouched page_eq known => exact page_eq
  | touched page_eq writable_eq complete => exact (complete hshort).elim

theorem load (h : V.Stands L index memory) (hc : V.Consistent) {page : Page} {frame : Frame}
    (hp : V.page L.space (L.page index) = some page) (hframe : page.frame = some frame) :
    ¬L.Short index ∧ ∃ bytes, V.contents L.space (L.page index) = some bytes ∧
      V.pool.load frame = .ok bytes ∧ ∀ i < pageSize,
        memory L.space ((L.page index).number * pageSize + i) = bytes[i]? := by
  cases h with
  | untouched page_eq known =>
      obtain rfl := Option.some.inj (page_eq.symm.trans hp)
      cases hframe
  | touched page_eq writable_eq complete contents_eq known =>
      exact ⟨complete, _, contents_eq, hc.load_of_contents hp hframe contents_eq, known⟩

end View.Stands

/-- A page of a segment that is brought in for the first time starts as it should. -/
theorem Step.stands_of_bring (hstep : Step (.bring L.space (L.page index)) V W) (h : V.Serves L)
    (hp : V.page L.space (L.page index) = some (L.untouched index))
    (known : ∀ i < pageSize, memory L.space ((L.page index).number * pageSize + i) =
      L.byte? (index * pageSize + i)) : W.Stands L index memory := by
  generalize hs : L.space = s at hstep hp
  generalize hvpn : L.page index = vpn at hstep hp
  cases hstep with
  | bring found absent first filled stored =>
      rename_i page frame rest bytes kind swap files pool
      obtain rfl := Option.some.inj (hp.symm.trans found)
      subst hs
      obtain ⟨rfl, complete, hbytes⟩ := h.filled filled
      have hload : pool.load frame = .ok bytes := by
        rw [FramePool.load_of_store stored, if_pos rfl]
      have hnow : View.page { V.occupied L.space { L.untouched index with kind := .anon none } frame
          pool rest with swap, files } L.space (L.page index) =
            some { L.untouched index with kind := .anon none, frame := some frame } := setAt_same
      have hcontents : View.contents { V.occupied L.space
          { L.untouched index with kind := .anon none } frame pool rest with swap, files } L.space
            (L.page index) = some bytes := by
        rw [View.contents_of_page hnow]
        exact congrArg Except.toOption hload
      exact .touched hnow rfl complete hcontents fun i hi => (known i hi).trans (hbytes i hi).symm

/-- A page of a segment has what is known of it until it is stored to or removed. -/
theorem Step.stands (hstep : Step d V W) (h : V.Serves L)
    (hstore : d ≠ .store L.space (L.page index)) (hdiscard : d ≠ .discard L.space (L.page index))
    (hV : V.Stands L index memory) : W.Stands L index memory := by
  cases hV with
  | untouched page_eq known =>
      by_cases hbring : d = .bring L.space (L.page index)
      · subst hbring
        exact hstep.stands_of_bring h page_eq known
      · exact .untouched (hstep.page_of_absent h.consistent hbring hdiscard page_eq rfl) known
  | touched page_eq writable_eq complete contents_eq known =>
      obtain ⟨after, hafter, hbecomes⟩ := hstep.exists_becomes h.consistent hdiscard page_eq
      exact .touched hafter (hbecomes.writable_eq.trans writable_eq) complete
        (hstep.contents_eq h.consistent hstore hdiscard contents_eq) known

/-! ### Stores -/

section

variable {s : SpaceId} {va : VirtAddr} {data : Bytes} {pages : List VirtPage} {number : ℕ}
  {page : Page} {frame : Frame} {bytes : PageBytes} {pool : FramePool}
  (hstep : Step (.store s ⟨number⟩) V { V with pool }) (hp : V.page s ⟨number⟩ = some page)
  (hframe : page.frame = some frame) (hload : V.pool.load frame = .ok bytes)
  (hstore : V.pool.store frame (bytes.overlay
    (Chunk.ofPage va (va.val + data.size) number).offset
    (data.slice (Chunk.ofPage va (va.val + data.size) number).position
      (Chunk.ofPage va (va.val + data.size) number).length)) = .ok pool)

include hstep hp hframe hload hstore

theorem View.Serves.stored (h : V.Serves L)
    (hspared : ∀ i, V.ShowsFile L.file s ⟨number⟩ i →
      ¬(va.val ≤ number * pageSize + i ∧ number * pageSize + i < va.val + data.size)) :
    View.Serves { V with pool } L :=
  hstep.serves_of_upholds ⟨by simp, fun _ => trivial⟩ h
    (h.toUpholds.stored hstep hp hframe hload hstore hspared)

/-- A page of a segment that is stored to has the data where the data reaches. -/
theorem View.Stands.stored (h : V.Serves L)
    (hV : V.Stands L index (memory.written s va data pages)) :
    View.Stands { V with pool } L index (memory.written s va data (pages ++ [⟨number⟩])) := by
  by_cases hhere : s = L.space ∧ (⟨number⟩ : VirtPage) = L.page index
  · obtain ⟨rfl, hat⟩ := hhere
    obtain rfl : number = (L.page index).number := congrArg VirtPage.number hat
    obtain ⟨other, hother, -, hwritable⟩ := hV.exists_page
    obtain rfl := Option.some.inj (hp.symm.trans hother)
    obtain ⟨complete, own, hcontents, hown, hknown⟩ := hV.load h.consistent hp hframe
    obtain rfl : bytes = own := Except.ok.inj (hload.symm.trans hown)
    refine .touched (show View.page { V with pool } _ _ = _ from hp) hwritable complete
      (h.consistent.contents_stored hp hframe hstore hcontents) fun i hi => ?_
    rw [Flat.written_append_same (pageOf_number_mul_add _ hi), hknown i hi,
      Chunk.getElem?_stored_eq_map va _ bytes data hi]
  · refine (hstep.stands h ?_ (by simp) hV).congr fun i hi => Flat.written_append_of_ne ?_
    · intro he
      injection he with hs hvpn
      exact hhere ⟨hs, hvpn⟩
    · rintro ⟨hs, hat⟩
      exact hhere ⟨hs, hat.symm.trans (pageOf_number_mul_add _ hi)⟩

end

/-! ### Accesses -/

theorem Deed.shelters_of_accessing {s : SpaceId} (hd : d ∈ Deed.accessing s) : d.Shelters L := by
  rcases hd with (hd | ⟨u, rfl⟩ | ⟨u, rfl⟩) | ⟨u, write, rfl⟩
  · cases d <;> first | exact hd.elim | exact ⟨by simp, fun _ => trivial⟩
  all_goals exact ⟨by simp, fun _ => trivial⟩

/-- While pages are accessed a segment keeps its file, and its pages have what is known of them. -/
theorem Steps.stands_of_accessing {s : SpaceId} (hsteps : Steps (Deed.accessing s) V W)
    (h : V.Serves L) : W.Serves L ∧ ∀ {index memory}, V.Stands L index memory →
      W.Stands L index memory := by
  refine hsteps.invariant (fun U => U.Serves L ∧ ∀ {index memory}, V.Stands L index memory →
    U.Stands L index memory) (fun d hd U U' hstep hU => ?_) ⟨h, fun hV => hV⟩
  have hstore := MachineM.ne_store_of_accessing hd
  refine ⟨hstep.serves (Deed.shelters_of_accessing hd) hstore hU.1, fun {index memory} hV => ?_⟩
  exact hstep.stands hU.1 (hstore _ _) (MachineM.ne_discard_of_accessing hd _ _) (hU.2 hV)

theorem Deed.claiming_subset_accessing (s : SpaceId) (vpn : VirtPage) :
    Deed.claiming s vpn ⊆ Deed.accessing s :=
  (Deed.claiming_subset_resolving s vpn).trans
    ((Deed.resolving_subset_reaching s vpn).trans (Deed.reaching_subset_accessing s vpn))

theorem Deed.room_subset_accessing (s : SpaceId) : Deed.room ⊆ Deed.accessing s :=
  fun _ hd => .inl (.inl hd)

/-- Only the pages that lack a part of the file cannot be filled. -/
theorem View.Stands.short_of_lacks (hV : V.Stands L index memory) (h : V.Serves L)
    (hwhole : L.content.readCap = none) {page : Page}
    (hp : V.page L.space (L.page index) = some page) (hlacks : V.Lacks page) : L.Short index := by
  obtain ⟨U, segment, bytes, hroom, hsegment, hread⟩ := hlacks
  cases hV with
  | touched page_eq writable_eq complete contents_eq known =>
      obtain rfl := Option.some.inj (page_eq.symm.trans hp)
      rw [View.contents_of_page page_eq] at contents_eq
      cases (Page.of_contents? contents_eq).2.symm.trans hsegment
  | untouched page_eq known =>
      obtain rfl := Option.some.inj (page_eq.symm.trans hp)
      have hU := (hroom.mono (Deed.room_subset_accessing L.space)).stands_of_accessing h
      have hpU := (hroom.roomier h.consistent).absent page_eq rfl
      rcases L.touch_cases index with ⟨-, hkind⟩ | ⟨hpos, hneeds, hkind⟩
      · simp [Page.segment?, hkind, FirstTouch.segment?] at hsegment
      · have hown : (L.untouched index).segment? =
            some (MachineM.segmentOf L.backing L.offset L.readBytes index) := by
          simp only [Page.segment?, hkind, FirstTouch.segment?]
        obtain rfl := Option.some.inj (hown.symm.trans hsegment)
        obtain ⟨backing, hopen, -⟩ := hU.1.exists_backing hneeds
          ((View.backing_of_page hpU).trans (congrArg (Option.map Segment.backing) hown))
        have hlt := Segment.size_fetch_lt_of_loadInto hread
        rw [hU.1.size_fetch hneeds hopen, hwhole] at hlt
        have hlt : min (bytesOfPage L.readBytes index)
            (L.content.data.size - (L.offset + index * pageSize)) <
              bytesOfPage L.readBytes index := hlt
        exact ⟨hpos, by omega⟩

end

end DemandPaging
