import DemandPaging.Proofs.CopiedBytes
import DemandPaging.Proofs.Mapping
import DemandPaging.Proofs.SharedPages

/-! # A mapping and its file

The pages of a mapping mirror a part of a file. The bytes that are in frames are what was written to
them last, and so are the bytes in the file, but for those whose page is in a frame and dirty. Every
step keeps this, whichever pages it moves, as long as the file is used through the mapping alone.
-/

namespace DemandPaging

/-- A mapping of a file to pages of an address space. -/
structure FileMapping where
  backing : BackingId
  file : FileId
  space : SpaceId
  base : VirtPage
  pages : ℕ
  offset : ℕ
  /-- What the file had when it was mapped. -/
  original : Bytes
  /-- How many bytes of the file the pages show. -/
  mapped : ℕ
  mapped_le : mapped ≤ original.size - offset

namespace FileMapping

variable {M : FileMapping} {memory : ℕ → Option UInt8} {index other i j x addr : ℕ}

def page (M : FileMapping) (index : ℕ) : VirtPage :=
  ⟨M.base.number + index⟩

def segment (M : FileMapping) (index : ℕ) : Segment :=
  MachineM.segmentOf M.backing M.offset M.mapped index

def start (M : FileMapping) : ℕ :=
  M.base.number * pageSize

/-- What the mapping shows at an address, where `memory` has the bytes that were written through it:
what was written last, or else what the file had. Beyond the bytes of the file there are zeros, but
what is written there gets lost with the frame of the page. -/
def known (M : FileMapping) (memory : ℕ → Option UInt8) (addr : ℕ) : Option UInt8 :=
  if addr - M.start < M.mapped then (memory addr).or M.original[M.offset + (addr - M.start)]?
  else if memory addr = none then some 0 else none

theorem page_inj (h : M.page index = M.page other) : index = other :=
  Nat.add_left_cancel (VirtPage.mk.inj h)

theorem page_mul_add (M : FileMapping) (index i : ℕ) :
    (M.page index).number * pageSize + i = M.start + (index * pageSize + i) := by
  rw [page, start, Nat.add_mul, Nat.add_assoc]

theorem pageOf_start_add (M : FileMapping) (j : ℕ) :
    pageOf (M.start + j) = M.page (j / pageSize) := by
  have hj : M.start + j = (M.page (j / pageSize)).number * pageSize + j % pageSize := by
    rw [page_mul_add, Nat.div_add_mod']
  rw [hj, pageOf_number_mul_add _ (Nat.mod_lt _ (by decide))]

theorem covers_iff : (M.segment index).Covers x i ↔
    i < pageSize ∧ index * pageSize + i < M.mapped ∧ x = M.offset + (index * pageSize + i) := by
  constructor
  · rintro ⟨hlt, rfl⟩
    simp only [segment, MachineM.segmentOf, bytesOfPage] at hlt ⊢
    omega
  · rintro ⟨hi, hlt, rfl⟩
    refine ⟨?_, Nat.add_assoc _ _ _⟩
    simp only [segment, MachineM.segmentOf, bytesOfPage]
    omega

theorem covers_inj (h : (M.segment index).Covers x i) (h' : (M.segment other).Covers x j) :
    index = other ∧ i = j := by
  obtain ⟨hi, -, hx⟩ := covers_iff.mp h
  obtain ⟨hj, -, hx'⟩ := covers_iff.mp h'
  have hsum : index * pageSize + i = other * pageSize + j :=
    Nat.add_left_cancel (hx.symm.trans hx')
  have hindex : index = other := by
    simp only [pageSize] at hi hj hsum
    omega
  exact ⟨hindex, Nat.add_left_cancel (hindex ▸ hsum)⟩

theorem covers_div_mod (hj : j < M.mapped) :
    (M.segment (j / pageSize)).Covers (M.offset + j) (j % pageSize) :=
  covers_iff.mpr ⟨Nat.mod_lt _ (by decide), by rwa [Nat.div_add_mod'], by rw [Nat.div_add_mod']⟩

theorem lt_size_of_covers (h : (M.segment index).Covers x i) : x < M.original.size := by
  obtain ⟨-, hlt, rfl⟩ := covers_iff.mp h
  have hle := M.mapped_le
  omega

theorem known_of_covers (h : (M.segment index).Covers x i) (memory : ℕ → Option UInt8) :
    M.known memory ((M.page index).number * pageSize + i) =
      (memory ((M.page index).number * pageSize + i)).or M.original[x]? := by
  obtain ⟨-, hlt, rfl⟩ := covers_iff.mp h
  rw [known, page_mul_add, Nat.add_sub_cancel_left, if_pos hlt]

theorem exists_known (h : (M.segment index).Covers x i) (memory : ℕ → Option UInt8) :
    ∃ byte, M.known memory ((M.page index).number * pageSize + i) = some byte := by
  rw [known_of_covers h, Array.getElem?_eq_getElem (lt_size_of_covers h)]
  cases memory ((M.page index).number * pageSize + i) with
  | none => exact ⟨_, rfl⟩
  | some byte => exact ⟨byte, rfl⟩

theorem eq_zero_of_known (hi : i < pageSize) (hnot : (M.segment index).readBytes ≤ i) {byte : UInt8}
    (h : M.known memory ((M.page index).number * pageSize + i) = some byte) :
    byte = 0 ∧ memory ((M.page index).number * pageSize + i) = none := by
  have hle : ¬index * pageSize + i < M.mapped := fun hlt =>
    Nat.not_lt_of_le hnot (covers_iff.mpr ⟨hi, hlt, rfl⟩).lt
  have hbeyond : ¬(M.page index).number * pageSize + i - M.start < M.mapped := by
    rwa [page_mul_add, Nat.add_sub_cancel_left]
  rw [known, if_neg hbeyond] at h
  split at h
  · next hnone => exact ⟨(Option.some.inj h).symm, hnone⟩
  · cases h

theorem known_congr {memory' : ℕ → Option UInt8} (h : memory' addr = memory addr) :
    M.known memory' addr = M.known memory addr := by
  rw [known, known, h]

end FileMapping

namespace View

variable {V W : View} {M : FileMapping} {memory : ℕ → Option UInt8} {index i x : ℕ}
  {segment : Segment} {bytes : PageBytes} {entry : PageTable.Entry} {s : SpaceId} {vpn : VirtPage}
  {byte : UInt8}

/-- A mapping is the only use of its file: no other backing is open on the file, and the pages that
refer to the backing are pages of the mapping. -/
structure Maps (V : View) (M : FileMapping) : Prop where
  consistent : V.Consistent
  numbered : V.files.Numbered
  lt_next : M.backing < V.files.nextBacking
  tallies : V.Tallies M.backing
  file_eq : ∀ {backing}, V.files.backing? M.backing = some backing → backing.file = M.file
  only : ∀ {id backing}, V.files.backing? id = some backing → backing.file = M.file →
    id = M.backing
  placed : ∀ {s vpn}, V.backing s vpn = some M.backing → s = M.space ∧
    ∃ index < M.pages, vpn = M.page index ∧ V.shared s vpn = some (M.segment index)
  content : ∃ content, V.files.file? M.file = some content ∧ content.writeCap = none ∧
    content.data.size = M.original.size

/-- A page of the mapping is in a frame and dirty. -/
def Unsaved (V : View) (M : FileMapping) (index : ℕ) : Prop :=
  ∃ bytes entry, V.Resident M.space (M.page index) (M.segment index) bytes entry ∧
    entry.has .dirty = true

/-- A mapping and its file have what is known. -/
structure Mirrors (V : View) (M : FileMapping) (memory : ℕ → Option UInt8) : Prop
    extends V.Maps M where
  /-- A page in a frame has what is known of it. -/
  shown : ∀ {index bytes entry}, V.Resident M.space (M.page index) (M.segment index) bytes entry →
    ∀ {i}, i < pageSize → ∀ {byte},
      M.known memory ((M.page index).number * pageSize + i) = some byte → bytes[i]? = some byte
  /-- The file has what is known of a page that is in no frame, or clean. -/
  saved : ∀ {index x i}, (M.segment index).Covers x i → ¬V.Unsaved M index →
    V.files.byte? M.file x = M.known memory ((M.page index).number * pageSize + i)
  /-- Where the mapping does not show the file it has what it had. -/
  others : ∀ {x}, (∀ index i, ¬(M.segment index).Covers x i) →
    V.files.byte? M.file x = M.original[x]?

theorem Resident.backing_eq (h : V.Resident s vpn segment bytes entry) :
    V.backing s vpn = some segment.backing := by
  obtain ⟨page, frame, hp, hkind, -⟩ := h.exists_page
  rw [backing_of_page hp, Page.backing?_of_shared? (Page.shared?_of_kind hkind)]

theorem backing_of_shared (h : V.shared s vpn = some segment) :
    V.backing s vpn = some segment.backing := by
  obtain ⟨page, hp, hshared⟩ := Option.bind_eq_some_iff.mp h
  rw [backing_of_page hp, Page.backing?_of_shared? hshared]

namespace Maps

theorem exists_backing (h : V.Maps M) (hpage : V.backing s vpn = some M.backing) :
    ∃ backing, V.files.backing? M.backing = some backing ∧ backing.file = M.file := by
  obtain ⟨backing, hopen⟩ := (FileStore.refs_pos_iff h.numbered).mp (h.tallies.refs_pos hpage)
  exact ⟨backing, hopen, h.file_eq hopen⟩

theorem writeBack_cases (h : V.Maps M) (hV : V.Resident s vpn segment bytes entry) :
    (s = M.space ∧ ∃ index, vpn = M.page index ∧ segment = M.segment index) ∨
      (segment.writeBack V.files bytes).2.file? M.file = V.files.file? M.file := by
  cases hopen : V.files.backing? segment.backing with
  | none => exact .inr (by rw [Segment.writeBack_of_closed hopen])
  | some backing =>
      by_cases hfile : backing.file = M.file
      · have hid := h.only hopen hfile
        obtain ⟨hspace, index, -, hvpn, hshared⟩ := h.placed (hid ▸ hV.backing_eq)
        exact .inl ⟨hspace, index, hvpn, Option.some.inj (hV.shared_eq.symm.trans hshared)⟩
      · exact .inr ((Segment.file?_writeBack hopen bytes M.file).trans (if_neg hfile))

theorem byte?_writeBack (h : V.Maps M)
    (hV : V.Resident M.space (M.page index) (M.segment index) bytes entry)
    (hcovers : (M.segment index).Covers x i) :
    ((M.segment index).writeBack V.files bytes).2.byte? M.file x = bytes[i]? := by
  obtain ⟨content, hcontent, hcap, hsize⟩ := h.content
  obtain ⟨backing, hopen, hfile⟩ := h.exists_backing hV.backing_eq
  rw [← hfile] at hcontent ⊢
  have hlt := FileMapping.lt_size_of_covers hcovers
  exact Segment.byte?_writeBack_of_covers hopen hcontent hcap hcovers (hsize ▸ hlt) bytes

end Maps

end View

/-! ## Steps -/

/-- Steps that use the file through the mapping alone, and neither copy its pages nor change the
notes of their use. -/
def Deed.Respects (M : FileMapping) (V : View) : Deed → Prop
  | .register s page => page.backing? = some M.backing → s = M.space ∧
      ∃ index < M.pages, page.vpn = M.page index ∧ page.shared? = some (M.segment index)
  | .adopt _ page => page.backing? ≠ some M.backing
  | .inherit _ src vpn | .copy _ src vpn => V.backing src vpn ≠ some M.backing
  | .adjust s vpn => V.backing s vpn ≠ some M.backing
  | .pin file | .edit file | .reopen file => file ≠ M.file
  | .release id => id ≠ M.backing
  | _ => True

section

variable {V W : View} {M : FileMapping} {memory : ℕ → Option UInt8} {d : Deed} {index : ℕ}
  {bytes : PageBytes} {entry : PageTable.Entry}

theorem Deed.Respects.accounts (h : d.Respects M V) : d.Accounts M.backing := by
  cases d <;> first | exact h | trivial

/-- A page that refers to the backing of the mapping did so before, or the step registers it. -/
theorem Step.backing_cases (hstep : Step d V W) (hd : d.Respects M V) (h : V.Maps M) {s : SpaceId}
    {vpn : VirtPage} (hpage : W.backing s vpn = some M.backing) :
    V.backing s vpn = some M.backing ∧ W.shared s vpn = V.shared s vpn ∨
      ∃ page, d = .register s page ∧ page.vpn = vpn ∧ page.backing? = some M.backing ∧
        W.shared s vpn = page.shared? := by
  cases hstep.pageChange h.consistent s vpn with
  | same he =>
      rw [View.backing, he] at hpage
      exact .inl ⟨hpage, by rw [View.shared, he, View.shared]⟩
  | moved hfound hnow hbecomes =>
      rw [View.backing_of_page hnow] at hpage
      refine .inl ⟨(View.backing_of_page hfound).trans (hbecomes.backing?_of hpage), ?_⟩
      rw [View.shared_of_page hnow, View.shared_of_page hfound, hbecomes.shared?_eq]
  | gone hnow hdeed =>
      rw [View.backing_of_none hnow] at hpage
      cases hpage
  | registered hfresh hnow hvpn hdeed =>
      rw [View.backing_of_page hnow] at hpage
      rcases hdeed with rfl | rfl
      · exact .inr ⟨_, rfl, hvpn, hpage, View.shared_of_page hnow⟩
      · exact (hd hpage).elim
  | inherited hfresh hnow hfound hbecomes hdeed =>
      rw [View.backing_of_page hnow] at hpage
      have hsource := (View.backing_of_page hfound).trans (hbecomes.backing?_of hpage)
      rcases hdeed with rfl | rfl <;> exact (hd hsource).elim

theorem Step.placed (hstep : Step d V W) (hd : d.Respects M V) (h : V.Maps M) {s : SpaceId}
    {vpn : VirtPage} (hpage : W.backing s vpn = some M.backing) : s = M.space ∧
      ∃ index < M.pages, vpn = M.page index ∧ W.shared s vpn = some (M.segment index) := by
  rcases hstep.backing_cases hd h hpage with ⟨hbefore, hsame⟩ | ⟨page, rfl, rfl, hid, hsame⟩
  · rw [hsame]
    exact h.placed hbefore
  · rw [hsame]
    exact hd hid

theorem Step.only (hstep : Step d V W) (hd : d.Respects M V) (h : V.Maps M) {id : BackingId}
    {backing : Backing} (hopen : W.files.backing? id = some backing)
    (hfile : backing.file = M.file) : id = M.backing := by
  rcases hstep.recounted with hsame | ⟨file, base, pages, own, hreopen, hdeed⟩
  · obtain ⟨before, hbefore, hmapping, -⟩ := hsame.exists_before hopen
    exact h.only hbefore (hmapping.file_eq.symm.trans hfile)
  · obtain ⟨rfl, -, hback⟩ := FileStore.backing?_reopen hreopen
    have hne : file ≠ M.file := by rcases hdeed with ⟨rfl, -⟩ | rfl <;> exact hd
    rw [hback] at hopen
    split at hopen
    · obtain rfl := Option.some.inj hopen
      exact (hne hfile).elim
    · exact h.only hopen hfile

theorem Step.maps (hstep : Step d V W) (hd : d.Respects M V) (h : V.Maps M) : W.Maps M where
  consistent := hstep.consistent h.consistent
  numbered := hstep.numbered h.numbered
  lt_next := lt_of_lt_of_le h.lt_next hstep.nextBacking_le
  tallies := hstep.tallies h.consistent h.numbered hd.accounts (fun _ _ => h.lt_next) h.tallies
  file_eq hopen := by
    obtain ⟨before, hbefore, hsame⟩ := hstep.backing?_of_lt h.lt_next hopen
    exact hsame.symm.trans (h.file_eq hbefore)
  only := hstep.only hd h
  placed := hstep.placed hd h
  content := by
    obtain ⟨content, hcontent, hcap, hsize⟩ := h.content
    have hedit : d ≠ .edit M.file := by
      rintro rfl
      exact hd rfl
    rcases hstep.file?_cases h.consistent hedit with
      hsame | ⟨s, vpn, segment, bytes, entry, hV, -, -, hW⟩
    · exact ⟨content, hsame.trans hcontent, hcap, hsize⟩
    · cases hopen : V.files.backing? segment.backing with
      | none =>
          rw [Segment.writeBack_of_closed hopen] at hW
          exact ⟨content, hW.trans hcontent, hcap, hsize⟩
      | some backing =>
          rw [Segment.file?_writeBack hopen, hcontent] at hW
          split at hW
          · exact ⟨_, hW, hcap, (File.size_data_writeAt _ _ _).trans hsize⟩
          · exact ⟨content, hW, hcap, hsize⟩

theorem Step.ne_store (hstep : Step d V W) (h : V.Maps M)
    (hstore : ∀ vpn, d = .store M.space vpn → V.backing M.space vpn ≠ some M.backing)
    (hW : W.Resident M.space (M.page index) (M.segment index) bytes entry) :
    d ≠ .store M.space (M.page index) := by
  rintro rfl
  obtain ⟨-, before, hV⟩ := hstep.resident_of_store h.consistent hW
  exact hstore _ rfl hV.backing_eq

/-- What is in the frame of a page of the mapping was there before, or came from the file when the
page was brought in. -/
theorem Step.origin_of_respects (hstep : Step d V W) (hd : d.Respects M V) (h : V.Maps M)
    (hne : d ≠ .store M.space (M.page index))
    (hW : W.Resident M.space (M.page index) (M.segment index) bytes entry) :
    (∃ before, V.Resident M.space (M.page index) (M.segment index) bytes before ∧
      (before.has .dirty = true → entry.has .dirty = true)) ∨
    d = .bring M.space (M.page index) ∧
      (∀ bytes before, ¬V.Resident M.space (M.page index) (M.segment index) bytes before) ∧
      V.Fillable M.space (M.page index) (M.segment index) bytes := by
  cases hstep.origin h.consistent hne hW with
  | stayed hV hdirty =>
      refine .inl ⟨_, hV, fun hbefore => (hdirty hbefore).resolve_right ?_⟩
      rintro rfl
      exact hd hV.backing_eq
  | filled hdeed habsent hfill =>
      exact .inr ⟨hdeed, fun bytes before => habsent _ bytes before, hfill⟩
  | copied hdeed hV =>
      subst hdeed
      exact (hd hV.backing_eq).elim
  | read hdeed hfill =>
      subst hdeed
      exact (hd (View.backing_of_shared hfill.shared_eq)).elim

theorem View.Mirrors.shown_of_fillable (h : V.Mirrors M memory)
    (habsent : ∀ bytes before, ¬V.Resident M.space (M.page index) (M.segment index) bytes before)
    (hfill : V.Fillable M.space (M.page index) (M.segment index) bytes) {i : ℕ} (hi : i < pageSize)
    {byte : UInt8} (hknown : M.known memory ((M.page index).number * pageSize + i) = some byte) :
    bytes[i]? = some byte := by
  by_cases hlt : i < (M.segment index).readBytes
  · have hcovers : (M.segment index).Covers ((M.segment index).offset + i) i := ⟨hlt, rfl⟩
    obtain ⟨backing, hopen, hfile⟩ := h.exists_backing (View.backing_of_shared hfill.shared_eq)
    rw [Segment.getElem?_of_loadInto_of_covers hfill.loaded hopen hcovers, hfile, ← hknown]
    refine h.saved hcovers ?_
    rintro ⟨bytes, before, hV, -⟩
    exact habsent bytes before hV
  · obtain ⟨rfl, -⟩ := FileMapping.eq_zero_of_known hi (Nat.le_of_not_lt hlt) hknown
    exact Segment.getElem?_of_loadInto_of_le hfill.loaded (Nat.le_of_not_lt hlt) hi

/-- The file keeps the bytes of a page that is in no frame, or clean, and gets those of a page that
leaves its frame dirty. -/
theorem Step.saved_of_mirrors (hstep : Step d V W) (hd : d.Respects M V)
    (hstore : ∀ vpn, d = .store M.space vpn → V.backing M.space vpn ≠ some M.backing)
    (h : V.Mirrors M memory) {x i : ℕ} (hcovers : (M.segment index).Covers x i)
    (hclean : ¬W.Unsaved M index) :
    W.files.byte? M.file x = M.known memory ((M.page index).number * pageSize + i) := by
  by_cases hunsaved : V.Unsaved M index
  · obtain ⟨bytes, entry, hV, hdirty⟩ := hunsaved
    rcases hstep.resident_cases h.consistent hV with ⟨after, other, hW⟩ | hleft
    · rcases hstep.origin_of_respects hd h.toMaps (hstep.ne_store h.toMaps hstore hW) hW with
        ⟨before, hbefore, hkept⟩ | ⟨-, habsent, -⟩
      · obtain rfl := (hV.eq hbefore).2.2
        exact (hclean ⟨after, other, hW, hkept hdirty⟩).elim
      · exact (habsent bytes entry hV).elim
    · have hbyte := FileStore.byte?_congr ((hleft M.file).trans (if_pos hdirty)) x
      obtain ⟨byte, hknown⟩ := FileMapping.exists_known hcovers memory
      rw [hbyte, h.byte?_writeBack hV hcovers, hknown]
      exact h.shown hV (FileMapping.covers_iff.mp hcovers).1 hknown
  · have hbefore := h.saved hcovers hunsaved
    have hedit : d ≠ .edit M.file := by
      rintro rfl
      exact hd rfl
    rcases hstep.file?_cases h.consistent hedit with
      hsame | ⟨s, vpn, segment, bytes, entry, hV, hon, -, hW⟩
    · exact (FileStore.byte?_congr hsame x).trans hbefore
    · rw [FileStore.byte?_congr hW, ← hbefore]
      rcases h.writeBack_cases hV with ⟨rfl, other, rfl, rfl⟩ | hsame
      · refine Segment.byte?_writeBack_of_not_covers (fun j hj => ?_) bytes
        obtain ⟨rfl, -⟩ := FileMapping.covers_inj hcovers hj
        exact hunsaved ⟨bytes, entry, hV, hon⟩
      · exact FileStore.byte?_congr hsame x

theorem Step.others_of_mirrors (hstep : Step d V W) (hd : d.Respects M V) (h : V.Mirrors M memory)
    {x : ℕ} (hnot : ∀ index i, ¬(M.segment index).Covers x i) :
    W.files.byte? M.file x = M.original[x]? := by
  rw [← h.others hnot]
  have hedit : d ≠ .edit M.file := by
    rintro rfl
    exact hd rfl
  rcases hstep.file?_cases h.consistent hedit with
    hsame | ⟨s, vpn, segment, bytes, entry, hV, -, -, hW⟩
  · exact FileStore.byte?_congr hsame x
  · rw [FileStore.byte?_congr hW]
    rcases h.writeBack_cases hV with ⟨rfl, index, rfl, rfl⟩ | hsame
    · exact Segment.byte?_writeBack_of_not_covers (hnot index) bytes
    · exact FileStore.byte?_congr hsame x

/-- Every step that stores nothing to the pages of a mapping keeps what is known of it. -/
theorem Step.mirrors (hstep : Step d V W) (hd : d.Respects M V)
    (hstore : ∀ vpn, d = .store M.space vpn → V.backing M.space vpn ≠ some M.backing)
    (h : V.Mirrors M memory) : W.Mirrors M memory where
  toMaps := hstep.maps hd h.toMaps
  shown hW _ hi _ hknown := by
    rcases hstep.origin_of_respects hd h.toMaps (hstep.ne_store h.toMaps hstore hW) hW with
      ⟨before, hV, -⟩ | ⟨-, habsent, hfill⟩
    · exact h.shown hV hi hknown
    · exact h.shown_of_fillable habsent hfill hi hknown
  saved hcovers hclean := hstep.saved_of_mirrors hd hstore h hcovers hclean
  others hnot := hstep.others_of_mirrors hd h hnot

end

end DemandPaging
