import DemandPaging.Proofs.References

/-! # Bytes of files

Opening and closing backings does not touch the bytes of files. A page that is written back changes
the bytes that its segment covers and no others, and a page that is filled has the bytes that its
segment covers, and zeros after them.
-/

namespace DemandPaging

namespace File

/-- A file, whatever handles are open on it. -/
def bare (file : File) : File :=
  { file with handles := 0 }

theorem capped_le (cap : Option ℕ) (count : ℕ) : capped cap count ≤ count := by
  cases cap with
  | none => exact le_rfl
  | some limit => exact min_le_left _ _

theorem writeCount_le (file : File) (offset count : ℕ) : file.writeCount offset count ≤ count :=
  (min_le_left _ _).trans (capped_le _ _)

theorem getElem?_writeAt (file : File) (offset : ℕ) (bytes : Bytes) (x : ℕ) :
    (file.writeAt offset bytes).data[x]? =
      if offset ≤ x ∧ x - offset < file.writeCount offset bytes.size then bytes[x - offset]?
      else file.data[x]? := by
  have hcount := file.writeCount_le offset bytes.size
  have hroom : file.writeCount offset bytes.size ≤ file.data.size - offset := min_le_right _ _
  rw [writeAt, Bytes.getElem?_overlay, Bytes.size_slice, Bytes.getElem?_slice]
  by_cases hin : offset ≤ x ∧ x - offset < file.writeCount offset bytes.size
  · rw [if_pos hin, if_pos (by omega), if_pos hin.2, Nat.zero_add]
  · rw [if_neg hin, if_neg (by omega)]

end File

namespace FileStore

variable {store changed : FileStore} {id : BackingId} {file other : FileId} {x : ℕ}

def file? (store : FileStore) (file : FileId) : Option File :=
  (store.files[file]?).map File.bare

def byte? (store : FileStore) (file : FileId) (x : ℕ) : Option UInt8 :=
  (store.file? file).bind (·.data[x]?)

theorem byte?_of_file? {content : File} (h : store.file? file = some content) :
    store.byte? file x = content.data[x]? := by
  rw [byte?, h, Option.bind_some]

theorem byte?_congr (h : changed.file? file = store.file? file) (x : ℕ) :
    changed.byte? file x = store.byte? file x := by
  rw [byte?, byte?, h]

theorem file?_modifyFile (store : FileStore) (file other : FileId) (change : File → File) :
    (store.modifyFile file change).file? other =
      if file = other then (store.files[file]?).map fun content => (change content).bare
      else store.file? other := by
  simp only [file?, modifyFile, Array.getElem?_modify]
  split
  · next h =>
    rw [h]
    cases store.files[other]? <;> rfl
  · rfl

theorem file?_modifyFile_of_ne (h : file ≠ other) (change : File → File) :
    (store.modifyFile file change).file? other = store.file? other := by
  rw [file?_modifyFile, if_neg h]

theorem file?_modifyFile_of_bare (change : File → File)
    (h : ∀ content, (change content).bare = content.bare) (file other : FileId) :
    (store.modifyFile file change).file? other = store.file? other := by
  rw [file?_modifyFile]
  split
  · next he =>
    subst he
    simp only [h]
    rfl
  · rfl

@[simp] theorem file?_retain (store : FileStore) (id : BackingId) (file : FileId) :
    (store.retain id).file? file = store.file? file := by
  unfold retain
  split <;> rfl

@[simp] theorem file?_release (store : FileStore) (id : BackingId) (file : FileId) :
    (store.release id).file? file = store.file? file := by
  unfold release
  split
  · rfl
  · next backing _ =>
    split
    · exact file?_modifyFile_of_bare File.closeHandle (fun _ => rfl) backing.file file
    · rfl

theorem file?_reopen {base : VirtPage} {pages : ℕ}
    (h : store.reopen other base pages = .ok (id, changed)) (file : FileId) :
    changed.file? file = store.file? file := by
  unfold reopen at h
  split at h
  · cases h
  · obtain ⟨-, rfl⟩ := Prod.mk.inj (Except.ok.inj h)
    exact file?_modifyFile_of_bare File.openHandle (fun _ => rfl) other file

theorem size_readAt (store : FileStore) (file : FileId) (offset count : ℕ) :
    (store.readAt file offset count).size = (store.file? file).elim 0 fun content =>
      min (File.capped content.readCap count) (content.data.size - offset) := by
  unfold readAt file?
  cases store.files[file]? with
  | none => rfl
  | some content => exact content.size_readAt offset count

theorem size_readAt_le (store : FileStore) (file : FileId) (offset count : ℕ) :
    (store.readAt file offset count).size ≤ count := by
  rw [size_readAt]
  cases store.file? file with
  | none => exact Nat.zero_le _
  | some content => exact (min_le_left _ _).trans (File.capped_le _ _)

end FileStore

@[simp] theorem Page.file?_retainedIn (page : Page) (files : FileStore) (file : FileId) :
    (page.retainedIn files).file? file = files.file? file := by
  unfold retainedIn
  cases page.backing? with
  | none => rfl
  | some id => exact files.file?_retain id file

@[simp] theorem Page.file?_releasedIn (page : Page) (files : FileStore) (file : FileId) :
    (page.releasedIn files).file? file = files.file? file := by
  unfold releasedIn
  cases page.backing? with
  | none => rfl
  | some id => exact files.file?_release id file

theorem Fill.file?_eq {swap swap' : SwapArea} {files files' : FileStore} {kind kind' : PageKind}
    {bytes : PageBytes} (h : Fill swap files kind bytes kind' swap' files') (file : FileId) :
    files'.file? file = files.file? file := by
  cases h with
  | copy => exact files.file?_release _ file
  | zero | share | slot | file => rfl

/-! ## Segments -/

namespace Segment

variable {segment : Segment} {files : FileStore} {backing : Backing} {file : FileId} {x i : ℕ}
  {bytes page : PageBytes} {byte : UInt8}

/-- A segment covers a position of its file with a byte of its page. -/
structure Covers (segment : Segment) (x i : ℕ) : Prop where
  lt : i < segment.readBytes
  offset_add : segment.offset + i = x

theorem file?_writeBack (hopen : files.backing? segment.backing = some backing) (page : PageBytes)
    (file : FileId) :
    (segment.writeBack files page).2.file? file =
      if backing.file = file then
        (files.file? file).map (·.writeAt segment.offset (page.slice 0 segment.readBytes))
      else files.file? file := by
  simp only [writeBack, hopen, FileStore.writeAt, FileStore.file?_modifyFile]
  split
  · next h =>
    rw [← h, FileStore.file?, Option.map_map]
    rfl
  · rfl

theorem writeBack_of_closed (hclosed : files.backing? segment.backing = none) (page : PageBytes) :
    (segment.writeBack files page).2 = files := by
  simp only [writeBack, hclosed]

theorem size_readAt_writeBack (segment : Segment) (files : FileStore) (page : PageBytes)
    (file : FileId) (offset count : ℕ) :
    ((segment.writeBack files page).2.readAt file offset count).size =
      (files.readAt file offset count).size := by
  cases hopen : files.backing? segment.backing with
  | none => rw [writeBack_of_closed hopen]
  | some backing =>
      rw [FileStore.size_readAt, FileStore.size_readAt, file?_writeBack hopen]
      split
      · cases files.file? file with
        | none => rfl
        | some content => simp [File.writeAt]
      · rfl

theorem size_slice (segment : Segment) (page : PageBytes) :
    (page.slice 0 segment.readBytes).size = segment.readBytes := by
  have hsize : page.toArray.size = pageSize := page.size_toArray
  rw [PageBytes.slice, Bytes.size_slice, hsize, Nat.sub_zero]
  exact min_eq_left segment.readBytes_le

/-- A page that is written back gives its file the bytes that the segment covers, as many as one
write stores. -/
theorem byte?_writeBack {content : File} (hopen : files.backing? segment.backing = some backing)
    (hfile : files.file? backing.file = some content) (page : PageBytes) (x : ℕ) :
    (segment.writeBack files page).2.byte? backing.file x =
      if segment.offset ≤ x ∧
          x - segment.offset < content.writeCount segment.offset segment.readBytes then
        page[x - segment.offset]?
      else files.byte? backing.file x := by
  have hafter := file?_writeBack hopen page backing.file
  rw [if_pos rfl, hfile, Option.map_some] at hafter
  rw [FileStore.byte?_of_file? hafter, FileStore.byte?_of_file? hfile, File.getElem?_writeAt,
    size_slice]
  split
  · next hin =>
    have hlt := hin.2.trans_le (content.writeCount_le segment.offset segment.readBytes)
    rw [PageBytes.slice, Bytes.getElem?_slice, if_pos hlt, Nat.zero_add, Vector.getElem?_toArray]
  · rfl

/-- A byte of a file that a page was written back to is from the page, or was there before. -/
theorem byte?_writeBack_cases (h : (segment.writeBack files page).2.byte? file x = some byte) :
    files.byte? file x = some byte ∨
      ∃ i backing, files.backing? segment.backing = some backing ∧ backing.file = file ∧
        segment.Covers x i ∧ page[i]? = some byte := by
  cases hopen : files.backing? segment.backing with
  | none =>
      rw [writeBack_of_closed hopen] at h
      exact .inl h
  | some backing =>
      by_cases hfile : backing.file = file
      · subst hfile
        cases hcontent : files.file? backing.file with
        | none =>
            have hafter := file?_writeBack hopen page backing.file
            rw [if_pos rfl, hcontent, Option.map_none] at hafter
            simp [FileStore.byte?, hafter] at h
        | some content =>
            rw [byte?_writeBack hopen hcontent] at h
            split at h
            · next hin =>
              have hlt := hin.2.trans_le (content.writeCount_le segment.offset segment.readBytes)
              exact .inr ⟨_, backing, rfl, rfl, ⟨hlt, Nat.add_sub_cancel' hin.1⟩, h⟩
            · exact .inl h
      · rw [FileStore.byte?_congr ((file?_writeBack hopen page file).trans (if_neg hfile))] at h
        exact .inl h

theorem byte?_writeBack_of_covers {content : File}
    (hopen : files.backing? segment.backing = some backing)
    (hfile : files.file? backing.file = some content) (hcap : content.writeCap = none)
    (hcovers : segment.Covers x i) (hin : x < content.data.size) (page : PageBytes) :
    (segment.writeBack files page).2.byte? backing.file x = page[i]? := by
  obtain ⟨hlt, rfl⟩ := hcovers
  rw [byte?_writeBack hopen hfile, if_pos, Nat.add_sub_cancel_left]
  refine ⟨Nat.le_add_right _ _, ?_⟩
  simp only [File.writeCount, hcap, File.capped]
  omega

theorem byte?_writeBack_of_not_covers (h : ∀ i, ¬segment.Covers x i) (page : PageBytes) :
    (segment.writeBack files page).2.byte? file x = files.byte? file x := by
  cases hopen : files.backing? segment.backing with
  | none => rw [writeBack_of_closed hopen]
  | some backing =>
      by_cases hfile : backing.file = file
      · subst hfile
        cases hcontent : files.file? backing.file with
        | none =>
            have hafter := file?_writeBack hopen page backing.file
            rw [if_pos rfl, hcontent, Option.map_none] at hafter
            rw [FileStore.byte?, FileStore.byte?, hafter, hcontent]
        | some content =>
            rw [byte?_writeBack hopen hcontent, if_neg]
            rintro ⟨hle, hin⟩
            have hlt := hin.trans_le (content.writeCount_le segment.offset segment.readBytes)
            exact h _ ⟨hlt, Nat.add_sub_cancel' hle⟩
      · exact FileStore.byte?_congr ((file?_writeBack hopen page file).trans (if_neg hfile)) x

theorem size_fetch (segment : Segment) (files : FileStore) :
    (segment.fetch files).size =
      ((files.backing? segment.backing).map Backing.file).elim 0 fun file =>
        (files.readAt file segment.offset segment.readBytes).size := by
  unfold fetch
  cases files.backing? segment.backing <;> rfl

theorem size_fetch_lt_of_loadInto (h : segment.loadInto files page = (bytes, false)) :
    (segment.fetch files).size < segment.readBytes := by
  simp only [loadInto] at h
  split at h
  · cases (Prod.mk.inj h).2
  · next hne =>
    refine Nat.lt_of_le_of_ne ?_ hne
    rw [size_fetch]
    cases files.backing? segment.backing with
    | none => exact Nat.zero_le _
    | some backing => exact files.size_readAt_le backing.file _ _

theorem eq_padded_of_loadInto (h : segment.loadInto files page = (bytes, true)) :
    (segment.fetch files).size = segment.readBytes ∧ bytes = .padded (segment.fetch files) := by
  simp only [loadInto] at h
  split at h
  · next hsize => exact ⟨hsize, (Prod.mk.inj h).1.symm⟩
  · cases h

theorem getElem?_of_loadInto (h : segment.loadInto files page = (bytes, true)) (hi : i < pageSize) :
    bytes[i]? = if i < segment.readBytes then (segment.fetch files)[i]? else some 0 := by
  obtain ⟨hsize, rfl⟩ := eq_padded_of_loadInto h
  have hzero : PageBytes.zero.toArray.size = pageSize := PageBytes.zero.size_toArray
  rw [PageBytes.padded, PageBytes.overlay, ← Vector.getElem?_toArray, Bytes.getElem?_overlay,
    hsize, hzero, Nat.sub_zero]
  by_cases hlt : i < segment.readBytes
  · rw [if_pos ⟨hi, Nat.zero_le _, hlt⟩, if_pos hlt]
  · rw [if_neg fun he => hlt he.2.2, if_neg hlt]
    simp [PageBytes.zero, PageBytes.filled, hi]

theorem getElem?_of_loadInto_of_le (h : segment.loadInto files page = (bytes, true))
    (hle : segment.readBytes ≤ i) (hi : i < pageSize) : bytes[i]? = some 0 := by
  rw [getElem?_of_loadInto h hi, if_neg (Nat.not_lt_of_le hle)]

theorem exists_backing_of_loadInto (h : segment.loadInto files page = (bytes, true))
    (hpos : 0 < segment.readBytes) :
    ∃ backing, files.backing? segment.backing = some backing := by
  obtain ⟨hsize, -⟩ := eq_padded_of_loadInto h
  unfold fetch at hsize
  cases hopen : files.backing? segment.backing with
  | some backing => exact ⟨backing, rfl⟩
  | none =>
      simp only [hopen, Array.size_empty] at hsize
      exact absurd hsize hpos.ne

/-- A page that was filled completely has the bytes of the file that its segment covers. -/
theorem getElem?_of_loadInto_of_covers (h : segment.loadInto files page = (bytes, true))
    (hopen : files.backing? segment.backing = some backing) (hcovers : segment.Covers x i) :
    bytes[i]? = files.byte? backing.file x := by
  obtain ⟨hlt, rfl⟩ := hcovers
  rw [getElem?_of_loadInto h (hlt.trans_le segment.readBytes_le), if_pos hlt]
  obtain ⟨hcomplete, -⟩ := eq_padded_of_loadInto h
  unfold fetch FileStore.readAt at hcomplete ⊢
  unfold FileStore.byte? FileStore.file?
  simp only [hopen] at hcomplete ⊢
  cases hfile : files.files[backing.file]? with
  | none =>
      simp only [hfile, Option.elim_none, Array.size_empty] at hcomplete
      omega
  | some content =>
      simp only [hfile, Option.elim_some, File.size_readAt] at hcomplete
      have hall : i < File.capped content.readCap segment.readBytes := by omega
      rw [Option.elim_some, File.readAt, Bytes.getElem?_slice, if_pos hall]
      rfl

end Segment

end DemandPaging
