import DemandPaging.Proofs.KeptFrames
import DemandPaging.Proofs.MappedFile.UserCopy

/-! # The tail of a mapping

The pages of a mapping may reach beyond the bytes of the file that they show. What is written there
is in the frame of its page alone: a copy finds it if the page is in the frame when its turn comes,
and finds zeros if not.
-/

namespace DemandPaging

/-! ## Bytes in frames -/

/-- A page of a mapping has a byte at an offset, if it is in a frame. -/
structure View.Keeps (V : View) (M : FileMapping) (index i : ℕ) (byte : UInt8) : Prop
    extends V.Maps M where
  kept : ∀ {bytes entry}, V.Resident M.space (M.page index) (M.segment index) bytes entry →
    bytes[i]? = some byte

/-- An offset of a page of a mapping that is beyond the bytes of the file. -/
def FileMapping.Beyond (M : FileMapping) (index i : ℕ) : Prop :=
  (M.segment index).readBytes ≤ i ∧ i < pageSize

/-- A step leaves the bytes of a page of a mapping, unless it is brought in and zero. -/
def Deed.Leaves (M : FileMapping) (index : ℕ) (byte : UInt8) (d : Deed) : Prop :=
  d ≠ .store M.space (M.page index) ∧ (d = .bring M.space (M.page index) → byte = 0)

section

variable {V W : View} {M : FileMapping} {index i : ℕ} {byte : UInt8} {d : Deed} {deeds : Set Deed}
  {s : SpaceId} {vpn : VirtPage}

theorem View.Maps.keeps_of_absent (h : V.Maps M) (habsent : V.frame M.space (M.page index) = none)
    (byte : UInt8) : V.Keeps M index i byte := by
  refine ⟨h, fun hV => ?_⟩
  obtain ⟨page, frame, hp, -, hframe, -⟩ := hV.exists_page
  rw [View.frame_of_page hp, hframe] at habsent
  cases habsent

theorem View.Maps.exists_keeps (h : V.Maps M) (hi : i < pageSize) :
    ∃ byte, V.Keeps M index i byte := by
  rcases em (∃ bytes entry, V.Resident M.space (M.page index) (M.segment index) bytes entry) with
    ⟨bytes, entry, hV⟩ | hnot
  · refine ⟨bytes[i], h, fun hother => ?_⟩
    rw [(hother.eq hV).2.1]
    exact Vector.getElem?_eq_getElem hi
  · exact ⟨0, h, fun hother => (hnot ⟨_, _, hother⟩).elim⟩

/-- Beyond the bytes of the file, a page that is in a frame keeps its bytes, and one that is brought
in is zero. -/
theorem Step.keeps (hstep : Step d V W) (hd : d.Respects M V) (hleaves : d.Leaves M index byte)
    (hbeyond : M.Beyond index i) (h : V.Keeps M index i byte) : W.Keeps M index i byte := by
  refine ⟨hstep.maps hd h.toMaps, fun hW => ?_⟩
  rcases hstep.origin_of_respects hd h.toMaps hleaves.1 hW with ⟨before, hV, -⟩ | ⟨hbring, -, hfill⟩
  · exact h.kept hV
  · rw [hleaves.2 hbring]
    exact Segment.getElem?_of_loadInto_of_le hfill.loaded hbeyond.1 hbeyond.2

theorem Steps.keeps (hsteps : Steps deeds V W)
    (hd : ∀ d ∈ deeds, (∀ U, d.Respects M U) ∧ d.Leaves M index byte)
    (hbeyond : M.Beyond index i) (h : V.Keeps M index i byte) : W.Keeps M index i byte :=
  hsteps.invariant (fun U => U.Keeps M index i byte)
    (fun d hmem U _ hstep hU => hstep.keeps ((hd d hmem).1 U) (hd d hmem).2 hbeyond hU) h

theorem Deed.leaves_of_reaching (hother : ¬(s = M.space ∧ vpn = M.page index)) (byte : UInt8)
    (hd : d ∈ Deed.reaching s vpn) : (∀ U, d.Respects M U) ∧ d.Leaves M index byte := by
  have haccess := Deed.reaching_subset_accessing s vpn hd
  refine ⟨fun U => MachineM.respects_of_accessing haccess,
    MachineM.ne_store_of_accessing haccess _ _, ?_⟩
  rintro rfl
  obtain ⟨hs, hvpn⟩ := Deed.eq_of_bring_mem_reaching hd
  exact (hother ⟨hs.symm, hvpn.symm⟩).elim

theorem Deed.leaves_zero_of_accessing (hd : d ∈ Deed.accessing s) :
    (∀ U, d.Respects M U) ∧ d.Leaves M index 0 :=
  ⟨fun _ => MachineM.respects_of_accessing hd, MachineM.ne_store_of_accessing hd _ _, fun _ => rfl⟩

/-- Data that is stored to a page reaches the byte, or leaves it. -/
theorem View.Keeps.stored {page : Page} {frame : Frame} {bytes : PageBytes} {pool : FramePool}
    {va : VirtAddr} {data : Bytes} (h : V.Keeps M index i byte)
    (hstep : Step (.store M.space (M.page index)) V { V with pool })
    (hp : V.page M.space (M.page index) = some page) (hframe : page.frame = some frame)
    (hload : V.pool.load frame = .ok bytes)
    (hstore : V.pool.store frame
      (bytes.overlay (Chunk.ofPage va (va.val + data.size) (M.page index).number).offset
        (data.slice (Chunk.ofPage va (va.val + data.size) (M.page index).number).position
          (Chunk.ofPage va (va.val + data.size) (M.page index).number).length)) = .ok pool)
    (hi : i < pageSize) :
    View.Keeps { V with pool } M index i
      ((if va.val ≤ (M.page index).number * pageSize + i then
        data[(M.page index).number * pageSize + i - va.val]? else none).getD byte) := by
  refine ⟨hstep.maps trivial h.toMaps, fun hW => ?_⟩
  obtain ⟨rfl, hV⟩ := hW.of_stored hp hframe hload hstore
  rw [Chunk.getElem?_stored va _ bytes data hi]
  split
  · next hin =>
    have hlt : (M.page index).number * pageSize + i - va.val < data.size := by omega
    rw [if_pos hin.1, Array.getElem?_eq_getElem hlt, Option.getD_some]
  · next hnot =>
    rw [h.kept hV]
    split
    · next hle => rw [Array.getElem?_eq_none (by omega), Option.getD_none]
    · rfl

end

/-! ## Copies -/

theorem Chunk.nodup_split (va : VirtAddr) (length : ℕ) :
    ((Chunk.split va length).map Chunk.page).Nodup := by
  unfold Chunk.split
  rw [List.map_map]
  refine List.Nodup.map (fun first second h => ?_) List.nodup_range'
  exact VirtPage.mk.inj h

/-- What a byte beyond the file is when a request gets to its page: what it was, or zero if the page
is in no frame. -/
def Machine.met (m : Machine) (M : FileMapping) (index : ℕ) (byte : UInt8) : UInt8 :=
  if m.inFrame M.space (M.page index) then byte else 0

namespace MachineM

variable {m : Machine} {M : FileMapping} {index i j size : ℕ} {byte : UInt8} {vpn : VirtPage}
  {va : VirtAddr} {buffer data : Bytes} {chunks : List Chunk}

theorem met_of_inFrame (h : m.inFrame M.space (M.page index) = true) :
    m.met M index byte = byte :=
  if_pos h

theorem keeps_of_not_inFrame (h : (m.view [] []).Maps M)
    (hframe : ¬m.inFrame M.space (M.page index) = true) (byte : UInt8) :
    (m.view [] []).Keeps M index i byte := by
  refine h.keeps_of_absent ?_ byte
  rwa [Machine.inFrame, Option.not_isSome_iff_eq_none] at hframe

theorem keeps_met (h : (m.view [] []).Keeps M index i byte) :
    (m.view [] []).Keeps M index i (m.met M index byte) := by
  by_cases hframe : m.inFrame M.space (M.page index) = true
  · rwa [met_of_inFrame hframe]
  · exact keeps_of_not_inFrame h.toMaps hframe _

/-- An access leaves the byte as the access met it. -/
theorem userFrame_keeps (hbeyond : M.Beyond index i) (h : (m.view [] []).Keeps M index i byte)
    (hin : vpn.number < userPages) (write : Bool) :
    Ends False (userFrame M.space vpn write) m
      (fun frame m' =>
        (m'.view [] []).Keeps M index i (if vpn = M.page index then m.met M index byte else byte) ∧
        (m'.view [] []).shared = (m.view [] []).shared ∧ Accessed m' M.space vpn write frame)
      fun _ m' =>
        (m'.view [] []).Keeps M index i
          (if vpn = M.page index then m.met M index byte else byte) := by
  have hlive : False → (m.view [] []).Live M.space := False.elim
  have hsteps := userFrame_ends h.consistent False.elim hlive hin write
  have hshared : ∀ {m' : Machine}, Steps (Deed.reaching M.space vpn) (m.view [] [])
      (m'.view [] []) → (m'.view [] []).shared = (m.view [] []).shared := fun hsteps =>
    hsteps.shared_eq (fun d hd => Deed.keepsShared_of_accessing
      (Deed.reaching_subset_accessing _ _ hd)) h.consistent
  by_cases hhere : vpn = M.page index
  · subst hhere
    rw [if_pos rfl]
    by_cases hframe : m.inFrame M.space (M.page index) = true
    · rw [met_of_inFrame hframe]
      obtain ⟨page, hp, hresident⟩ := inFrame_iff.mp hframe
      obtain ⟨frame, hresident⟩ := Option.ne_none_iff_exists'.mp hresident
      obtain ⟨entry, hentry, -⟩ := h.consistent.mapped hp hresident
      refine (userFrame_of_mapped h.consistent hentry write).mono ?_ ?_
      · rintro frame m' ⟨-, hstep, haccessed⟩
        have htouch : Deed.touch M.space (M.page index) write ∈
            Deed.reaching M.space (M.page index) := .inr ⟨write, rfl⟩
        refine ⟨hstep.keeps trivial ⟨?_, ?_⟩ hbeyond h, hshared (Steps.single hstep htouch),
          haccessed⟩
        · rintro ⟨⟩
        · rintro ⟨⟩
      · rintro e m' ⟨-, -, hview⟩
        exact hview ▸ h
    · have hzero : (m.view [] []).Keeps M index i 0 := keeps_of_not_inFrame h.toMaps hframe 0
      have hleaves : ∀ d ∈ Deed.reaching M.space (M.page index),
          (∀ U, d.Respects M U) ∧ d.Leaves M index 0 := fun d hd =>
        Deed.leaves_zero_of_accessing (Deed.reaching_subset_accessing _ _ hd)
      rw [Machine.met, if_neg hframe]
      refine hsteps.mono ?_ ?_
      · rintro frame m' ⟨-, hsteps, haccessed⟩
        exact ⟨hsteps.keeps hleaves hbeyond hzero, hshared hsteps, haccessed⟩
      · rintro e m' ⟨-, hsteps⟩
        exact hsteps.keeps hleaves hbeyond hzero
  · rw [if_neg hhere]
    have hleaves := fun d (hd : d ∈ Deed.reaching M.space vpn) =>
      Deed.leaves_of_reaching (fun he => hhere he.2) byte hd
    refine hsteps.mono ?_ ?_
    · rintro frame m' ⟨-, hsteps, haccessed⟩
      exact ⟨hsteps.keeps hleaves hbeyond h, hshared hsteps, haccessed⟩
    · rintro e m' ⟨-, hsteps⟩
      exact hsteps.keeps hleaves hbeyond h

/-! ### Reads -/

/-- The parts of a read on other pages leave the byte, and what was read of it. -/
theorem readChunks_elsewhere (hbeyond : M.Beyond index i)
    (hchunks : ∀ chunk ∈ chunks, chunk.page ≠ M.page index ∧
      ∃ number < userPages, chunk = Chunk.ofPage va (va.val + size) number)
    (hsize : buffer.size = size) (h : (m.view [] []).Keeps M index i byte) :
    Ends False (readChunks M.space chunks buffer) m
      (fun result m' => (m'.view [] []).Keeps M index i byte ∧
        ∀ j < size, pageOf (va.val + j) = M.page index → result.1[j]? = buffer[j]?)
      fun _ _ => False := by
  refine readChunks_of_invariant [] (fun rest filled m' => (m'.view [] []).Keeps M index i byte ∧
    filled.size = size ∧ (∀ chunk ∈ rest, chunk.page ≠ M.page index ∧
      ∃ number < userPages, chunk = Chunk.ofPage va (va.val + size) number) ∧
    ∀ j < size, pageOf (va.val + j) = M.page index → filled[j]? = buffer[j]?)
    ⟨h, hsize, hchunks, fun _ _ _ => rfl⟩ (fun hdone => ⟨hdone.1, hdone.2.2.2⟩) ?_
  rintro chunk rest filled m₁ ⟨h₁, hsize₁, hrest, hsame⟩
  obtain ⟨⟨hne, number, hin, rfl⟩, hlater⟩ := List.forall_mem_cons.mp hrest
  have hpage : (Chunk.ofPage va (va.val + size) number).page.number < userPages := hin
  have haccess := userFrame_keeps hbeyond h₁ hpage false
  rw [if_neg hne] at haccess
  refine haccess.mono ?_ fun _ _ h₂ => ⟨h₂, hsame⟩
  rintro frame m₂ ⟨h₂, -, haccessed⟩
  refine ⟨h₂.consistent, haccessed, fun bytes _ => ⟨h₂, ?_, hlater, fun j hj hat => ?_⟩⟩
  · rw [Bytes.size_overlay, hsize₁]
  · subst hsize₁
    rw [Chunk.getElem?_loaded va number filled bytes hj, if_neg, hsame j hj hat]
    rintro rfl
    exact hne ((congrArg VirtPage.mk (pageOf_number _).symm).trans hat)

theorem kept_of_accessed {write : Bool} {frame : Frame} {bytes : PageBytes}
    (h : (m.view [] []).Keeps M index i byte)
    (haccessed : Accessed m M.space (M.page index) write frame)
    (hload : m.pool.load frame = .ok bytes)
    (hpage : (m.view [] []).shared M.space (M.page index) = some (M.segment index)) :
    bytes[i]? = some byte := by
  obtain ⟨page, -, hp, hframe, -⟩ := haccessed
  obtain ⟨other, entry, hother, hV⟩ :=
    h.consistent.exists_resident hp ((View.shared_of_page hp).symm.trans hpage) hframe
  obtain rfl : bytes = other := Except.ok.inj (hload.symm.trans hother)
  exact h.kept hV

/-- The part of a read on a page of the mapping reads the byte as it met it. -/
theorem readChunks_keeps (hbeyond : M.Beyond index i)
    (hchunks : ∀ chunk ∈ chunks, ∃ number < userPages,
      chunk = Chunk.ofPage va (va.val + size) number)
    (hdistinct : (chunks.map Chunk.page).Nodup) (hsize : buffer.size = size)
    (h : (m.view [] []).Keeps M index i byte) :
    Ends False (readChunks M.space chunks buffer) m
      (fun result m' => (m'.view [] []).Keeps M index i
          ((turn (fun chunk => userFrame M.space chunk.page false) (M.page index) chunks m).met M
            index byte) ∧
        (result.2 = none → M.page index ∈ chunks.map Chunk.page →
          (m.view [] []).shared M.space (M.page index) = some (M.segment index) →
          ∀ j < size, va.val + j = (M.page index).number * pageSize + i →
            result.1[j]? =
              some ((turn (fun chunk => userFrame M.space chunk.page false) (M.page index) chunks
                m).met M index byte)))
      fun _ _ => False := by
  induction chunks generalizing m buffer with
  | nil => exact Ends.pure ⟨keeps_met h, fun _ hmem => by cases hmem⟩
  | cons chunk chunks ih =>
      obtain ⟨number, hin, rfl⟩ := hchunks chunk (by simp)
      have hpage : (Chunk.ofPage va (va.val + size) number).page.number < userPages := hin
      have haccess := userFrame_keeps hbeyond h hpage false
      obtain ⟨hfirst, hrest⟩ := List.nodup_cons.mp hdistinct
      have hlater : ∀ later ∈ chunks, ∃ number < userPages,
          later = Chunk.ofPage va (va.val + size) number := fun later hl =>
        hchunks later (by simp [hl])
      rw [turn]
      cases hresult : userFrame M.space (Chunk.ofPage va (va.val + size) number).page false m with
      | ok frame m₁ =>
          obtain ⟨h₁, hshared, haccessed⟩ := haccess.ok_of_eq hresult
          obtain ⟨-, bytes, hload⟩ := accessed_load h₁.consistent haccessed
          have hbuffer := (Bytes.size_overlay buffer
            (Chunk.ofPage va (va.val + size) number).position
            (bytes.slice (Chunk.ofPage va (va.val + size) number).offset
              (Chunk.ofPage va (va.val + size) number).length)).trans hsize
          refine Ends.of_eq (readChunks_of_ok hresult hload) ?_
          by_cases hhere : (Chunk.ofPage va (va.val + size) number).page = M.page index
          · rw [if_pos hhere] at h₁ ⊢
            have helsewhere := readChunks_elsewhere hbeyond (fun later hl => ⟨fun he =>
              hfirst (hhere.trans he.symm ▸ List.mem_map_of_mem hl), hlater later hl⟩) hbuffer h₁
            refine helsewhere.mono (fun result m' hdone => ?_) fun _ _ hf => hf
            refine ⟨hdone.1, fun _ _ hmapped j hj hat => ?_⟩
            have hnumber : number = (M.page index).number := congrArg VirtPage.number hhere
            rw [hdone.2 j hj (hat ▸ pageOf_number_mul_add _ hbeyond.2)]
            subst hsize
            rw [Chunk.getElem?_loaded va number buffer bytes hj, hat, hnumber, Nat.mul_comm,
              Nat.mul_add_div (by decide), Nat.mul_add_mod, Nat.div_eq_of_lt hbeyond.2,
              Nat.mod_eq_of_lt hbeyond.2, if_pos (Nat.add_zero _).symm]
            exact kept_of_accessed h₁ (hhere ▸ haccessed) hload (hshared ▸ hmapped)
          · rw [if_neg hhere] at h₁ ⊢
            refine (ih hlater hrest hbuffer h₁).mono (fun result m' hdone => ⟨hdone.1, ?_⟩)
              fun _ _ hf => hf
            intro hok hmem hmapped
            refine hdone.2 hok ((List.mem_cons.mp hmem).resolve_left (Ne.symm hhere)) ?_
            rwa [hshared]
      | error stop m₁ =>
          cases stop with
          | failed e =>
              refine Ends.of_ok (readChunks_of_failed hresult) ⟨?_, fun hok => by cases hok⟩
              have h₁ := haccess.failed_of_eq hresult
              by_cases hhere : (Chunk.ofPage va (va.val + size) number).page = M.page index
              · rwa [if_pos hhere] at h₁ ⊢
              · rw [if_neg hhere] at h₁ ⊢
                exact keeps_met h₁
          | panicked p => exact Ends.of_panicked (readChunks_of_panicked hresult) False.elim

/-! ### Writes -/

theorem writeChunk_elsewhere (va : VirtAddr) (data : Bytes) {number : ℕ}
    (hbeyond : M.Beyond index i) (hne : VirtPage.mk number ≠ M.page index)
    (hin : number < userPages) (h : (m.view [] []).Keeps M index i byte) :
    Ends False (writeChunk M.space data (Chunk.ofPage va (va.val + data.size) number)) m
      (fun _ m' => (m'.view [] []).Keeps M index i byte)
      fun _ m' => (m'.view [] []).Keeps M index i byte := by
  have hready : Ready False m M.space [] := ⟨h.consistent, False.elim, False.elim⟩
  have hpage : (Chunk.ofPage va (va.val + data.size) number).page.number < userPages := hin
  have hleaves := fun d (hd : d ∈ Deed.reaching M.space ⟨number⟩) =>
    Deed.leaves_of_reaching (fun he => hne he.2) byte hd
  refine (writeChunk_ends hready data hpage).mono ?_ ?_
  · rintro - m' ⟨m₁, page, frame, bytes, pool, hsteps, hstep, -⟩
    refine hstep.keeps trivial ⟨fun he => ?_, fun he => by cases he⟩ hbeyond
      (hsteps.keeps hleaves hbeyond h)
    injection he with _ hvpn
    exact hne hvpn
  · exact fun e m' hsteps => hsteps.keeps hleaves hbeyond h

theorem writeChunks_elsewhere (hbeyond : M.Beyond index i)
    (hchunks : ∀ chunk ∈ chunks, chunk.page ≠ M.page index ∧
      ∃ number < userPages, chunk = Chunk.ofPage va (va.val + data.size) number)
    (h : (m.view [] []).Keeps M index i byte) :
    Ends False (chunks.forM (writeChunk M.space data)) m
      (fun _ m' => (m'.view [] []).Keeps M index i byte)
      fun _ m' => (m'.view [] []).Keeps M index i byte := by
  refine Ends.forM (fun chunk hmem m₁ h₁ => ?_) h
  obtain ⟨hne, number, hin, rfl⟩ := hchunks chunk hmem
  exact writeChunk_elsewhere va data hbeyond hne hin h₁

/-- The part of a write on the page stores the data that reaches the byte; if it cannot, the byte is
as it was met. -/
theorem writeChunk_keeps (va : VirtAddr) (data : Bytes) (hbeyond : M.Beyond index i)
    (hin : (M.page index).number < userPages) (h : (m.view [] []).Keeps M index i byte) :
    Ends False (writeChunk M.space data
        (Chunk.ofPage va (va.val + data.size) (M.page index).number)) m
      (fun _ m' => (m'.view [] []).Keeps M index i
        ((if va.val ≤ (M.page index).number * pageSize + i then
          data[(M.page index).number * pageSize + i - va.val]? else none).getD
            (m.met M index byte)))
      fun _ m' => (m'.view [] []).Keeps M index i (m.met M index byte) := by
  have haccess := userFrame_keeps hbeyond h hin true
  rw [if_pos rfl] at haccess
  unfold writeChunk
  refine haccess.bind ?_
  rintro frame m₁ ⟨h₁, -, haccessed⟩
  obtain ⟨page, bytes, pool, hp, hframe, hload, hstore, hstep⟩ :=
    exists_store_of_accessed h₁.consistent
      (Chunk.ofPage va (va.val + data.size) (M.page index).number) haccessed data
  refine Ends.bind_ok (loadFrame_of_ok hload) (Ends.of_ok (storeFrame_of_ok hstore) ?_)
  exact h₁.stored hstep hp hframe hload hstore hbeyond.2

/-- What a write leaves of the byte: the data if it gets to the page and reaches the byte. -/
theorem writeChunks_keeps {stored : Option UInt8} {met : UInt8} (hbeyond : M.Beyond index i)
    (hchunks : ∀ chunk ∈ chunks, ∃ number < userPages,
      chunk = Chunk.ofPage va (va.val + data.size) number)
    (hdistinct : (chunks.map Chunk.page).Nodup) (h : (m.view [] []).Keeps M index i byte)
    (hstored : stored = if va.val ≤ (M.page index).number * pageSize + i ∧
        M.page index ∈ (completed M.space data chunks m).map Chunk.page then
      data[(M.page index).number * pageSize + i - va.val]? else none)
    (hmet : met = (turn (writeChunk M.space data) (M.page index) chunks m).met M index byte) :
    Ends False (chunks.forM (writeChunk M.space data)) m
      (fun _ m' => (m'.view [] []).Keeps M index i (stored.getD met))
      fun _ m' => (m'.view [] []).Keeps M index i (stored.getD met) := by
  induction chunks generalizing m with
  | nil =>
      rw [completed, List.map_nil, if_neg fun hin => List.not_mem_nil hin.2] at hstored
      subst hstored hmet
      exact Ends.pure (keeps_met h)
  | cons chunk chunks ih =>
      obtain ⟨number, hin, rfl⟩ := hchunks chunk (by simp)
      obtain ⟨hfirst, hrest⟩ := List.nodup_cons.mp hdistinct
      have hlater : ∀ later ∈ chunks, ∃ number < userPages,
          later = Chunk.ofPage va (va.val + data.size) number := fun later hl =>
        hchunks later (by simp [hl])
      change Ends False (MachineM.writeChunk M.space data _ >>= fun _ =>
        chunks.forM (MachineM.writeChunk M.space data)) m _ _
      rw [completed] at hstored
      rw [turn] at hmet
      by_cases hhere : (Chunk.ofPage va (va.val + data.size) number).page = M.page index
      · obtain rfl : number = (M.page index).number := congrArg VirtPage.number hhere
        rw [if_pos hhere] at hmet
        subst hmet
        have hchunk := writeChunk_keeps va data hbeyond hin h
        cases hresult : writeChunk M.space data
            (Chunk.ofPage va (va.val + data.size) (M.page index).number) m with
        | ok a m₁ =>
            have hmem : M.page index ∈ List.map Chunk.page
                (Chunk.ofPage va (va.val + data.size) (M.page index).number ::
                  completed M.space data chunks m₁) := List.mem_cons_self
            simp only [hresult, hmem, and_true] at hstored
            subst hstored
            refine Ends.bind_ok hresult (writeChunks_elsewhere hbeyond (fun later hl =>
              ⟨fun he => ?_, hlater later hl⟩) (hchunk.ok_of_eq hresult))
            exact hfirst (hhere.trans he.symm ▸ List.mem_map_of_mem hl)
        | error stop m₁ =>
            simp only [hresult, List.map_nil, List.not_mem_nil, and_false, if_false] at hstored
            subst hstored
            cases stop with
            | failed e => exact Ends.bind_failed hresult (hchunk.failed_of_eq hresult)
            | panicked p =>
                exact Ends.of_panicked (bind_of_error hresult) False.elim
      · rw [if_neg hhere] at hmet
        have hchunk := writeChunk_elsewhere va data hbeyond hhere hin h
        cases hresult : writeChunk M.space data (Chunk.ofPage va (va.val + data.size) number) m with
        | ok a m₁ =>
            simp only [hresult] at hmet
            simp only [hresult, List.map_cons, List.mem_cons, Ne.symm hhere, false_or] at hstored
            exact Ends.bind_ok hresult (ih hlater hrest (hchunk.ok_of_eq hresult) hstored hmet)
        | error stop m₁ =>
            simp only [hresult, List.map_nil, List.not_mem_nil, and_false, if_false] at hstored
            simp only [hresult] at hmet
            subst hstored hmet
            cases stop with
            | failed e => exact Ends.bind_failed hresult (keeps_met (hchunk.failed_of_eq hresult))
            | panicked p => exact Ends.of_panicked (bind_of_error hresult) False.elim

/-! ### Whole copies -/

theorem readUser_keeps (hbeyond : M.Beyond index i) (h : (m.view [] []).Keeps M index i byte)
    (va : VirtAddr) (buffer : Bytes) :
    Ends False (readUser M.space va buffer) m
      (fun result m' => (m'.view [] []).Keeps M index i
          (((Op.read M.space va buffer).turn m M.space (M.page index)).met M index byte) ∧
        (result.2 = none →
          (m.view [] []).shared M.space (M.page index) = some (M.segment index) →
          ∀ j < buffer.size, va.val + j = (M.page index).number * pageSize + i →
            result.1[j]? = some
              (((Op.read M.space va buffer).turn m M.space (M.page index)).met M index byte)))
      fun _ _ => False := by
  unfold MachineM.readUser userChunks
  by_cases hrange : isUserRange va buffer.size = true
  · rw [if_pos hrange, Op.turn, if_pos ⟨rfl, hrange⟩]
    refine Ends.bind_ok rfl ((readChunks_keeps hbeyond (fun chunk hc =>
      Chunk.exists_of_mem_split hrange hc) (Chunk.nodup_split _ _) rfl h).mono ?_ fun _ _ hf => hf)
    refine fun result m' hdone => ⟨hdone.1, fun hok hmapped j hj hat => ?_⟩
    refine hdone.2 hok ?_ hmapped j hj hat
    rw [← pageOf_number_mul_add (M.page index) hbeyond.2, ← hat]
    exact List.mem_map_of_mem (Chunk.mem_split_of_lt va hj)
  · rw [if_neg hrange, Op.turn, if_neg fun hr => hrange hr.2]
    exact Ends.bind_ok rfl (Ends.pure ⟨keeps_met h, fun hok => by cases hok⟩)

theorem writeUser_keeps (hbeyond : M.Beyond index i) (h : (m.view [] []).Keeps M index i byte)
    (va : VirtAddr) (data : Bytes) :
    Ends False (writeUser M.space va data) m
      (fun _ m' => (m'.view [] []).Keeps M index i
        (((Op.write M.space va data).stored? m M.space
          ((M.page index).number * pageSize + i)).getD
            (((Op.write M.space va data).turn m M.space (M.page index)).met M index byte)))
      fun _ m' => (m'.view [] []).Keeps M index i
        (((Op.write M.space va data).stored? m M.space
          ((M.page index).number * pageSize + i)).getD
            (((Op.write M.space va data).turn m M.space (M.page index)).met M index byte)) := by
  unfold MachineM.writeUser userChunks
  simp only [Op.stored?, Op.turn, writtenPages, true_and, pageOf_number_mul_add _ hbeyond.2]
  by_cases hrange : isUserRange va data.size = true
  · rw [if_pos hrange, if_pos hrange, if_pos hrange]
    exact Ends.bind_ok rfl (writeChunks_keeps hbeyond (fun chunk hc =>
      Chunk.exists_of_mem_split hrange hc) (Chunk.nodup_split _ _) h rfl rfl)
  · simp only [if_neg hrange, List.not_mem_nil, and_false, if_false, Option.getD_none]
    exact Ends.bind_failed rfl (keeps_met h)

end MachineM

end DemandPaging
