import DemandPaging.Proofs.FlatMemory.Basic
import DemandPaging.Proofs.UserCopy

/-! # The bytes that copies carry

A write stores its data page by page, and a read collects its bytes page by page. What holds of the
pages while others are brought in, and survives the stores, holds when the copy ends, and what holds
of the bytes of every resident page holds of the bytes that a read returns.
-/

namespace DemandPaging

/-! ## Parts of a range -/

namespace Chunk

/-- A part of the data replaces the bytes of its page that lie in the range. -/
theorem getElem?_stored (va : VirtAddr) (number : ℕ) (bytes : PageBytes) (data : Bytes) {i : ℕ}
    (hi : i < pageSize) :
    (bytes.overlay (ofPage va (va.val + data.size) number).offset
        (data.slice (ofPage va (va.val + data.size) number).position
          (ofPage va (va.val + data.size) number).length))[i]? =
      if va.val ≤ number * pageSize + i ∧ number * pageSize + i < va.val + data.size then
        data[number * pageSize + i - va.val]?
      else bytes[i]? := by
  have hsize : bytes.toArray.size = pageSize := bytes.size_toArray
  have hnext : (number + 1) * pageSize = number * pageSize + pageSize := Nat.succ_mul _ _
  simp only [ofPage, hnext]
  generalize number * pageSize = base
  rw [← Vector.getElem?_toArray, ← Vector.getElem?_toArray, PageBytes.overlay,
    Bytes.getElem?_overlay, Bytes.size_slice, Bytes.getElem?_slice, hsize]
  by_cases hin : va.val ≤ base + i ∧ base + i < va.val + data.size
  · rw [if_pos hin, if_pos (by omega), if_pos (by omega)]
    congr 1
    omega
  · rw [if_neg hin, if_neg (by omega)]

/-- A part of a buffer takes the bytes of its page. -/
theorem getElem?_loaded (va : VirtAddr) (number : ℕ) (buffer : Bytes) (bytes : PageBytes) {j : ℕ}
    (hj : j < buffer.size) :
    (buffer.overlay (ofPage va (va.val + buffer.size) number).position
        (bytes.slice (ofPage va (va.val + buffer.size) number).offset
          (ofPage va (va.val + buffer.size) number).length))[j]? =
      if number = (va.val + j) / pageSize then bytes[(va.val + j) % pageSize]? else buffer[j]? := by
  have hsize : bytes.toArray.size = pageSize := bytes.size_toArray
  have hnext : (number + 1) * pageSize = number * pageSize + pageSize := Nat.succ_mul _ _
  have hpage : number = (va.val + j) / pageSize ↔
      number * pageSize ≤ va.val + j ∧ va.val + j < number * pageSize + pageSize := by
    rw [← hnext, ← Nat.le_div_iff_mul_le (by decide), ← Nat.div_lt_iff_lt_mul (by decide)]
    omega
  simp only [ofPage, hnext]
  rw [← Vector.getElem?_toArray, PageBytes.slice, Bytes.getElem?_overlay, Bytes.size_slice,
    Bytes.getElem?_slice, hsize]
  by_cases hin : number = (va.val + j) / pageSize
  · have hoffset : (va.val + j) % pageSize + number * pageSize = va.val + j := by
      rw [hin]
      exact Nat.mod_add_div' _ _
    have hbounds := hpage.mp hin
    rw [if_pos hin, if_pos (by omega), if_pos (by omega)]
    congr 1
    omega
  · have hbounds := mt hpage.mpr hin
    rw [if_neg hin, if_neg (by omega)]

theorem exists_of_mem_split {va : VirtAddr} {length : ℕ} {chunk : Chunk}
    (hrange : isUserRange va length = true) (h : chunk ∈ split va length) :
    ∃ number < userPages, chunk = ofPage va (va.val + length) number := by
  have hlt := page_lt_of_mem_split hrange h
  obtain ⟨number, rfl, -, -⟩ := mem_split h
  exact ⟨number, hlt, rfl⟩

theorem exists_of_mem_pages {va : VirtAddr} {length : ℕ} {vpn : VirtPage}
    (h : vpn ∈ (split va length).map Chunk.page) :
    ∃ j < length, vpn = pageOf (va.val + j) := by
  obtain ⟨chunk, hchunk, rfl⟩ := List.mem_map.mp h
  obtain ⟨number, rfl, hfirst, hlast⟩ := mem_split hchunk
  refine ⟨max va.val (number * pageSize) - va.val, ?_, ?_⟩
  · have hpos : 0 < length := by
      by_contra hzero
      obtain rfl : length = 0 := by omega
      simp [split] at hchunk
    omega
  · rw [Nat.add_sub_cancel' (le_max_left _ _)]
    have hnumber : (pageOf (max va.val (number * pageSize))).number = number := by
      rw [VirtAddr.page_number] at hfirst
      rw [pageOf_number]
      simp only [pageSize] at hfirst ⊢
      omega
    exact congrArg VirtPage.mk hnumber.symm

theorem mem_split_of_lt (va : VirtAddr) {length j : ℕ} (hj : j < length) :
    ofPage va (va.val + length) (pageOf (va.val + j)).number ∈ split va length := by
  unfold split
  refine List.mem_map.mpr ⟨_, ?_, rfl⟩
  rw [List.mem_range'_1]
  have hfirst : va.page.number ≤ (pageOf (va.val + j)).number := by
    rw [pageOf_number, VirtAddr.page_number]
    exact Nat.div_le_div_right (Nat.le_add_right _ _)
  have hlast : (pageOf (va.val + j)).number ≤ (va.val + length - 1) / pageSize := by
    rw [pageOf_number]
    exact Nat.div_le_div_right (by omega)
  simp only [if_neg (Nat.ne_of_gt (Nat.zero_lt_of_lt hj))]
  omega

end Chunk

namespace MachineM

variable {m : Machine} {s : SpaceId} {va : VirtAddr}

/-! ## Requests to copy -/

theorem readUser_of_execBy {m' : Machine} {visit : Visit} {buffer bytes : Bytes}
    {error : Option Errno}
    (h : (Op.read s va buffer).execBy visit m = .ok (.buffer bytes error) m') :
    readUser s va buffer m = .ok (bytes, error) m' := by
  cases hresult : readUser s va buffer m with
  | ok result m₁ =>
      simp only [Op.execBy, bind_of_ok hresult] at h
      obtain ⟨hreply, rfl⟩ := EStateM.Result.ok.inj h
      obtain ⟨rfl, rfl⟩ := Reply.buffer.inj hreply
      rfl
  | error stop m₁ =>
      simp only [Op.execBy, bind_of_error hresult] at h
      cases h

theorem writeUser_of_execBy {m' : Machine} {visit : Visit} {data : Bytes} {reply : Reply}
    (h : (Op.write s va data).execBy visit m = .ok reply m') :
    writeUser s va data m = .ok () m' := by
  cases hresult : writeUser s va data m with
  | ok done m₁ =>
      simp only [Op.execBy, bind_of_ok hresult] at h
      obtain ⟨-, rfl⟩ := EStateM.Result.ok.inj h
      rfl
  | error stop m₁ =>
      simp only [Op.execBy, bind_of_error hresult] at h
      cases h

/-! ## Writes -/

section

variable {data : Bytes} {pages : List VirtPage} {inv : List VirtPage → View → Prop}

/-- What an invariant that names the pages stored to so far must survive. -/
structure WriteInvariant (s : SpaceId) (va : VirtAddr) (data : Bytes)
    (inv : List VirtPage → View → Prop) : Prop where
  consistent : ∀ {pages V}, inv pages V → V.Consistent
  access : ∀ {pages}, ∀ d ∈ Deed.accessing s, ∀ V W, Step d V W → inv pages V → inv pages W
  store : ∀ {pages V number page frame} {bytes : PageBytes} {pool}, inv pages V →
    Step (.store s ⟨number⟩) V { V with pool } → V.page s ⟨number⟩ = some page →
    page.frame = some frame → V.pool.load frame = .ok bytes →
    V.pool.store frame (bytes.overlay (Chunk.ofPage va (va.val + data.size) number).offset
      (data.slice (Chunk.ofPage va (va.val + data.size) number).position
        (Chunk.ofPage va (va.val + data.size) number).length)) = .ok pool →
    inv (pages ++ [⟨number⟩]) { V with pool }

theorem WriteInvariant.writeChunk (hinv : WriteInvariant s va data inv)
    (h : inv pages (m.view [] [])) {number : ℕ} (hin : number < userPages) :
    Ends False (writeChunk s data (Chunk.ofPage va (va.val + data.size) number)) m
      (fun _ m' => inv (pages ++ [⟨number⟩]) (m'.view [] []))
      fun _ m' => inv pages (m'.view [] []) := by
  have hready : Ready False m s [] := ⟨hinv.consistent h, False.elim, False.elim⟩
  have hchunk : (Chunk.ofPage va (va.val + data.size) number).page.number < userPages := hin
  refine (writeChunk_ends hready data hchunk).mono ?_ ?_
  · rintro - m' ⟨m₁, page, frame, bytes, pool, hsteps, hstep, hp, hframe, hload, hstore, hview⟩
    have h₁ := (hsteps.mono (Deed.reaching_subset_accessing s _)).invariant (inv pages)
      hinv.access h
    rw [hview] at hstep ⊢
    exact hinv.store h₁ hstep hp hframe hload hstore
  · exact fun e m' hsteps => (hsteps.mono (Deed.reaching_subset_accessing s _)).invariant
      (inv pages) hinv.access h

/-- A write stores to the pages that it gets to. -/
theorem WriteInvariant.writeChunks {chunks : List Chunk} (hinv : WriteInvariant s va data inv)
    (h : inv pages (m.view [] []))
    (hchunks : ∀ chunk ∈ chunks, ∃ number < userPages,
      chunk = Chunk.ofPage va (va.val + data.size) number) :
    Ends False (chunks.forM (MachineM.writeChunk s data)) m
      (fun _ m' => inv (pages ++ (completed s data chunks m).map Chunk.page) (m'.view [] []))
      fun _ m' => inv (pages ++ (completed s data chunks m).map Chunk.page) (m'.view [] []) := by
  induction chunks generalizing m pages with
  | nil =>
      apply Ends.pure
      rw [completed, List.map_nil, List.append_nil]
      exact h
  | cons chunk chunks ih =>
      obtain ⟨number, hin, rfl⟩ := hchunks chunk (by simp)
      have hends := hinv.writeChunk h hin
      change Ends False (MachineM.writeChunk s data _ >>= fun _ =>
        chunks.forM (MachineM.writeChunk s data)) m _ _
      rw [completed]
      cases hresult :
          MachineM.writeChunk s data (Chunk.ofPage va (va.val + data.size) number) m with
      | ok a m₁ =>
          have hrest := ih (hends.ok_of_eq hresult) fun later hl => hchunks later (by simp [hl])
          rw [List.append_assoc] at hrest
          exact Ends.bind_ok hresult hrest
      | error stop m₁ =>
          rw [List.map_nil, List.append_nil]
          cases stop with
          | failed e => exact Ends.bind_failed hresult (hends.failed_of_eq hresult)
          | panicked p =>
              have hpanic : Ends False (MachineM.writeChunk s data _) m (fun _ _ => False)
                  fun _ _ => False := Ends.of_panicked hresult False.elim
              exact hpanic.bind_total fun _ _ hf => hf.elim

theorem WriteInvariant.writeUser (hinv : WriteInvariant s va data inv)
    (h : inv [] (m.view [] [])) :
    Ends False (writeUser s va data) m
      (fun _ m' => inv (writtenPages s va data m) (m'.view [] []))
      fun _ m' => inv (writtenPages s va data m) (m'.view [] []) := by
  unfold MachineM.writeUser userChunks writtenPages
  by_cases hrange : isUserRange va data.size = true
  · rw [if_pos hrange, if_pos hrange]
    have hchunks := hinv.writeChunks h fun chunk hc => Chunk.exists_of_mem_split hrange hc
    rw [List.nil_append] at hchunks
    exact Ends.bind_ok rfl hchunks
  · rw [if_neg hrange, if_neg hrange]
    exact Ends.bind_failed rfl h

theorem completed_of_ok {chunks : List Chunk} {m' : Machine} {a : PUnit}
    (h : chunks.forM (writeChunk s data) m = .ok a m') : completed s data chunks m = chunks := by
  induction chunks generalizing m with
  | nil => rfl
  | cons chunk chunks ih =>
      change (writeChunk s data chunk >>= fun _ => chunks.forM (writeChunk s data)) m =
        .ok a m' at h
      rw [completed]
      cases hresult : writeChunk s data chunk m with
      | ok b m₁ =>
          simp only [Bind.bind, EStateM.bind, hresult] at h
          exact congrArg (List.cons chunk) (ih h)
      | error stop m₁ =>
          simp only [Bind.bind, EStateM.bind, hresult] at h
          cases h

theorem stored?_of_ok {m' : Machine} {a : Unit} (h : writeUser s va data m = .ok a m') {i : ℕ}
    (hi : i < data.size) : (Op.write s va data).stored? m s (va.val + i) = data[i]? := by
  unfold writeUser userChunks at h
  by_cases hrange : isUserRange va data.size = true
  · rw [if_pos hrange] at h
    have hcompleted : completed s data (Chunk.split va data.size) m = Chunk.split va data.size :=
      completed_of_ok h
    have hmem : pageOf (va.val + i) ∈ writtenPages s va data m := by
      rw [writtenPages, if_pos hrange, hcompleted]
      exact List.mem_map_of_mem (Chunk.mem_split_of_lt va hi)
    simp only [Op.stored?, hmem, Nat.le_add_right, and_self, if_true, Nat.add_sub_cancel_left]
  · rw [if_neg hrange] at h
    cases h

end

/-! ## Reads -/

section

variable {buffer : Bytes} {pages : List VirtPage} {inv : View → Prop} {good : ℕ → UInt8 → Prop}

/-- What an invariant must survive, and what it must say of the bytes of resident pages. -/
structure ReadInvariant (s : SpaceId) (inv : View → Prop) (good : ℕ → UInt8 → Prop) : Prop where
  consistent : ∀ {V}, inv V → V.Consistent
  access : ∀ d ∈ Deed.accessing s, ∀ V W, Step d V W → inv V → inv W
  good : ∀ {V vpn page frame} {bytes : PageBytes}, inv V → V.page s vpn = some page →
    page.frame = some frame → V.pool.load frame = .ok bytes →
    ∀ i < pageSize, ∀ byte, bytes[i]? = some byte → good (vpn.number * pageSize + i) byte

/-- The bytes of some pages that have arrived in a buffer are good. -/
def Filled (good : ℕ → UInt8 → Prop) (va : VirtAddr) (pages : List VirtPage) (buffer : Bytes) :
    Prop :=
  ∀ j < buffer.size, pageOf (va.val + j) ∈ pages →
    ∀ byte, buffer[j]? = some byte → good (va.val + j) byte

theorem Filled.overlay (h : Filled good va pages buffer) {number : ℕ} {bytes : PageBytes}
    (hbytes : ∀ i < pageSize, ∀ byte, bytes[i]? = some byte →
      good (number * pageSize + i) byte) :
    Filled good va (pages ++ [⟨number⟩])
      (buffer.overlay (Chunk.ofPage va (va.val + buffer.size) number).position
        (bytes.slice (Chunk.ofPage va (va.val + buffer.size) number).offset
          (Chunk.ofPage va (va.val + buffer.size) number).length)) := by
  intro j hj hmem byte hbyte
  rw [Bytes.size_overlay] at hj
  rw [Chunk.getElem?_loaded va number buffer bytes hj] at hbyte
  by_cases hat : number = (va.val + j) / pageSize
  · rw [if_pos hat] at hbyte
    have hgood := hbytes _ (Nat.mod_lt _ (by decide)) byte hbyte
    rwa [hat, Nat.div_add_mod'] at hgood
  · rw [if_neg hat] at hbyte
    apply h j hj ?_ byte hbyte
    rcases List.mem_append.mp hmem with hold | hnew
    · exact hold
    · have hpage := List.mem_singleton.mp hnew
      have hnumber := pageOf_number (va.val + j)
      rw [hpage] at hnumber
      exact (hat hnumber).elim

/-- A read that gets to all pages collects good bytes from all of them. -/
theorem ReadInvariant.readChunks {chunks : List Chunk} {size : ℕ} (hinv : ReadInvariant s inv good)
    (h : inv (m.view [] []))
    (hchunks : ∀ chunk ∈ chunks, ∃ number < userPages,
      chunk = Chunk.ofPage va (va.val + size) number)
    (hsize : buffer.size = size) (hfilled : Filled good va pages buffer) :
    Ends False (readChunks s chunks buffer) m
      (fun result m' => inv (m'.view [] []) ∧ (result.2 = none →
        result.1.size = size ∧ Filled good va (pages ++ chunks.map Chunk.page) result.1))
      fun _ _ => False := by
  refine readChunks_of_invariant [] (fun rest filled m' => inv (m'.view [] []) ∧
    filled.size = size ∧ (∀ chunk ∈ rest, ∃ number < userPages,
      chunk = Chunk.ofPage va (va.val + size) number) ∧
    ∃ seen, seen ++ rest.map Chunk.page = pages ++ chunks.map Chunk.page ∧
      Filled good va seen filled) ⟨h, hsize, hchunks, pages, rfl, hfilled⟩ ?ends ?part
  case ends =>
    rintro filled m' ⟨h', hsize', -, seen, hseen, hfilled'⟩
    rw [List.map_nil, List.append_nil] at hseen
    exact ⟨h', fun _ => ⟨hsize', hseen ▸ hfilled'⟩⟩
  case part =>
    rintro chunk rest filled m₁ ⟨h₁, hsize₁, hchunks₁, seen, hseen, hfilled₁⟩
    obtain ⟨⟨number, hin, rfl⟩, hrest⟩ := List.forall_mem_cons.mp hchunks₁
    have hpage : (Chunk.ofPage va (va.val + size) number).page.number < userPages := hin
    have hkept : ∀ {m₂ : Machine}, Steps (Deed.reaching s ⟨number⟩) (m₁.view [] [])
        (m₂.view [] []) → inv (m₂.view [] []) := fun hsteps =>
      (hsteps.mono (Deed.reaching_subset_accessing s ⟨number⟩)).invariant inv hinv.access h₁
    refine (userFrame_ends (hinv.consistent h₁) False.elim False.elim hpage false).mono ?_ ?_
    · rintro frame m₂ ⟨-, hsteps, haccessed⟩
      have h₂ := hkept hsteps
      refine ⟨hinv.consistent h₂, haccessed, fun bytes hload => ⟨h₂, ?_, hrest, seen ++ [⟨number⟩],
        ?_, ?_⟩⟩
      · rw [Bytes.size_overlay, hsize₁]
      · rw [← hseen, List.append_assoc]
        rfl
      · obtain ⟨page, entry, hp, hresident, -⟩ := haccessed
        subst hsize₁
        exact hfilled₁.overlay fun i hi byte hbyte =>
          hinv.good h₂ hp hresident hload i hi byte hbyte
    · rintro e m₂ ⟨-, hsteps⟩
      exact ⟨hkept hsteps, fun hok => by cases hok⟩

/-- A read that succeeds returns good bytes, as many as were asked for. -/
theorem ReadInvariant.readUser (hinv : ReadInvariant s inv good) (h : inv (m.view [] []))
    (va : VirtAddr) (buffer : Bytes) :
    Ends False (readUser s va buffer) m
      (fun result m' => inv (m'.view [] []) ∧ (result.2 = none →
        result.1.size = buffer.size ∧ ∀ j < buffer.size, ∀ byte,
          result.1[j]? = some byte → good (va.val + j) byte))
      fun _ _ => False := by
  unfold MachineM.readUser userChunks
  by_cases hrange : isUserRange va buffer.size = true
  · rw [if_pos hrange]
    refine Ends.bind_ok rfl ?_
    have hnone : Filled good va [] buffer := fun j hj hmem => by cases hmem
    refine (hinv.readChunks h (fun chunk hc => Chunk.exists_of_mem_split hrange hc) rfl
      hnone).mono ?_ fun _ _ hf => hf
    intro result m' hdone
    refine ⟨hdone.1, fun hok => ?_⟩
    obtain ⟨hsize, hfilled⟩ := hdone.2 hok
    refine ⟨hsize, fun j hj byte hbyte => ?_⟩
    apply hfilled j (hj.trans_eq hsize.symm) ?_ byte hbyte
    rw [List.nil_append]
    exact List.mem_map_of_mem (Chunk.mem_split_of_lt va hj)
  · rw [if_neg hrange]
    exact Ends.bind_ok rfl (Ends.pure ⟨h, fun hn => by cases hn⟩)

/-- The answer to a read that succeeds is good bytes, as many as were asked for. -/
theorem ReadInvariant.answer {m' : Machine} {visit : Visit} {bytes : Bytes}
    (hinv : ReadInvariant s inv good) (h : inv (m.view [] []))
    (hread : (Op.read s va buffer).execBy visit m = .ok (.buffer bytes none) m') :
    bytes.size = buffer.size ∧ ∀ j < buffer.size, ∀ byte, bytes[j]? = some byte →
      good (va.val + j) byte := by
  have hreply : Ends False ((Op.read s va buffer).execBy visit) m
      (fun reply _ => ∀ bytes, reply = .buffer bytes none → bytes.size = buffer.size ∧
        ∀ j < buffer.size, ∀ byte, bytes[j]? = some byte → good (va.val + j) byte)
      fun _ _ => False := by
    refine (hinv.readUser h va buffer).bind_total ?_
    rintro ⟨result, error⟩ m₁ hdone
    apply Ends.pure
    rintro other ⟨rfl, rfl⟩
    exact hdone.2 rfl
  exact hreply.ok_of_eq hread bytes rfl

end

end MachineM

/-! ## Reads of one byte -/

theorem Chunk.split_within {va : VirtAddr} {length : ℕ} (hlength : length ≠ 0)
    (hlast : VirtAddr.page ⟨va.val + length - 1⟩ = va.page) :
    Chunk.split va length = [Chunk.ofPage va (va.val + length) va.page.number] := by
  have hnumber := congrArg VirtPage.number hlast
  rw [VirtAddr.page_number] at hnumber
  have hcount : (va.val + length - 1) / pageSize + 1 - va.page.number = 1 := by
    rw [hnumber, Nat.add_sub_cancel_left]
  simp only [Chunk.split, if_neg hlength, hcount]
  rfl

theorem Chunk.split_one (va : VirtAddr) :
    Chunk.split va 1 = [Chunk.ofPage va (va.val + 1) va.page.number] :=
  split_within one_ne_zero rfl

theorem isUserRange_one (va : VirtAddr) : isUserRange va 1 = va.isUser := by
  have hword : va.isUser = true → va.val + 1 < Word.bound := by
    simp only [VirtAddr.isUser, decide_eq_true_eq, userEnd, Word.bound]
    omega
  cases huser : va.isUser with
  | true => simp [isUserRange, hword huser, huser]
  | false => simp [isUserRange, huser]

namespace MachineM

variable {m : Machine} {s : SpaceId} {va : VirtAddr} {byte : UInt8}

theorem readUser_byte (huser : va.isUser = true) (s : SpaceId) (byte : UInt8) (m : Machine) :
    readUser s va #[byte] m =
      readChunks s [Chunk.ofPage va (va.val + 1) va.page.number] #[byte] m := by
  have hrange : isUserRange va (#[byte] : Bytes).size = true := (isUserRange_one va).trans huser
  have hchunks : userChunks va (#[byte] : Bytes).size m =
      .ok [Chunk.ofPage va (va.val + 1) va.page.number] m := by
    rw [userChunks, if_pos hrange, ← Chunk.split_one]
    rfl
  simp only [readUser, attempt, Bind.bind, EStateM.bind, hchunks]

/-- A page is in a frame that has a byte at an address. -/
def ShownAt (m : Machine) (s : SpaceId) (va : VirtAddr) (shown : Option UInt8) : Prop :=
  ∃ page frame bytes, m.page? s va.page = some page ∧ page.frame = some frame ∧
    m.pool.load frame = .ok bytes ∧ bytes[va.offset]? = shown

/-- What a read of one byte of user memory comes to: the bytes of the buffer and the error. -/
structure ByteRead (m m' : Machine) (s : SpaceId) (va : VirtAddr) (bytes : Bytes)
    (error : Option Errno) : Prop where
  steps : Steps (Deed.accessing s) (m.view [] []) (m'.view [] [])
  refused : ∀ e, error = some e → (e = .badAddress ↔ Refuses m s (accessFault va.page false))
  shown : error = none → ShownAt m' s va bytes[0]?

theorem readByte_ends (h : (m.view [] []).Consistent) (huser : va.isUser = true) (byte : UInt8) :
    Ends False (readUser s va #[byte]) m
      (fun result m' => ByteRead m m' s va result.1 result.2) fun _ _ => False := by
  have hin := VirtAddr.page_lt_userPages huser
  have haccess : Ends False (userFrame s va.page false) m _ _ :=
    userFrame_ends h False.elim False.elim hin false
  refine Ends.of_eq (readUser_byte huser s byte m) ?_
  cases hresult : userFrame s va.page false m with
  | ok frame m₁ =>
      obtain ⟨-, hsteps, haccessed⟩ := haccess.ok_of_eq hresult
      obtain ⟨-, bytes, hload⟩ := accessed_load (hsteps.consistent h) haccessed
      obtain ⟨page, -, hp, hresident, -⟩ := haccessed
      refine Ends.of_eq (readChunks_of_ok hresult hload) (Ends.pure
        ⟨hsteps.mono (Deed.reaching_subset_accessing s _), fun e he => ?_, fun _ => ?_⟩)
      · cases he
      refine ⟨page, frame, bytes, hp, hresident, hload, ?_⟩
      have hget := Chunk.getElem?_loaded va va.page.number #[byte] bytes (j := 0) Nat.zero_lt_one
      exact (hget.trans (if_pos va.page_number)).symm
  | error stop m₁ =>
      cases stop with
      | failed e =>
          obtain ⟨hrefused, hsteps⟩ := haccess.failed_of_eq hresult
          refine Ends.of_ok (readChunks_of_failed hresult)
            ⟨hsteps.mono (Deed.reaching_subset_accessing s _), fun other he => ?_, fun hnone => ?_⟩
          · rwa [← Option.some.inj he]
          · cases hnone
      | panicked p => exact Ends.of_panicked (readChunks_of_panicked hresult) False.elim

theorem readByte_answer {m' : Machine} {visit : Visit} {bytes : Bytes} {error : Option Errno}
    (h : (m.view [] []).Consistent) (huser : va.isUser = true)
    (hread : (Op.read s va #[byte]).execBy visit m = .ok (.buffer bytes error) m') :
    ByteRead m m' s va bytes error := by
  exact (readByte_ends h huser byte).ok_of_eq (readUser_of_execBy hread)

end MachineM

end DemandPaging
