import DemandPaging.Proofs.CopiedBytes

/-! # The parts of a range

A range of user addresses is cut into one part for each of its pages, in ascending order. A buffer
that has received the parts before some other has received the bytes before its position.
-/

namespace DemandPaging

/-! ## Ranges that are refused -/

theorem isUserRange_eq_false_iff {va : VirtAddr} {length : ℕ} :
    isUserRange va length = false ↔
      Word.bound ≤ va.val + length ∨ 0 < length ∧ userEnd < va.val + length := by
  simp only [isUserRange, VirtAddr.isUser, Bool.and_eq_false_iff, Bool.or_eq_false_iff,
    decide_eq_false_iff_not, beq_eq_false_iff_ne]
  omega

theorem pageOf_eq_iff {addr : ℕ} {vpn : VirtPage} :
    pageOf addr = vpn ↔ addr / pageSize = vpn.number := by
  obtain ⟨number⟩ := vpn
  rw [← pageOf_number]
  exact VirtPage.mk.injEq _ _ ▸ Iff.rfl

/-! ## Partitions -/

/-- How parts of a range lie in it. -/
structure Chunk.Partition (va : VirtAddr) (length : ℕ) (chunks : List Chunk) : Prop where
  ascending : chunks.Pairwise fun a b => a.page.number < b.page.number
  inPage : ∀ chunk ∈ chunks, 0 < chunk.length ∧ chunk.offset + chunk.length ≤ pageSize
  inRange : ∀ chunk ∈ chunks, chunk.position + chunk.length ≤ length
  aligned : ∀ chunk ∈ chunks,
    chunk.page.number * pageSize + chunk.offset = va.val + chunk.position
  covered : ∀ i < length, ∃! chunk,
    chunk ∈ chunks ∧ chunk.position ≤ i ∧ i < chunk.position + chunk.length

namespace Chunk

variable {va : VirtAddr} {length i : ℕ} {chunk : Chunk} {done rest : List Chunk}

theorem ascending_split (va : VirtAddr) (length : ℕ) :
    (split va length).Pairwise fun a b => a.page.number < b.page.number := by
  unfold split
  exact List.pairwise_map.mpr List.pairwise_lt_range'

/-- The part of a page that a range meets has the addresses that are in both. -/
theorem bounds_of_mem_split (h : chunk ∈ split va length) :
    0 < chunk.length ∧ chunk.offset + chunk.length ≤ pageSize ∧
      chunk.position + chunk.length ≤ length ∧
      chunk.page.number * pageSize + chunk.offset = va.val + chunk.position ∧
      chunk.position = chunk.page.number * pageSize - va.val ∧
      (va.val + length ≤ va.val + chunk.position + chunk.length ∨
        va.val + chunk.position + chunk.length = (chunk.page.number + 1) * pageSize) := by
  obtain ⟨number, rfl, hfirst, hlast⟩ := mem_split h
  rw [VirtAddr.page_number] at hfirst
  have hpos : 0 < length := by
    by_contra hzero
    obtain rfl : length = 0 := by omega
    cases h
  simp only [ofPage, pageSize] at hfirst hlast ⊢
  omega

theorem mem_part_iff (h : chunk ∈ split va length) (hi : i < length) :
    chunk.position ≤ i ∧ i < chunk.position + chunk.length ↔
      pageOf (va.val + i) = chunk.page := by
  obtain ⟨-, hin, -, haligned, hposition, hstop⟩ := bounds_of_mem_split h
  rw [pageOf_eq_iff, Nat.div_eq_iff (by decide)]
  simp only [pageSize] at hin haligned hposition hstop ⊢
  omega

theorem partition_split (va : VirtAddr) (length : ℕ) :
    Partition va length (split va length) := by
  refine ⟨ascending_split va length, fun chunk hchunk => ?_, fun chunk hchunk => ?_,
    fun chunk hchunk => ?_, fun i hi => ?_⟩
  · obtain ⟨hpos, hin, -⟩ := bounds_of_mem_split hchunk
    exact ⟨hpos, hin⟩
  · exact (bounds_of_mem_split hchunk).2.2.1
  · exact (bounds_of_mem_split hchunk).2.2.2.1
  · have hmem := mem_split_of_lt va hi
    refine ⟨_, ⟨hmem, (mem_part_iff hmem hi).mpr rfl⟩, ?_⟩
    rintro chunk ⟨hchunk, hpart⟩
    obtain ⟨number, rfl, -, -⟩ := mem_split hchunk
    rw [(mem_part_iff hchunk hi).mp hpart]
    rfl

/-- The parts before another one are those of the bytes before its position. -/
theorem mem_done_iff (h : split va length = done ++ chunk :: rest) (hi : i < length) :
    pageOf (va.val + i) ∈ done.map Chunk.page ↔ i < chunk.position := by
  have hchunk : chunk ∈ split va length := h ▸ List.mem_append_right done List.mem_cons_self
  obtain ⟨-, -, -, -, hposition, -⟩ := bounds_of_mem_split hchunk
  have hascending := ascending_split va length
  rw [h, List.pairwise_append, List.pairwise_cons] at hascending
  obtain ⟨-, ⟨hlater, -⟩, hbefore⟩ := hascending
  have hnumber := pageOf_number (va.val + i)
  constructor
  · intro hmem
    obtain ⟨earlier, hearlier, hpage⟩ := List.mem_map.mp hmem
    have hlt := hbefore earlier hearlier chunk List.mem_cons_self
    rw [hpage, hnumber, Nat.div_lt_iff_lt_mul (by decide)] at hlt
    omega
  · intro hlt
    have hmem := mem_split_of_lt va hi
    have hsmall : (va.val + i) / pageSize < chunk.page.number := by
      rw [Nat.div_lt_iff_lt_mul (by decide)]
      omega
    rw [h] at hmem
    rcases List.mem_append.mp hmem with hdone | hlate
    · exact List.mem_map.mpr ⟨_, hdone, rfl⟩
    · rw [← hnumber] at hsmall
      rcases List.mem_cons.mp hlate with heq | hrest
      · rw [← heq] at hsmall
        exact (lt_irrefl _ hsmall).elim
      · exact (lt_asymm hsmall (hlater _ hrest)).elim

/-! ## Buffers -/

/-- A buffer after some parts of a range have arrived from pages with these bytes. -/
def fill (shown : VirtPage → PageBytes) (chunks : List Chunk) (buffer : Bytes) : Bytes :=
  chunks.foldl (fun buffer chunk =>
    buffer.overlay chunk.position ((shown chunk.page).slice chunk.offset chunk.length)) buffer

theorem fill_congr {shown other : VirtPage → PageBytes} {chunks : List Chunk}
    (h : ∀ chunk ∈ chunks, other chunk.page = shown chunk.page) (buffer : Bytes) :
    fill other chunks buffer = fill shown chunks buffer := by
  induction chunks generalizing buffer with
  | nil => rfl
  | cons chunk chunks ih =>
      rw [fill, List.foldl_cons, h chunk List.mem_cons_self]
      exact ih (fun later hlater => h later (List.mem_cons_of_mem _ hlater)) _

theorem size_fill (shown : VirtPage → PageBytes) (chunks : List Chunk) (buffer : Bytes) :
    (fill shown chunks buffer).size = buffer.size := by
  induction chunks generalizing buffer with
  | nil => rfl
  | cons chunk chunks ih => exact (ih _).trans (Bytes.size_overlay _ _ _)

/-- A byte of the buffer has arrived if its page was among those that were read. -/
theorem getElem?_fill {buffer : Bytes} (shown : VirtPage → PageBytes) {chunks : List Chunk}
    (hchunks : ∀ chunk ∈ chunks, chunk ∈ split va buffer.size) (hi : i < buffer.size) :
    (fill shown chunks buffer)[i]? =
      if pageOf (va.val + i) ∈ chunks.map Chunk.page then
        (shown (pageOf (va.val + i)))[(va.val + i) % pageSize]?
      else buffer[i]? := by
  generalize hsize : buffer.size = size at hchunks hi
  induction chunks generalizing buffer with
  | nil => rfl
  | cons chunk chunks ih =>
      obtain ⟨number, rfl, -, -⟩ := mem_split (hchunks chunk List.mem_cons_self)
      have hpage : pageOf (va.val + i) = ⟨number⟩ ↔ number = (va.val + i) / pageSize :=
        pageOf_eq_iff.trans eq_comm
      refine (ih ((Bytes.size_overlay _ _ _).trans hsize) fun later hlater =>
        hchunks later (List.mem_cons_of_mem _ hlater)).trans ?_
      simp only [List.map_cons, List.mem_cons]
      by_cases hlater : pageOf (va.val + i) ∈ chunks.map Chunk.page
      · rw [if_pos hlater, if_pos (.inr hlater)]
      · subst hsize
        rw [if_neg hlater]
        refine (getElem?_loaded va number buffer (shown ⟨number⟩) hi).trans ?_
        by_cases hat : number = (va.val + i) / pageSize
        · have hhere := hpage.mpr hat
          rw [if_pos hat, if_pos (.inl hhere), hhere]
        · have hnot : ¬(pageOf (va.val + i) = ⟨number⟩ ∨
              pageOf (va.val + i) ∈ chunks.map Chunk.page) := by
            rintro (hhere | hthere)
            · exact hat (hpage.mp hhere)
            · exact hlater hthere
          rw [if_neg hat]
          exact (if_neg hnot).symm

/-- What a buffer holds after its first bytes have arrived from pages with these bytes: byte `i`
comes from the address of number `i` in the range, and the others are as they were. -/
structure Received (va : VirtAddr) (shown : VirtPage → PageBytes) (buffer : Bytes) (count : ℕ)
    (result : Bytes) : Prop where
  size_eq : result.size = buffer.size
  arrived : ∀ i < count, i < buffer.size →
    result[i]? = (shown (pageOf (va.val + i)))[(va.val + i) % pageSize]?
  untouched : ∀ i, count ≤ i → result[i]? = buffer[i]?

theorem received_of_all (va : VirtAddr) (shown : VirtPage → PageBytes) (buffer : Bytes) :
    Received va shown buffer buffer.size (fill shown (split va buffer.size) buffer) := by
  have hsize := size_fill shown (split va buffer.size) buffer
  refine ⟨hsize, fun i _ hi => ?_, fun i hi => ?_⟩
  · rw [getElem?_fill shown (fun _ hchunk => hchunk) hi, if_pos]
    exact List.mem_map.mpr ⟨_, mem_split_of_lt va hi, rfl⟩
  · rw [Array.getElem?_eq_none hi, Array.getElem?_eq_none (hsize.trans_le hi)]

theorem received_of_some {buffer : Bytes} (shown : VirtPage → PageBytes)
    (h : split va buffer.size = done ++ chunk :: rest) :
    Received va shown buffer chunk.position (fill shown done buffer) := by
  have hchunks : ∀ part ∈ done, part ∈ split va buffer.size := fun part hpart =>
    h ▸ List.mem_append_left _ hpart
  have hsize := size_fill shown done buffer
  refine ⟨hsize, fun i hbefore hi => ?_, fun i hafter => ?_⟩
  · rw [getElem?_fill shown hchunks hi, if_pos ((mem_done_iff h hi).mpr hbefore)]
  · by_cases hi : i < buffer.size
    · rw [getElem?_fill shown hchunks hi, if_neg]
      exact fun hmem => ((mem_done_iff h hi).mp hmem).not_ge hafter
    · have hout := Nat.le_of_not_lt hi
      rw [Array.getElem?_eq_none hout, Array.getElem?_eq_none (hsize ▸ hout)]

theorem Received.unique {shown : VirtPage → PageBytes} {buffer result other : Bytes} {count : ℕ}
    (h : Received va shown buffer count result) (h' : Received va shown buffer count other) :
    result = other := by
  refine Array.ext_getElem? fun i => ?_
  by_cases hi : i < count ∧ i < buffer.size
  · rw [h.arrived i hi.1 hi.2, h'.arrived i hi.1 hi.2]
  · by_cases hcount : count ≤ i
    · rw [h.untouched i hcount, h'.untouched i hcount]
    · have hout : buffer.size ≤ i := by omega
      rw [Array.getElem?_eq_none (h.size_eq ▸ hout), Array.getElem?_eq_none (h'.size_eq ▸ hout)]

end Chunk

end DemandPaging
