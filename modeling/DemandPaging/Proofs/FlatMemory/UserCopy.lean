import DemandPaging.Proofs.CopiedBytes
import DemandPaging.Proofs.FlatMemory.Shown

/-! # Copies and flat memory

A write changes what is known in the pages that it gets to, and a read returns what is known of its
range. Pages that are brought in for either show what they showed before.
-/

namespace DemandPaging

/-! ## Written pages -/

/-- Flat memory after data was stored to some pages. -/
def Flat.written (memory : Flat) (s : SpaceId) (va : VirtAddr) (data : Bytes)
    (pages : List VirtPage) : Flat := fun t addr =>
  (memory t addr).map fun byte =>
    (if s = t ∧ va.val ≤ addr ∧ pageOf addr ∈ pages then data[addr - va.val]? else none).getD byte

section

variable {V W : View} {memory : Flat} {s t : SpaceId} {vpn : VirtPage} {va : VirtAddr}
  {data : Bytes} {pages : List VirtPage} {addr : ℕ}

namespace Flat

theorem written_of_not_mem (h : ¬(s = t ∧ pageOf addr ∈ pages)) :
    memory.written s va data pages t addr = memory t addr := by
  have hnot : ¬(s = t ∧ va.val ≤ addr ∧ pageOf addr ∈ pages) := fun he => h ⟨he.1, he.2.2⟩
  simp only [written, if_neg hnot, Option.getD_none, Option.map_id']

theorem written_nil (memory : Flat) (s : SpaceId) (va : VirtAddr) (data : Bytes) :
    memory.written s va data [] = memory := by
  funext t addr
  exact written_of_not_mem fun he => List.not_mem_nil he.2

theorem written_append_of_ne (h : ¬(s = t ∧ pageOf addr = vpn)) :
    memory.written s va data (pages ++ [vpn]) t addr = memory.written s va data pages t addr := by
  have hiff : (s = t ∧ va.val ≤ addr ∧ pageOf addr ∈ pages ++ [vpn]) ↔
      (s = t ∧ va.val ≤ addr ∧ pageOf addr ∈ pages) := by
    rw [List.mem_append, List.mem_singleton]
    tauto
  simp only [written, hiff]

theorem written_append_same (h : pageOf addr = vpn) :
    memory.written s va data (pages ++ [vpn]) s addr =
      (memory.written s va data pages s addr).map fun byte =>
        (if va.val ≤ addr then data[addr - va.val]? else none).getD byte := by
  have hmem : pageOf addr ∈ pages ++ [vpn] := by
    rw [h]
    exact List.mem_append_right _ List.mem_cons_self
  rw [written, written, Option.map_map]
  congr 1
  funext byte
  simp only [Function.comp_apply, hmem, true_and, and_true]
  by_cases hin : va.val ≤ addr
  · by_cases hold : pageOf addr ∈ pages
    · simp only [hin, hold, and_self, if_true]
      cases data[addr - va.val]? <;> rfl
    · simp only [hin, hold, and_false, if_true, if_false, Option.getD_none]
  · simp only [hin, false_and, if_false, Option.getD_none]

end Flat

/-- A part of the data replaces the bytes of its page that the data reaches. -/
theorem Chunk.getElem?_stored_eq_map (va : VirtAddr) (number : ℕ) (bytes : PageBytes)
    (data : Bytes) {i : ℕ} (hi : i < pageSize) :
    (bytes.overlay (ofPage va (va.val + data.size) number).offset
        (data.slice (ofPage va (va.val + data.size) number).position
          (ofPage va (va.val + data.size) number).length))[i]? =
      bytes[i]?.map fun byte =>
        (if va.val ≤ number * pageSize + i then data[number * pageSize + i - va.val]?
          else none).getD byte := by
  rw [getElem?_stored va number bytes data hi, Vector.getElem?_eq_getElem hi, Option.map_some]
  by_cases hfrom : va.val ≤ number * pageSize + i
  · by_cases hto : number * pageSize + i < va.val + data.size
    · have hlt : number * pageSize + i - va.val < data.size := by omega
      rw [if_pos ⟨hfrom, hto⟩, if_pos hfrom, Array.getElem?_eq_getElem hlt, Option.getD_some]
    · rw [if_neg fun hin => hto hin.2, if_pos hfrom, Array.getElem?_eq_none (by omega),
        Option.getD_none]
  · rw [if_neg fun hin => hfrom hin.1, if_neg hfrom, Option.getD_none]

/-- A store to a page shows in that page alone. -/
theorem View.Refines.stored {number : ℕ} {page : Page} {frame : Frame} {bytes : PageBytes}
    {pool : FramePool} (h : V.Refines (memory.written s va data pages))
    (hstep : Step (.store s ⟨number⟩) V { V with pool }) (hp : V.page s ⟨number⟩ = some page)
    (hframe : page.frame = some frame) (hload : V.pool.load frame = .ok bytes)
    (hstore : V.pool.store frame (bytes.overlay
      (Chunk.ofPage va (va.val + data.size) number).offset
      (data.slice (Chunk.ofPage va (va.val + data.size) number).position
        (Chunk.ofPage va (va.val + data.size) number).length)) = .ok pool) :
    View.Refines { V with pool } (memory.written s va data (pages ++ [⟨number⟩])) := by
  refine ⟨hstep.consistent h.consistent, ?_, ?_⟩
  · intro t vpn hpage i hi byte hbyte
    have hat := pageOf_number_mul_add vpn hi
    by_cases hsame : s = t ∧ vpn = ⟨number⟩
    · obtain ⟨rfl, rfl⟩ := hsame
      rw [Flat.written_append_same hat] at hbyte
      obtain ⟨old, hold, hbyte⟩ := Option.map_eq_some_iff.mp hbyte
      obtain ⟨hshown, hget⟩ := h.shows.getElem?_load h.consistent hp hframe hload hi hold
      refine ⟨_, h.consistent.contents_stored hp hframe hstore hshown, ?_⟩
      rw [Chunk.getElem?_stored_eq_map va number bytes data hi, hget, Option.map_some, hbyte]
    · have hne : ¬(s = t ∧ pageOf (vpn.number * pageSize + i) = ⟨number⟩) := by
        rwa [hat]
      rw [Flat.written_append_of_ne hne] at hbyte
      obtain ⟨shown, hshown, hget⟩ := h.shows t vpn hpage i hi byte hbyte
      refine ⟨shown, hstep.contents_eq h.consistent ?_ ?_ hshown, hget⟩
      · intro he
        injection he with hs hvpn
        exact hsame ⟨hs, hvpn.symm⟩
      · simp
  · intro t vpn hnone i hi byte hbyte
    apply h.blank t vpn hnone i hi byte
    rwa [Flat.written_append_of_ne] at hbyte
    rintro ⟨rfl, hat⟩
    rw [pageOf_number_mul_add vpn hi] at hat
    rw [hat] at hnone
    cases hp.symm.trans hnone

end

namespace MachineM

variable {m : Machine} {memory : Flat} {s : SpaceId} {va : VirtAddr} {d : Deed}

theorem onlyZeros_of_faulting (hd : d ∈ Deed.faulting s) : d.OnlyZeros := by
  rcases hd with hd | ⟨vpn, rfl⟩ | ⟨vpn, rfl⟩
  · cases d <;> trivial
  · trivial
  · rfl

theorem onlyZeros_of_accessing (hd : d ∈ Deed.accessing s) : d.OnlyZeros := by
  rcases hd with hd | ⟨vpn, write, rfl⟩
  · exact onlyZeros_of_faulting hd
  · trivial

/-! ## Copies -/

theorem writeInvariant_refines (s : SpaceId) (va : VirtAddr) (data : Bytes) :
    WriteInvariant s va data fun pages V => V.Refines (memory.written s va data pages) where
  consistent h := h.consistent
  access _ hd _ _ hstep h := hstep.refines (onlyZeros_of_accessing hd) h
  store h hstep hp hframe hload hstore := h.stored hstep hp hframe hload hstore

theorem writeUser_refines (h : (m.view [] []).Refines memory) (va : VirtAddr) (data : Bytes) :
    Ends False (writeUser s va data) m
      (fun _ m' => (m'.view [] []).Refines (memory.written s va data (writtenPages s va data m)))
      fun _ m' =>
        (m'.view [] []).Refines (memory.written s va data (writtenPages s va data m)) := by
  apply (writeInvariant_refines s va data).writeUser
  rwa [Flat.written_nil]

theorem readInvariant_refines (memory : Flat) (s : SpaceId) :
    ReadInvariant s (fun V => V.Refines memory)
      fun addr byte => ∀ known, memory s addr = some known → byte = known where
  consistent h := h.consistent
  access _ hd _ _ hstep h := hstep.refines (onlyZeros_of_accessing hd) h
  good h hp hframe hload i hi byte hbyte known hknown := by
    obtain ⟨-, hget⟩ := h.shows.getElem?_load h.consistent hp hframe hload hi hknown
    exact Option.some.inj (hbyte.symm.trans hget)

end MachineM

end DemandPaging
