import DemandPaging.Proofs.AddressChecks

/-! # What a machine runs out of

To bring a page in takes a frame, and where none is free, a swap slot for the page that gives up its
own. Whatever else a claim or a fault may end with, it panics for want of one of these and for
nothing else.
-/

namespace DemandPaging

/-! ## Free frames and free slots -/

theorem FramePool.Supplies.alloc?_eq_none_iff {pool : FramePool} {out : List Frame}
    (h : pool.Supplies out) : pool.alloc? = none ↔ out.length = pool.total := by
  constructor
  · intro halloc
    have hsub : List.range pool.total ⊆ out := fun frame hframe =>
      h.mem_of_alloc?_eq_none halloc (List.mem_range.mp hframe)
    refine h.length_le.antisymm ?_
    simpa using (List.subperm_of_subset List.nodup_range hsub).length_le
  · intro hlength
    by_contra hfree
    obtain ⟨⟨frame, changed⟩, halloc⟩ := Option.ne_none_iff_exists'.mp hfree
    have hle := (h.alloc? halloc).2.2.length_le
    rw [total_of_alloc? halloc, List.length_cons] at hle
    omega

theorem SwapArea.Supplies.alloc?_eq_none_iff {area : SwapArea} {out : List Slot}
    (h : area.Supplies out) : area.alloc? = none ↔ area.slotCount ≤ area.used := by
  rw [h.used]
  constructor
  · intro halloc
    have hsub : List.range area.slotCount ⊆ out := fun slot hslot =>
      h.mem_of_alloc?_eq_none halloc (List.mem_range.mp hslot)
    simpa using (List.subperm_of_subset List.nodup_range hsub).length_le
  · intro hlength
    by_contra hfree
    obtain ⟨⟨slot, changed⟩, halloc⟩ := Option.ne_none_iff_exists'.mp hfree
    obtain ⟨hlt, hnot, -⟩ := h.alloc? halloc
    have hsub : slot :: out ⊆ List.range area.slotCount := fun other hother => by
      rcases List.mem_cons.mp hother with rfl | hother
      · exact List.mem_range.mpr hlt
      · exact List.mem_range.mpr (h.lt_count other hother)
    have hle := (List.subperm_of_subset (List.nodup_cons.mpr ⟨hnot, h.nodup⟩) hsub).length_le
    rw [List.length_cons, List.length_range] at hle
    omega

namespace MachineM

variable {m m' : Machine} {s : SpaceId} {vpn : VirtPage} {pins : List BackingId} {page : Page}
  {frame : Frame} {bytes : PageBytes} {p : Panic}

theorem alloc?_eq_none_iff (h : (m.view [] pins).Consistent) :
    m.pool.alloc? = none ↔ m.frames.size = m.pool.total := by
  have hsupplied := h.supplied.alloc?_eq_none_iff
  rw [List.length_append, List.length_map] at hsupplied
  exact hsupplied

theorem slot_alloc?_eq_none_iff (h : (m.view [] pins).Consistent) :
    m.swap.alloc? = none ↔ m.swap.slotCount ≤ m.swap.used := by
  obtain ⟨slots, hsupplies, -⟩ := h.slotted
  exact hsupplies.alloc?_eq_none_iff

/-! ## Where a panic comes from -/

/-- What a machine lacks that panics while it makes room for a page. -/
inductive Lacking (m : Machine) : Panic → Prop where
  | slot (full : m.pool.alloc? = none) (exhausted : m.swap.alloc? = none) :
      Lacking m .outOfSwapSlots
  | frame (none : m.pool.total = 0) : Lacking m .noFrameToEvict

theorem Lacking.congr {other : Machine} (h : Lacking m p) (hpool : other.pool = m.pool)
    (hswap : other.swap = m.swap) : Lacking other p := by
  cases h with
  | slot full exhausted => exact .slot (hpool ▸ full) (hswap ▸ exhausted)
  | frame none => exact .frame (hpool ▸ none)

theorem evict_panicked (h : (m.view [] pins).Consistent) (hfull : m.pool.alloc? = none)
    (hpanic : evict m = .error (.panicked p) m') : Lacking m p := by
  rcases evict_stopped h hfull hpanic with ⟨rfl, hnone, -⟩ | ⟨rfl, hslot, -⟩
  · exact .frame hnone
  · exact .slot hfull hslot

theorem acquireFrame_panicked (h : (m.view [] pins).Consistent)
    (hpanic : acquireFrame m = .error (.panicked p) m') : Lacking m p := by
  obtain ⟨hfull, hevict⟩ := acquireFrame_stopped hpanic
  exact evict_panicked h hfull hevict

theorem fill_not_panicked (h : (m.view [frame] pins).Consistent) (hp : m.page? s vpn = some page)
    (hfree : page.frame = none) (hzero : m.pool.load frame = .ok PageBytes.zero) :
    (do install s (← guardFrame frame (swapIn page frame)) frame : MachineM Unit) m ≠
      .error (.panicked p) m' := by
  intro hpanic
  rcases fill_cases h hp hfree hzero with ⟨m₁, hok, -⟩ | ⟨m₁, hfailed, -⟩
  · cases hok.symm.trans hpanic
  · cases hfailed.symm.trans hpanic

theorem claim_panicked (h : (m.view [] pins).Consistent) (hp : m.page? s vpn = some page)
    (hpanic : claim s vpn m = .error (.panicked p) m') : Lacking m p := by
  unfold claim at hpanic
  have hrest := panicked_of_bind (page_of_some hp) hpanic
  by_cases hresident : page.isResident = true
  · rw [if_pos hresident] at hrest
    cases hrest
  · rw [if_neg hresident] at hrest
    have hfree : page.frame = none := by simpa [Page.isResident] using hresident
    rcases bind_eq_panicked hrest with hacquire | ⟨frame, m₁, hacquire, hfill⟩
    · exact acquireFrame_panicked h hacquire
    · obtain ⟨hroom, hzero⟩ := ((acquireFrame_ends h False.elim).ok_of_eq hacquire).room h
      have hp₁ : m₁.page? s vpn = some page := (hroom.roomier h).absent hp hfree
      exact (fill_not_panicked (hroom.consistent h) hp₁ hfree hzero hfill).elim

end MachineM

end DemandPaging
