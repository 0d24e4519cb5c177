import DemandPaging.Proofs.FreeFrames.Blindness

/-! # Coming into frames and leaving them

A frame is zeroed before a page gets it, and what is read from frames is read from frames that pages
occupy. So what was left in the frame of a page does not show in the page that gets the frame next.
-/

namespace DemandPaging.Blind

open MachineM

variable {α : Type} {held : List Frame} {action : MachineM α} {after : α → List Frame} {m : Machine}
  {s : SpaceId} {vpn : VirtPage} {page : Page} {frame source : Frame} {segment : Segment}
  {slot : Slot}

/-! ## Frames and their contents -/

theorem takeVictim : Blind held MachineM.takeVictim (fun e => e.frame :: held) m := by
  rintro n ⟨memory, hsize, hsame⟩
  let other := m.withPool (m.pool.withMemory memory)
  by_cases hne : m.frames.entries = []
  · have hother : other.frames.entries = [] := hne
    rw [takeVictim_of_empty hne, takeVictim_of_empty hother]
    exact .panicked (Machine.Matches.mono ⟨memory, hsize, hsame⟩ (List.nil_subset held))
  · obtain ⟨e, hfirst, hrun⟩ := takeVictim_ok hne
    obtain ⟨e', hsecond, hrun'⟩ := takeVictim_ok (show other.frames.entries ≠ [] from hne)
    obtain rfl : e = e' := Option.some.inj (hfirst.symm.trans hsecond)
    rw [hrun, hrun']
    refine .ok ⟨memory, hsize, fun frame hin => hsame frame ?_⟩
    rcases hin with hin | hin
    · obtain ⟨f, hf, rfl⟩ := List.mem_map.mp hin
      exact .inl (List.mem_map_of_mem (List.mem_of_mem_eraseIdx hf))
    · rcases List.mem_cons.mp hin with rfl | hin
      · exact .inl (List.mem_map_of_mem (List.mem_of_getElem? hfirst))
      · exact .inr hin

theorem pushFrame (frame : Frame) (s : SpaceId) (vpn : VirtPage) :
    Blind (frame :: held) (MachineM.pushFrame frame s vpn) (fun _ => held) m := by
  refine Blind.modify (fun _ _ => rfl) fun other hin => ?_
  rcases hin with hin | hin
  · rw [FrameTable.push, List.map_append, List.mem_append] at hin
    rcases hin with hin | hin
    · exact .inl hin
    · exact .inr (List.mem_cons.mpr (.inl (List.mem_singleton.mp hin)))
  · exact .inr (List.mem_cons_of_mem frame hin)

theorem saveToSwap (hin : frame ∈ held) :
    Blind held (MachineM.saveToSwap frame) (fun _ => held) m := by
  refine Blind.get (fun _ => rfl) ?_
  cases m.swap.alloc? with
  | none => exact Blind.get (fun _ => rfl) (of_frameless _)
  | some taken =>
      refine (loadFrame (.inr hin)).bind fun bytes m₁ _ => ?_
      refine (of_frameless (liftM (taken.2.write taken.1 bytes))).bind fun swap m₂ _ => ?_
      refine Blind.bind (Blind.modify (fun _ _ => rfl) fun _ hin => hin) fun _ _ _ => ?_
      exact pure (List.Subset.refl _)

theorem loadFromSwap (slot : Slot) (frame : Frame) :
    Blind held (MachineM.loadFromSwap slot frame) (fun _ => held) m := by
  refine Blind.get (fun _ => rfl) ?_
  refine (of_frameless (liftM (m.swap.read slot))).bind fun bytes m₁ _ => ?_
  exact (storeFrame frame bytes).mono fun _ => List.subset_cons_self _ _

theorem loadSegment (segment : Segment) (hin : frame ∈ held) :
    Blind held (MachineM.loadSegment segment frame) (fun _ => held) m := by
  refine (loadFrame (.inr hin)).bind fun bytes m₁ _ => ?_
  refine (of_frameless (readSegment segment bytes)).bind fun result m₂ _ => ?_
  refine ((storeFrame frame result.1).mono fun _ => List.subset_cons_self _ _).bind fun _ m₃ _ => ?_
  exact of_frameless _

theorem saveSegment (segment : Segment) (hin : m.InUse held frame) :
    Blind held (MachineM.saveSegment segment frame) (fun _ => held) m :=
  (loadFrame hin).bind fun _ _ _ => of_frameless _

theorem swapOut (page : Page) (dirty : Bool) (hin : frame ∈ held) :
    Blind held (MachineM.swapOut page frame dirty) (fun _ => held) m := by
  unfold MachineM.swapOut
  split
  · exact of_frameless _
  · exact of_frameless _
  · exact (saveToSwap hin).bind fun slot m₁ _ => of_frameless _
  · dsimp only
    split
    · exact (saveSegment _ (.inr hin)).bind fun _ m₁ _ => of_frameless _
    · exact of_frameless _

/-! ## Making room -/

theorem evict : Blind held MachineM.evict (fun frame => frame :: held) m := by
  refine takeVictim.bind fun e m₁ _ => ?_
  have hin : e.frame ∈ e.frame :: held := List.mem_cons_self
  refine (of_frameless (unmapPage e.space e.vpn)).bind fun dirty m₂ _ => ?_
  refine (of_frameless (MachineM.page e.space e.vpn)).bind fun page m₃ _ => ?_
  refine (swapOut page dirty hin).bind fun left m₄ _ => ?_
  refine (of_frameless (putPage e.space left.vacate)).bind fun _ m₅ _ => ?_
  refine ((storeFrame e.frame PageBytes.zero).mono fun _ => List.subset_cons_self _ _).bind
    fun _ m₆ _ => ?_
  refine Blind.bind (Blind.modify (fun _ _ => rfl) fun _ hin => hin) fun _ m₇ _ => ?_
  exact (of_frameless (emit _)).bind fun _ _ _ => pure (List.Subset.refl _)

/-- A frame that was asked for has the same contents whatever was left in it. -/
theorem acquireFrame : Blind held MachineM.acquireFrame (fun frame => frame :: held) m := by
  rintro n ⟨memory, hsize, hsame⟩
  have hsecond : (m.withPool (m.pool.withMemory memory)).pool.alloc? = m.pool.alloc?.map
      fun taken => (taken.1,
        taken.2.withMemory (memory.setIfInBounds taken.1 PageBytes.zero)) := by
    simp only [FramePool.alloc?, Machine.withPool, FramePool.withMemory]
    cases FramePool.takeFrame? m.pool.free <;> rfl
  cases hfirst : m.pool.alloc? with
  | none =>
      rw [hfirst] at hsecond
      rw [acquireFrame_of_full hfirst, acquireFrame_of_full hsecond]
      exact evict _ ⟨memory, hsize, hsame⟩
  | some taken =>
      obtain ⟨frame, pool⟩ := taken
      rw [hfirst] at hsecond
      rw [acquireFrame_of_free hfirst, acquireFrame_of_free hsecond]
      obtain ⟨free, -, rfl⟩ := FramePool.alloc?_eq_some_iff.mp hfirst
      refine .ok ⟨memory.setIfInBounds frame PageBytes.zero, by simpa using hsize,
        fun other hin => ?_⟩
      simp only [Array.getElem?_setIfInBounds, hsize]
      by_cases ho : frame = other
      · rw [if_pos ho, if_pos ho]
      · rw [if_neg ho, if_neg ho]
        refine hsame other (hin.imp_right fun hmem => ?_)
        exact (List.mem_cons.mp hmem).resolve_left (Ne.symm ho)

/-! ## Filling a frame -/

theorem swapIn (page : Page) (hin : frame ∈ held) :
    Blind held (MachineM.swapIn page frame) (fun _ => held) m := by
  unfold MachineM.swapIn
  split
  · exact of_frameless _
  · exact (loadSegment _ hin).bind fun _ _ _ => of_frameless _
  · exact (loadSegment _ hin).bind fun _ _ _ => of_frameless _
  · exact of_frameless _
  · exact (loadFromSwap _ frame).bind fun _ _ _ => of_frameless _
  · exact (loadSegment _ hin).bind fun _ _ _ => of_frameless _

theorem guardFrame (h : Blind held action after m) :
    Blind held (MachineM.guardFrame frame action) after m :=
  h.onStop fun _ _ _ => releaseFrame frame

theorem install (s : SpaceId) (page : Page) (frame : Frame) :
    Blind (frame :: held) (MachineM.install s page frame) (fun _ => held) m := by
  refine (of_frameless (liftM (page.occupy frame))).bind fun occupied m₁ _ => ?_
  refine (of_frameless (mapPage s occupied.vpn frame occupied.writable)).bind fun _ m₂ _ => ?_
  exact (pushFrame frame s occupied.vpn).bind fun _ m₃ _ => of_frameless _

theorem claim (s : SpaceId) (vpn : VirtPage) :
    Blind held (MachineM.claim s vpn) (fun _ => held) m := by
  refine (of_frameless (MachineM.page s vpn)).bind fun page m₁ _ => ?_
  split
  · exact of_frameless _
  · refine acquireFrame.bind fun frame m₂ _ => ?_
    refine (guardFrame (swapIn page List.mem_cons_self)).bind fun filled m₃ _ => ?_
    exact install s filled frame

theorem claimAt (s : SpaceId) (va : VirtAddr) :
    Blind held (MachineM.claimAt s va) (fun _ => held) m := by
  refine (of_frameless (MachineM.space s)).bind fun space m₁ _ => ?_
  dsimp only
  split
  · exact claim s va.page
  · exact Blind.bind (of_frameless (fail .badAddress)) fun _ _ _ => claim s va.page

/-! ## Faults -/

theorem growStack (s : SpaceId) (vpn : VirtPage) :
    Blind held (MachineM.growStack s vpn) (fun _ => held) m := by
  refine (of_frameless (emit (.stackGrown vpn))).bind fun _ m₁ _ => ?_
  exact (of_frameless (alloc s vpn.start true .zero .anon)).bind fun _ m₂ _ => claimAt s vpn.start

theorem handleFault (s : SpaceId) (fault : PageFault) :
    Blind held (MachineM.handleFault s fault) (fun _ => held) m := by
  refine (of_frameless (emit _)).bind fun _ m₁ _ => ?_
  refine (of_frameless (MachineM.space s)).bind fun space m₂ _ => ?_
  split
  · exact of_frameless _
  · split
    · exact of_frameless _
    · split
      · split
        · exact of_frameless _
        · exact claim s _
      · split
        · exact growStack s _
        · exact of_frameless _

theorem setupStack (s : SpaceId) : Blind held (MachineM.setupStack s) (fun _ => held) m := by
  refine (of_frameless (alloc s _ true .zero .anon)).bind fun _ m₁ _ => ?_
  exact (claimAt s _).bind fun _ m₂ _ => of_frameless _

theorem accessPage (s : SpaceId) (vpn : VirtPage) (write : Bool) (attempts : ℕ) :
    Blind held (MachineM.accessPage s vpn write attempts) (fun _ => held) m := by
  induction attempts generalizing m with
  | zero => exact of_frameless (panic _)
  | succ attempts ih =>
      refine (of_frameless (MachineM.space s)).bind fun space m₁ _ => ?_
      split
      · exact of_frameless _
      · exact of_frameless _
      · exact (handleFault s _).bind fun _ m₂ _ => ih

end DemandPaging.Blind
