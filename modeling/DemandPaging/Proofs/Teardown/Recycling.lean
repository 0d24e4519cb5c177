import DemandPaging.Proofs.Teardown.Order

/-! # Address spaces taken down

All pages of an address space are removed in whatever order they are visited. What other address
spaces share with it does not show the order: frames, slots and the hand of the clock are left the
same, and so are the files, unless two pages write to the same bytes.
-/

namespace DemandPaging

/-- The frames that are handed out: no free block has them. -/
def FramePool.handedOut (pool : FramePool) : Set Frame :=
  {frame | frame < pool.total ∧ ∀ block ∈ pool.free, ¬block.Covers frame}

theorem FramePool.Supplies.handedOut_eq {pool : FramePool} {out : List Frame}
    (h : pool.Supplies out) : pool.handedOut = {frame | frame ∈ out} := by
  ext frame
  simp only [handedOut, Set.mem_ofPred_eq]
  constructor
  · rintro ⟨hlt, hfree⟩
    by_contra hnot
    obtain ⟨block, hblock, hcovers⟩ := (h.tiles.covers frame).mpr ⟨hlt, hnot⟩
    exact hfree block hblock hcovers
  · intro hmem
    refine ⟨h.lt_total frame hmem, fun block hblock hcovers => ?_⟩
    exact ((h.tiles.covers frame).mp ⟨block, hblock, hcovers⟩).2 hmem

/-- No two pages of an address space write back to the same bytes of a file. -/
def View.WritesApart (V : View) (s : SpaceId) : Prop :=
  ∀ vpn u, vpn ≠ u → ∀ v ∈ V.writeBack? s vpn, ∀ w ∈ V.writeBack? s u, v.Apart w

/-- Writes to different bytes leave the same in whatever order they come. -/
theorem View.WritesApart.foldl_eq {V : View} {s : SpaceId} {order other : List VirtPage}
    (h : V.WritesApart s) (hp : order.Perm other) (file : FileId) (content : Option File) :
    (order.filterMap (V.writeBack? s)).foldl (FileWrite.apply file) content =
      (other.filterMap (V.writeBack? s)).foldl (FileWrite.apply file) content := by
  refine (hp.filterMap _).foldl_eq' (fun v hv w hw content => ?_) content
  obtain ⟨vpn, -, hvpn⟩ := List.mem_filterMap.mp hv
  obtain ⟨u, -, hu⟩ := List.mem_filterMap.mp hw
  by_cases he : vpn = u
  · obtain rfl : v = w := Option.some.inj (hvpn.symm.trans (he ▸ hu))
    rfl
  · exact FileWrite.apply_comm (h vpn u he v hvpn w hu) file content

/-- The file that a page shows, or will show after its first touch. -/
def View.fileShown? (V : View) (s : SpaceId) (vpn : VirtPage) : Option FileId := do
  let segment ← V.shared s vpn
  let backing ← V.files.backing? segment.backing
  return backing.file

theorem View.Consistent.fileShown?_of_writeBack? {V : View} {s : SpaceId} {vpn : VirtPage}
    {w : FileWrite} (h : V.Consistent) (hw : V.writeBack? s vpn = some w) :
    V.fileShown? s vpn = some w.file := by
  obtain ⟨segment, bytes, entry, backing, hresident, -, hopen, rfl⟩ :=
    h.writeBack?_eq_some_iff.mp hw
  simp only [fileShown?, hresident.shared_eq, Option.bind_eq_bind, Option.bind_some, hopen]
  rfl

theorem View.exists_page_of_fileShown? {V : View} {s : SpaceId} {vpn : VirtPage} {file : FileId}
    (h : V.fileShown? s vpn = some file) : V.page s vpn ≠ none := by
  intro hnone
  simp only [fileShown?, shared, hnone, Option.bind_eq_bind, Option.bind_none] at h
  cases h

theorem View.Consistent.writesApart {V : View} {s : SpaceId} (h : V.Consistent)
    (hfiles : ∀ vpn u file, V.fileShown? s vpn = some file → V.fileShown? s u = some file →
      vpn = u) : V.WritesApart s := by
  intro vpn u hne v hv w hw hfile
  exact absurd (hfiles vpn u w.file (hfile ▸ h.fileShown?_of_writeBack? hv)
    (h.fileShown?_of_writeBack? hw)) hne

namespace Machine

variable {m m' m₁ m₂ : Machine} {s : SpaceId} {space : Space} {order order₁ order₂ : List VirtPage}
  {requests : List (Visit × Op)}

/-- What is left of a machine when all pages of an address space were removed in some order. -/
structure TornDown (m : Machine) (s : SpaceId) (order : List VirtPage) (m' : Machine) : Prop where
  nodup : order.Nodup
  mem_order_iff : ∀ vpn, vpn ∈ order ↔ m.page? s vpn ≠ none
  /-- The address space has no page and no entry. -/
  empty : ∃ space, m'.space? s = some space ∧ space.pages.isEmpty = true ∧
    space.table.isEmpty = true
  others : ∀ t, s ≠ t → ∀ u, m'.page? t u = m.page? t u ∧ m'.entryAt? t u = m.entryAt? t u
  userSp_eq : m'.userSp? = m.userSp?
  /-- The entries of other address spaces keep their order. -/
  frames_eq : m'.frames = m.frames.keeping fun e => e.space ≠ s
  handedOut_eq : m'.pool.handedOut =
    {frame | ∃ e ∈ m.frames.entries, e.space ≠ s ∧ e.frame = frame}
  swap_eq : m'.swap = (order.filterMap ((m.view [] []).slot s)).foldl SwapArea.cleared m.swap
  /-- Resident pages of files that were written to are written back, and no others. -/
  file?_eq : ∀ file, m'.files.file? file =
    (order.filterMap ((m.view [] []).writeBack? s)).foldl (FileWrite.apply file)
      (m.files.file? file)

open MachineM

/-- All pages of an address space can be removed, whatever order they are visited in. -/
theorem Accounted.recycleBy (h : m.Accounted) (hrests : m.frames.Rests)
    (hspace : m.space? s = some space) (visit : Visit) :
    ∃ m' order, MachineM.recycleBy visit s m = .ok () m' ∧ m.TornDown s order m' := by
  have hconsistent := h.sound.consistent
  have hthere : (m.view [] []).Live s := live_of_space? hspace
  obtain ⟨m', hrun, hsteps, hlive, hnone⟩ := recycleBy_ok visit hconsistent hthere
  obtain ⟨order, hremoved⟩ :=
    View.removed_of_steps hsteps hconsistent h.numbered h.accounted hrests
  obtain ⟨space', hspace'⟩ := exists_space_of_live hlive
  have hconsistent' := hsteps.consistent hconsistent
  have hmem : ∀ vpn, vpn ∈ order ↔ m.page? s vpn ≠ none := by
    refine fun vpn => ⟨hremoved.registered vpn, fun hne => ?_⟩
    by_contra hnot
    exact hne ((hremoved.page_of_not_mem hnot).symm.trans (hnone vpn))
  have hframes : m'.frames = m.frames.keeping fun e => e.space ≠ s := by
    refine hremoved.frames_eq.trans (FrameTable.keeping_congr fun e he => ?_)
    have hplace : e.space = s → e.vpn ∈ order := by
      rintro rfl
      refine (hmem _).mpr fun hnot => ?_
      have hframe := (hconsistent.listed e).mp he
      cases (View.frame_of_none hnot).symm.trans hframe
    by_cases hs : e.space = s
    · simp [hs, hplace hs]
    · simp [hs]
  refine ⟨m', order, hrun, hremoved.nodup, hmem, ⟨space', hspace', ?_, ?_⟩, fun t ht u => ?_,
    hremoved.userSp_eq, hframes, ?_, hremoved.swap_eq, hremoved.file?_eq⟩
  · rw [Std.TreeMap.isEmpty_iff_forall_not_mem]
    intro vpn hin
    rw [Std.TreeMap.mem_iff_isSome_getElem?, ← page?_of_space? hspace', hnone] at hin
    cases hin
  · exact table_isEmpty hspace' fun vpn => hconsistent'.unmapped (hnone vpn)
  · have hpage := hremoved.page_eq t u
    have hentry := hremoved.entry_eq t u
    rw [if_neg fun hin => ht hin.1] at hpage hentry
    exact ⟨hpage, hentry⟩
  · refine hconsistent'.supplied.handedOut_eq.trans ?_
    change {frame | frame ∈ m'.frames.entries.map FrameEntry.frame ++ []} = _
    rw [hframes, List.append_nil]
    ext frame
    simp [FrameTable.keeping, and_assoc]

/-- However the pages of an address space were visited, the same is left. -/
theorem TornDown.agree (h₁ : m.TornDown s order₁ m₁) (h₂ : m.TornDown s order₂ m₂) :
    m₁.frames = m₂.frames ∧ m₁.swap = m₂.swap ∧ m₁.pool.handedOut = m₂.pool.handedOut ∧
      ((m.view [] []).WritesApart s → ∀ file, m₁.files.file? file = m₂.files.file? file) := by
  have hperm : order₁.Perm order₂ := (List.perm_ext_iff_of_nodup h₁.nodup h₂.nodup).mpr fun vpn =>
    (h₁.mem_order_iff vpn).trans (h₂.mem_order_iff vpn).symm
  refine ⟨h₁.frames_eq.trans h₂.frames_eq.symm, ?_, h₁.handedOut_eq.trans h₂.handedOut_eq.symm,
    fun hapart file => ?_⟩
  · rw [h₁.swap_eq, h₂.swap_eq]
    exact (hperm.filterMap _).foldl_eq'
      (fun a _ b _ area => area.cleared_comm a b) m.swap
  · rw [h₁.file?_eq, h₂.file?_eq]
    exact hapart.foldl_eq hperm file _

/-- In every machine that was booted and served requests, the pages of an address space can be
removed in any order, and what other address spaces share with it ends up the same: the frame table
with the hand of the clock, the swap area, the frames that are handed out, and the files if no two
pages write back to the same bytes. -/
theorem tornDown_of_run {frames : ℕ} {disk : Disk} {files : Array File}
    (hframes : frames ≤ PageTable.Entry.frameBound)
    (halong : (boot frames disk (.ofFiles files)).Along (fun m op => op.Entitled m) requests)
    (hrun : (boot frames disk (.ofFiles files)).run? requests = some m)
    (hspace : m.space? s = some space) (first second : Visit) :
    ∃ m₁ m₂ order₁ order₂, MachineM.recycleBy first s m = .ok () m₁ ∧
      MachineM.recycleBy second s m = .ok () m₂ ∧
      m.TornDown s order₁ m₁ ∧ m.TornDown s order₂ m₂ ∧
      m₁.frames = m₂.frames ∧ m₁.swap = m₂.swap ∧ m₁.pool.handedOut = m₂.pool.handedOut ∧
      ((m.view [] []).WritesApart s → ∀ file, m₁.files.file? file = m₂.files.file? file) := by
  have h : m.Accounted := along_invariant Accounted (fun h hentitled hstep =>
    h.step hentitled hstep) halong (counted_boot hframes disk files).accounted hrun
  have hrests : m.frames.Rests := rests_run (sound_boot hframes disk _) (.inl rfl) hrun
  obtain ⟨m₁, order₁, hrun₁, h₁⟩ := h.recycleBy hrests hspace first
  obtain ⟨m₂, order₂, hrun₂, h₂⟩ := h.recycleBy hrests hspace second
  exact ⟨m₁, m₂, order₁, order₂, hrun₁, hrun₂, h₁, h₂, h₁.agree h₂⟩

/-- An address space has two dirty pages of files in frames, and one page in a slot. It is left the
same whether the pages are visited in ascending or in descending order. -/
theorem tornDown_of_reverse : ∃ m m₁ m₂ order₁ order₂,
    (boot 3 (.zeroed 16) (.ofFiles #[⟨#[0x41], 1, none, none, none, none⟩,
      ⟨#[0x42], 1, none, none, none, none⟩])).run? ([.create, .create,
        .alloc 0 ⟨3 * pageSize⟩ true .zero .anon, .alloc 1 ⟨pageSize⟩ true .zero .anon,
        .map 0 ⟨pageSize⟩ 1 true 0 0, .map 0 ⟨2 * pageSize⟩ 1 true 1 0,
        .claim 0 ⟨3 * pageSize⟩, .claim 0 ⟨2 * pageSize⟩, .claim 0 ⟨pageSize⟩,
        .claim 1 ⟨pageSize⟩, .access 0 ⟨pageSize⟩ true, .access 0 ⟨2 * pageSize⟩ true].map
          (Visit.ascending, ·)) = some m ∧
      m.frames.entries.map FrameEntry.place = [(0, ⟨2⟩), (0, ⟨1⟩), (1, ⟨1⟩)] ∧ m.swap.used = 1 ∧
      ((m.view [] []).writeBack? 0 ⟨1⟩).isSome = true ∧
      ((m.view [] []).writeBack? 0 ⟨2⟩).isSome = true ∧
      MachineM.recycleBy .ascending 0 m = .ok () m₁ ∧
      MachineM.recycleBy ⟨List.reverse, List.reverse_perm⟩ 0 m = .ok () m₂ ∧
      m.TornDown 0 order₁ m₁ ∧ m.TornDown 0 order₂ m₂ ∧ m₁.frames = m₂.frames ∧
      m₁.swap = m₂.swap ∧ m₁.pool.handedOut = m₂.pool.handedOut ∧
      (m.view [] []).WritesApart 0 ∧ ∀ file, m₁.files.file? file = m₂.files.file? file := by
  generalize hfiles : #[File.mk #[0x41] 1 none none none none,
    File.mk #[0x42] 1 none none none none] = files
  generalize hrequests : [Op.create, .create, .alloc 0 ⟨3 * pageSize⟩ true .zero .anon,
    .alloc 1 ⟨pageSize⟩ true .zero .anon, .map 0 ⟨pageSize⟩ 1 true 0 0,
    .map 0 ⟨2 * pageSize⟩ 1 true 1 0, .claim 0 ⟨3 * pageSize⟩, .claim 0 ⟨2 * pageSize⟩,
    .claim 0 ⟨pageSize⟩, .claim 1 ⟨pageSize⟩, .access 0 ⟨pageSize⟩ true,
    .access 0 ⟨2 * pageSize⟩ true].map (Visit.ascending, ·) = requests
  have hserved : ((boot 3 (.zeroed 16) (.ofFiles files)).run? requests).any (fun m =>
      ((m.space? 0).any fun space => decide (space.pages.keys = [⟨1⟩, ⟨2⟩, ⟨3⟩])) &&
        decide ([1, 2, 3].map (fun n => (m.view [] []).fileShown? 0 ⟨n⟩) =
          [some 0, some 1, none]) &&
        decide (m.frames.entries.map FrameEntry.place = [(0, ⟨2⟩), (0, ⟨1⟩), (1, ⟨1⟩)]) &&
        decide (m.swap.used = 1) && ((m.view [] []).writeBack? 0 ⟨1⟩).isSome &&
        ((m.view [] []).writeBack? 0 ⟨2⟩).isSome) = true := by
    rw [← hrequests, ← hfiles]
    decide +kernel
  have halong : (boot 3 (.zeroed 16) (.ofFiles files)).Along (fun m op => op.Entitled m)
      requests := by
    refine along_of_forall (fun request hin m => ?_) _
    rw [← hrequests] at hin
    simp only [List.map_cons, List.map_nil, List.mem_cons, List.not_mem_nil, or_false] at hin
    rcases hin with rfl | rfl | rfl | rfl | rfl | rfl | rfl | rfl | rfl | rfl | rfl | rfl <;>
      trivial
  simp only [Option.any_eq_true, Bool.and_eq_true, decide_eq_true_eq] at hserved
  obtain ⟨m, hrun, ⟨⟨⟨⟨⟨space, hspace, hkeys⟩, hshown⟩, hplaces⟩, hused⟩, hone⟩, htwo⟩ := hserved
  obtain ⟨m₁, m₂, order₁, order₂, hfirst, hsecond, h₁, h₂, hframes, hswap, hout, hsame⟩ :=
    tornDown_of_run (by decide) halong hrun hspace .ascending ⟨List.reverse, List.reverse_perm⟩
  have honly : ∀ vpn file, (m.view [] []).fileShown? 0 vpn = some file →
      vpn = ⟨1⟩ ∧ file = 0 ∨ vpn = ⟨2⟩ ∧ file = 1 := by
    intro vpn file hvpn
    have hin : vpn ∈ space.pages.keys := (mem_order_iff hspace .ascending).mpr
      (View.exists_page_of_fileShown? hvpn)
    simp only [List.map_cons, List.map_nil, List.cons.injEq, and_true] at hshown
    obtain ⟨hfirst, hsecond, hthird⟩ := hshown
    simp only [hkeys, List.mem_cons, List.not_mem_nil, or_false] at hin
    rcases hin with rfl | rfl | rfl
    · exact .inl ⟨rfl, Option.some.inj (hvpn.symm.trans hfirst)⟩
    · exact .inr ⟨rfl, Option.some.inj (hvpn.symm.trans hsecond)⟩
    · cases hvpn.symm.trans hthird
  have hapart : (m.view [] []).WritesApart 0 := by
    refine (sound_of_run (by decide) hrun).consistent.writesApart fun vpn u file hv hu => ?_
    rcases honly vpn file hv with ⟨rfl, rfl⟩ | ⟨rfl, rfl⟩ <;>
      rcases honly u _ hu with ⟨rfl, hf⟩ | ⟨rfl, hf⟩ <;> first | rfl | cases hf
  exact ⟨m, m₁, m₂, order₁, order₂, hrun, hplaces, hused, hone, htwo, hfirst, hsecond, h₁, h₂,
    hframes, hswap, hout, hapart, hsame hapart⟩

end Machine

end DemandPaging
