import DemandPaging.Proofs.SharedPages
import DemandPaging.Proofs.Teardown.Holders
import DemandPaging.Proofs.Teardown.Removal

/-! # Pages removed in any order

What is left when all pages of an address space are removed is what the pages held before, taken
away: it can be told without the order in which the pages went. Only where two pages write to the
same bytes of a file does the order decide.
-/

namespace DemandPaging

open FrameTable

section SetAt

variable {α : Type} {f g : SpaceId → VirtPage → Option α} {s : SpaceId} {done : List VirtPage}

theorem setAt_none_of_emptied (h : ∀ t u, g t u = if s = t ∧ u ∈ done then none else f t u)
    (vpn : VirtPage) (t : SpaceId) (u : VirtPage) :
    setAt g s vpn none t u = if s = t ∧ u ∈ done ++ [vpn] then none else f t u := by
  by_cases hplace : s = t ∧ vpn = u
  · obtain ⟨rfl, rfl⟩ := hplace
    simp
  · have hmem : (s = t ∧ u ∈ done ++ [vpn]) ↔ (s = t ∧ u ∈ done) := by
      simp only [List.mem_append, List.mem_singleton]
      constructor
      · rintro ⟨hs, hu | hu⟩
        · exact ⟨hs, hu⟩
        · exact absurd ⟨hs, hu.symm⟩ hplace
      · exact fun hin => ⟨hin.1, .inl hin.2⟩
    simp only [setAt_of_ne hplace, h, hmem]

end SetAt

namespace View

/-- What goes to a file when a page is removed: a page that shows a file, is resident and was
written to is written back. -/
def writeBack? (V : View) (s : SpaceId) (vpn : VirtPage) : Option FileWrite := do
  let segment ← V.shared s vpn
  let frame ← V.frame s vpn
  let entry ← V.entry s vpn
  let backing ← V.files.backing? segment.backing
  let bytes ← (V.pool.load frame).toOption
  if entry.has .dirty then
    some ⟨backing.file, segment.offset, bytes.slice 0 segment.readBytes⟩
  else none

variable {U V W : View} {s : SpaceId} {vpn : VirtPage} {page : Page} {frame : Frame}
  {entry : PageTable.Entry} {bytes : PageBytes} {segment : Segment} {w : FileWrite}

theorem writeBack?_of_absent (hf : V.frame s vpn = none) : V.writeBack? s vpn = none := by
  unfold writeBack?
  rw [hf]
  cases V.shared s vpn <;> rfl

theorem writeBack?_of_private (hs : V.shared s vpn = none) : V.writeBack? s vpn = none := by
  unfold writeBack?
  rw [hs]
  rfl

theorem Resident.writeBack?_eq (h : V.Resident s vpn segment bytes entry) :
    V.writeBack? s vpn = (V.files.backing? segment.backing).bind fun backing =>
      if entry.has .dirty then
        some ⟨backing.file, segment.offset, bytes.slice 0 segment.readBytes⟩
      else none := by
  have hshared := h.shared_eq
  obtain ⟨page, frame, hp, -, hframe, hload⟩ := h.exists_page
  unfold writeBack?
  rw [hshared, frame_of_page hp, hframe, h.mapped]
  simp only [Option.bind_eq_bind, Option.bind_some, hload]
  rfl

/-- Only pages that are resident and dirty are written back. -/
theorem Consistent.writeBack?_eq_some_iff (h : V.Consistent) :
    V.writeBack? s vpn = some w ↔ ∃ segment bytes entry backing,
      V.Resident s vpn segment bytes entry ∧ entry.has .dirty = true ∧
        V.files.backing? segment.backing = some backing ∧
        w = ⟨backing.file, segment.offset, bytes.slice 0 segment.readBytes⟩ := by
  constructor
  · intro hw
    cases hshared : V.shared s vpn with
    | none =>
        rw [writeBack?_of_private hshared] at hw
        cases hw
    | some segment =>
        cases hframe : V.frame s vpn with
        | none =>
            rw [writeBack?_of_absent hframe] at hw
            cases hw
        | some frame =>
            obtain ⟨page, hp, hpage⟩ := Option.bind_eq_some_iff.mp hshared
            rw [frame_of_page hp] at hframe
            obtain ⟨bytes, entry, -, hresident⟩ := h.exists_resident hp hpage hframe
            rw [hresident.writeBack?_eq] at hw
            obtain ⟨backing, hopen, hdirty⟩ := Option.bind_eq_some_iff.mp hw
            by_cases hd : entry.has .dirty = true
            · rw [if_pos hd] at hdirty
              exact ⟨segment, bytes, entry, backing, hresident, hd, hopen,
                (Option.some.inj hdirty).symm⟩
            · rw [if_neg hd] at hdirty
              cases hdirty
  · rintro ⟨segment, bytes, entry, backing, hresident, hdirty, hopen, rfl⟩
    rw [hresident.writeBack?_eq, hopen, Option.bind_some, if_pos hdirty]

/-! ## One page -/

/-- What the removal of one page takes away. -/
structure Discards (V : View) (s : SpaceId) (vpn : VirtPage) (W : View) : Prop where
  page_eq : W.page = setAt V.page s vpn none
  entry_eq : W.entry = setAt V.entry s vpn none
  frames_eq : W.frames = (V.frame s vpn).elim V.frames V.frames.removeFrame
  memory_eq : W.pool.memory = V.pool.memory
  swap_eq : W.swap = (V.slot s vpn).toList.foldl SwapArea.cleared V.swap
  file?_eq : ∀ file, W.files.file? file =
    (V.writeBack? s vpn).toList.foldl (FileWrite.apply file) (V.files.file? file)
  recounted : V.files.Recounted W.files
  userSp_eq : W.userSp = V.userSp

/-- A page that loses its frame is written back. -/
theorem file?_savedIn (h : V.Consistent) (hp : V.page s vpn = some page)
    (hframe : page.frame = some frame) (hentry : V.entry s vpn = some entry)
    (hload : V.pool.load frame = .ok bytes) (file : FileId) :
    (page.kind.savedIn bytes (entry.has .dirty) V.files).file? file =
      (V.writeBack? s vpn).toList.foldl (FileWrite.apply file) (V.files.file? file) := by
  have hbare : V.shared s vpn = none →
      (page.kind.savedIn bytes (entry.has .dirty) V.files).file? file = V.files.file? file := by
    rw [shared_of_page hp]
    cases hkind : page.kind with
    | uninit touch => exact fun _ => rfl
    | anon slot => exact fun _ => rfl
    | file segment =>
        intro hnone
        rw [Page.shared?_of_kind hkind] at hnone
        cases hnone
  cases hshared : V.shared s vpn with
  | none =>
      rw [hbare hshared, writeBack?_of_private hshared]
      rfl
  | some segment =>
      rw [shared_of_page hp] at hshared
      obtain ⟨other, another, hother, hresident⟩ := h.exists_resident hp hshared hframe
      obtain rfl : bytes = other := Except.ok.inj (hload.symm.trans hother)
      obtain rfl : entry = another := Option.some.inj (hentry.symm.trans hresident.mapped)
      rw [PageKind.file?_savedIn (hresident.of_page hp).1, hresident.writeBack?_eq]
      cases hdirty : entry.has .dirty with
      | false => cases V.files.backing? segment.backing <;> rfl
      | true =>
          cases hopen : V.files.backing? segment.backing with
          | none =>
              rw [Segment.writeBack_of_closed hopen]
              rfl
          | some backing => exact Segment.file?_writeBack hopen bytes file

end View

/-- What the removal of a page does. -/
theorem Step.discards {V W : View} {s : SpaceId} {vpn : VirtPage}
    (hstep : Step (.discard s vpn) V W) (h : V.Consistent) :
    V.page s vpn ≠ none ∧ V.Discards s vpn W := by
  cases hstep with
  | @discardResident _ _ _ page frame entry bytes pool found resident mapped loaded freed =>
      refine ⟨by simp [found], rfl, rfl, ?_, FramePool.memory_of_release freed, ?_, fun file => ?_,
        ?_, rfl⟩
      · rw [View.frame_of_page found, resident]
        rfl
      · rw [h.not_slot_of_frame found resident]
        rfl
      · rw [← View.file?_savedIn h found resident mapped loaded]
        exact Page.file?_releasedIn page _ file
      · exact (page.kind.recounted_savedIn _ _ _).trans (page.recounted_releasedIn _)
  | @discardSlot _ _ _ page slot swap found absent inSlot freed =>
      have hframe : V.frame s vpn = none := (View.frame_of_page found).trans absent
      refine ⟨by simp [found], rfl, ?_, ?_, rfl, ?_, fun file => ?_, page.recounted_releasedIn _,
        rfl⟩
      · exact (setAt_eq_self ((h.settled found).of_none absent)).symm
      · rw [hframe]
        rfl
      · rw [View.slot_of_page found, inSlot]
        exact SwapArea.eq_cleared_of_release freed
      · rw [View.writeBack?_of_absent hframe]
        exact Page.file?_releasedIn page _ file
  | @discardBare _ _ _ page found absent bare =>
      have hframe : V.frame s vpn = none := (View.frame_of_page found).trans absent
      refine ⟨by simp [found], rfl, ?_, ?_, rfl, ?_, fun file => ?_, page.recounted_releasedIn _,
        rfl⟩
      · exact (setAt_eq_self ((h.settled found).of_none absent)).symm
      · rw [hframe]
        rfl
      · rw [View.slot_of_page found, bare]
        rfl
      · rw [View.writeBack?_of_absent hframe]
        exact Page.file?_releasedIn page _ file

/-! ## Several pages -/

namespace View

/-- What is left of a view when some pages of an address space are removed, one after another. -/
structure Removed (V : View) (s : SpaceId) (done : List VirtPage) (W : View) : Prop where
  nodup : done.Nodup
  registered : ∀ vpn ∈ done, V.page s vpn ≠ none
  page_eq : ∀ t u, W.page t u = if s = t ∧ u ∈ done then none else V.page t u
  entry_eq : ∀ t u, W.entry t u = if s = t ∧ u ∈ done then none else V.entry t u
  frames_eq : W.frames = V.frames.keeping fun e => ¬(e.space = s ∧ e.vpn ∈ done)
  memory_eq : W.pool.memory = V.pool.memory
  swap_eq : W.swap = (done.filterMap (V.slot s)).foldl SwapArea.cleared V.swap
  file?_eq : ∀ file, W.files.file? file =
    (done.filterMap (V.writeBack? s)).foldl (FileWrite.apply file) (V.files.file? file)
  recounted : V.files.Recounted W.files
  userSp_eq : W.userSp = V.userSp

variable {U V W : View} {s : SpaceId} {vpn : VirtPage} {done : List VirtPage}

theorem Removed.nil (V : View) (s : SpaceId) (hrests : V.frames.Rests) : V.Removed s [] V :=
  ⟨List.nodup_nil, by simp, by simp, by simp, by simpa using (keeping_all hrests).symm, rfl, rfl,
    fun _ => rfl, .refl _, rfl⟩

theorem Removed.page_of_not_mem (h : V.Removed s done W) (hvpn : vpn ∉ done) :
    W.page s vpn = V.page s vpn := by
  rw [h.page_eq, if_neg fun hin => hvpn hin.2]

theorem Removed.entry_of_not_mem (h : V.Removed s done W) (hvpn : vpn ∉ done) :
    W.entry s vpn = V.entry s vpn := by
  rw [h.entry_eq, if_neg fun hin => hvpn hin.2]

/-- What a page writes back does not depend on the pages that went before it, as long as its backing
is open. -/
theorem Removed.writeBack?_eq (h : V.Removed s done W) (hvpn : vpn ∉ done) (hn : W.files.Numbered)
    (hheld : ∀ id, W.Accounted id) : W.writeBack? s vpn = V.writeBack? s vpn := by
  have hpage := h.page_of_not_mem hvpn
  have hshared : W.shared s vpn = V.shared s vpn := by rw [shared, shared, hpage]
  have hframe : W.frame s vpn = V.frame s vpn := by rw [frame, frame, hpage]
  unfold writeBack?
  rw [hshared, hframe, h.entry_of_not_mem hvpn]
  cases hs : V.shared s vpn with
  | none => rfl
  | some segment =>
      obtain ⟨page, hp, hown⟩ := Option.bind_eq_some_iff.mp hs
      have hbacking : W.backing s vpn = some segment.backing :=
        (backing_of_page (hpage.trans hp)).trans (Page.backing?_of_shared? hown)
      obtain ⟨after, hafter⟩ :=
        (FileStore.refs_pos_iff hn).mp ((hheld segment.backing).refs_pos hbacking)
      obtain ⟨before, hbefore, hsame, -⟩ := h.recounted.exists_before hafter
      simp only [FramePool.load_of_memory_eq h.memory_eq, Option.bind_eq_bind, Option.bind_some,
        hbefore, hafter, hsame.file_eq]

/-- The entry of one more page leaves the frame table, if the page has one. -/
theorem Consistent.keeping_discard (h : V.Consistent) (hvpn : vpn ∉ done) :
    (V.frame s vpn).elim (V.frames.keeping fun e => ¬(e.space = s ∧ e.vpn ∈ done))
        (V.frames.keeping fun e => ¬(e.space = s ∧ e.vpn ∈ done)).removeFrame =
      V.frames.keeping fun e => ¬(e.space = s ∧ e.vpn ∈ done ++ [vpn]) := by
  have hplace : ∀ e ∈ V.frames.entries, e.space = s → e.vpn = vpn →
      V.frame s vpn = some e.frame := by
    rintro e he rfl rfl
    exact (h.listed e).mp he
  cases hframe : V.frame s vpn with
  | none =>
      refine keeping_congr fun e he => ?_
      by_cases hs : e.space = s
      · have hv : e.vpn ≠ vpn := fun hv => by simpa [hframe] using hplace e he hs hv
        simp [hs, hv]
      · simp [hs]
  | some frame =>
      have hmem : ⟨frame, s, vpn⟩ ∈ V.frames.entries := (h.listed ⟨frame, s, vpn⟩).mpr hframe
      refine (removeFrame_keeping h.frames_nodup hmem (by simp [hvpn])).trans
        (keeping_congr fun e he => ?_)
      by_cases hs : e.space = s
      · by_cases hv : e.vpn = vpn
        · have hf := hplace e he hs hv
          obtain rfl : frame = e.frame := Option.some.inj (hframe.symm.trans hf)
          have hsame : e = ⟨e.frame, s, vpn⟩ := by rw [← hs, ← hv]
          simp [← hsame, hs, hv]
        · have hne : e ≠ ⟨frame, s, vpn⟩ := fun heq => hv (by rw [heq])
          simp [hs, hv, hne]
      · have hne : e ≠ ⟨frame, s, vpn⟩ := fun heq => hs (by rw [heq])
        simp [hs, hne]

/-- One more page is removed. -/
theorem Removed.discard (h : V.Removed s done W) (hV : V.Consistent) (hn : W.files.Numbered)
    (hheld : ∀ id, W.Accounted id) (hfound : W.page s vpn ≠ none) (hgone : W.Discards s vpn U) :
    V.Removed s (done ++ [vpn]) U := by
  have hvpn : vpn ∉ done := fun hmem => hfound (by rw [h.page_eq, if_pos ⟨rfl, hmem⟩])
  have hpage := h.page_of_not_mem hvpn
  have hslot : W.slot s vpn = V.slot s vpn := by rw [slot, slot, hpage]
  have hframe : W.frame s vpn = V.frame s vpn := by rw [frame, frame, hpage]
  refine ⟨?_, ?_, ?_, ?_, ?_, hgone.memory_eq.trans h.memory_eq, ?_, fun file => ?_,
    h.recounted.trans hgone.recounted, hgone.userSp_eq.trans h.userSp_eq⟩
  · exact List.nodup_append.mpr ⟨h.nodup, by simp, by
      rintro u hu v hv rfl
      exact hvpn (List.mem_singleton.mp hv ▸ hu)⟩
  · intro u hu
    rcases List.mem_append.mp hu with hu | hu
    · exact h.registered u hu
    · obtain rfl := List.mem_singleton.mp hu
      exact hpage ▸ hfound
  · rw [hgone.page_eq]
    exact setAt_none_of_emptied h.page_eq vpn
  · rw [hgone.entry_eq]
    exact setAt_none_of_emptied h.entry_eq vpn
  · rw [hgone.frames_eq, h.frames_eq, hframe]
    exact hV.keeping_discard hvpn
  · rw [hgone.swap_eq, h.swap_eq, hslot, List.filterMap_append, List.foldl_append]
    cases hs : V.slot s vpn <;> simp [hs]
  · rw [hgone.file?_eq, h.file?_eq, h.writeBack?_eq hvpn hn hheld, List.filterMap_append,
      List.foldl_append]
    cases hs : V.writeBack? s vpn <;> simp [hs]

/-- Whatever pages are removed, they are removed in some order. -/
theorem removed_of_steps (hsteps : Steps (Deed.discarding s) V W) (hV : V.Consistent)
    (hn : V.files.Numbered) (hheld : ∀ id, V.Accounted id) (hrests : V.frames.Rests) :
    ∃ done, V.Removed s done W := by
  refine (hsteps.invariant (fun U => U.Consistent ∧ U.files.Numbered ∧
    (∀ id, U.Accounted id) ∧ ∃ done, V.Removed s done U) (fun d hd U U' hstep hU => ?_)
    ⟨hV, hn, hheld, [], .nil V s hrests⟩).2.2.2
  obtain ⟨hc, hn, hheld, done, hremoved⟩ := hU
  obtain ⟨vpn, rfl⟩ := hd
  obtain ⟨hfound, hgone⟩ := hstep.discards hc
  refine ⟨hstep.consistent hc, hstep.numbered hn, fun id => hstep.accounted hc hn ?_ ?_ (hheld id),
    _, hremoved.discard hV hn hheld hfound hgone⟩
  · rintro t page ⟨⟩
  · rintro own ⟨⟩

end View

end DemandPaging
