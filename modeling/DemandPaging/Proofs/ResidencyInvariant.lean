import DemandPaging.Proofs.Runs

/-! # The residency invariant

Between two requests, the frame table, the page tables, the registered pages and the frame pool
tell the same story: which pages are resident, and where.
-/

namespace DemandPaging.Machine

/-- A frame is listed with the page that occupies it, and the page is mapped to it. -/
structure Occupies (m : Machine) (e : FrameEntry) (page : Page) (entry : PageTable.Entry) :
    Prop where
  page_eq : m.page? e.space e.vpn = some page
  frame_eq : page.frame = some e.frame
  vpn_eq : page.vpn = e.vpn
  entry_eq : m.entryAt? e.space e.vpn = some entry
  mapped_eq : entry.frame = e.frame
  valid : entry.isValid = true
  writable_eq : entry.isWritable = page.writable

/-- The records of resident pages agree with each other. -/
structure Residency (m : Machine) : Prop where
  /-- The entries of the frame table stand for the resident pages, one for each. -/
  bijOn : Set.BijOn (fun e : FrameEntry => (e.space, e.vpn)) {e | e ∈ m.frames.entries}
    {x | ∃ page, m.page? x.1 x.2 = some page ∧ page.isResident = true}
  listed_once : m.frames.entries.Nodup
  occupied : ∀ e ∈ m.frames.entries, ∃ page entry, m.Occupies e page entry
  /-- Nothing else is mapped. -/
  mapped : ∀ s vpn entry, m.entryAt? s vpn = some entry →
    ∃ e ∈ m.frames.entries, e.space = s ∧ e.vpn = vpn
  frames_nodup : (m.frames.entries.map FrameEntry.frame).Nodup
  allocated_eq : m.pool.allocated = m.frames.size
  size_le : m.frames.size ≤ m.pool.total
  /-- A page is registered under its own number, and it is not resident before its first touch. -/
  registered : ∀ s vpn page, m.page? s vpn = some page →
    page.vpn = vpn ∧ vpn.number < userEnd / pageSize ∧
      (page.isResident = true → page.isUninit = false)

variable {m : Machine}

theorem Sound.occupies (h : m.Sound) {e : FrameEntry} (he : e ∈ m.frames.entries) :
    ∃ page entry, m.Occupies e page entry := by
  have hframe : (m.view [] []).frame e.space e.vpn = some e.frame := (h.consistent.listed e).mp he
  obtain ⟨page, hpage, hown⟩ := Option.bind_eq_some_iff.mp hframe
  obtain ⟨entry, hentry, hmapped, hvalid, hwritable⟩ := h.consistent.mapped hpage hown
  exact ⟨page, entry, hpage, hown, (h.consistent.settled hpage).vpn_eq, hentry, hmapped, hvalid,
    hwritable⟩

theorem Sound.mem_entries (h : m.Sound) {s : SpaceId} {vpn : VirtPage} {page : Page} {frame : Frame}
    (hpage : m.page? s vpn = some page) (hframe : page.frame = some frame) :
    ⟨frame, s, vpn⟩ ∈ m.frames.entries := by
  refine (h.consistent.listed ⟨frame, s, vpn⟩).mpr ?_
  exact (View.frame_of_page (V := m.view [] []) hpage).trans hframe

theorem Sound.residency (h : m.Sound) : m.Residency := by
  have hc := h.consistent
  have hlength : m.pool.allocated = m.frames.size := by
    have hallocated := hc.supplied.allocated
    rwa [List.length_append, List.length_map] at hallocated
  refine ⟨⟨fun e he => ?_, ?_, ?_⟩, hc.entries_nodup, fun e he => h.occupies he, ?_,
    hc.frames_nodup, hlength, ?_, ?_⟩
  · obtain ⟨page, entry, hocc⟩ := h.occupies he
    exact ⟨page, hocc.page_eq, by simp [Page.isResident, hocc.frame_eq]⟩
  · rintro ⟨f, s, vpn⟩ he ⟨g, t, u⟩ he' heq
    obtain ⟨rfl, rfl⟩ := Prod.mk.inj heq
    have hf := (hc.listed ⟨f, s, vpn⟩).mp he
    have hg := (hc.listed ⟨g, s, vpn⟩).mp he'
    obtain rfl : f = g := Option.some.inj (hf.symm.trans hg)
    rfl
  · rintro ⟨s, vpn⟩ ⟨page, hpage, hresident⟩
    obtain ⟨frame, hframe⟩ := Option.isSome_iff_exists.mp hresident
    exact ⟨⟨frame, s, vpn⟩, h.mem_entries hpage hframe, rfl⟩
  · intro s vpn entry hentry
    obtain ⟨page, hpage, hframe⟩ := hc.exists_page hentry
    exact ⟨⟨entry.frame, s, vpn⟩, h.mem_entries hpage hframe, rfl, rfl⟩
  · have hle := hc.supplied.length_le
    rwa [List.length_append, List.length_map] at hle
  · intro s vpn page hpage
    have hsettled := hc.settled hpage
    refine ⟨hsettled.vpn_eq, hsettled.in_user, fun hresident => ?_⟩
    by_contra huninit
    rw [Bool.not_eq_false] at huninit
    have hnone := Page.frame_of_isUninit hsettled.placed huninit
    simp [Page.isResident, hnone] at hresident

theorem Residency.allocated_eq_zero (h : m.Residency) (hdead : ∀ s, m.space? s = none) :
    m.pool.allocated = 0 := by
  rw [h.allocated_eq]
  refine List.length_eq_zero_iff.mpr (List.eq_nil_iff_forall_not_mem.mpr fun e he => ?_)
  obtain ⟨page, entry, hocc⟩ := h.occupied e he
  cases (page?_eq_none (hdead e.space) e.vpn).symm.trans hocc.page_eq

/-- Whatever requests a machine has served, and whether or not they succeeded, its records of
resident pages agree. The number of every frame fits into a page table entry: that bounds the
frames by the memory that the processor can address. -/
theorem residency_of_run {frames : ℕ} {disk : Disk} {files : FileStore}
    {requests : List (Visit × Op)} (hframes : frames ≤ PageTable.Entry.frameBound)
    (hrun : (boot frames disk files).run? requests = some m) :
    m.Residency ∧ ((∀ s, m.space? s = none) → m.pool.allocated = 0) :=
  have h := (sound_of_run hframes hrun).residency
  ⟨h, h.allocated_eq_zero⟩

/-- One frame serves two pages, and the first of them is evicted. -/
theorem residency_of_two_pages : ∃ m : Machine,
    (boot 1 (.zeroed 8) (.ofFiles #[])).run? ([.create, .setupStack 0,
      .alloc 0 ⟨pageSize⟩ true .zero .anon, .claim 0 ⟨pageSize⟩].map (Visit.ascending, ·)) =
        some m ∧
      m.Residency := by
  have hserved : ((boot 1 (.zeroed 8) (.ofFiles #[])).run? ([.create, .setupStack 0,
      .alloc 0 ⟨pageSize⟩ true .zero .anon,
      .claim 0 ⟨pageSize⟩].map (Visit.ascending, ·))).isSome = true := by
    decide +kernel
  obtain ⟨m, hrun⟩ := Option.isSome_iff_exists.mp hserved
  exact ⟨m, hrun, (residency_of_run (by decide) hrun).1⟩

end DemandPaging.Machine
