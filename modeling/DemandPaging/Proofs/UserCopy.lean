import DemandPaging.Proofs.Faulting

/-! # Copies from and to user memory

Each part of a copy accesses one page and then moves its bytes. Nothing can go wrong between the
access and the move, since the page stays mapped.
-/

namespace DemandPaging

/-! ## Parts of a range -/

namespace Chunk

variable {va : VirtAddr} {length : ℕ} {chunk : Chunk}

theorem mem_split (h : chunk ∈ Chunk.split va length) :
    ∃ number, chunk = ofPage va (va.val + length) number ∧ va.page.number ≤ number ∧
      number * pageSize < va.val + length := by
  unfold Chunk.split at h
  obtain ⟨number, hmem, rfl⟩ := List.mem_map.mp h
  rw [List.mem_range'_1] at hmem
  refine ⟨number, rfl, hmem.1, ?_⟩
  split at hmem
  · omega
  · have := Nat.div_mul_le_self (va.val + length - 1) pageSize
    simp only [pageSize] at this hmem ⊢
    omega

theorem page_lt_of_mem_split (hrange : isUserRange va length = true)
    (h : chunk ∈ Chunk.split va length) : chunk.page.number < userPages := by
  obtain ⟨number, rfl, -, hlt⟩ := mem_split h
  have hlength : length ≠ 0 := by
    rintro rfl
    simp [Chunk.split] at h
  have hlast : va.val + length - 1 < userEnd := by
    simp only [isUserRange, VirtAddr.isUser, Bool.and_eq_true, Bool.or_eq_true, beq_iff_eq,
      decide_eq_true_eq] at hrange
    rcases hrange.2 with hzero | hends
    · exact absurd hzero hlength
    · exact hends.2
  simp only [ofPage, userPages, userEnd, pageSize] at hlast hlt ⊢
  omega

end Chunk

namespace MachineM

variable {m : Machine} {s : SpaceId} {vpn : VirtPage} {held : List Frame} {pins : List BackingId}
  {page : Page} {sound : Prop} {write : Bool}

theorem userChunks_ends (va : VirtAddr) (length : ℕ) (m : Machine) :
    Ends sound (userChunks va length) m
      (fun chunks m' => m' = m ∧ chunks = Chunk.split va length ∧
        ∀ chunk ∈ chunks, chunk.page.number < userPages)
      fun e m' => e = .badAddress ∧ m' = m := by
  unfold userChunks
  split
  · next hrange =>
    exact Ends.pure ⟨rfl, rfl, fun chunk hc => Chunk.page_lt_of_mem_split hrange hc⟩
  · exact Ends.fail ⟨rfl, rfl⟩

/-! ## Single accesses -/

/-- The state of a page after an access. -/
def Accessed (m : Machine) (s : SpaceId) (vpn : VirtPage) (write : Bool) (frame : Frame) : Prop :=
  ∃ page entry, m.page? s vpn = some page ∧ page.frame = some frame ∧
    m.entryAt? s vpn = some entry ∧
    (write = true → entry.isWritable = true ∧ entry.has .dirty = true)

theorem isValid_of_entry {entry : PageTable.Entry} (h : (m.view held pins).Consistent)
    (hentry : m.entryAt? s vpn = some entry) : entry.isValid = true := by
  obtain ⟨page, hp, hframe⟩ := h.exists_page hentry
  obtain ⟨e, he, -, hvalid, -⟩ := h.mapped hp hframe
  obtain rfl := Option.some.inj (hentry.symm.trans he)
  exact hvalid

/-- An access of a mapped page passes if its permission allows it. -/
theorem access_ends {entry : PageTable.Entry} (h : (m.view [] pins).Consistent)
    (hentry : m.entryAt? s vpn = some entry)
    (hallowed : write = true → entry.isWritable = true) (attempts : ℕ) :
    Ends sound (accessPage s vpn write (attempts + 1)) m
      (fun frame m' => Step (.touch s vpn write) (m.view [] pins) (m'.view [] pins) ∧
        Accessed m' s vpn write frame)
      fun _ _ => False := by
  obtain ⟨space, hspace, hlookup⟩ := Machine.exists_space_of_entry? hentry
  have hvalid := isValid_of_entry h hentry
  obtain ⟨page, hp, hframe⟩ := h.exists_page hentry
  have hpass : (write && !entry.isWritable) = false := by simpa using hallowed
  have haccess := PageTable.access_of_some hlookup hvalid write
  rw [hpass, if_neg (by simp)] at haccess
  rw [accessPage]
  refine Ends.bind_ok (space_of_some hspace) ?_
  rw [haccess]
  have hview := Machine.view_putTable hspace
    (fun u => space.table.lookup?_insert vpn u (entry.marked write)) [] pins
  refine Ends.of_ok rfl ⟨?_, page, entry.marked write, ?_, hframe, ?_, ?_⟩
  · change Step _ _ ((m.setSpace s _).view [] pins)
    rw [hview]
    exact Step.touch hentry hallowed
  · exact (congrFun (congrFun (congrArg View.page hview) s) vpn).trans hp
  · exact (congrFun (congrFun (congrArg View.entry hview) s) vpn).trans setAt_same
  · rintro rfl
    refine ⟨(entry.sameMapping_marked true).writable_eq.trans (hallowed rfl), ?_⟩
    simp [PageTable.Entry.marked, PageTable.Entry.has_put]

theorem access_of_accessible (h : (m.view [] pins).Consistent)
    (haccessible : Accessible m s vpn write) (attempts : ℕ) :
    Ends sound (accessPage s vpn write (attempts + 1)) m
      (fun frame m' => Step (.touch s vpn write) (m.view [] pins) (m'.view [] pins) ∧
        Accessed m' s vpn write frame)
      fun _ _ => False := by
  obtain ⟨page, hp, hresident, hwritable⟩ := haccessible
  obtain ⟨frame, hframe⟩ := Option.ne_none_iff_exists'.mp hresident
  obtain ⟨entry, hentry, -, -, hsame⟩ := h.mapped hp hframe
  exact access_ends h hentry (fun hw => hsame.trans (hwritable hw)) attempts

/-- The fault that an access of a page raises if it finds the page missing: it tells where the page
starts, not which byte of it was asked for. -/
def accessFault (vpn : VirtPage) (write : Bool) : PageFault :=
  ⟨vpn.start.val, write, false, true⟩

/-- The fault of an access is refused if the page is registered but must not be written. -/
theorem refuses_accessFault {space : Space} (hspace : m.space? s = some space)
    (hin : vpn.number < userPages) (write : Bool) :
    Refuses m s (accessFault vpn write) ↔
      match m.page? s vpn with
      | some page => write = true ∧ page.writable = false
      | none => space.isStackAccess vpn.start = false := by
  have hpage := (VirtPage.start_of_lt hin).2
  have huser := VirtPage.isUser_start hin
  have hat : space.pageAt? vpn.start = m.page? s vpn := by
    rw [Space.pageAt?, hpage, Machine.page?_of_space? hspace]
  rw [refuses_iff hspace]
  change (!vpn.start.isUser || !true || match space.pageAt? vpn.start with
    | some page => write && !page.writable
    | none => !space.isStackAccess vpn.start) = true ↔ _
  rw [huser, hat]
  cases m.page? s vpn with
  | none => simp
  | some page => simp

theorem userFrame_of_mapped {entry : PageTable.Entry} (h : (m.view [] pins).Consistent)
    (hentry : m.entryAt? s vpn = some entry) (write : Bool) :
    Ends sound (userFrame s vpn write) m
      (fun frame m' => (write = true → entry.isWritable = true) ∧
        Step (.touch s vpn write) (m.view [] pins) (m'.view [] pins) ∧
        Accessed m' s vpn write frame)
      fun e m' => e = .badAddress ∧ ¬(write = true → entry.isWritable = true) ∧
        m'.view [] pins = m.view [] pins := by
  by_cases hallowed : write = true → entry.isWritable = true
  · refine (access_ends h hentry hallowed 1).mono ?_ fun _ _ hf => hf.elim
    exact fun frame m' hdone => ⟨hallowed, hdone⟩
  · obtain ⟨space, hspace, hlookup⟩ := Machine.exists_space_of_entry? hentry
    have hvalid := isValid_of_entry h hentry
    have hdenied : (write && !entry.isWritable) = true := by simpa using hallowed
    unfold userFrame accessAttempts
    rw [accessPage]
    refine Ends.bind_ok (space_of_some hspace) ?_
    rw [PageTable.access_of_some hlookup hvalid, hdenied, if_pos rfl]
    exact Ends.emit _ [] pins fun m₁ hview => Ends.fail ⟨rfl, hallowed, hview⟩

theorem userFrame_of_missing {space : Space} (hspace : m.space? s = some space)
    (hentry : m.entryAt? s vpn = none) (write : Bool) :
    userFrame s vpn write m =
      (do handleFault s (accessFault vpn write); accessPage s vpn write 1) m := by
  have hlookup := (Machine.entryAt?_of_space? hspace vpn).symm.trans hentry
  unfold userFrame accessAttempts
  rw [accessPage, bind_of_ok (space_of_some hspace), PageTable.access_of_none hlookup]
  rfl

theorem userFrame_of_fault {resolved : Unit → Machine → Prop} {ok : Frame → Machine → Prop}
    {failed : Errno → Machine → Prop} (hlive : sound → (m.view [] pins).Live s)
    (hentry : m.entryAt? s vpn = none)
    (hfault : Ends sound (handleFault s (accessFault vpn write)) m resolved failed)
    (hretry : ∀ m₁, resolved () m₁ → Ends sound (accessPage s vpn write 1) m₁ ok failed) :
    Ends sound (userFrame s vpn write) m ok failed := by
  unfold userFrame accessAttempts
  rw [accessPage]
  refine Ends.space hlive fun space hspace => ?_
  rw [PageTable.access_of_none ((Machine.entryAt?_of_space? hspace vpn).symm.trans hentry)]
  exact hfault.bind fun _ => hretry

theorem userFrame_of_registered (hp : m.page? s vpn = some page) (hentry : m.entryAt? s vpn = none)
    (hin : vpn.number < userPages) (hallowed : write = true → page.writable = true) :
    userFrame s vpn write m =
      (do claim s vpn; accessPage s vpn write 1) (m.told (accessFault vpn write)) := by
  obtain ⟨space, hspace, -⟩ := Machine.exists_space_of_page? hp
  have hpage : VirtAddr.page ⟨(accessFault vpn write).addr⟩ = vpn := (VirtPage.start_of_lt hin).2
  have hfault : handleFault s (accessFault vpn write) m = _ :=
    handleFault_of_registered (by rwa [hpage]) (VirtPage.isUser_start hin) rfl hallowed
  rw [hpage] at hfault
  rw [userFrame_of_missing hspace hentry]
  simp only [Bind.bind, EStateM.bind, hfault]

/-- An access of a user page is settled after at most one fault. -/
theorem userFrame_ends (h : (m.view [] pins).Consistent) (hpos : sound → 0 < m.pool.total)
    (hlive : sound → (m.view [] pins).Live s) (hin : vpn.number < userPages) (write : Bool) :
    Ends sound (userFrame s vpn write) m
      (fun frame m' => ¬Refuses m s (accessFault vpn write) ∧
        Steps (Deed.reaching s vpn) (m.view [] pins) (m'.view [] pins) ∧
        Accessed m' s vpn write frame)
      fun e m' => (e = .badAddress ↔ Refuses m s (accessFault vpn write)) ∧
        Steps (Deed.reaching s vpn) (m.view [] pins) (m'.view [] pins) := by
  have hreaching : Deed.touch s vpn write ∈ Deed.reaching s vpn := .inr ⟨write, rfl⟩
  cases hentry : m.entryAt? s vpn with
  | some entry =>
      obtain ⟨page, hp, hframe⟩ := h.exists_page hentry
      obtain ⟨space, hspace, hat⟩ := Machine.exists_space_of_page? hp
      have hwritable := ((h.settled hp).mapped entry hentry).2
      have hrefuses := refuses_accessFault hspace hin write
      rw [show m.page? s vpn = some page from hp] at hrefuses
      simp only [← hwritable] at hrefuses
      rw [hrefuses]
      refine (userFrame_of_mapped h hentry write).mono ?_ ?_
      · rintro frame m' ⟨hallowed, hstep, haccessed⟩
        refine ⟨fun hdenied => ?_, Steps.single hstep hreaching, haccessed⟩
        simp [hallowed hdenied.1] at hdenied
      · rintro e m' ⟨rfl, hdenied, hview⟩
        exact ⟨by simpa using hdenied, Steps.of_eq hview⟩
  | none =>
      have hfault := handleFault_ends h hpos hlive (accessFault vpn write)
      rw [show VirtAddr.page ⟨(accessFault vpn write).addr⟩ = vpn from
        (VirtPage.start_of_lt hin).2] at hfault
      refine userFrame_of_fault hlive hentry (hfault.mono (fun _ _ ha => ha) ?_) ?_
      · exact fun _ _ hf => ⟨hf.1, hf.2.mono (Deed.resolving_subset_reaching s vpn)⟩
      rintro m₁ ⟨hrefuses, hsteps, haccessible⟩
      refine (access_of_accessible (hsteps.consistent h) haccessible 0).mono ?_
        fun _ _ hf => hf.elim
      rintro frame m' ⟨hstep, haccessed⟩
      have hsteps' := hsteps.mono (Deed.resolving_subset_reaching s vpn)
      exact ⟨hrefuses, hsteps'.tail hstep hreaching, haccessed⟩

/-! ## Copies -/

/-- What a request on an address space starts from. -/
structure Ready (sound : Prop) (m : Machine) (s : SpaceId) (pins : List BackingId) : Prop where
  consistent : (m.view [] pins).Consistent
  total_pos : sound → 0 < m.pool.total
  live : sound → (m.view [] pins).Live s

theorem Ready.steps {deeds : Set Deed} {m' : Machine} (h : Ready sound m s pins)
    (hsteps : Steps deeds (m.view [] pins) (m'.view [] pins))
    (hd : ∀ d ∈ deeds, d.KeepsSpaces) : Ready sound m' s pins := by
  refine ⟨hsteps.consistent h.consistent, fun hs => ?_, fun hs => ?_⟩
  · have htotal : m'.pool.total = m.pool.total := hsteps.total_eq
    rw [htotal]
    exact h.total_pos hs
  · have huser : m'.userSp? = m.userSp? := (hsteps.spaces_eq hd).1
    change m'.userSp? s ≠ none
    rw [huser]
    exact h.live hs

theorem keepsSpaces_of_faulting {d : Deed} (hd : d ∈ Deed.faulting s) : d.KeepsSpaces := by
  rcases hd with hd | ⟨vpn, rfl⟩ | ⟨vpn, rfl⟩
  · cases d <;> trivial
  · trivial
  · trivial

theorem keepsSpaces_of_accessing {d : Deed} (hd : d ∈ Deed.accessing s) : d.KeepsSpaces := by
  rcases hd with hd | ⟨vpn, write, rfl⟩
  · exact keepsSpaces_of_faulting hd
  · trivial

theorem ne_store_of_accessing {d : Deed} (hd : d ∈ Deed.accessing s) (t : SpaceId)
    (vpn : VirtPage) : d ≠ .store t vpn := by
  rintro rfl
  rcases hd with (hd | ⟨u, hu⟩ | ⟨u, hu⟩) | ⟨u, write, hu⟩
  · exact hd
  · cases hu
  · cases hu
  · cases hu

theorem ne_discard_of_accessing {d : Deed} (hd : d ∈ Deed.accessing s) (t : SpaceId)
    (vpn : VirtPage) : d ≠ .discard t vpn := by
  rintro rfl
  rcases hd with (hd | ⟨u, hu⟩ | ⟨u, hu⟩) | ⟨u, write, hu⟩
  · exact hd
  · cases hu
  · cases hu
  · cases hu

theorem keepsSpaces_of_writing {d : Deed} (hd : d ∈ Deed.writing s) : d.KeepsSpaces := by
  rcases hd with hd | ⟨vpn, rfl⟩
  · exact keepsSpaces_of_accessing hd
  · trivial

theorem accessed_load {frame : Frame} (h : (m.view held pins).Consistent)
    (ha : Accessed m s vpn write frame) :
    frame < m.pool.total ∧ ∃ bytes, m.pool.load frame = .ok bytes := by
  obtain ⟨page, entry, hp, hframe, -⟩ := ha
  have hlt := h.frame_lt hp hframe
  exact ⟨hlt, FramePool.load_of_lt hlt⟩

theorem tryFrame_ends (h : Ready sound m s pins) (hin : vpn.number < userPages) (write : Bool) :
    Ends sound (attempt (userFrame s vpn write)) m
      (fun result m' => Steps (Deed.accessing s) (m.view [] pins) (m'.view [] pins) ∧
        ∀ frame, result = .ok frame → Accessed m' s vpn write frame)
      fun _ _ => False := by
  refine Ends.attempt ((userFrame_ends h.consistent h.total_pos h.live hin write).mono ?_ ?_)
  · rintro frame m' ⟨-, hsteps, haccessed⟩
    refine ⟨hsteps.mono (Deed.reaching_subset_accessing s _), fun f hf => ?_⟩
    rwa [← Except.ok.inj hf]
  · rintro e m' ⟨-, hsteps⟩
    exact ⟨hsteps.mono (Deed.reaching_subset_accessing s _), fun f hf => by cases hf⟩

section Reads

variable {chunk : Chunk} {chunks : List Chunk} {buffer : Bytes} {m₁ : Machine}

theorem readChunks_of_ok {frame : Frame} {bytes : PageBytes}
    (h : userFrame s chunk.page false m = .ok frame m₁) (hload : m₁.pool.load frame = .ok bytes) :
    readChunks s (chunk :: chunks) buffer m =
      readChunks s chunks (buffer.overlay chunk.position (bytes.slice chunk.offset chunk.length))
        m₁ := by
  simp only [readChunks, attempt, Bind.bind, EStateM.bind, h, loadFrame_of_ok hload]

theorem readChunks_of_failed {e : Errno}
    (h : userFrame s chunk.page false m = .error (.failed e) m₁) :
    readChunks s (chunk :: chunks) buffer m = .ok (buffer, some e) m₁ := by
  simp only [readChunks, attempt, Bind.bind, EStateM.bind, h]
  rfl

theorem readChunks_of_panicked {p : Panic}
    (h : userFrame s chunk.page false m = .error (.panicked p) m₁) :
    readChunks s (chunk :: chunks) buffer m = .error (.panicked p) m₁ := by
  simp only [readChunks, attempt, Bind.bind, EStateM.bind, h]

/-- What a read keeps from part to part holds where it stops: at the end of the range, or at the
first page that cannot be accessed. The parts that are left and the buffer so far may be named. -/
theorem readChunks_of_invariant (pins : List BackingId)
    (inv : List Chunk → Bytes → Machine → Prop)
    {stopped : Bytes × Option Errno → Machine → Prop} (h : inv chunks buffer m)
    (hend : ∀ {buffer m}, inv [] buffer m → stopped (buffer, none) m)
    (hpart : ∀ {chunk chunks buffer m}, inv (chunk :: chunks) buffer m →
      Ends sound (userFrame s chunk.page false) m
        (fun frame m' => (m'.view [] pins).Consistent ∧ Accessed m' s chunk.page false frame ∧
          ∀ bytes, m'.pool.load frame = .ok bytes →
            inv chunks (buffer.overlay chunk.position (bytes.slice chunk.offset chunk.length)) m')
        fun e m' => stopped (buffer, some e) m') :
    Ends sound (readChunks s chunks buffer) m stopped fun _ _ => False := by
  induction chunks generalizing m buffer with
  | nil => exact Ends.pure (hend h)
  | cons chunk chunks ih =>
      have haccess := hpart h
      cases hresult : userFrame s chunk.page false m with
      | ok frame m₁ =>
          obtain ⟨h₁, haccessed, hnext⟩ := haccess.ok_of_eq hresult
          obtain ⟨-, bytes, hload⟩ := accessed_load h₁ haccessed
          exact Ends.of_eq (readChunks_of_ok hresult hload) (ih (hnext bytes hload))
      | error stop m₁ =>
          cases stop with
          | failed e =>
              exact Ends.of_ok (readChunks_of_failed hresult) (haccess.failed_of_eq hresult)
          | panicked p =>
              exact Ends.of_panicked (readChunks_of_panicked hresult)
                (haccess.panicked_of_eq hresult)

/-- A read that has found its pages cannot fail; one that has not reports it. -/
theorem readChunks_ends (h : Ready sound m s pins)
    (hin : ∀ chunk ∈ chunks, chunk.page.number < userPages) (buffer : Bytes) :
    Ends sound (readChunks s chunks buffer) m
      (fun _ m' => Steps (Deed.accessing s) (m.view [] pins) (m'.view [] pins))
      fun _ _ => False := by
  refine readChunks_of_invariant pins (fun rest _ m' =>
    Steps (Deed.accessing s) (m.view [] pins) (m'.view [] pins) ∧
      ∀ chunk ∈ rest, chunk.page.number < userPages) ⟨Steps.refl _, hin⟩ And.left ?_
  rintro chunk rest buffer m₁ ⟨hsteps, hin⟩
  obtain ⟨hfirst, hrest⟩ := List.forall_mem_cons.mp hin
  have h₁ := h.steps hsteps fun d hd => keepsSpaces_of_accessing hd
  have hmore : ∀ {m₂ : Machine}, Steps (Deed.reaching s chunk.page) (m₁.view [] pins)
      (m₂.view [] pins) → Steps (Deed.accessing s) (m.view [] pins) (m₂.view [] pins) :=
    fun hmore => hsteps.trans (hmore.mono (Deed.reaching_subset_accessing s _))
  refine (userFrame_ends h₁.consistent h₁.total_pos h₁.live hfirst false).mono ?_ ?_
  · rintro frame m₂ ⟨-, hsteps₁, haccessed⟩
    exact ⟨hsteps₁.consistent h₁.consistent, haccessed, fun _ _ => ⟨hmore hsteps₁, hrest⟩⟩
  · exact fun _ _ hf => hmore hf.2

end Reads

theorem tryChunks_ends (va : VirtAddr) (length : ℕ) (m : Machine) :
    Ends sound (attempt (userChunks va length)) m
      (fun result m' => m' = m ∧ ∀ chunks, result = .ok chunks →
        ∀ chunk ∈ chunks, chunk.page.number < userPages)
      fun _ _ => False := by
  refine Ends.attempt ((userChunks_ends va length m).mono ?_ ?_)
  · rintro chunks m' ⟨rfl, -, hin⟩
    refine ⟨rfl, fun c hc => ?_⟩
    rwa [← Except.ok.inj hc]
  · rintro e m' ⟨-, rfl⟩
    exact ⟨rfl, fun c hc => by cases hc⟩

theorem readUser_ends (h : Ready sound m s pins) (va : VirtAddr) (buffer : Bytes) :
    Ends sound (readUser s va buffer) m
      (fun _ m' => Steps (Deed.accessing s) (m.view [] pins) (m'.view [] pins))
      fun _ _ => False := by
  unfold readUser
  refine (tryChunks_ends va buffer.size m).bind ?_
  rintro result m₁ ⟨rfl, hin⟩
  cases result with
  | error e => exact Ends.pure (Steps.refl _)
  | ok chunks => exact readChunks_ends h (hin chunks rfl) buffer

theorem exists_store_of_accessed {frame : Frame} (h : (m.view [] pins).Consistent) (chunk : Chunk)
    (ha : Accessed m s chunk.page true frame) (data : Bytes) :
    ∃ page bytes pool, m.page? s chunk.page = some page ∧ page.frame = some frame ∧
      m.pool.load frame = .ok bytes ∧
      m.pool.store frame (bytes.overlay chunk.offset (data.slice chunk.position chunk.length)) =
        .ok pool ∧
      Step (.store s chunk.page) (m.view [] pins) { m.view [] pins with pool } := by
  obtain ⟨hlt, bytes, hload⟩ := accessed_load h ha
  obtain ⟨page, entry, hp, hframe, hentry, hwrite⟩ := ha
  obtain ⟨hallowed, hdirty⟩ := hwrite rfl
  obtain ⟨pool, hstore⟩ := FramePool.store_of_lt hlt
    (bytes.overlay chunk.offset (data.slice chunk.position chunk.length))
  exact ⟨page, bytes, pool, hp, hframe, hload, hstore,
    Step.store hp hframe hentry hallowed hdirty hstore⟩

/-- How a part of the data is written: its page is accessed, and then its frame is stored to. -/
def Written (s : SpaceId) (data : Bytes) (chunk : Chunk) (pins : List BackingId)
    (m m' : Machine) : Prop :=
  ∃ (m₁ : Machine) (page : Page) (frame : Frame) (bytes : PageBytes) (pool : FramePool),
    Steps (Deed.reaching s chunk.page) (m.view [] pins) (m₁.view [] pins) ∧
    Step (.store s chunk.page) (m₁.view [] pins) (m'.view [] pins) ∧
    m₁.page? s chunk.page = some page ∧ page.frame = some frame ∧
    m₁.pool.load frame = .ok bytes ∧
    m₁.pool.store frame (bytes.overlay chunk.offset (data.slice chunk.position chunk.length)) =
      .ok pool ∧
    m'.view [] pins = { m₁.view [] pins with pool }

theorem Written.steps {data : Bytes} {chunk : Chunk} {m' : Machine}
    (h : Written s data chunk pins m m') :
    Steps (Deed.writing s) (m.view [] pins) (m'.view [] pins) := by
  obtain ⟨m₁, page, frame, bytes, pool, hsteps, hstep, -⟩ := h
  refine (hsteps.mono fun d hd => ?_).tail hstep (.inr ⟨chunk.page, rfl⟩)
  exact .inl (Deed.reaching_subset_accessing s chunk.page hd)

theorem writeChunk_of_userFrame {chunk : Chunk} {failed : Errno → Machine → Prop}
    (h : (m.view [] pins).Consistent) (data : Bytes)
    (hends : Ends sound (userFrame s chunk.page true) m
      (fun frame m' => Steps (Deed.reaching s chunk.page) (m.view [] pins) (m'.view [] pins) ∧
        Accessed m' s chunk.page true frame) failed) :
    Ends sound (writeChunk s data chunk) m (fun _ m' => Written s data chunk pins m m') failed := by
  unfold writeChunk
  refine hends.bind ?_
  rintro frame m₁ ⟨hsteps, haccessed⟩
  obtain ⟨page, bytes, pool, hp, hframe, hload, hstore, hstep⟩ :=
    exists_store_of_accessed (hsteps.consistent h) chunk haccessed data
  refine Ends.bind_ok (loadFrame_of_ok hload) (Ends.of_ok (storeFrame_of_ok hstore) ?_)
  exact ⟨m₁, page, frame, bytes, pool, hsteps, hstep, hp, hframe, hload, hstore, rfl⟩

theorem writeChunk_ends (h : Ready sound m s pins) (data : Bytes) {chunk : Chunk}
    (hin : chunk.page.number < userPages) :
    Ends sound (writeChunk s data chunk) m (fun _ m' => Written s data chunk pins m m')
      fun _ m' => Steps (Deed.reaching s chunk.page) (m.view [] pins) (m'.view [] pins) := by
  refine writeChunk_of_userFrame h.consistent data ?_
  exact (userFrame_ends h.consistent h.total_pos h.live hin true).mono (fun _ _ hok => hok.2)
    fun _ _ hf => hf.2

theorem writeUser_ends (h : Ready sound m s pins) (va : VirtAddr) (data : Bytes) :
    Ends sound (writeUser s va data) m
      (fun _ m' => Steps (Deed.writing s) (m.view [] pins) (m'.view [] pins))
      fun _ m' => Steps (Deed.writing s) (m.view [] pins) (m'.view [] pins) := by
  unfold writeUser
  refine ((userChunks_ends va data.size m).mono (fun _ _ ha => ha) ?_).bind ?_
  · rintro e m' ⟨-, rfl⟩
    exact Steps.refl _
  rintro chunks m₁ ⟨rfl, -, hin⟩
  refine Ends.forM (fun chunk hc m₂ hsteps => ?_) (Steps.refl _)
  have hready := h.steps hsteps fun d hd => keepsSpaces_of_writing hd
  refine (writeChunk_ends hready data (hin chunk hc)).mono ?_ ?_
  · exact fun _ _ hwritten => hsteps.trans hwritten.steps
  · exact fun _ _ hmore => hsteps.trans
      (hmore.mono fun d hd => .inl (Deed.reaching_subset_accessing s _ hd))

end MachineM

end DemandPaging
