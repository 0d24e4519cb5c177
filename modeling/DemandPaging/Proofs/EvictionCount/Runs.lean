import DemandPaging.Proofs.EvictionCount.FirstTouches

/-! # Counting evictions

A page is evicted exactly when a page comes into a frame and none is free, be it claimed or copied.
So the first touches of pages of zeros evict as many pages as there are too few frames for them.
-/

namespace DemandPaging.Machine

variable {m : Machine} {frames : ℕ} {disk : Disk} {files : FileStore}

/-- When pages are evicted, and how many. -/
structure CountsEvictions (m : Machine) : Prop where
  /-- A claim evicts a page if its own is not resident and no frame is free. -/
  claims : ∀ s vpn m', MachineM.Leads (MachineM.claim s vpn) m m' → m.CountsClaim s vpn m'
  /-- A copy evicts as many pages as there are too few free frames for the touched ones. -/
  copies : ∀ visit (op : Op) s reply m', op.CopiesFrom s → op.execBy visit m = .ok reply m' →
    m.CountsCopy s m'
  failedCopies : ∀ visit (op : Op) s e m', op.CopiesFrom s →
    op.execBy visit m = .error (.failed e) m' → m.CountsFailedCopy s m'
  /-- Faults, accesses and whatever else claims pages evict for these claims alone. -/
  requests : ∀ visit op s m', op.Claims s → m.step? visit op = some m' →
    ∃ evicted, MachineM.ByClaims s m evicted m' ∧
      m'.stats.evictions = m.stats.evictions + evicted
  others : ∀ visit op m', (∀ s, ¬op.Claims s) → (∀ s, ¬op.CopiesFrom s) →
    m.step? visit op = some m' → m'.stats.evictions = m.stats.evictions

theorem Sound.countsEvictions (h : m.Sound) : m.CountsEvictions := by
  refine ⟨fun s vpn m' hleads => ?_, fun visit op s reply m' hcopies hexec => ?_,
    fun visit op s e m' hcopies hexec => ?_, fun visit op s m' hclaims hstep => ?_,
    fun visit op m' hclaims hcopies hstep => ?_⟩
  · exact MachineM.countsClaim_of_leads h.consistent hleads
  · exact (h.copies_count hcopies).ok_of_eq hexec
  · exact (h.copies_count hcopies).failed_of_eq hexec
  · obtain ⟨evicted, hby⟩ := h.claims_through hclaims hstep
    exact ⟨evicted, hby, hby.evictions_eq⟩
  · exact h.evictions_eq hclaims hcopies hstep

/-- What the machine counts after so many pages of zeros were touched, each for the first time. -/
structure CountsTouches (frames count : ℕ) (m : Machine) : Prop where
  resident_eq : m.stats.resident = min frames count
  evictions_eq : m.stats.evictions = count - frames
  slotsInUse_eq : m.stats.slotsInUse = count - frames

/-- In a new address space the first touches of any number of pages of zeros succeed, if there are
slots enough, and evict as many pages as there are too few frames. -/
theorem firstTouches_run {writable : VirtPage → Bool} {ops : List Op} {count : ℕ}
    (hframes : frames ≤ PageTable.Entry.frameBound) (hpos : 0 < frames) (visit : Visit)
    (hops : Op.FirstTouches writable [] [] ops count)
    (hslots : count ≤ frames + (SwapArea.onDisk disk).slotCount) :
    ∃ m, (boot frames disk files).run? ((.create :: ops).map (visit, ·)) = some m ∧
      CountsTouches frames count m := by
  obtain ⟨m₁, hcreate, h₁, hlist, hpool, hswap⟩ :=
    populated_create hframes disk files visit writable
  have htotal : m₁.pool.total = frames := by
    rw [hpool]
    exact Array.size_replicate
  have hsize : m₁.frames.size = 0 := by
    rw [hlist]
    rfl
  have hevictions : m₁.frames.evictions = 0 := by
    rw [hlist]
    rfl
  obtain ⟨m, hrun, hbrings, hused⟩ := h₁.run hops visit (htotal.symm ▸ hpos) (by
    rwa [List.length_nil, Nat.zero_add, htotal, hswap])
  have hresident := hbrings.size_eq
  have hcount := hbrings.evictions_eq
  rw [htotal, hsize] at hresident hcount
  rw [hevictions] at hcount
  rw [List.length_nil] at hused
  refine ⟨m, ?_, ?_, ?_, ?_⟩
  · rw [List.map_cons, run?_cons, hcreate, Option.bind_some, hrun]
  · rw [← Nat.zero_add count]
    exact hresident
  · have hcount' : m.stats.evictions = 0 + (count - (frames - 0)) := hcount
    omega
  · have hused' : m.stats.slotsInUse = m.swap.used := rfl
    omega

/-- In every machine that was booted with a frame and served requests, claims and copies evict as
many pages as there are too few free frames for those that come into one, and nothing else evicts
any. In a new address space the first touches of any number of pages of zeros evict those for which
there are too few frames, and so many slots are in use then. -/
theorem countsEvictions_of_run {requests : List (Visit × Op)}
    (hframes : frames ≤ PageTable.Entry.frameBound) (hpos : 0 < frames)
    (hrun : (boot frames disk files).run? requests = some m) :
    m.CountsEvictions ∧
      ∀ visit writable ops count, Op.FirstTouches writable [] [] ops count →
        count ≤ frames + (SwapArea.onDisk disk).slotCount →
        ∃ m₁, (boot frames disk files).run? ((.create :: ops).map (visit, ·)) = some m₁ ∧
          CountsTouches frames count m₁ :=
  ⟨(sound_of_run hframes hrun).countsEvictions, fun visit _ _ _ hops hslots =>
    firstTouches_run hframes hpos visit hops hslots⟩

/-- Of two pages that are touched one after the other in a single frame, the first is evicted. -/
theorem countsEvictions_of_two : ∃ m m₁ m' : Machine,
    (boot 1 (.zeroed 8) (.ofFiles #[])).run? ([.create, .alloc 0 ⟨pageSize⟩ true .zero .anon,
      .alloc 0 ⟨2 * pageSize⟩ true .zero .anon, .claim 0 ⟨pageSize⟩].map
        (Visit.ascending, ·)) = some m ∧
      MachineM.claim 0 ⟨2⟩ m = .ok () m' ∧ m.CountsClaim 0 ⟨2⟩ m' ∧
      m.evictedFor 0 ⟨2⟩ = 1 ∧
      (boot 1 (.zeroed 8) (.ofFiles #[])).run? ([.create, .alloc 0 ⟨pageSize⟩ true .zero .anon,
        .alloc 0 ⟨2 * pageSize⟩ true .zero .anon, .claim 0 ⟨pageSize⟩,
        .claim 0 ⟨2 * pageSize⟩].map (Visit.ascending, ·)) = some m₁ ∧
      CountsTouches 1 2 m₁ := by
  have hserved : ((boot 1 (.zeroed 8) (.ofFiles #[])).run? ([.create,
      .alloc 0 ⟨pageSize⟩ true .zero .anon, .alloc 0 ⟨2 * pageSize⟩ true .zero .anon,
      .claim 0 ⟨pageSize⟩].map (Visit.ascending, ·))).any (fun m =>
        decide (m.evictedFor 0 ⟨2⟩ = 1) && (m.page? 0 ⟨2⟩).isSome &&
          (m.answer? .ascending (.claim 0 ⟨2 * pageSize⟩)).isSome) = true := by
    decide +kernel
  simp only [Option.any_eq_true, Bool.and_eq_true, decide_eq_true_eq, Option.isSome_iff_exists]
    at hserved
  obtain ⟨m, hrun, ⟨hevicted, page, hpage⟩, ⟨reply, m'⟩, hanswer⟩ := hserved
  have hexec := execBy_of_answer? hanswer
  have hat : VirtAddr.page ⟨2 * pageSize⟩ = ⟨2⟩ := by decide
  have hclaim : ∃ m', MachineM.claim 0 ⟨2⟩ m = .ok () m' := by
    have hsame : MachineM.claimAt 0 ⟨2 * pageSize⟩ m =
        MachineM.claim 0 (VirtAddr.page ⟨2 * pageSize⟩) m :=
      MachineM.claimAt_of_registered (by rwa [hat])
    rw [hat] at hsame
    cases hclaim : MachineM.claim 0 ⟨2⟩ m with
    | ok done m₁ => exact ⟨m₁, rfl⟩
    | error stop m₁ =>
        simp only [Op.execBy, MachineM.bind_of_error (hsame.trans hclaim)] at hexec
        cases hexec
  obtain ⟨m', hclaim⟩ := hclaim
  have htouches : Op.FirstTouches (fun _ => true) [] []
      [.alloc 0 ⟨pageSize⟩ true .zero .anon, .alloc 0 ⟨2 * pageSize⟩ true .zero .anon,
        .claim 0 ⟨pageSize⟩, .claim 0 ⟨2 * pageSize⟩] 2 := by
    refine .register (show VirtPage.number ⟨1⟩ < userPages by decide) (by decide) (by decide) ?_
    refine .register (show VirtPage.number ⟨2⟩ < userPages by decide) (by decide) (by decide) ?_
    refine .touch (show (⟨1⟩ : VirtPage) ∈ [⟨2⟩, ⟨1⟩] by decide) (.claim (by decide)) ?_
    exact .touch (show (⟨2⟩ : VirtPage) ∈ [⟨2⟩] by decide) (.claim (by decide)) .done
  obtain ⟨hcounts, hfirst⟩ := countsEvictions_of_run (by decide) (by decide) hrun
  obtain ⟨m₁, hrun₁, hcounted⟩ := hfirst .ascending (fun _ => true) _ 2 htouches (by decide)
  exact ⟨m, m₁, m', hrun, hclaim, hcounts.claims 0 ⟨2⟩ m' (.inl ⟨(), hclaim⟩), hevicted, hrun₁,
    hcounted⟩

end DemandPaging.Machine
