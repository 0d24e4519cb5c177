import DemandPaging.Proofs.FaultOutcomes

/-! # Accesses that are tried again

An access that finds its page missing has the fault resolved and is tried again, as often as that
happens. It happens once at most: a fault that was resolved leaves the page as the access needs it.
So nothing depends on the bound that is set on the number of tries.
-/

namespace DemandPaging

variable {m m' : Machine} {s : SpaceId} {vpn : VirtPage} {pins : List BackingId} {write : Bool}
  {p : Panic}

/-- What a copy may panic for: its address space is gone, or there is no room for a page. -/
inductive Panic.OfCopy (s : SpaceId) : Panic → Prop where
  | space : OfCopy s (.noSpace s)
  | slot : OfCopy s .outOfSwapSlots
  | frame : OfCopy s .noFrameToEvict

theorem MachineM.Lacking.ofCopy (h : Lacking m p) (s : SpaceId) : p.OfCopy s := by
  cases h with
  | slot => exact .slot
  | frame => exact .frame

namespace MachineM

/-! ## Tries -/

/-- One try of an access: it finds the frame of the page, or has the fault resolved that it
raises. -/
def tryAccess (s : SpaceId) (vpn : VirtPage) (write : Bool) : MachineM (Option Frame) := do
  let space ← space s
  match space.table.access vpn write with
  | .ok (frame, table) =>
    putSpace s { space with table }
    return some frame
  | .error .protection =>
    emit (.readOnlyPage vpn)
    fail .badAddress
  | .error .notPresent =>
    handleFault s (accessFault vpn write)
    return none

theorem accessPage_succ (s : SpaceId) (vpn : VirtPage) (write : Bool) (attempts : ℕ) :
    accessPage s vpn write (attempts + 1) =
      tryAccess s vpn write >>= fun found => found.elim (accessPage s vpn write attempts) pure := by
  rw [accessPage, tryAccess, bind_assoc]
  refine congrArg _ (funext fun space => ?_)
  cases space.table.access vpn write with
  | ok passed => rfl
  | error fault =>
      cases fault with
      | protection => rfl
      | notPresent =>
          simp only [bind_assoc]
          rfl

/-- How an access ends that is tried again after every fault that was resolved, and how many faults
that were. -/
inductive Retries (s : SpaceId) (vpn : VirtPage) (write : Bool) :
    Machine → ℕ → EStateM.Result Stop Machine Frame → Prop where
  | found {m m' : Machine} {frame : Frame}
      (passed : tryAccess s vpn write m = .ok (some frame) m') :
      Retries s vpn write m 0 (.ok frame m')
  | stopped {m m' : Machine} {stop : Stop} (stops : tryAccess s vpn write m = .error stop m') :
      Retries s vpn write m 0 (.error stop m')
  | again {m m₁ : Machine} {faults : ℕ} {result : EStateM.Result Stop Machine Frame}
      (resolved : tryAccess s vpn write m = .ok none m₁)
      (rest : Retries s vpn write m₁ faults result) :
      Retries s vpn write m (faults + 1) result

theorem Retries.unique {faults faults' : ℕ} {result result' : EStateM.Result Stop Machine Frame}
    (h : Retries s vpn write m faults result) (h' : Retries s vpn write m faults' result') :
    faults = faults' ∧ result = result' := by
  induction h generalizing faults' with
  | found passed =>
      cases h' with
      | found passed' => simp_all
      | stopped stops => cases passed.symm.trans stops
      | again resolved => cases passed.symm.trans resolved
  | stopped stops =>
      cases h' with
      | found passed => cases stops.symm.trans passed
      | stopped stops' => simp_all
      | again resolved => cases stops.symm.trans resolved
  | again resolved rest ih =>
      cases h' with
      | found passed => cases resolved.symm.trans passed
      | stopped stops => cases resolved.symm.trans stops
      | again resolved' rest' =>
          obtain ⟨-, rfl⟩ := EStateM.Result.ok.inj (resolved.symm.trans resolved')
          obtain ⟨rfl, rfl⟩ := ih rest'
          exact ⟨rfl, rfl⟩

/-- A bound that leaves room for one try after the last fault makes no difference. -/
theorem Retries.accessPage_eq {faults : ℕ} {result : EStateM.Result Stop Machine Frame}
    (h : Retries s vpn write m faults result) {attempts : ℕ} (hattempts : faults < attempts) :
    accessPage s vpn write attempts m = result := by
  induction h generalizing attempts with
  | found passed =>
      obtain ⟨more, rfl⟩ := Nat.exists_eq_add_of_lt hattempts
      rw [accessPage_succ, bind_of_ok passed]
      rfl
  | stopped stops =>
      obtain ⟨more, rfl⟩ := Nat.exists_eq_add_of_lt hattempts
      rw [accessPage_succ, bind_of_error stops]
  | again resolved rest ih =>
      obtain ⟨more, rfl⟩ := Nat.exists_eq_add_of_lt hattempts
      rw [accessPage_succ, bind_of_ok resolved]
      exact ih (by omega)

/-! ## A resolved fault settles its access -/

def Passes (m : Machine) (s : SpaceId) (vpn : VirtPage) (write : Bool) : Prop :=
  ∃ space frame table, m.space? s = some space ∧
    space.table.access vpn write = .ok (frame, table)

theorem Passes.tryAccess_eq (h : Passes m s vpn write) :
    ∃ frame m', tryAccess s vpn write m = .ok (some frame) m' := by
  obtain ⟨space, frame, table, hspace, haccess⟩ := h
  refine ⟨frame, m.setSpace s { space with table }, ?_⟩
  rw [tryAccess, bind_of_ok (space_of_some hspace), haccess]
  rfl

theorem passes_of_accessible (h : (m.view [] pins).Consistent) (ha : Accessible m s vpn write) :
    Passes m s vpn write := by
  obtain ⟨page, hp, hframe, hallowed⟩ := ha
  obtain ⟨frame, hframe⟩ := Option.ne_none_iff_exists'.mp hframe
  obtain ⟨entry, hentry, -, hvalid, hsame⟩ := h.mapped hp hframe
  obtain ⟨space, hspace, hlookup⟩ := Machine.exists_space_of_entry? hentry
  have hpass : (write && !entry.isWritable) = false := by
    rw [hsame]
    simpa using hallowed
  have haccess := PageTable.access_of_some hlookup hvalid write
  rw [hpass, if_neg Bool.false_ne_true] at haccess
  exact ⟨space, _, _, hspace, haccess⟩

theorem passes_of_resolved (h : (m.view [] pins).Consistent)
    (hat : vpn.number * pageSize < Word.bound)
    (hresolved : handleFault s (accessFault vpn write) m = .ok () m') : Passes m' s vpn write := by
  have hlive : False → (m.view [] pins).Live s := False.elim
  obtain ⟨-, hsteps, haccessible⟩ :=
    (handleFault_ends h False.elim hlive (accessFault vpn write)).ok_of_eq hresolved
  rw [show VirtAddr.page ⟨(accessFault vpn write).addr⟩ = vpn from VirtPage.page_start hat]
    at haccessible
  exact passes_of_accessible (hsteps.consistent h) haccessible

theorem tryAccess_of_missing {space : Space} (hspace : m.space? s = some space)
    (hentry : m.entryAt? s vpn = none) :
    tryAccess s vpn write m = (do handleFault s (accessFault vpn write); return none) m := by
  have hlookup := (Machine.entryAt?_of_space? hspace vpn).symm.trans hentry
  rw [tryAccess, bind_of_ok (space_of_some hspace), PageTable.access_of_none hlookup]

/-- A try that finds no frame and does not stop has its fault resolved. -/
theorem resolved_of_tryAccess (h : tryAccess s vpn write m = .ok none m') :
    handleFault s (accessFault vpn write) m = .ok () m' := by
  cases hspace : m.space? s with
  | none =>
      rw [tryAccess, bind_of_error (space_of_none hspace)] at h
      cases h
  | some space =>
      rw [tryAccess, bind_of_ok (space_of_some hspace)] at h
      cases haccess : space.table.access vpn write with
      | ok passed =>
          rw [haccess] at h
          cases h
      | error fault =>
          rw [haccess] at h
          cases fault with
          | protection => cases h
          | notPresent =>
              simp only at h
              cases hfault : handleFault s (accessFault vpn write) m with
              | ok _ m₁ =>
                  rw [bind_of_ok hfault] at h
                  exact congrArg _ (EStateM.Result.ok.inj h).2
              | error stop m₁ =>
                  rw [bind_of_error hfault] at h
                  cases h

/-- An access ends after at most one fault that was resolved. -/
theorem exists_retries (s : SpaceId) (write : Bool) (h : (m.view [] pins).Consistent)
    (hat : vpn.number * pageSize < Word.bound) :
    ∃ faults ≤ 1, ∃ result, Retries s vpn write m faults result := by
  cases htry : tryAccess s vpn write m with
  | error stop m₁ => exact ⟨0, zero_le_one, _, .stopped htry⟩
  | ok found m₁ =>
      cases found with
      | some frame => exact ⟨0, zero_le_one, _, .found htry⟩
      | none =>
          have hpasses := passes_of_resolved h hat (resolved_of_tryAccess htry)
          obtain ⟨frame, m₂, hagain⟩ := hpasses.tryAccess_eq
          exact ⟨1, le_rfl, _, .again htry (.found hagain)⟩

/-! ## Copies do not run out of tries -/

theorem handleFault_panicked {fault : PageFault} (h : (m.view [] []).Consistent)
    (hpanic : handleFault s fault m = .error (.panicked p) m') : p.OfCopy s := by
  cases hspace : m.space? s with
  | none =>
      obtain rfl := Stop.panicked.inj
        (EStateM.Result.error.inj ((handleFault_of_no_space hspace fault).symm.trans hpanic)).1
      exact .space
  | some space =>
      by_cases hrefuses : space.refuses fault = true
      · obtain ⟨events, hfailed⟩ := handleFault_of_refuses hspace hrefuses
        cases hfailed.symm.trans hpanic
      · obtain ⟨m₁, heq, hclaimable⟩ := handleFault_eq_claim hspace (Bool.eq_false_iff.mpr hrefuses)
        obtain ⟨page, hp⟩ := hclaimable.exists_page
        exact (claim_panicked (hclaimable.consistent hspace h) hp (heq.symm.trans hpanic)).ofCopy s

theorem tryAccess_panicked (h : (m.view [] []).Consistent)
    (hpanic : tryAccess s vpn write m = .error (.panicked p) m') : p.OfCopy s := by
  cases hspace : m.space? s with
  | none =>
      rw [tryAccess, bind_of_error (space_of_none hspace)] at hpanic
      obtain rfl := Stop.panicked.inj (EStateM.Result.error.inj hpanic).1
      exact .space
  | some space =>
      rw [tryAccess, bind_of_ok (space_of_some hspace)] at hpanic
      cases haccess : space.table.access vpn write with
      | ok passed =>
          rw [haccess] at hpanic
          cases hpanic
      | error fault =>
          rw [haccess] at hpanic
          cases fault with
          | protection => cases hpanic
          | notPresent =>
              rcases bind_eq_panicked hpanic with hfault | ⟨_, m₁, -, hdone⟩
              · exact handleFault_panicked h hfault
              · cases hdone

theorem Retries.panicked {faults : ℕ} {result : EStateM.Result Stop Machine Frame}
    (h : Retries s vpn write m faults result) (hc : (m.view [] []).Consistent)
    (hpanic : result = .error (.panicked p) m') : p.OfCopy s := by
  induction h with
  | found passed => cases hpanic
  | stopped stops =>
      obtain ⟨rfl, rfl⟩ := EStateM.Result.error.inj hpanic
      exact tryAccess_panicked hc stops
  | @again m m₁ _ _ resolved rest ih =>
      have hlive : False → (m.view [] []).Live s := False.elim
      have hfault := resolved_of_tryAccess resolved
      have hsteps := ((handleFault_ends hc False.elim hlive _).ok_of_eq hfault).2.1
      exact ih (hsteps.consistent hc) hpanic

theorem userFrame_panicked (h : (m.view [] []).Consistent) (hin : vpn.number < userPages)
    (hpanic : userFrame s vpn write m = .error (.panicked p) m') : p.OfCopy s := by
  have hat : vpn.number * pageSize < Word.bound := by
    simp only [userPages, userEnd, pageSize, Word.bound] at hin ⊢
    omega
  obtain ⟨faults, hfaults, result, hretries⟩ := exists_retries s write h hat
  have heq := hretries.accessPage_eq (Nat.lt_succ_of_le hfaults)
  exact hretries.panicked h (heq.symm.trans hpanic)

theorem readChunks_panicked {chunks : List Chunk} (h : Ready False m s [])
    (hin : ∀ chunk ∈ chunks, chunk.page.number < userPages) {buffer : Bytes}
    (hpanic : readChunks s chunks buffer m = .error (.panicked p) m') : p.OfCopy s := by
  induction chunks generalizing m buffer with
  | nil => cases hpanic
  | cons chunk chunks ih =>
      have hfirst := hin chunk (by simp)
      have haccess : Ends False (userFrame s chunk.page false) m _ _ :=
        userFrame_ends h.consistent h.total_pos h.live hfirst false
      cases hresult : userFrame s chunk.page false m with
      | ok frame m₁ =>
          obtain ⟨-, hsteps, haccessed⟩ := haccess.ok_of_eq hresult
          have h₁ := h.steps (hsteps.mono (Deed.reaching_subset_accessing s _)) fun d hd =>
            keepsSpaces_of_accessing hd
          obtain ⟨-, bytes, hload⟩ := accessed_load h₁.consistent haccessed
          exact ih h₁ (fun c hc => hin c (by simp [hc]))
            ((readChunks_of_ok hresult hload).symm.trans hpanic)
      | error stop m₁ =>
          cases stop with
          | failed e => cases (readChunks_of_failed hresult).symm.trans hpanic
          | panicked q =>
              obtain ⟨hstop, rfl⟩ :=
                EStateM.Result.error.inj ((readChunks_of_panicked hresult).symm.trans hpanic)
              obtain rfl := Stop.panicked.inj hstop
              exact userFrame_panicked h.consistent hfirst hresult

theorem readUser_panicked {va : VirtAddr} {buffer : Bytes} (h : Ready False m s [])
    (hpanic : readUser s va buffer m = .error (.panicked p) m') : p.OfCopy s := by
  have hchunks : Ends False (attempt (userChunks va buffer.size)) m _ _ :=
    tryChunks_ends va buffer.size m
  rw [readUser] at hpanic
  rcases bind_eq_panicked hpanic with htry | ⟨result, m₁, htry, hrest⟩
  · unfold userChunks at htry
    split at htry <;> cases htry
  · obtain ⟨rfl, hin⟩ := hchunks.ok_of_eq htry
    cases result with
    | error e => cases hrest
    | ok chunks => exact readChunks_panicked h (hin chunks rfl) hrest

theorem writeChunk_panicked {chunk : Chunk} (h : Ready False m s []) {data : Bytes}
    (hin : chunk.page.number < userPages)
    (hpanic : writeChunk s data chunk m = .error (.panicked p) m') : p.OfCopy s := by
  have hlive : False → (m.view [] []).Live s := False.elim
  rw [writeChunk] at hpanic
  rcases bind_eq_panicked hpanic with hframe | ⟨frame, m₁, hframe, hrest⟩
  · exact userFrame_panicked h.consistent hin hframe
  · obtain ⟨-, hsteps, haccessed⟩ :=
      (userFrame_ends h.consistent False.elim hlive hin true).ok_of_eq hframe
    obtain ⟨page, bytes, pool, -, -, hload, hstore, -⟩ :=
      exists_store_of_accessed (hsteps.consistent h.consistent) chunk haccessed data
    have hstored := panicked_of_bind (loadFrame_of_ok hload) hrest
    cases (storeFrame_of_ok hstore).symm.trans hstored

theorem writeChunks_panicked {chunks : List Chunk} (h : Ready False m s [])
    (hin : ∀ chunk ∈ chunks, chunk.page.number < userPages) {data : Bytes}
    (hpanic : chunks.forM (writeChunk s data) m = .error (.panicked p) m') : p.OfCopy s := by
  induction chunks generalizing m with
  | nil => cases hpanic
  | cons chunk chunks ih =>
      change (writeChunk s data chunk >>= fun _ => chunks.forM (writeChunk s data)) m = _ at hpanic
      rcases bind_eq_panicked hpanic with hfirst | ⟨_, m₁, hfirst, hrest⟩
      · exact writeChunk_panicked h (hin chunk (by simp)) hfirst
      · have hwritten := (writeChunk_ends h data (hin chunk (by simp))).ok_of_eq hfirst
        have hready := h.steps hwritten.steps fun d hd => keepsSpaces_of_writing hd
        exact ih hready (fun c hc => hin c (by simp [hc])) hrest

theorem writeUser_panicked {va : VirtAddr} {data : Bytes} (h : Ready False m s [])
    (hpanic : writeUser s va data m = .error (.panicked p) m') : p.OfCopy s := by
  have hchunks : Ends False (userChunks va data.size) m _ _ := userChunks_ends va data.size m
  rw [writeUser] at hpanic
  rcases bind_eq_panicked hpanic with htry | ⟨chunks, m₁, htry, hrest⟩
  · unfold userChunks at htry
    split at htry <;> cases htry
  · obtain ⟨rfl, -, hin⟩ := hchunks.ok_of_eq htry
    exact writeChunks_panicked h hin hrest

end MachineM

/-! ## Runs -/

namespace Machine

/-- An access of a page ends, however often it may be tried again. -/
structure SettlesAccess (m : Machine) (s : SpaceId) (vpn : VirtPage) (write : Bool) : Prop where
  /-- Once its fault was resolved, the access passes the page table. -/
  passes : ∀ m', MachineM.handleFault s (MachineM.accessFault vpn write) m = .ok () m' →
    MachineM.Passes m' s vpn write
  /-- It ends in one way, after at most one fault that was resolved. -/
  ends : ∃ faults result, MachineM.Retries s vpn write m faults result ∧ faults ≤ 1 ∧
    ∀ faults' result', MachineM.Retries s vpn write m faults' result' →
      faults' = faults ∧ result' = result
  /-- It ends as it does with the bound on its tries. -/
  bounded : ∀ faults result, MachineM.Retries s vpn write m faults result →
    MachineM.userFrame s vpn write m = result

theorem Sound.settlesAccess (h : m.Sound) (s : SpaceId) (hat : vpn.number * pageSize < Word.bound)
    (write : Bool) : m.SettlesAccess s vpn write := by
  obtain ⟨faults, hle, result, hretries⟩ :=
    MachineM.exists_retries s write h.consistent hat
  refine ⟨fun m' => MachineM.passes_of_resolved h.consistent hat,
    ⟨faults, result, hretries, hle, fun faults' result' h' => h'.unique hretries⟩,
    fun faults' result' h' => ?_⟩
  obtain ⟨rfl, rfl⟩ := h'.unique hretries
  exact h'.accessPage_eq (Nat.lt_succ_of_le hle)

/-- In every machine that was booted and served requests, an access of the page of an address of 64
bits ends after at most one fault that was resolved. A copy never runs out of tries. -/
theorem settlesAccess_of_run {frames : ℕ} {disk : Disk} {files : FileStore}
    {requests : List (Visit × Op)} (hframes : frames ≤ PageTable.Entry.frameBound)
    (hrun : (boot frames disk files).run? requests = some m) :
    (∀ s (va : VirtAddr) write, va.val < Word.bound → m.SettlesAccess s va.page write) ∧
      (∀ s va buffer p m', MachineM.readUser s va buffer m = .error (.panicked p) m' →
        p.OfCopy s ∧ ∀ vpn, p ≠ .accessUnsettled vpn) ∧
      ∀ s va data p m', MachineM.writeUser s va data m = .error (.panicked p) m' →
        p.OfCopy s ∧ ∀ vpn, p ≠ .accessUnsettled vpn := by
  have hsound := sound_of_run hframes hrun
  have hready : ∀ s, MachineM.Ready False m s [] := fun s =>
    ⟨hsound.consistent, False.elim, False.elim⟩
  have hsettled : ∀ {s : SpaceId} {p : Panic}, p.OfCopy s → ∀ vpn, p ≠ .accessUnsettled vpn := by
    rintro s p hp vpn rfl
    cases hp
  refine ⟨fun s va write hva => hsound.settlesAccess s ?_ write, fun s va buffer p m' hpanic => ?_,
    fun s va data p m' hpanic => ?_⟩
  · exact (Nat.le.intro va.page_mul_add_offset).trans_lt hva
  · have hp := MachineM.readUser_panicked (hready s) hpanic
    exact ⟨hp, hsettled hp⟩
  · have hp := MachineM.writeUser_panicked (hready s) hpanic
    exact ⟨hp, hsettled hp⟩

/-- A write to a page that is not resident takes the only frame from another page, after one
fault. -/
theorem settlesAccess_of_full : ∃ (m m' : Machine) (frame : Frame),
    (boot 1 (.zeroed 8) (.ofFiles #[])).run? ([.create, .alloc 0 ⟨pageSize⟩ true .zero .anon,
      .alloc 0 ⟨2 * pageSize⟩ true .zero .anon, .write 0 ⟨pageSize⟩ #[7]].map
        (Visit.ascending, ·)) = some m ∧
      m.SettlesAccess 0 ⟨2⟩ true ∧ m.frames.size = m.pool.total ∧
      MachineM.Retries 0 ⟨2⟩ true m 1 (.ok frame m') := by
  have hserved : ((boot 1 (.zeroed 8) (.ofFiles #[])).run? ([.create,
      .alloc 0 ⟨pageSize⟩ true .zero .anon, .alloc 0 ⟨2 * pageSize⟩ true .zero .anon,
      .write 0 ⟨pageSize⟩ #[7]].map (Visit.ascending, ·))).any (fun m =>
        decide (m.frames.size = m.pool.total) && (m.space? 0).isSome &&
          decide (m.entryAt? 0 ⟨2⟩ = none) &&
          (m.answer? .ascending (.fault 0 (MachineM.accessFault ⟨2⟩ true))).isSome) = true := by
    decide +kernel
  simp only [Option.any_eq_true, Bool.and_eq_true, decide_eq_true_eq, Option.isSome_iff_exists]
    at hserved
  obtain ⟨m, hrun, ⟨⟨hfull, space, hspace⟩, hentry⟩, ⟨reply, m₁⟩, hanswer⟩ := hserved
  have hpage : VirtAddr.page ⟨2 * pageSize⟩ = ⟨2⟩ := by decide
  have hsettles : m.SettlesAccess 0 ⟨2⟩ true := by
    rw [← hpage]
    exact (settlesAccess_of_run (by decide) hrun).1 0 ⟨2 * pageSize⟩ true (by decide)
  have hexec := execBy_of_answer? hanswer
  cases hfault : MachineM.handleFault 0 (MachineM.accessFault ⟨2⟩ true) m with
  | error stop m₂ =>
      simp only [Op.execBy, MachineM.bind_of_error hfault] at hexec
      cases hexec
  | ok _ m₂ =>
      have hpasses := hsettles.passes m₂ hfault
      obtain ⟨frame, m', hagain⟩ := hpasses.tryAccess_eq
      refine ⟨m, m', frame, hrun, hsettles, hfull, .again ?_ (.found hagain)⟩
      rw [MachineM.tryAccess_of_missing hspace hentry, MachineM.bind_of_ok hfault]
      rfl

end Machine

end DemandPaging
