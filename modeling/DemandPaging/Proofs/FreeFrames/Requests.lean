import DemandPaging.Proofs.FreeFrames.Residency
import DemandPaging.Proofs.Runs
import DemandPaging.Proofs.Unwinding

/-! # Requests and what is left in frames

No request sees what is in frames that no page occupies: two machines that differ in nothing else
answer every request alike, whatever requests came before it.
-/

namespace DemandPaging

open MachineM

section

variable {m m' : Machine} {s : SpaceId} {vpn : VirtPage} {held : List Frame} {pins : List BackingId}
  {page : Page} {frame : Frame}

theorem MachineM.page_of_none (h : m.page? s vpn = none) :
    ∃ p, MachineM.page s vpn m = .error (.panicked p) m := by
  cases hspace : m.space? s with
  | none =>
      refine ⟨.noSpace s, ?_⟩
      simp only [MachineM.page, Bind.bind, EStateM.bind, space_of_none hspace]
  | some space =>
      have hpages : space.pages[vpn]? = none := (Machine.page?_of_space? hspace vpn).symm.trans h
      refine ⟨.lostPage vpn, ?_⟩
      simp only [MachineM.page, Bind.bind, EStateM.bind, space_of_some hspace, hpages]
      rfl

theorem MachineM.lift_eq_ok {α : Type} {x : Except Panic α} {a : α}
    (h : (liftM x : MachineM α) m = .ok a m') : m = m' := by
  cases x with
  | ok b => exact (EStateM.Result.ok.inj h).2
  | error p => cases h

/-- A page that is resident is copied by a look at its frame and a change of the other. -/
theorem MachineM.copyContents_of_resident {source : Frame} (hframe : page.frame = some source)
    (m : Machine) :
    copyContents page frame m = (if frame = source then MachineM.panic .copyOntoItself else
      loadFrame source >>= storeFrame frame) m := by
  have hcopy : copyContents page frame m = (liftM (m.pool.copy frame source) >>= fun pool =>
      modify fun m => { m with pool } : MachineM Unit) m := by
    simp only [copyContents, hframe]
    rfl
  rw [hcopy]
  by_cases he : frame = source
  · rw [if_pos he, FramePool.copy, if_pos he]
    rfl
  · rw [if_neg he, FramePool.copy, if_neg he]
    cases hload : m.pool.load source with
    | error p =>
        have hpanic : loadFrame source m = .error (.panicked p) m := by
          change ofExcept (m.pool.load source) m = _
          rw [hload]
          rfl
        exact (bind_of_error hpanic).symm
    | ok bytes =>
        refine Eq.trans ?_ (bind_of_ok (loadFrame_of_ok hload)).symm
        cases hstore : m.pool.store frame bytes <;>
          simp only [storeFrame, get, getThe, MonadStateOf.get, Bind.bind, Except.bind,
            EStateM.bind, EStateM.get, hstore]

theorem Machine.inUse_of_page (h : (m.view held pins).Consistent) (hp : m.page? s vpn = some page)
    (hframe : page.frame = some frame) : m.InUse held frame :=
  .inl (h.listed.mem_frames ((View.frame_of_page (V := m.view held pins) hp).trans hframe))

theorem MachineM.discard_ends {sound : Prop} (h : Ready sound m s pins) (vpn : VirtPage) :
    Ends sound (discard s vpn) m
      (fun _ m' => Steps {Deed.discard s vpn} (m.view [] pins) (m'.view [] pins))
      fun _ _ => False := by
  cases hspace : m.space? s with
  | none =>
      refine Ends.space h.live fun space hsome => ?_
      rw [hspace] at hsome
      cases hsome
  | some space =>
      obtain ⟨m', hdiscard, hsteps, -⟩ :=
        discard_ok h.consistent (Machine.live_of_space? hspace) vpn
      exact Ends.of_ok hdiscard hsteps

end

namespace Blind

variable {α β : Type} {m m' : Machine} {s dst src : SpaceId} {vpn : VirtPage} {held : List Frame}
  {pins : List BackingId} {frame source : Frame} {after : α → List Frame}

/-! ## Looks at what is registered -/

theorem space {next : Space → MachineM α}
    (hnext : ∀ space, m.space? s = some space → Blind held (next space) after m) :
    Blind held (MachineM.space s >>= next) after m := by
  refine (of_frameless (MachineM.space s)).bind fun space m₁ hrun => ?_
  cases hspace : m.space? s with
  | none =>
      rw [space_of_none hspace] at hrun
      cases hrun
  | some found =>
      rw [space_of_some hspace] at hrun
      obtain ⟨rfl, rfl⟩ := EStateM.Result.ok.inj hrun
      exact hnext found hspace

theorem page {next : Page → MachineM α}
    (hnext : ∀ page, m.page? s vpn = some page → Blind held (next page) after m) :
    Blind held (MachineM.page s vpn >>= next) after m := by
  refine (of_frameless (MachineM.page s vpn)).bind fun page m₁ hrun => ?_
  cases hp : m.page? s vpn with
  | none =>
      obtain ⟨p, hpanic⟩ := page_of_none hp
      rw [hpanic] at hrun
      cases hrun
  | some found =>
      rw [page_of_some hp] at hrun
      obtain ⟨rfl, rfl⟩ := EStateM.Result.ok.inj hrun
      exact hnext found hp

theorem emit {next : Unit → MachineM α} (event : Event)
    (hnext : ∀ m', (∀ held pins, m'.view held pins = m.view held pins) →
      Blind held (next ()) after m') :
    Blind held (MachineM.emit event >>= next) after m := by
  refine (of_frameless (MachineM.emit event)).bind fun _ m₁ hrun => ?_
  obtain ⟨-, rfl⟩ := EStateM.Result.ok.inj hrun
  exact hnext { m with events := m.events.push event } fun _ _ => rfl

/-! ## Removing pages -/

theorem unlist (frame : Frame) :
    Blind held (MonadState.modifyGet fun m : Machine =>
      ((), { m with frames := m.frames.removeFrame frame })) (fun _ => held) m := by
  refine Blind.modify (fun _ _ => rfl) fun other hin => hin.imp_left fun hmem => ?_
  simp only [FrameTable.removeFrame] at hmem
  split at hmem
  · exact hmem
  · exact List.map_subset _ (List.eraseIdx_subset) hmem

theorem vacateFrame {page : Page} (s : SpaceId)
    (hin : ∀ frame segment, page.frame = some frame → page.kind = .file segment →
      m.InUse held frame) :
    Blind held (MachineM.vacateFrame s page) (fun _ => held) m := by
  unfold MachineM.vacateFrame
  cases hframe : page.frame with
  | none => exact of_frameless (Pure.pure page)
  | some frame =>
      refine (of_frameless (unmapPage s page.vpn)).bind fun dirty m₁ hunmap => ?_
      dsimp only
      split
      · next segment hkind =>
        have hin₁ : m₁.InUse held frame := by
          rw [Machine.InUse, Frameless.frames_eq hunmap]
          exact hin frame segment hframe hkind
        split
        · refine (saveSegment _ hin₁).bind fun _ m₂ _ => (unlist frame).bind fun _ m₃ _ => ?_
          exact (releaseFrame frame).bind fun _ m₄ _ => of_frameless _
        · refine (unlist frame).bind fun _ m₃ _ => ?_
          exact (releaseFrame frame).bind fun _ m₄ _ => of_frameless _
      · refine (unlist frame).bind fun _ m₃ _ => ?_
        exact (releaseFrame frame).bind fun _ m₄ _ => of_frameless _

theorem destroy {page : Page} (s : SpaceId)
    (hin : ∀ frame segment, page.frame = some frame → page.kind = .file segment →
      m.InUse held frame) :
    Blind held (MachineM.destroy s page) (fun _ => held) m := by
  refine (vacateFrame s hin).bind fun left m₁ _ => ?_
  split
  · exact (of_frameless (releaseSlot _)).bind fun _ m₂ _ => of_frameless _
  · exact of_frameless _

theorem discard_of_inUse (s : SpaceId) (vpn : VirtPage)
    (hin : ∀ page frame segment, m.page? s vpn = some page → page.frame = some frame →
      page.kind = .file segment → m.InUse [] frame) :
    Blind [] (MachineM.discard s vpn) (fun _ => []) m := by
  refine Blind.space fun space hspace => ?_
  split
  · exact of_frameless _
  · next page hfound =>
    have hp : m.page? s vpn = some page := (Machine.page?_of_space? hspace vpn).trans hfound
    refine (of_frameless (erasePage s vpn)).bind fun _ m₂ herase => ?_
    refine destroy s fun frame segment hframe hkind => ?_
    rw [Machine.InUse, Frameless.frames_eq herase]
    exact hin page frame segment hp hframe hkind

theorem discard (h : (m.view [] pins).Consistent) (s : SpaceId) (vpn : VirtPage) :
    Blind [] (MachineM.discard s vpn) (fun _ => []) m :=
  discard_of_inUse s vpn fun _ _ _ hp hframe _ => Machine.inUse_of_page h hp hframe

theorem discard_of_stranded {e : FrameEntry} (h : m.Stranded e) (s : SpaceId) (vpn : VirtPage) :
    Blind [] (MachineM.discard s vpn) (fun _ => []) m := by
  obtain ⟨⟨victim, hvictim, -, -, hanon⟩, pins, hc⟩ := h
  refine discard_of_inUse s vpn fun page frame segment hp hframe hkind => .inl ?_
  have hne : ¬(e.space = s ∧ e.vpn = vpn) := by
    rintro ⟨rfl, rfl⟩
    obtain rfl := Option.some.inj (hvictim.symm.trans hp)
    cases hanon.symm.trans hkind
  have hother : (m.without e pins).page s vpn = some page := (setAt_of_ne hne).trans hp
  exact hc.listed.mem_frames ((View.frame_of_page hother).trans hframe)

theorem remove (h : (m.view [] pins).Consistent) (s : SpaceId) (va : VirtAddr) :
    Blind [] (MachineM.remove s va) (fun _ => []) m := by
  refine Blind.space fun space hspace => ?_
  dsimp only
  split
  · exact discard h s va.page
  · exact Blind.bind (of_frameless (fail .invalidArgument)) fun _ _ hfail => by cases hfail

theorem forM_ready {γ : Type} {list : List γ} {body : γ → MachineM PUnit}
    (h : (m.view [] pins).Consistent)
    (hbody : ∀ a m, (m.view [] pins).Consistent → Blind [] (body a) (fun _ => []) m)
    (hends : ∀ a m, Ready False m s pins → Ends False (body a) m
      (fun _ m' => (m'.view [] pins).Consistent) fun _ _ => True) :
    Blind [] (list.forM body) (fun _ => []) m :=
  forM (fun m => (m.view [] pins).Consistent) (fun a _ m hm => hbody a m hm)
    (fun a _ m hm => hends a m ⟨hm, False.elim, False.elim⟩) h

/-- All pages of an address space are removed blindly if they are one by one. -/
theorem recycleInOrder (s : SpaceId) (order : List VirtPage)
    (hloop : ∀ m' : Machine, (∀ held pins, m'.view held pins = m.view held pins) →
      Blind [] (order.forM (MachineM.discard s)) (fun _ => []) m') :
    Blind [] (MachineM.recycleInOrder s order) (fun _ => []) m := by
  have hrest : ∀ m' : Machine, (∀ held pins, m'.view held pins = m.view held pins) → Blind [] (do
      order.forM (MachineM.discard s)
      unless (← MachineM.space s).table.isEmpty do
        panic .assertionFailed : MachineM Unit) (fun _ => []) m' := fun m' hview =>
    (hloop m' hview).bind fun _ _ _ => of_frameless _
  refine Blind.space fun space hspace => ?_
  dsimp only
  split
  · exact Blind.emit _ hrest
  · exact hrest m fun _ _ => rfl

theorem recycleBy (h : (m.view [] pins).Consistent) (visit : Visit) (s : SpaceId) :
    Blind [] (MachineM.recycleBy visit s) (fun _ => []) m := by
  refine Blind.space fun _ _ => recycleInOrder s _ fun m' hview => ?_
  have h' : (m'.view [] pins).Consistent := by rwa [hview]
  refine forM_ready (s := s) h' (fun vpn m hm => discard hm s vpn) fun vpn m hm => ?_
  exact (discard_ends hm vpn).mono (fun _ _ hsteps => hsteps.consistent hm.consistent)
    fun _ _ _ => trivial

theorem recycleBy_of_stranded {e : FrameEntry} (h : m.Stranded e) (visit : Visit) (s : SpaceId) :
    Blind [] (MachineM.recycleBy visit s) (fun _ => []) m := by
  refine Blind.space fun space hspace => recycleInOrder s _ fun m' hview => ?_
  have hlive : (m'.view [] []).Live s := by
    rw [hview]
    exact Machine.live_of_space? hspace
  refine forM (fun m => m.Stranded e ∧ (m.view [] []).Live s)
    (fun vpn _ m hm => discard_of_stranded hm.1 s vpn) ?_ ⟨stranded_of_view h hview, hlive⟩
  rintro vpn - m₁ ⟨h₁, hlive₁⟩
  by_cases hvictim : e.space = s ∧ e.vpn = vpn
  · obtain ⟨rfl, rfl⟩ := hvictim
    obtain ⟨m₂, hpanic⟩ := discard_victim h₁
    exact Ends.of_panicked hpanic False.elim
  · obtain ⟨m₂, hdiscard, h₂, huser, -⟩ := discard_beside h₁ hlive₁ hvictim
    refine Ends.of_ok hdiscard ⟨h₂, ?_⟩
    change m₂.userSp? s ≠ none
    rw [huser]
    exact hlive₁

theorem dropSpaceBy {visit : Visit} {s : SpaceId}
    (hrecycle : Blind [] (MachineM.recycleBy visit s) (fun _ => []) m) :
    Blind [] (MachineM.dropSpaceBy visit s) (fun _ => []) m :=
  hrecycle.bind fun _ _ _ => Blind.modify (fun _ _ => rfl) fun _ hin => hin

theorem unmap (h : (m.view [] pins).Consistent) (s : SpaceId) (va : VirtAddr) :
    Blind [] (MachineM.unmap s va) (fun _ => []) m := by
  refine Blind.space fun space hspace => ?_
  split
  · exact of_frameless _
  · refine Blind.get (fun _ => rfl) ?_
    split
    · exact of_frameless _
    · next id _ backing _ =>
      have hloop : ∀ list : List VirtPage, Blind [] (do
          MachineM.emit (.unmapped backing.base list.length)
          list.forM fun vpn => MachineM.remove s vpn.start : MachineM Unit) (fun _ => []) m := by
        intro list
        refine Blind.emit _ fun m₁ hview => ?_
        have h₁ : (m₁.view [] pins).Consistent := by rwa [hview]
        refine forM_ready (s := s) h₁ (fun vpn m hm => remove hm s vpn.start)
          fun vpn m hm => ?_
        exact (remove_ends hm vpn.start).mono (fun _ _ hsteps => hsteps.consistent hm.consistent)
          fun _ _ _ => trivial
      dsimp only
      split
      · refine (of_frameless (liftM (checked _))).bind fun _ m₁ hchecked => ?_
        obtain rfl := lift_eq_ok hchecked
        exact hloop _
      · exact hloop _

theorem unmapCall (h : (m.view [] pins).Consistent) (s : SpaceId) (addr : ℕ) :
    Blind [] (MachineM.unmapCall s addr) (fun _ => []) m := by
  refine Blind.emit _ fun m₁ hview => ?_
  have h₁ : (m₁.view [] pins).Consistent := by rwa [hview]
  exact unmap h₁ s _

/-! ## Copying pages -/

theorem copyContents {page : Page} (h : (m.view [frame] pins).Consistent)
    (hp : m.page? src vpn = some page) :
    Blind [frame] (MachineM.copyContents page frame) (fun _ => [frame]) m := by
  cases hframe : page.frame with
  | some source =>
      refine congr (copyContents_of_resident hframe) ?_
      split
      · exact of_frameless (MachineM.panic _)
      · refine (loadFrame (Machine.inUse_of_page h hp hframe)).bind fun bytes m₁ _ => ?_
        exact (storeFrame frame bytes).mono fun _ => List.subset_cons_self _ _
  | none =>
      unfold MachineM.copyContents
      rw [hframe]
      dsimp only
      split
      · exact loadFromSwap _ frame
      · exact of_frameless (Pure.pure ())
      · exact loadSegment _ List.mem_cons_self
      · exact of_frameless (MachineM.panic _)

theorem copyPage (h : (m.view [] pins).Consistent) (dst src : SpaceId) (vpn : VirtPage) :
    Blind [] (MachineM.copyPage dst src vpn) (fun _ => []) m := by
  refine Blind.page fun parent hp => Blind.space fun space _ => ?_
  dsimp only
  split
  · exact Blind.bind (of_frameless (fail .alreadyExists)) fun _ _ hfail => by cases hfail
  · split
    · exact of_frameless (register dst parent)
    · refine acquireFrame.bind fun frame m₁ hrun => ?_
      have hpos : False → 0 < m.pool.total := False.elim
      have hacquires := (acquireFrame_ends h hpos).ok_of_eq hrun
      have h₁ := (hacquires.room h).1.consistent h
      refine Blind.page fun parent' hp' => ?_
      refine (guardFrame (copyContents h₁ hp')).bind fun _ m₂ _ => ?_
      exact (of_frameless (retainPage parent')).bind fun _ m₃ _ => install dst _ frame

theorem copyInOrder (h : (m.view [] pins).Consistent) {order : List VirtPage}
    (horder : ∀ vpn ∈ order, m.page? src vpn ≠ none) (dst : SpaceId) :
    Blind [] (MachineM.copyInOrder dst src order) (fun _ => []) m := by
  refine Blind.space fun space hspace => Blind.emit _ fun m₁ hview => ?_
  refine forM (fun m => (m.view [] pins).Consistent ∧ ∀ vpn ∈ order, m.page? src vpn ≠ none)
    ?_ ?_ ⟨by rwa [hview], ?_⟩
  · exact fun vpn _ m hm => copyPage hm.1 dst src vpn
  · rintro vpn hvpn m₂ ⟨hm, hpages⟩
    have hready : Ready False m₂ dst pins := ⟨hm, False.elim, False.elim⟩
    refine (copyPage_ends hready (hpages vpn hvpn)).mono ?_
      fun _ _ _ => trivial
    rintro - m₃ ⟨hsteps, -⟩
    exact ⟨hsteps.consistent hm, fun u hu => page_ne_none_of_copying hsteps (hpages u hu)⟩
  · have hpages : m₁.page? = m.page? := congrArg View.page (hview [] pins)
    rwa [hpages]

theorem copySpaceBy (h : (m.view [] pins).Consistent) (visit : Visit) (dst src : SpaceId) :
    Blind [] (MachineM.copySpaceBy visit dst src) (fun _ => []) m :=
  Blind.space fun _ hspace => copyInOrder h (fun _ hvpn => (mem_order_iff hspace visit).mp hvpn) dst

theorem forkBy (h : m.Sound) (visit : Visit) (s : SpaceId) :
    Blind [] (MachineM.forkBy visit s) (fun _ => []) m := by
  refine Blind.space fun parent hparent => Blind.get (fun _ => rfl) ?_
  refine (of_frameless (putSpace m.nextSpace { Space.empty with userSp := parent.userSp })).bind
    fun _ m₁ hput => ?_
  obtain ⟨-, rfl⟩ := EStateM.Result.ok.inj hput
  have hpages : ∀ vpn ∈ visit.order parent.pages.keys, m.page? s vpn ≠ none := fun vpn hvpn =>
    (mem_order_iff hparent visit).mp hvpn
  have hc₁ := (step_create (space?_nextSpace h.fresh) parent.userSp [] []).consistent h.consistent
  have hpages₁ : (m.setSpace m.nextSpace { Space.empty with userSp := parent.userSp }).page? =
      m.page? :=
    congrArg View.page (view_putSpace_empty (space?_nextSpace h.fresh) parent.userSp [] [])
  refine Blind.bind (onStop (copyInOrder hc₁ (by rwa [hpages₁]) m.nextSpace)
    fun stop m₂ hstop => dropSpaceBy ?_) fun _ m₂ _ => ?_
  · rcases copyToChild_stopped h.consistent h.fresh (Machine.live_of_space? hparent) hpages hstop
      with hc₂ | ⟨e, hstranded⟩
    · exact recycleBy hc₂ visit _
    · exact recycleBy_of_stranded hstranded visit _
  · refine Blind.bind (Blind.modify (fun _ _ => rfl) fun _ hin => hin) fun _ _ _ => ?_
    exact of_frameless (Pure.pure _)

/-! ## Reads and writes -/

theorem inUse_of_accessed {write : Bool} (h : (m.view [] pins).Consistent)
    (haccessed : Accessed m s vpn write frame) : m.InUse held frame := by
  obtain ⟨page, -, hp, hframe, -⟩ := haccessed
  exact (Machine.inUse_of_page h hp hframe).mono (List.nil_subset held)

theorem readChunks (h : (m.view [] pins).Consistent) {chunks : List Chunk}
    (hin : ∀ chunk ∈ chunks, chunk.page.number < userPages) (buffer : Bytes) :
    Blind [] (MachineM.readChunks s chunks buffer) (fun _ => []) m := by
  induction chunks generalizing m buffer with
  | nil => exact of_frameless (Pure.pure _)
  | cons chunk chunks ih =>
      have hready : Ready False m s pins := ⟨h, False.elim, False.elim⟩
      have htry := tryFrame_ends hready (hin chunk (by simp)) false
      refine (attempt (accessPage s chunk.page false _)).bind fun result m₁ hrun => ?_
      obtain ⟨hsteps, haccessed⟩ := htry.ok_of_eq hrun
      split
      · exact of_frameless (Pure.pure _)
      · next frame =>
        have h₁ := hsteps.consistent h
        have haccessed := haccessed frame rfl
        obtain ⟨-, bytes, hbytes⟩ := accessed_load h₁ haccessed
        refine (loadFrame (inUse_of_accessed h₁ haccessed)).bind fun bytes' m₂ hload => ?_
        obtain ⟨-, rfl⟩ := EStateM.Result.ok.inj (hload.symm.trans (loadFrame_of_ok hbytes))
        exact ih h₁ (fun c hc => hin c (by simp [hc])) _

theorem readUser (h : (m.view [] pins).Consistent) (s : SpaceId) (va : VirtAddr) (buffer : Bytes) :
    Blind [] (MachineM.readUser s va buffer) (fun _ => []) m := by
  have htry : Ends False (MachineM.attempt (userChunks va buffer.size)) m _ _ :=
    tryChunks_ends va buffer.size m
  refine (attempt (of_frameless (userChunks va buffer.size))).bind fun result m₁ hrun => ?_
  obtain ⟨rfl, hin⟩ := htry.ok_of_eq hrun
  split
  · exact of_frameless (Pure.pure _)
  · next chunks => exact readChunks h (hin chunks rfl) buffer

theorem writeChunk (h : (m.view [] pins).Consistent) (s : SpaceId) (data : Bytes) {chunk : Chunk}
    (hin : chunk.page.number < userPages) :
    Blind [] (MachineM.writeChunk s data chunk) (fun _ => []) m := by
  have hpos : False → 0 < m.pool.total := False.elim
  have hframe := userFrame_ends (s := s) h hpos False.elim hin true
  refine (accessPage s chunk.page true _).bind fun frame m₁ hrun => ?_
  obtain ⟨-, hsteps, haccessed⟩ := hframe.ok_of_eq hrun
  refine (loadFrame (inUse_of_accessed (hsteps.consistent h) haccessed)).bind fun bytes m₂ _ => ?_
  exact (storeFrame frame _).mono fun _ => List.nil_subset _

theorem writeUser (h : (m.view [] pins).Consistent) (s : SpaceId) (va : VirtAddr) (data : Bytes) :
    Blind [] (MachineM.writeUser s va data) (fun _ => []) m := by
  have hchunks : Ends False (userChunks va data.size) m _ _ := userChunks_ends va data.size m
  refine (of_frameless (userChunks va data.size)).bind fun chunks m₁ hrun => ?_
  obtain ⟨rfl, -, hin⟩ := hchunks.ok_of_eq hrun
  refine forM (fun m => (m.view [] pins).Consistent)
    (fun chunk hc m hm => writeChunk hm s data (hin chunk hc)) (fun chunk hc m hm => ?_) h
  exact (writeChunk_ends ⟨hm, False.elim, False.elim⟩ data (hin chunk hc)).mono
    (fun _ _ hwritten => hwritten.steps.consistent hm) fun _ _ _ => trivial

/-! ## Requests -/

variable {action : MachineM α}

theorem reply (h : Blind [] action (fun _ => []) m) (f : α → β) :
    Blind [] (action >>= fun a => Pure.pure (f a)) (fun _ => []) m :=
  h.bind fun _ _ _ => of_frameless (Pure.pure _)

theorem map (h : Blind [] action (fun _ => []) m) (f : α → β) :
    Blind [] (f <$> action) (fun _ => []) m := by
  rw [map_eq_pure_bind]
  exact h.reply f

/-- What a request does does not depend on what is in frames that no page occupies. -/
theorem execBy (h : m.Sound) (visit : Visit) (op : Op) :
    Blind [] (op.execBy visit) (fun _ => []) m := by
  cases op with
  | create => exact of_frameless (Reply.space <$> createSpace)
  | drop s => exact (dropSpaceBy (recycleBy h.consistent visit s)).reply fun _ => Reply.done
  | fork s => exact (forkBy h visit s).map Reply.space
  | copy dst src => exact (copySpaceBy h.consistent visit dst src).reply fun _ => Reply.done
  | alloc s va writable loader target =>
      exact (of_frameless (alloc s va writable loader target)).reply fun _ => Reply.done
  | claim s va => exact (claimAt s va).reply fun _ => Reply.done
  | fault s f => exact (handleFault s f).reply fun _ => Reply.done
  | setUserSp s userSp => exact (of_frameless (setUserSp s userSp)).reply fun _ => Reply.done
  | setupStack s => exact (setupStack s).reply fun va => Reply.address va.val
  | read s va buffer =>
      exact (readUser h.consistent s va buffer).reply fun read => Reply.buffer read.1 read.2
  | write s va data => exact (writeUser h.consistent s va data).reply fun _ => Reply.done
  | remove s va => exact (remove h.consistent s va).reply fun _ => Reply.done
  | recycle s => exact (recycleBy h.consistent visit s).reply fun _ => Reply.done
  | map s va length writable file offset =>
      exact (of_frameless (mapFile s va length writable file offset)).reply fun va =>
        Reply.address va.val
  | unmap s va => exact (unmap h.consistent s va).reply fun _ => Reply.done
  | loadExecutable s va file offset readBytes zeroBytes writable =>
      exact (of_frameless
        (loadExecutable s va file offset readBytes zeroBytes writable)).reply fun _ => Reply.done
  | mapCall s descriptors addr length writable fd offset =>
      exact (of_frameless (mapCall s descriptors addr length writable fd offset)).map
        Reply.address
  | unmapCall s addr => exact (unmapCall h.consistent s addr).reply fun _ => Reply.done
  | access s va isWrite => exact of_frameless (processorAccess s va isWrite)
  | setFlags s va accessed dirty => exact of_frameless (setFlags s va accessed dirty)
  | reopen file base pages => exact of_frameless (Reply.backing <$> reopen file base pages)
  | release backing => exact (of_frameless (releaseBacking backing)).reply fun _ => Reply.done
  | truncate file length => exact (of_frameless (truncate file length)).reply fun _ => Reply.done
  | writeFile file offset data => exact of_frameless (Reply.count <$> writeFile file offset data)

end Blind

namespace Machine

variable {m n m' : Machine} {visit : Visit} {op : Op} {requests : List (Visit × Op)}

theorem Matches.step (hmatch : m.Matches [] n) (h : m.Sound) (hstep : m.step? visit op = some m') :
    ∃ n', n.step? visit op = some n' ∧ m'.Matches [] n' := by
  have hagree := Blind.execBy h visit op n hmatch
  unfold step? at hstep ⊢
  generalize op.execBy visit m = first at hagree hstep
  generalize op.execBy visit n = second at hagree
  cases hagree with
  | ok hafter => exact ⟨_, rfl, Option.some.inj hstep ▸ hafter⟩
  | failed hafter => exact ⟨_, rfl, Option.some.inj hstep ▸ hafter⟩
  | panicked => cases hstep

/-- Machines that match go on matching, whatever is asked of them. -/
theorem Matches.run (hmatch : m.Matches [] n) (h : m.Sound) (hrun : m.run? requests = some m') :
    ∃ n', n.run? requests = some n' ∧ m'.Matches [] n' := by
  induction requests generalizing m n with
  | nil =>
      obtain rfl := Option.some.inj hrun
      exact ⟨n, rfl, hmatch⟩
  | cons request requests ih =>
      rw [run?_cons] at hrun
      obtain ⟨m₁, hfirst, hrest⟩ := Option.bind_eq_some_iff.mp hrun
      obtain ⟨n₁, hfirst', hmatch₁⟩ := hmatch.step h hfirst
      obtain ⟨n', hrest', hmatch'⟩ := ih hmatch₁ (Op.finished h hfirst).sound hrest
      exact ⟨n', by rw [run?_cons, hfirst', Option.bind_some, hrest'], hmatch'⟩

end Machine

end DemandPaging
