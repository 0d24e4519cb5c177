import DemandPaging.Machine.Fork
import DemandPaging.Proofs.FileBytes
import DemandPaging.Proofs.UserCopy

/-! # Copies of address spaces

A page is copied into a frame of its own, from its parent's frame, slot or file. The parent's page
may lose its frame to the copy, but it keeps its contents. Copying stops at a file page that cannot
be read.
-/

namespace DemandPaging

/-- A file page of an address space is not resident, and its file is too short for it. -/
def View.Unreadable (V : View) (s : SpaceId) : Prop :=
  ∃ vpn page segment, V.page s vpn = some page ∧ page.frame = none ∧ page.kind = .file segment ∧
    (segment.fetch V.files).size < segment.readBytes

namespace MachineM

/-- Why pages of an address space were not copied: some place was taken, or a page could not be
read. -/
inductive CopyFails (taken : Prop) (src : SpaceId) (V : View) : Errno → Prop where
  | taken : taken → CopyFails taken src V .alreadyExists
  | unreadable : V.Unreadable src → CopyFails taken src V .ioError

variable {m : Machine} {s dst src : SpaceId} {vpn : VirtPage} {held : List Frame}
  {pins : List BackingId} {frame : Frame} {page : Page} {sound : Prop}

theorem CopyFails.mono {taken more : Prop} {V : View} {e : Errno} (himp : taken → more)
    (h : CopyFails taken src V e) : CopyFails more src V e := by
  cases h with
  | taken htaken => exact .taken (himp htaken)
  | unreadable hshort => exact .unreadable hshort

/-! ## Single pages -/

/-- The contents of a page that was touched are found, unless a file is too short; then nothing but
the frame for the copy has changed. -/
theorem copyContents_cases (h : (m.view held pins).Consistent) (hp : m.page? s vpn = some page)
    (htouched : page.isUninit = false) (hheld : frame ∈ held)
    (hzero : m.pool.load frame = .ok PageBytes.zero) :
    (∃ m' bytes pool, copyContents page frame m = .ok () m' ∧
      Found m.pool m.swap m.files page.frame page.kind bytes ∧
      m.pool.store frame bytes = .ok pool ∧
      m'.view held pins = { m.view held pins with pool }) ∨
    (∃ m' bytes pool, copyContents page frame m = .error (.failed .ioError) m' ∧
      (m.view held pins).Unreadable s ∧ m.pool.store frame bytes = .ok pool ∧
      m'.view held pins = { m.view held pins with pool }) := by
  have hstore := FramePool.store_of_lt (h.held_lt hheld)
  cases hframe : page.frame with
  | some source =>
      obtain ⟨bytes, hload⟩ := FramePool.load_of_lt (h.frame_lt hp hframe)
      obtain ⟨pool, hpool⟩ := hstore bytes
      have hne : frame ≠ source := (h.ne_held hp hframe hheld).symm
      have hcopy : m.pool.copy frame source = .ok pool :=
        (FramePool.copy_eq_store hne hload).trans hpool
      refine .inl ⟨{ m with pool }, bytes, pool, ?_, .resident hload, hpool, rfl⟩
      simp only [copyContents, hframe, get, getThe, MonadStateOf.get, Bind.bind, EStateM.bind,
        EStateM.get, hcopy]
      rfl
  | none =>
      have hplaced := (h.settled hp).placed
      have hslot := View.slot_of_page (V := m.view held pins) hp
      obtain ⟨pageVpn, writable, pageFrame, kind⟩ := page
      simp only at hframe
      subst hframe
      cases kind with
      | uninit touch => cases htouched
      | anon slot =>
          cases slot with
          | none => simp [Page.Placed] at hplaced
          | some slot =>
              obtain ⟨slots, hsupplies, howners⟩ := h.slotted
              obtain ⟨bytes, hread⟩ := hsupplies.read (howners.mem hslot)
              obtain ⟨pool, hpool⟩ := hstore bytes
              exact .inl ⟨{ m with pool }, bytes, pool, loadFromSwap_of_ok hread hpool,
                .slot hread, hpool, rfl⟩
      | file segment =>
          obtain ⟨bytes, pool, hpool, ⟨hread, hload⟩ | ⟨hread, events, hload⟩⟩ :=
            loadSegment_cases segment hzero hstore
          · exact .inl ⟨{ m with pool }, bytes, pool, hload, .file hread, hpool, rfl⟩
          · have hshort : (m.view held pins).Unreadable s :=
              ⟨vpn, _, segment, hp, rfl, rfl, Segment.size_fetch_lt_of_loadInto hread⟩
            exact .inr ⟨{ m with pool, events }, bytes, pool, hload, hshort, hpool, rfl⟩

theorem page_eq_none_iff_of_copied {d : Deed} {V W : View} (hstep : Step d V W) (h : V.Consistent)
    (hd : d = .inherit dst src vpn ∨ d = .copy dst src vpn) (u : VirtPage) :
    W.page dst u = none ↔ u ≠ vpn ∧ V.page dst u = none := by
  rcases hd with rfl | rfl
  · cases hstep with
    | inherit live found untouched fresh =>
        have hvpn := (h.settled found).vpn_eq
        subst hvpn
        exact setAt_some_eq_none_iff _
  · cases hstep with
    | copy live found touched fresh => exact setAt_some_eq_none_iff _

/-- A page that was touched is copied into a frame that was acquired for the copy. If it cannot be
read, the frame goes back. -/
theorem copyTouched_cases (h : (m.view [frame] pins).Consistent) (hp : m.page? src vpn = some page)
    (htouched : page.isUninit = false) (hlive : (m.view [frame] pins).Live dst)
    (hfresh : m.page? dst vpn = none) (hzero : m.pool.load frame = .ok PageBytes.zero) :
    let copyTouched := (do
      guardFrame frame (copyContents page frame)
      retainPage page
      install dst ⟨vpn, page.writable, none, childKind page.kind⟩ frame : MachineM Unit) m
    (∃ m', copyTouched = .ok () m' ∧
      Step (.copy dst src vpn) (m.view [frame] pins) (m'.view [] pins)) ∨
    ∃ m', copyTouched = .error (.failed .ioError) m' ∧ (m'.view [] pins).Unreadable src ∧
      Steps {Deed.spoil frame, Deed.giveBack frame} (m.view [frame] pins) (m'.view [] pins) := by
  intro copyTouched
  rcases copyContents_cases h hp htouched List.mem_cons_self hzero with
    ⟨m₁, bytes, pool, hcopy, hfound, hstore, hview⟩ |
    ⟨m₁, bytes, pool, hcopy, hshort, hstore, hview⟩
  · have hpool₁ : m₁.pool = pool := congrArg View.pool hview
    have hfiles₁ : m₁.files = m.files := congrArg View.files hview
    have hview₁ : Machine.view { m₁ with files := page.retainedIn m₁.files } [frame] pins =
        { m.view [frame] pins with pool, files := page.retainedIn m.files } := by
      rw [hfiles₁]
      change { m₁.view [frame] pins with files := page.retainedIn m.files } = _
      rw [hview]
    have hlive₁ : (Machine.view { m₁ with files := page.retainedIn m₁.files }
        [frame] pins).Live dst := by
      rw [hview₁]
      exact hlive
    have hentry₁ : Machine.entryAt? { m₁ with files := page.retainedIn m₁.files } dst vpn = none :=
      (congrFun (congrFun (congrArg View.entry hview₁) dst) vpn).trans (h.unmapped hfresh)
    obtain ⟨m₂, hinstall, hview₂⟩ := install_ok
      ⟨vpn, page.writable, none, childKind page.kind⟩ hlive₁ rfl hentry₁
    refine .inl ⟨m₂, ?_, ?_⟩
    · exact (bind_of_ok (onStop_of_ok hcopy _)).trans
        ((bind_of_ok (retainPage_eq page m₁)).trans hinstall)
    · rw [hview₂, hview₁]
      change Step _ _ (View.occupied _ _ _ _ m₁.pool _)
      rw [hpool₁]
      exact Step.copy hlive hp htouched hfresh rfl hfound hstore
  · obtain ⟨m', freed, hguard, hfreed, hview'⟩ := guardFrame_of_failed h hcopy hstore hview
    have hpages : m'.page? = m.page? := congrArg View.page hview'
    have hfiles : m'.files = m.files := congrArg View.files hview'
    have hshort' : (m'.view [] pins).Unreadable src := by
      change ∃ u page segment, m'.page? src u = some page ∧ page.frame = none ∧
        page.kind = .file segment ∧ (segment.fetch m'.files).size < segment.readBytes
      rw [hpages, hfiles]
      exact hshort
    refine .inr ⟨m', bind_of_error hguard, hshort', ?_⟩
    rw [hview']
    exact steps_giveBack rfl hstore hfreed

theorem copyTouched_ends (h : (m.view [frame] pins).Consistent) (hp : m.page? src vpn = some page)
    (htouched : page.isUninit = false) (hlive : (m.view [frame] pins).Live dst)
    (hfresh : m.page? dst vpn = none) (hzero : m.pool.load frame = .ok PageBytes.zero) :
    Ends sound
      (do
        guardFrame frame (copyContents page frame)
        retainPage page
        install dst ⟨vpn, page.writable, none, childKind page.kind⟩ frame) m
      (fun _ m' => Step (.copy dst src vpn) (m.view [frame] pins) (m'.view [] pins))
      fun e m' => e = .ioError ∧ (m'.view [] pins).Unreadable src ∧
        Steps {Deed.spoil frame, Deed.giveBack frame} (m.view [frame] pins) (m'.view [] pins) := by
  rcases copyTouched_cases h hp htouched hlive hfresh hzero with
    ⟨m', hok, hstep⟩ | ⟨m', hfailed, hshort, hsteps⟩
  · exact Ends.of_ok hok hstep
  · exact Ends.of_failed hfailed ⟨rfl, hshort, hsteps⟩

/-- A frame is acquired for the copy of a page. The page may lose its own frame to it. -/
theorem acquireCopy_ends (h : (m.view [] pins).Consistent) (hpos : sound → 0 < m.pool.total)
    (hp : m.page? src vpn = some page) (htouched : page.isUninit = false)
    (hlive : (m.view [] pins).Live dst) (hfresh : m.page? dst vpn = none) :
    Ends sound
      (do
        let frame ← acquireFrame
        let parentPage ← MachineM.page src vpn
        guardFrame frame (copyContents parentPage frame)
        retainPage parentPage
        install dst ⟨vpn, parentPage.writable, none, childKind parentPage.kind⟩ frame) m
      (fun _ m' => ∃ frame m₁, Acquires m pins frame m₁ ∧
        Step (.copy dst src vpn) (m₁.view [frame] pins) (m'.view [] pins))
      fun e m' => e = .ioError ∧ (m'.view [] pins).Unreadable src ∧ ∃ frame m₁,
        Acquires m pins frame m₁ ∧
          Steps {Deed.spoil frame, Deed.giveBack frame} (m₁.view [frame] pins)
            (m'.view [] pins) := by
  refine (acquireFrame_ends h hpos).bind_total fun frame m₁ hacquires => ?_
  obtain ⟨hroom, hzero⟩ := hacquires.room h
  have hroomier := hroom.roomier h
  obtain ⟨parent, hp₁, halike⟩ := hroomier.exists_page hp
  have htouched₁ : parent.isUninit = false := halike.isUninit_eq.trans htouched
  have hlive₁ : (m₁.view [frame] pins).Live dst := by
    have huser : m₁.userSp? = m.userSp? := hroomier.userSp_eq
    change m₁.userSp? dst ≠ none
    rw [huser]
    exact hlive
  refine Ends.bind_ok (page_of_some hp₁) ?_
  refine (copyTouched_ends (hroom.consistent h) hp₁ htouched₁ hlive₁
    (hroomier.page_eq_none_iff.mpr hfresh) hzero).mono ?_ ?_
  · exact fun _ _ hstep => ⟨frame, m₁, hacquires, hstep⟩
  · exact fun _ _ hf => ⟨hf.1, hf.2.1, frame, m₁, hacquires, hf.2.2⟩

/-- A page is handed on or copied, as it was touched or not, unless its place is taken. -/
theorem copyPage_of_parts {ok : Unit → Machine → Prop} {failed : Errno → Machine → Prop}
    (hlive : sound → (m.view [] pins).Live dst) (hp : m.page? src vpn = some page)
    (htaken : m.page? dst vpn ≠ none → failed .alreadyExists m)
    (hinherit : page.isUninit = true → m.page? dst vpn = none →
      Ends sound (register dst page) m ok failed)
    (hcopy : page.isUninit = false → m.page? dst vpn = none → (m.view [] pins).Live dst →
      Ends sound
        (do
          let frame ← acquireFrame
          let parentPage ← MachineM.page src vpn
          guardFrame frame (copyContents parentPage frame)
          retainPage parentPage
          install dst ⟨vpn, parentPage.writable, none, childKind parentPage.kind⟩ frame) m
        ok failed) :
    Ends sound (copyPage dst src vpn) m ok failed := by
  unfold copyPage
  refine Ends.bind_ok (page_of_some hp) (Ends.space hlive fun space hspace => ?_)
  by_cases hcontains : space.pages.contains vpn = true
  · have hpage : m.page? dst vpn ≠ none := by
      rw [Machine.page?_of_space? hspace]
      exact PageMap.getElem?_of_contains hcontains
    simp only [hcontains, if_true]
    split <;> exact Ends.bind_failed (Ends.failed_eq _ m) (htaken hpage)
  · have hfresh : m.page? dst vpn = none := by
      rw [Machine.page?_of_space? hspace]
      exact PageMap.getElem?_of_not_contains (Bool.eq_false_iff.mpr hcontains)
    simp only [hcontains, Bool.false_eq_true, if_false]
    split
    · next huninit => exact hinherit huninit hfresh
    · next htouched =>
      exact hcopy (Bool.eq_false_iff.mpr htouched) hfresh (Machine.live_of_space? hspace)

/-- A page is copied to an address space that has none in its place. -/
theorem copyPage_ends (h : Ready sound m dst pins) (hp : m.page? src vpn ≠ none) :
    Ends sound (copyPage dst src vpn) m
      (fun _ m' => Steps (Deed.copying dst src) (m.view [] pins) (m'.view [] pins) ∧
        ∀ u, m'.page? dst u = none ↔ u ≠ vpn ∧ m.page? dst u = none)
      fun e m' => CopyFails (m.page? dst vpn ≠ none) src (m'.view [] pins) e ∧
        Steps (Deed.copying dst src) (m.view [] pins) (m'.view [] pins) := by
  obtain ⟨page, hp⟩ := Option.ne_none_iff_exists'.mp hp
  have hc := h.consistent
  refine copyPage_of_parts h.live hp ?taken ?inherited ?copied
  case taken => exact fun htaken => ⟨.taken htaken, Steps.refl _⟩
  case inherited =>
    intro huninit hfresh
    refine (register_ends h.live page).mono ?_ ?_
    · rintro - m' ⟨hlive, -, hview⟩
      have hstep : Step (.inherit dst src vpn) (m.view [] pins) (m'.view [] pins) := by
        rw [hview]
        exact Step.inherit hlive hp huninit hfresh
      exact ⟨Steps.single hstep (.inr (.inl ⟨vpn, rfl⟩)),
        page_eq_none_iff_of_copied hstep hc (.inl rfl)⟩
    · rintro e m' ⟨rfl, rfl, htaken⟩
      exact ⟨.taken ((hc.settled hp).vpn_eq ▸ htaken), Steps.refl _⟩
  case copied =>
    intro htouched hfresh hlive
    refine (acquireCopy_ends hc h.total_pos hp htouched hlive hfresh).mono ?_ ?_
    · rintro - m' ⟨frame, m₁, hacquires, hstep⟩
      have hroom := (hacquires.room hc).1
      have hsteps := hroom.mono fun d hd => (.inl hd : d ∈ Deed.copying dst src)
      refine ⟨hsteps.tail hstep (.inr (.inr ⟨vpn, rfl⟩)), fun u => ?_⟩
      exact (page_eq_none_iff_of_copied hstep (hroom.consistent hc) (.inr rfl) u).trans
        (and_congr_right fun _ => (hroom.roomier hc).page_eq_none_iff)
    · rintro e m' ⟨rfl, hshort, frame, m₁, hacquires, hmore⟩
      have hsteps := (hacquires.room hc).1.mono fun d hd => (.inl hd : d ∈ Deed.copying dst src)
      refine ⟨.unreadable hshort, hsteps.trans (hmore.mono fun d hd => .inl ?_)⟩
      rcases hd with rfl | rfl <;> trivial

/-! ## Whole address spaces -/

theorem keepsSpaces_of_copying {d : Deed} (hd : d ∈ Deed.copying dst src) : d.KeepsSpaces := by
  rcases hd with hd | ⟨vpn, rfl⟩ | ⟨vpn, rfl⟩
  · cases d <;> trivial
  · trivial
  · trivial

theorem keepsPages_of_copying {d : Deed} (hd : d ∈ Deed.copying dst src) : d.KeepsPages := by
  rcases hd with hd | ⟨vpn, rfl⟩ | ⟨vpn, rfl⟩
  · cases d <;> trivial
  · trivial
  · trivial

theorem page_ne_none_of_copying {V W : View} {t : SpaceId}
    (hsteps : Steps (Deed.copying dst src) V W) (hp : V.page t vpn ≠ none) : W.page t vpn ≠ none :=
  hsteps.page_ne_none (fun _ hd => (keepsPages_of_copying hd).ne_discard t vpn) hp

/-- The pages that are still to be copied: where each of them goes is free, if every place was free
at the start and is visited once. -/
structure Remaining (m : Machine) (dst src : SpaceId) (pins : List BackingId)
    (order rest : List VirtPage) (m' : Machine) : Prop where
  steps : Steps (Deed.copying dst src) (m.view [] pins) (m'.view [] pins)
  rest_subset : rest ⊆ order
  page_ne_none : ∀ vpn ∈ order, vpn ∈ rest ∨ m'.page? dst vpn ≠ none
  free : (order.Nodup ∧ ∀ vpn ∈ order, m.page? dst vpn = none) →
    rest.Nodup ∧ ∀ vpn ∈ rest, m'.page? dst vpn = none

/-- A page that is still to be copied is. -/
theorem Remaining.copyPage_ends {order rest : List VirtPage} {m' : Machine}
    (h : Ready sound m dst pins) (horder : ∀ vpn ∈ order, m.page? src vpn ≠ none)
    (hrest : Remaining m dst src pins order (vpn :: rest) m') :
    Ends sound (copyPage dst src vpn) m'
      (fun _ m'' => Remaining m dst src pins order rest m'')
      fun e m'' => CopyFails (¬(order.Nodup ∧ ∀ vpn ∈ order, m.page? dst vpn = none)) src
          (m''.view [] pins) e ∧
        Steps (Deed.copying dst src) (m.view [] pins) (m''.view [] pins) := by
  have hready := h.steps hrest.steps fun d hd => keepsSpaces_of_copying hd
  have hvpn : vpn ∈ order := hrest.rest_subset List.mem_cons_self
  have hpage : m'.page? src vpn ≠ none := page_ne_none_of_copying hrest.steps (horder vpn hvpn)
  refine (MachineM.copyPage_ends hready hpage).mono ?_ ?_
  · rintro - m'' ⟨hmore, hnone⟩
    refine ⟨hrest.steps.trans hmore, fun u hu => hrest.rest_subset (List.mem_cons_of_mem _ hu),
      fun u hu => ?_, fun hfree => ?_⟩
    · rcases hrest.page_ne_none u hu with hmem | hp
      · rcases List.mem_cons.mp hmem with rfl | hmem
        · exact .inr fun hu' => ((hnone u).mp hu').1 rfl
        · exact .inl hmem
      · exact .inr fun hu' => hp ((hnone u).mp hu').2
    · obtain ⟨hnodup, hvacant⟩ := hrest.free hfree
      obtain ⟨hnot, hnodup'⟩ := List.nodup_cons.mp hnodup
      refine ⟨hnodup', fun u hu => (hnone u).mpr ⟨?_, hvacant u (List.mem_cons_of_mem _ hu)⟩⟩
      rintro rfl
      exact hnot hu
  · rintro e m'' ⟨hfails, hmore⟩
    refine ⟨hfails.mono fun htaken hfree => ?_, hrest.steps.trans hmore⟩
    exact htaken ((hrest.free hfree).2 vpn List.mem_cons_self)

theorem Remaining.of_view {order : List VirtPage} {m' : Machine}
    (hview : m'.view [] pins = m.view [] pins) : Remaining m dst src pins order order m' := by
  refine ⟨Steps.of_eq hview, List.Subset.refl order, fun vpn hvpn => .inl hvpn, fun hfree => ?_⟩
  rwa [show m'.page? = m.page? from congrArg View.page hview]

theorem copyInOrder_ends {order : List VirtPage} (h : Ready sound m dst pins)
    (hsrc : sound → (m.view [] pins).Live src) (horder : ∀ vpn ∈ order, m.page? src vpn ≠ none) :
    Ends sound (copyInOrder dst src order) m
      (fun _ m' => Steps (Deed.copying dst src) (m.view [] pins) (m'.view [] pins) ∧
        ∀ vpn ∈ order, m'.page? dst vpn ≠ none)
      fun e m' => CopyFails (¬(order.Nodup ∧ ∀ vpn ∈ order, m.page? dst vpn = none)) src
          (m'.view [] pins) e ∧
        Steps (Deed.copying dst src) (m.view [] pins) (m'.view [] pins) := by
  unfold copyInOrder
  refine Ends.space hsrc fun space hspace => ?_
  refine Ends.emit _ [] pins fun m₁ hview => ?_
  have hstart : Remaining m dst src pins order order m₁ := Remaining.of_view hview
  refine (Ends.forM_rest (Remaining m dst src pins order)
    (fun _ _ _ hrest => hrest.copyPage_ends h horder) hstart).mono
    (fun _ m' hdone => ?_) fun _ _ hfailed => hfailed
  refine ⟨hdone.steps, fun vpn hvpn => ?_⟩
  rcases hdone.page_ne_none vpn hvpn with hmem | hp
  · cases hmem
  · exact hp

theorem makesNoSpace_of_dropping {d : Deed} (hd : d ∈ Deed.dropping s) : d.MakesNoSpace := by
  rcases hd with rfl | ⟨vpn, rfl⟩
  · trivial
  · trivial

theorem space?_nextSpace (hfresh : (m.view [] []).Fresh) : m.space? m.nextSpace = none := by
  by_contra hne
  obtain ⟨space, hspace⟩ := Option.ne_none_iff_exists'.mp hne
  exact hfresh m.nextSpace le_rfl (Machine.live_of_space? hspace)

theorem forking_of_making {d : Deed} (hd : d ∈ Deed.making dst src) : d ∈ Deed.forking dst src := by
  rcases hd with hd | rfl | rfl
  · exact .inl hd
  · exact .inr (.inr (.inl rfl))
  · exact .inr (.inr (.inr rfl))

/-- A child under construction: it is the only address space that did not exist before. -/
structure Begun (m m' : Machine) (s : SpaceId) (userSp : ℕ) : Prop where
  steps : Steps (Deed.making m.nextSpace s) (m.view [] []) (m'.view [] [])
  nextSpace_eq : m'.nextSpace = m.nextSpace
  userSp_eq : m'.userSp? = Function.update m.userSp? m.nextSpace (some userSp)

section Begun

variable {m' : Machine} {userSp : ℕ}

theorem Begun.live (h : Begun m m' s userSp) : (m'.view [] []).Live m.nextSpace := by
  change m'.userSp? m.nextSpace ≠ none
  simp [h.userSp_eq]

theorem Begun.others (h : Begun m m' s userSp) {t : SpaceId} (ht : (m'.view [] []).Live t) :
    t = m.nextSpace ∨ (m.view [] []).Live t := by
  change m'.userSp? t ≠ none at ht
  rw [h.userSp_eq, Function.update_apply] at ht
  split at ht
  · next hts => exact .inl hts
  · exact .inr ht

end Begun

/-- A child is put where no address space is, and pages are copied to it. -/
theorem copyToChild_ends {order : List VirtPage} (h : Ready sound m s [])
    (hfresh : (m.view [] []).Fresh) (horder : ∀ vpn ∈ order, m.page? s vpn ≠ none) (userSp : ℕ) :
    Ends sound (copyInOrder m.nextSpace s order)
      (m.setSpace m.nextSpace { Space.empty with userSp })
      (fun _ m' => Begun m m' s userSp ∧ ∀ vpn ∈ order, m'.page? m.nextSpace vpn ≠ none)
      fun e m' => CopyFails (¬order.Nodup) s (m'.view [] []) e ∧ Begun m m' s userSp := by
  have hview := view_putSpace_empty (space?_nextSpace hfresh) userSp [] []
  have hstep := step_create (space?_nextSpace hfresh) userSp [] []
  generalize m.setSpace m.nextSpace { Space.empty with userSp } = m₁ at hview hstep ⊢
  have hpages₁ : m₁.page? = m.page? := congrArg View.page hview
  have huser₁ : m₁.userSp? = Function.update m.userSp? m.nextSpace (some userSp) :=
    congrArg View.userSp hview
  have hnext₁ : m₁.nextSpace = m.nextSpace := congrArg View.nextSpace hview
  have hready : Ready sound m₁ m.nextSpace [] := by
    refine ⟨hstep.consistent h.consistent, fun hs => ?_, fun _ => ?_⟩
    · have htotal : m₁.pool.total = m.pool.total := hstep.total_eq
      rw [htotal]
      exact h.total_pos hs
    · change m₁.userSp? m.nextSpace ≠ none
      simp [huser₁]
  have hsrc : sound → (m₁.view [] []).Live s := by
    intro hs
    change m₁.userSp? s ≠ none
    rw [huser₁, Function.update_apply]
    split
    · simp
    · exact h.live hs
  have hbegun : ∀ {m'}, Steps (Deed.copying m.nextSpace s) (m₁.view [] []) (m'.view [] []) →
      Begun m m' s userSp := by
    intro m' hsteps
    obtain ⟨huser, hnext⟩ := hsteps.spaces_eq fun d hd => keepsSpaces_of_copying hd
    have hfirst : Steps (Deed.making m.nextSpace s) (m.view [] []) (m₁.view [] []) :=
      Steps.single hstep (.inr (.inl rfl))
    exact ⟨hfirst.trans (hsteps.mono fun d hd => .inl hd), Eq.trans hnext hnext₁,
      Eq.trans huser huser₁⟩
  refine (copyInOrder_ends hready hsrc fun vpn hvpn => ?_).mono ?_ ?_
  · rw [hpages₁]
    exact horder vpn hvpn
  · exact fun _ _ hsteps => ⟨hbegun hsteps.1, hsteps.2⟩
  · refine fun _ _ hfailed =>
      ⟨hfailed.1.mono fun hnot hnodup => hnot ⟨hnodup, ?_⟩, hbegun hfailed.2⟩
    intro vpn _
    rw [hpages₁]
    exact Machine.page?_eq_none (space?_nextSpace hfresh) vpn

/-- A child that was completed: it has a page in every place where its parent has one. -/
structure Completed (m m' : Machine) (s : SpaceId) : Prop where
  steps : Steps (Deed.making m.nextSpace s) (m.view [] []) (m'.view [] [])
  fresh : (m'.view [] []).Fresh
  parent : (m.view [] []).Live s
  userSp_eq : m'.userSp? = Function.update m.userSp? m.nextSpace (m.userSp? s)
  page_ne_none : ∀ vpn, m.page? s vpn ≠ none → m'.page? m.nextSpace vpn ≠ none

theorem Begun.completed {m' : Machine} {parent : Space} (h : Begun m m' s parent.userSp)
    (hfresh : (m.view [] []).Fresh) (hparent : m.space? s = some parent)
    (hpages : ∀ vpn, m.page? s vpn ≠ none → m'.page? m.nextSpace vpn ≠ none) :
    Completed m { m' with nextSpace := m.nextSpace + 1 } s := by
  refine ⟨?_, ?_, Machine.live_of_space? hparent, ?_, hpages⟩
  · refine h.steps.tail (d := .next) ?_ (.inr (.inr rfl))
    have hnext := Step.next (V := m'.view [] [])
    rw [show (m'.view [] []).nextSpace = m.nextSpace from h.nextSpace_eq] at hnext
    exact hnext
  · intro t ht hlive
    change m.nextSpace + 1 ≤ t at ht
    rcases h.others hlive with rfl | hold
    · exact Nat.not_succ_le_self _ ht
    · exact hfresh t (Nat.le_of_succ_le ht) hold
  · refine h.userSp_eq.trans ?_
    simp only [Machine.userSp?, hparent, Option.map_some]

/-- A child that was begun and removed again. -/
structure Abandoned (m m₁ m' : Machine) (s : SpaceId) : Prop where
  making : Steps (Deed.making m.nextSpace s) (m.view [] []) (m₁.view [] [])
  dropping : Steps (Deed.dropping m.nextSpace) (m₁.view [] []) (m'.view [] [])
  fresh : (m'.view [] []).Fresh
  nextSpace_eq : m'.nextSpace = m.nextSpace
  dead : m'.userSp? m.nextSpace = none

theorem Abandoned.steps {m₁ m' : Machine} (h : Abandoned m m₁ m' s) :
    Steps (Deed.forking m.nextSpace s) (m.view [] []) (m'.view [] []) :=
  (h.making.mono fun _ hd => forking_of_making hd).trans
    (h.dropping.mono fun _ hd => .inr (.inl hd))

theorem Begun.abandoned {m₁ : Machine} {userSp : ℕ} (visit : Visit) (h : Begun m m₁ s userSp)
    (hc : (m.view [] []).Consistent) (hfresh : (m.view [] []).Fresh) :
    ∃ m', dropSpaceBy visit m.nextSpace m₁ = .ok () m' ∧ Abandoned m m₁ m' s := by
  obtain ⟨m', hdrop, hsteps, -, hnone⟩ := dropSpaceBy_ok visit (h.steps.consistent hc) h.live
  obtain ⟨hnext, hlive⟩ := hsteps.live_of_live fun d hd => makesNoSpace_of_dropping hd
  have hnext' : m'.nextSpace = m.nextSpace := Eq.trans hnext h.nextSpace_eq
  refine ⟨m', hdrop, h.steps, hsteps, fun t ht hlive' => ?_, hnext', hnone⟩
  change m'.nextSpace ≤ t at ht
  rw [hnext'] at ht
  rcases h.others (hlive t hlive') with rfl | hold
  · exact hlive' hnone
  · exact hfresh t ht hold

/-- The copying is completed, or the child is removed and the copying has failed, or the copying
has panicked. -/
theorem copyOrDrop_cases {order : List VirtPage} (visit : Visit) (hc : (m.view [] []).Consistent)
    (hfresh : (m.view [] []).Fresh) (horder : ∀ vpn ∈ order, m.page? s vpn ≠ none) (userSp : ℕ) :
    let begin := m.setSpace m.nextSpace { Space.empty with userSp }
    let copyOrDrop := onStop (copyInOrder m.nextSpace s order) (dropSpaceBy visit m.nextSpace) begin
    (∃ m', copyOrDrop = .ok () m' ∧ Begun m m' s userSp ∧
      ∀ vpn ∈ order, m'.page? m.nextSpace vpn ≠ none) ∨
      (∃ e m₁ m', copyOrDrop = .error (.failed e) m' ∧
        CopyFails (¬order.Nodup) s (m₁.view [] []) e ∧ Abandoned m m₁ m' s) ∨
      ∃ p m', copyOrDrop = .error (.panicked p) m' := by
  intro begin copyOrDrop
  have hready : Ready False m s [] := ⟨hc, False.elim, False.elim⟩
  have hcopy := copyToChild_ends hready hfresh horder userSp
  cases hresult : copyInOrder m.nextSpace s order begin with
  | ok a m₁ =>
      obtain ⟨hbegun, hpages⟩ := hcopy.ok_of_eq hresult
      exact .inl ⟨m₁, onStop_of_ok hresult _, hbegun, hpages⟩
  | error stop m₁ =>
      cases stop with
      | failed e =>
          obtain ⟨he, hbegun⟩ := hcopy.failed_of_eq hresult
          obtain ⟨m', hdrop, habandoned⟩ := hbegun.abandoned visit hc hfresh
          refine .inr (.inl ⟨e, m₁, m', ?_, he, habandoned⟩)
          refine (onStop_of_failed hresult _).trans ?_
          simp only [Bind.bind, EStateM.bind, hdrop]
          rfl
      | panicked p =>
          exact .inr (.inr (onStop_of_panicked hresult (dropSpaceBy visit m.nextSpace)))

/-- A child is an address space that did not exist before. One that fails leaves none. -/
theorem forkBy_ends (visit : Visit) (h : Ready False m s []) (hfresh : (m.view [] []).Fresh) :
    Ends False (forkBy visit s) m (fun child m' => child = m.nextSpace ∧ Completed m m' s)
      fun e m' => e = .ioError ∧ (m.view [] []).Live s ∧
        ∃ m₁, (m₁.view [] []).Unreadable s ∧ Abandoned m m₁ m' s := by
  unfold forkBy
  refine Ends.space h.live fun parent hparent => ?_
  refine Ends.bind_ok rfl (Ends.bind_ok rfl ?_)
  rcases copyOrDrop_cases visit h.consistent hfresh
      (fun vpn hvpn => (mem_order_iff hparent visit).mp hvpn) parent.userSp with
    ⟨m', hok, hbegun, hpages⟩ | ⟨e, m₁, m', hfailed, he, habandoned⟩ | ⟨p, m', hpanic⟩
  · have hcompleted := hbegun.completed hfresh hparent fun vpn hp =>
      hpages vpn ((mem_order_iff hparent visit).mpr hp)
    exact Ends.bind_ok hok (Ends.bind_ok rfl (Ends.pure ⟨rfl, hcompleted⟩))
  · refine Ends.bind_failed hfailed ?_
    cases he with
    | taken hnot => exact (hnot (nodup_order visit parent)).elim
    | unreadable hshort =>
        exact ⟨rfl, Machine.live_of_space? hparent, m₁, hshort, habandoned⟩
  · have hends : Ends False (onStop
        (copyInOrder m.nextSpace s (visit.order parent.pages.keys))
        (dropSpaceBy visit m.nextSpace))
        (m.setSpace m.nextSpace { Space.empty with userSp := parent.userSp })
        (fun _ _ => False) fun _ _ => False := Ends.of_panicked hpanic False.elim
    exact hends.bind_total fun _ _ hf => hf.elim

end MachineM

end DemandPaging
