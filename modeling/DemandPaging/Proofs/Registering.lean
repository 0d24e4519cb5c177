import DemandPaging.Machine.Registry
import DemandPaging.Proofs.Claiming

/-! # Registering and removing pages

A page is registered where none is, and a page that is removed gives back all that it holds. Neither
can go wrong in a machine whose records agree with its pages.
-/

namespace DemandPaging

theorem PageMap.getElem?_of_not_contains {pages : PageMap} {vpn : VirtPage}
    (h : pages.contains vpn = false) : pages[vpn]? = none := by
  rw [Std.TreeMap.contains_eq_isSome_getElem?] at h
  exact Option.isSome_eq_false_iff.mp h |> Option.isNone_iff_eq_none.mp

theorem PageMap.getElem?_of_contains {pages : PageMap} {vpn : VirtPage}
    (h : pages.contains vpn = true) : pages[vpn]? ≠ none := by
  rw [Std.TreeMap.contains_eq_isSome_getElem?] at h
  exact Option.isSome_iff_ne_none.mp h

theorem PageMap.registerAll_cons (page : Page) (run : List Page) (pages : PageMap) :
    pages.registerAll (page :: run) =
      pages.register page >>= fun pages => PageMap.registerAll pages run := rfl

theorem PageMap.exists_of_registerAll_cons {page : Page} {run : List Page}
    {pages registered : PageMap} (h : pages.registerAll (page :: run) = .ok registered) :
    pages.contains page.vpn = false ∧
      PageMap.registerAll (pages.insert page.vpn page) run = .ok registered := by
  rw [registerAll_cons] at h
  cases hone : pages.register page with
  | error e => simp [hone, Bind.bind, Except.bind] at h
  | ok inserted =>
      rw [hone] at h
      obtain ⟨hfree, rfl⟩ := register_eq_ok.mp hone
      exact ⟨hfree, h⟩

theorem PageMap.registerAll_eq_error {run : List Page} {pages : PageMap} {e : Errno}
    (h : pages.registerAll run = .error e) : e = .alreadyExists := by
  induction run generalizing pages with
  | nil => cases h
  | cons page run ih =>
      rw [registerAll_cons] at h
      by_cases htaken : pages.contains page.vpn = true
      · simp only [PageMap.register, htaken, if_true, Bind.bind, Except.bind] at h
        exact (Except.error.inj h).symm
      · simp only [PageMap.register, htaken, Bind.bind, Except.bind] at h
        exact ih h

def Deed.registeringRun (s : SpaceId) (run : List Page) : Set Deed :=
  {d | ∃ page ∈ run, d = .register s page}

theorem Deed.registeringRun_subset (s : SpaceId) (run : List Page) :
    Deed.registeringRun s run ⊆ Deed.registering s := by
  rintro d ⟨page, -, rfl⟩
  exact ⟨page, rfl⟩

theorem Deed.registeringRun_mono {s : SpaceId} {run longer : List Page} (h : run ⊆ longer) :
    Deed.registeringRun s run ⊆ Deed.registeringRun s longer := by
  rintro d ⟨page, hpage, rfl⟩
  exact ⟨page, h hpage, rfl⟩

namespace MachineM

variable {m : Machine} {s : SpaceId} {vpn : VirtPage} {held rest : List Frame}
  {pins : List BackingId} {page : Page} {sound : Prop}

/-! ## References -/

theorem retainPage_eq (page : Page) (m : Machine) :
    retainPage page m = .ok () { m with files := page.retainedIn m.files } := by
  unfold retainPage Page.retainedIn
  cases page.backing? <;> rfl

theorem releasePage_eq (page : Page) (m : Machine) :
    releasePage page m = .ok () { m with files := page.releasedIn m.files } := by
  unfold releasePage Page.releasedIn
  cases page.backing? <;> rfl

theorem forM_retainPage (run : List Page) (m : Machine) :
    run.forM retainPage m =
      .ok () { m with files := run.foldl (fun files page => page.retainedIn files) m.files } := by
  induction run generalizing m with
  | nil => rfl
  | cons page run ih =>
      change (retainPage page >>= fun _ => run.forM retainPage) m = _
      simp only [Bind.bind, EStateM.bind, retainPage_eq, ih]
      rfl

/-! ## Registering -/

theorem register_of_fresh {space : Space} (hspace : m.space? s = some space)
    (hfresh : m.page? s page.vpn = none) (held : List Frame) (pins : List BackingId) :
    ∃ m', register s page m = .ok () m' ∧
      m'.view held pins = (m.view held pins).registered s page := by
  have htaken : ¬space.pages.contains page.vpn = true := fun hin =>
    PageMap.getElem?_of_contains hin ((Machine.page?_of_space? hspace page.vpn).symm.trans hfresh)
  have hok : ofResult (space.pages.register page) m =
      .ok (space.pages.insert page.vpn page) m := by
    simp only [PageMap.register, htaken]
    rfl
  refine ⟨_, ?_, Machine.view_putPage (m := { m with files := page.retainedIn m.files }) hspace page
    held pins⟩
  rw [register, bind_of_ok (space_of_some hspace), bind_of_ok hok,
    bind_of_ok (retainPage_eq page m)]
  rfl

theorem register_ends (hlive : sound → (m.view held pins).Live s) (page : Page) :
    Ends sound (register s page) m
      (fun _ m' => (m.view held pins).Live s ∧ m.page? s page.vpn = none ∧
        m'.view held pins = (m.view held pins).registered s page)
      fun e m' => e = .alreadyExists ∧ m' = m ∧ m.page? s page.vpn ≠ none := by
  by_cases hfresh : m.page? s page.vpn = none
  · cases hspace : m.space? s with
    | some space =>
        obtain ⟨m', hregister, hview⟩ := register_of_fresh hspace hfresh held pins
        exact Ends.of_ok hregister ⟨Machine.live_of_space? hspace, hfresh, hview⟩
    | none =>
        refine Ends.space hlive fun space hsome => ?_
        cases hspace.symm.trans hsome
  · unfold register
    refine Ends.space hlive fun space hspace => ?_
    have htaken : space.pages.contains page.vpn = true := by
      by_contra hnot
      rw [Machine.page?_of_space? hspace] at hfresh
      exact hfresh (PageMap.getElem?_of_not_contains (Bool.eq_false_iff.mpr hnot))
    have hrefused : ofResult (space.pages.register page) m =
        .error (.failed .alreadyExists) m := by
      simp only [PageMap.register, htaken, if_true]
      rfl
    exact Ends.bind_failed hrefused ⟨rfl, rfl, hfresh⟩

/-- A page that a request may register. -/
def Registrable (pins : List BackingId) (page : Page) : Prop :=
  ∃ vpn writable touch, page = .untouched vpn writable touch ∧ vpn.number < userPages ∧
    ∀ segment, touch.segment? = some segment → segment.backing ∈ pins

theorem registered_step {V : View} (hlive : V.Live s) (hfresh : V.page s page.vpn = none)
    (hpage : Registrable V.pins page) : Step (.register s page) V (V.registered s page) := by
  obtain ⟨vpn, writable, touch, rfl, hin, hpins⟩ := hpage
  exact Step.register hlive hfresh hin hpins

/-- Pages that can all be registered are registered one after another. -/
theorem steps_registerAll {run : List Page} {pages registered : PageMap} {V : View}
    (hreg : pages.registerAll run = .ok registered) (hlive : V.Live s)
    (hpages : ∀ u, V.page s u = pages[u]?) (hrun : ∀ page ∈ run, Registrable V.pins page) :
    Steps (Deed.registeringRun s run) V
      { V with
        page := fun t u => if s = t then registered[u]? else V.page t u
        files := run.foldl (fun files page => page.retainedIn files) V.files } := by
  induction run generalizing pages V with
  | nil =>
      obtain rfl : pages = registered := Except.ok.inj hreg
      refine Steps.of_eq ?_
      have hsame : (fun t u => if s = t then pages[u]? else V.page t u) = V.page := by
        funext t u
        split
        · next hst => rw [← hst, hpages]
        · rfl
      rw [hsame]
      rfl
  | cons page run ih =>
      obtain ⟨hfree, htail⟩ := PageMap.exists_of_registerAll_cons hreg
      have hfresh : V.page s page.vpn = none := by
        rw [hpages]
        exact PageMap.getElem?_of_not_contains hfree
      have hstep := registered_step hlive hfresh (hrun page (by simp))
      have hinserted : ∀ u, (V.registered s page).page s u =
          (pages.insert page.vpn page)[u]? := by
        intro u
        simp only [View.registered, setAt, true_and, Std.TreeMap.getElem?_insert,
          Std.compare_eq_iff_eq, hpages]
      have hrest := ih (V := V.registered s page) htail hlive hinserted
        fun q hq => hrun q (by simp [hq])
      have hfirst : Steps (Deed.registeringRun s (page :: run)) V (V.registered s page) :=
        Steps.single hstep ⟨page, List.mem_cons_self, rfl⟩
      have hall :=
        hfirst.trans (hrest.mono (Deed.registeringRun_mono (List.subset_cons_self _ _)))
      have hother : (fun t u => if s = t then registered[u]? else V.page t u) =
          fun t u => if s = t then registered[u]? else (V.registered s page).page t u := by
        funext t u
        split
        · rfl
        · next hst => exact (setAt_of_ne fun h => hst h.1).symm
      rw [hother]
      exact hall

theorem registerAll_ends {run : List Page} (hlive : sound → (m.view held pins).Live s)
    (hrun : ∀ page ∈ run, Registrable pins page) :
    Ends sound (registerAll s run) m
      (fun _ m' => Steps (Deed.registeringRun s run) (m.view held pins) (m'.view held pins))
      fun e m' => e = .alreadyExists ∧ m' = m := by
  unfold registerAll
  refine Ends.space hlive fun space hspace => ?_
  cases hreg : space.pages.registerAll run with
  | error e =>
      have hrefused : ofResult (.error e : Except Errno PageMap) m = .error (.failed e) m := rfl
      exact Ends.bind_failed hrefused ⟨PageMap.registerAll_eq_error hreg, rfl⟩
  | ok pages =>
      have hok : ofResult (.ok pages) m = .ok pages m := rfl
      refine Ends.bind_ok hok (Ends.bind_ok (forM_retainPage run m) (Ends.of_ok rfl ?_))
      have hsteps := steps_registerAll (V := m.view held pins) hreg (Machine.live_of_space? hspace)
        (Machine.page?_of_space? hspace) hrun
      convert hsteps using 1
      exact Machine.view_setPages
        (m := { m with files := run.foldl (fun files page => page.retainedIn files) m.files })
        hspace pages held pins

/-! ## Removing -/

/-- A page leaves its frame, and the frame goes back. -/
theorem vacateFrame_ok {frame : Frame} {entry : PageTable.Entry} {bytes : PageBytes}
    {pool : FramePool} (hframe : page.frame = some frame)
    (hentry : m.entryAt? s page.vpn = some entry) (hload : m.pool.load frame = .ok bytes)
    (hfreed : m.pool.release frame = .ok pool) (held : List Frame) (pins : List BackingId) :
    ∃ m', vacateFrame s page m = .ok page.vacate m' ∧ m'.view held pins =
      { m.view held pins with
        entry := setAt m.entryAt? s page.vpn none
        frames := m.frames.removeFrame frame
        pool
        files := page.kind.savedIn bytes (entry.has .dirty) m.files } := by
  obtain ⟨m₁, hunmap, hview₁⟩ := unmapPage_ok hentry held pins
  have hpool₁ : m₁.pool = m.pool := congrArg View.pool hview₁
  have hfiles₁ : m₁.files = m.files := congrArg View.files hview₁
  have hframes₁ : m₁.frames = m.frames := congrArg View.frames hview₁
  have hsaved : ∃ m₂, vacateFrame s page m = (do
      modify fun m => { m with frames := m.frames.removeFrame frame }
      releaseFrame frame
      return page.vacate : MachineM Page) m₂ ∧ m₂.view held pins =
        { m₁.view held pins with
          files := page.kind.savedIn bytes (entry.has .dirty) m₁.files } := by
    cases hkind : page.kind with
    | uninit touch =>
        refine ⟨m₁, ?_, rfl⟩
        simp only [vacateFrame, hframe, Bind.bind, EStateM.bind, hunmap, hkind]
    | anon slot =>
        refine ⟨m₁, ?_, rfl⟩
        simp only [vacateFrame, hframe, Bind.bind, EStateM.bind, hunmap, hkind]
    | file segment =>
        cases hdirty : entry.has .dirty with
        | false =>
            refine ⟨m₁, ?_, rfl⟩
            simp only [vacateFrame, hframe, Bind.bind, EStateM.bind, hunmap, hkind, hdirty]
            rfl
        | true =>
            obtain ⟨m₂, hsave, hview₂⟩ := saveSegment_ok segment (by rw [hpool₁, hload]) held pins
            refine ⟨m₂, ?_, hview₂⟩
            simp only [vacateFrame, hframe, Bind.bind, EStateM.bind, hunmap, hkind, hdirty,
              if_true, hsave]
  obtain ⟨m₂, hsave, hview₂⟩ := hsaved
  have hpool₂ : m₂.pool = m.pool := (congrArg View.pool hview₂).trans hpool₁
  have hframes₂ : m₂.frames = m.frames := (congrArg View.frames hview₂).trans hframes₁
  have hrelease : releaseFrame frame { m₂ with frames := m₂.frames.removeFrame frame } =
      .ok () { m₂ with frames := m₂.frames.removeFrame frame, pool } :=
    releaseFrame_of_ok (by rw [← hfreed, ← hpool₂])
  refine ⟨{ m₂ with frames := m₂.frames.removeFrame frame, pool }, ?_, ?_⟩
  · rw [hsave]
    simp only [modify, modifyGet, MonadStateOf.modifyGet, EStateM.modifyGet, Bind.bind,
      EStateM.bind, hrelease]
    rfl
  · change { m₂.view held pins with frames := m₂.frames.removeFrame frame, pool } = _
    rw [hview₂, hview₁, hframes₂, hfiles₁]

theorem destroy_of_bare {left : Page} {m' : Machine} (hvacate : vacateFrame s page m = .ok left m')
    (hslot : left.slot? = none) :
    destroy s page m = .ok () { m' with files := left.releasedIn m'.files } := by
  have hrelease := releasePage_eq left m'
  obtain ⟨vpn, writable, frame, kind⟩ := left
  cases kind with
  | uninit touch => simpa only [destroy, Bind.bind, EStateM.bind, hvacate] using hrelease
  | anon slot =>
      obtain rfl : slot = none := hslot
      simpa only [destroy, Bind.bind, EStateM.bind, hvacate] using hrelease
  | file segment => simpa only [destroy, Bind.bind, EStateM.bind, hvacate] using hrelease

theorem destroy_of_slot {left : Page} {m' : Machine} {slot : Slot} {swap : SwapArea}
    (hvacate : vacateFrame s page m = .ok left m') (hslot : left.slot? = some slot)
    (hfreed : m'.swap.release slot = .ok swap) :
    destroy s page m = .ok () { m' with swap, files := left.releasedIn m'.files } := by
  have hrelease := releasePage_eq left { m' with swap }
  obtain ⟨vpn, writable, frame, kind⟩ := left
  cases kind with
  | uninit touch => cases hslot
  | anon held =>
      obtain rfl : held = some slot := hslot
      simpa only [destroy, Bind.bind, EStateM.bind, hvacate, releaseSlot_of_ok hfreed] using
        hrelease
  | file segment => cases hslot

/-- A page that is no longer registered is destroyed with all that it holds, whichever other pages
are registered. -/
theorem destroy_of_view {V : View} (h : V.Consistent) (hp : V.page s page.vpn = some page)
    (hview : { m.view V.held V.pins with page := V.page } = V) :
    ∃ m', destroy s page m = .ok () m' ∧ m'.page? = m.page? ∧
      Step (.discard s page.vpn) V
        { m'.view V.held V.pins with page := setAt V.page s page.vpn none } := by
  have hpool : m.pool = V.pool := congrArg View.pool hview
  have hswap : m.swap = V.swap := congrArg View.swap hview
  have hfiles : m.files = V.files := congrArg View.files hview
  have hframes : m.frames = V.frames := congrArg View.frames hview
  have hentries : m.entryAt? = V.entry := congrArg View.entry hview
  cases hframe : page.frame with
  | some frame =>
      obtain ⟨entry, hentry, -⟩ := h.mapped hp hframe
      obtain ⟨bytes, hload⟩ := FramePool.load_of_lt (h.frame_lt hp hframe)
      have hmem : ⟨frame, s, page.vpn⟩ ∈ V.frames.entries :=
        (h.listed ⟨frame, s, page.vpn⟩).mpr ((View.frame_of_page hp).trans hframe)
      have hperm := FrameTable.perm_removeFrame hmem h.frames_nodup
      obtain ⟨pool, hfreed, -⟩ :=
        (h.supplied.perm ((hperm.map FrameEntry.frame).append_right V.held)).release
      obtain ⟨m₁, hvacate, hview₁⟩ := vacateFrame_ok hframe (by rwa [hentries])
        (by rwa [hpool]) (by rwa [hpool]) V.held V.pins
      have hslot := h.not_slot_of_frame hp hframe
      rw [View.slot_of_page hp] at hslot
      have hfiles₁ : m₁.files = page.kind.savedIn bytes (entry.has .dirty) V.files :=
        (congrArg View.files hview₁).trans (by rw [← hfiles])
      refine ⟨_, destroy_of_bare hvacate hslot, congrArg View.page hview₁, ?_⟩
      convert Step.discardResident hp hframe hentry hload hfreed using 1
      change { m₁.view V.held V.pins with
        page := setAt V.page s page.vpn none, files := page.releasedIn m₁.files } = _
      rw [hfiles₁, hview₁, hentries, hframes]
      exact congrArg (fun W : View => { W with
        page := setAt V.page s page.vpn none
        entry := setAt V.entry s page.vpn none
        frames := V.frames.removeFrame frame
        pool
        files := page.releasedIn (page.kind.savedIn bytes (entry.has .dirty) V.files) }) hview
  | none =>
      have hvacate : vacateFrame s page m = .ok page m := by
        simp only [vacateFrame, hframe]
        rfl
      cases hslot : page.slot? with
      | some slot =>
          obtain ⟨slots, hsupplies, howners⟩ := h.slotted
          have hmem := howners.mem ((View.slot_of_page hp).trans hslot)
          obtain ⟨swap, hfreed, -⟩ := (hsupplies.perm (List.perm_cons_erase hmem)).release
          refine ⟨_, destroy_of_slot hvacate hslot (by rwa [hswap]), rfl, ?_⟩
          convert Step.discardSlot hp hframe hslot hfreed using 1
          change { m.view V.held V.pins with
            page := setAt V.page s page.vpn none, swap, files := page.releasedIn m.files } = _
          rw [hfiles]
          exact congrArg (fun W : View => { W with
            page := setAt V.page s page.vpn none
            swap
            files := page.releasedIn V.files }) hview
      | none =>
          refine ⟨_, destroy_of_bare hvacate hslot, rfl, ?_⟩
          convert Step.discardBare (V := V) hp hframe hslot using 1
          change { m.view V.held V.pins with
            page := setAt V.page s page.vpn none, files := page.releasedIn m.files } = _
          rw [hfiles]
          exact congrArg (fun W : View => { W with
            page := setAt V.page s page.vpn none
            files := page.releasedIn V.files }) hview

/-- A page that is no longer registered is destroyed with all that it holds. -/
theorem destroy_ok {m₁ : Machine} (h : (m.view held pins).Consistent)
    (hp : m.page? s page.vpn = some page)
    (hview₁ : m₁.view held pins =
      { m.view held pins with page := setAt m.page? s page.vpn none }) :
    ∃ m', destroy s page m₁ = .ok () m' ∧
      Step (.discard s page.vpn) (m.view held pins) (m'.view held pins) ∧
      m'.page? = setAt m.page? s page.vpn none := by
  have hview : { m₁.view held pins with page := m.page? } = m.view held pins := by
    rw [hview₁]
    rfl
  obtain ⟨m', hdestroy, hpages, hstep⟩ := destroy_of_view h hp hview
  have hpages' : m'.page? = setAt m.page? s page.vpn none :=
    hpages.trans (congrArg View.page hview₁)
  refine ⟨m', hdestroy, ?_, hpages'⟩
  change Step _ _ { m'.view held pins with page := setAt m.page? s page.vpn none } at hstep
  rw [← hpages'] at hstep
  exact hstep

theorem discard_ok (h : (m.view held pins).Consistent) (hlive : (m.view held pins).Live s)
    (vpn : VirtPage) :
    ∃ m', discard s vpn m = .ok () m' ∧
      Steps {Deed.discard s vpn} (m.view held pins) (m'.view held pins) ∧
      m'.page? = setAt m.page? s vpn none := by
  obtain ⟨space, hspace⟩ := Machine.exists_space_of_live hlive
  have hpage := Machine.page?_of_space? hspace vpn
  cases hp : m.page? s vpn with
  | none =>
      refine ⟨m, ?_, Steps.refl _, (setAt_eq_self hp).symm⟩
      rw [hp] at hpage
      simp only [discard, Bind.bind, EStateM.bind, space_of_some hspace, ← hpage]
      rfl
  | some page =>
      obtain rfl : page.vpn = vpn := (h.settled hp).vpn_eq
      obtain ⟨m₁, herase, hview₁⟩ := erasePage_ok hlive page.vpn
      obtain ⟨m', hdestroy, hstep, hpages⟩ := destroy_ok h hp hview₁
      rw [hp] at hpage
      refine ⟨m', ?_, Steps.single hstep rfl, hpages⟩
      simp only [discard, Bind.bind, EStateM.bind, space_of_some hspace, ← hpage, herase]
      exact hdestroy

/-! ## Whole address spaces -/

/-- Pages that are removed in some order are gone then, and the others stay registered. -/
theorem forM_discard_ok (order : List VirtPage) (h : (m.view held pins).Consistent)
    (hlive : (m.view held pins).Live s) :
    ∃ m', order.forM (discard s) m = .ok () m' ∧
      Steps (Deed.discarding s) (m.view held pins) (m'.view held pins) ∧
      m'.userSp? = m.userSp? ∧
      ∀ t u, m'.page? t u = if s = t ∧ u ∈ order then none else m.page? t u := by
  induction order generalizing m with
  | nil => exact ⟨m, rfl, Steps.refl _, rfl, by simp⟩
  | cons vpn order ih =>
      obtain ⟨m₁, hdiscard, hsteps, hpages⟩ := discard_ok h hlive vpn
      have huser : m₁.userSp? = m.userSp? := (hsteps.spaces_eq (by rintro d rfl; trivial)).1
      have hlive₁ : (m₁.view held pins).Live s := by
        change m₁.userSp? s ≠ none
        rw [huser]
        exact hlive
      obtain ⟨m₂, hrest, hsteps₂, huser₂, hpages₂⟩ := ih (hsteps.consistent h) hlive₁
      refine ⟨m₂, (bind_of_ok hdiscard).trans hrest, ?_, huser₂.trans huser,
        setAt_none_cons (by rwa [← hpages])⟩
      refine (hsteps.mono ?_).trans hsteps₂
      rintro d rfl
      exact ⟨vpn, rfl⟩

theorem table_isEmpty {space : Space} (hspace : m.space? s = some space)
    (hentries : ∀ vpn, m.entryAt? s vpn = none) : space.table.isEmpty = true := by
  rw [PageTable.isEmpty, Std.TreeMap.isEmpty_iff_forall_not_mem]
  intro vpn hmem
  have hnone : space.table.entries[vpn]? = none :=
    (Machine.entryAt?_of_space? hspace vpn).symm.trans (hentries vpn)
  rw [Std.TreeMap.mem_iff_isSome_getElem?, hnone] at hmem
  cases hmem

theorem recycleInOrder_eq {space : Space} (hspace : m.space? s = some space)
    (order : List VirtPage) :
    ∃ m', recycleInOrder s order m = (do
      order.forM (discard s)
      unless (← MachineM.space s).table.isEmpty do
        panic .assertionFailed : MachineM Unit) m' ∧
      ∀ held pins, m'.view held pins = m.view held pins := by
  by_cases hsize : 0 < space.pages.size
  · refine ⟨{ m with events := m.events.push (.recycling space.pages.size) }, ?_, fun _ _ => rfl⟩
    simp only [recycleInOrder, Bind.bind, EStateM.bind, space_of_some hspace, hsize, if_true]
    rfl
  · refine ⟨m, ?_, fun _ _ => rfl⟩
    simp only [recycleInOrder, Bind.bind, EStateM.bind, space_of_some hspace, hsize, if_false]

/-- All pages of an address space can be removed, in any order. -/
theorem recycleInOrder_ok (order : List VirtPage) (h : (m.view held pins).Consistent)
    (hlive : (m.view held pins).Live s) (horder : ∀ vpn, m.page? s vpn ≠ none → vpn ∈ order) :
    ∃ m', recycleInOrder s order m = .ok () m' ∧
      Steps (Deed.discarding s) (m.view held pins) (m'.view held pins) ∧
      (m'.view held pins).Live s ∧ ∀ vpn, m'.page? s vpn = none := by
  obtain ⟨space, hspace⟩ := Machine.exists_space_of_live hlive
  obtain ⟨m₁, hrun, hviews₁⟩ := recycleInOrder_eq hspace order
  have hview₁ := hviews₁ held pins
  obtain ⟨m₂, hforM, hsteps, huser, hpages⟩ := forM_discard_ok (m := m₁) order
    (by rw [hview₁]; exact h) (by rw [hview₁]; exact hlive)
  rw [hview₁] at hsteps
  have hlive₂ : (m₂.view held pins).Live s := by
    change m₂.userSp? s ≠ none
    rw [huser, show m₁.userSp? = m.userSp? from congrArg View.userSp hview₁]
    exact hlive
  have hnone : ∀ vpn, m₂.page? s vpn = none := by
    intro vpn
    rw [hpages, show m₁.page? = m.page? from congrArg View.page hview₁]
    by_cases hmem : vpn ∈ order
    · simp [hmem]
    · simpa [hmem] using fun hne => hmem (horder vpn hne)
  obtain ⟨space₂, hspace₂⟩ := Machine.exists_space_of_live hlive₂
  refine ⟨m₂, ?_, hsteps, hlive₂, hnone⟩
  have hempty := table_isEmpty hspace₂ fun vpn => (hsteps.consistent h).unmapped (hnone vpn)
  rw [hrun]
  simp only [Bind.bind, EStateM.bind, hforM, space_of_some hspace₂, hempty, if_true]
  rfl

theorem mem_order_iff {space : Space} (hspace : m.space? s = some space) (visit : Visit) :
    vpn ∈ visit.order space.pages.keys ↔ m.page? s vpn ≠ none := by
  rw [(visit.perm _).mem_iff, Machine.page?_of_space? hspace, Std.TreeMap.mem_keys,
    Std.TreeMap.mem_iff_isSome_getElem?]
  exact Option.isSome_iff_ne_none

theorem nodup_order (visit : Visit) (space : Space) : (visit.order space.pages.keys).Nodup :=
  (visit.perm _).nodup_iff.mpr space.pages.nodup_keys

theorem recycleBy_ok (visit : Visit) (h : (m.view held pins).Consistent)
    (hlive : (m.view held pins).Live s) :
    ∃ m', recycleBy visit s m = .ok () m' ∧
      Steps (Deed.discarding s) (m.view held pins) (m'.view held pins) ∧
      (m'.view held pins).Live s ∧ ∀ vpn, m'.page? s vpn = none := by
  obtain ⟨space, hspace⟩ := Machine.exists_space_of_live hlive
  obtain ⟨m', hrun, hrest⟩ := recycleInOrder_ok (visit.order space.pages.keys) h hlive
    fun vpn hne => (mem_order_iff hspace visit).mpr hne
  refine ⟨m', ?_, hrest⟩
  simp only [recycleBy, Bind.bind, EStateM.bind, space_of_some hspace]
  exact hrun

/-- An address space is removed after its pages. -/
theorem dropSpaceBy_ok (visit : Visit) (h : (m.view held pins).Consistent)
    (hlive : (m.view held pins).Live s) :
    ∃ m', dropSpaceBy visit s m = .ok () m' ∧
      Steps (Deed.dropping s) (m.view held pins) (m'.view held pins) ∧
      (∀ vpn, m'.page? s vpn = none) ∧ m'.userSp? s = none := by
  obtain ⟨m₁, hrun, hsteps, -, hnone⟩ := recycleBy_ok visit h hlive
  have hspaces : ∀ t, Machine.space? { m₁ with spaces := m₁.spaces.erase s } t =
      if s = t then none else m₁.space? t := fun t => by
    simp only [Machine.space?, Std.TreeMap.getElem?_erase, Std.compare_eq_iff_eq]
  have hpage : Machine.page? { m₁ with spaces := m₁.spaces.erase s } = m₁.page? := by
    funext t u
    rw [Machine.page?, hspaces]
    split
    · next hst => exact hst ▸ (hnone u).symm
    · rfl
  have hentry : Machine.entryAt? { m₁ with spaces := m₁.spaces.erase s } = m₁.entryAt? := by
    funext t u
    rw [Machine.entryAt?, hspaces]
    split
    · next hst => exact hst ▸ ((hsteps.consistent h).unmapped (hnone u)).symm
    · rfl
  have huser : Machine.userSp? { m₁ with spaces := m₁.spaces.erase s } =
      Function.update m₁.userSp? s none := by
    funext t
    rw [Machine.userSp?, hspaces, Function.update_apply]
    by_cases hst : s = t
    · simp [hst]
    · simp [hst, Ne.symm hst, Machine.userSp?]
  refine ⟨{ m₁ with spaces := m₁.spaces.erase s }, ?_, ?_, fun vpn => ?_, ?_⟩
  · simp only [dropSpaceBy, Bind.bind, EStateM.bind, hrun]
    rfl
  · refine (hsteps.mono (Set.subset_insert _ _)).tail (d := .drop s) ?_ (Set.mem_insert _ _)
    have hview : Machine.view { m₁ with spaces := m₁.spaces.erase s } held pins =
        { m₁.view held pins with userSp := Function.update m₁.userSp? s none } := by
      simp only [Machine.view, hpage, hentry, huser]
    rw [hview]
    exact Step.drop hnone
  · rw [hpage, hnone]
  · rw [huser, Function.update_self]

/-- An address space that is put where none is has no pages. -/
theorem view_putSpace_empty (hdead : m.space? s = none) (userSp : ℕ) (held : List Frame)
    (pins : List BackingId) :
    (m.setSpace s { Space.empty with userSp }).view held pins =
      { m.view held pins with userSp := Function.update m.userSp? s (some userSp) } := by
  have hpage : (m.setSpace s { Space.empty with userSp }).page? = m.page? := by
    funext t u
    rw [Machine.page?, Machine.space?_setSpace]
    split
    · next hst => exact hst ▸ (Machine.page?_eq_none hdead u).symm
    · rfl
  have hentry : (m.setSpace s { Space.empty with userSp }).entryAt? = m.entryAt? := by
    funext t u
    rw [Machine.entryAt?, Machine.space?_setSpace]
    split
    · next hst => exact hst ▸ (Machine.entryAt?_eq_none hdead u).symm
    · rfl
  have huser : (m.setSpace s { Space.empty with userSp }).userSp? =
      Function.update m.userSp? s (some userSp) := by
    funext t
    rw [Machine.userSp?, Machine.space?_setSpace, Function.update_apply]
    by_cases hst : s = t
    · simp [hst]
    · simp [hst, Ne.symm hst, Machine.userSp?]
  simp only [Machine.view, hpage, hentry, huser]
  rfl

theorem step_create (hdead : m.space? s = none) (userSp : ℕ) (held : List Frame)
    (pins : List BackingId) :
    Step (.create s) (m.view held pins)
      ((m.setSpace s { Space.empty with userSp }).view held pins) := by
  rw [view_putSpace_empty hdead]
  refine Step.create ?_ fun vpn => Machine.page?_eq_none hdead vpn
  intro hlive
  obtain ⟨space, hspace⟩ := Machine.exists_space_of_live hlive
  rw [hdead] at hspace
  cases hspace

end MachineM

end DemandPaging
