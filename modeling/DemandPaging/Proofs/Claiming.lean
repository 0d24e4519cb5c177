import DemandPaging.Proofs.Eviction

/-! # Bringing pages in

A page that is not resident gets a frame, zeroed, and is filled from where its contents are. While a
frame is found for it, other pages may move out, but it stays as it is itself.
-/

namespace DemandPaging

/-! ## What making room keeps -/

/-- Two records of one page that differ at most in where its contents are. -/
structure Page.Alike (before after : Page) : Prop where
  vpn_eq : after.vpn = before.vpn
  writable_eq : after.writable = before.writable
  isUninit_eq : after.isUninit = before.isUninit
  type_eq : after.type = before.type
  segment?_eq : after.segment? = before.segment?

theorem Page.Alike.refl (page : Page) : page.Alike page :=
  ⟨rfl, rfl, rfl, rfl, rfl⟩

theorem Page.Alike.trans {a b c : Page} (h : a.Alike b) (h' : b.Alike c) : a.Alike c :=
  ⟨h'.vpn_eq.trans h.vpn_eq, h'.writable_eq.trans h.writable_eq,
    h'.isUninit_eq.trans h.isUninit_eq, h'.type_eq.trans h.type_eq,
    h'.segment?_eq.trans h.segment?_eq⟩

theorem Spill.alike {swap swap' : SwapArea} {bytes : PageBytes} {page : Page} {kind : PageKind}
    (h : Spill swap page.kind bytes kind swap') : page.Alike { page with frame := none, kind } := by
  obtain ⟨vpn, writable, frame, pageKind⟩ := page
  cases h with
  | anon => exact ⟨rfl, rfl, rfl, rfl, rfl⟩
  | file => exact ⟨rfl, rfl, rfl, rfl, rfl⟩

theorem Page.alike_child {page : Page} (htouched : page.isUninit = false) (frame : Option Frame) :
    page.Alike ⟨page.vpn, page.writable, frame, MachineM.childKind page.kind⟩ := by
  obtain ⟨vpn, writable, pageFrame, kind⟩ := page
  cases kind with
  | uninit => cases htouched
  | anon | file => exact ⟨rfl, rfl, rfl, rfl, rfl⟩

theorem Page.Alike.backing?_eq {before after : Page} (h : before.Alike after) :
    after.backing? = before.backing? := by
  rw [backing?, backing?, h.segment?_eq]

section AlikeRel

variable {a b c : Option Page} {page : Page}

theorem alikeRel_refl (a : Option Page) : Option.Rel Page.Alike a a := by
  cases a with
  | none => exact .none
  | some page => exact .some (Page.Alike.refl page)

theorem alikeRel_trans (h : Option.Rel Page.Alike a b) (h' : Option.Rel Page.Alike b c) :
    Option.Rel Page.Alike a c := by
  cases h with
  | none => exact h'
  | some hab =>
      cases h' with
      | some hbc => exact .some (hab.trans hbc)

theorem alikeRel_eq_none_iff (h : Option.Rel Page.Alike a b) : b = none ↔ a = none := by
  cases h with
  | none => rfl
  | some => simp

theorem exists_after_of_alikeRel (h : Option.Rel Page.Alike a b) (ha : a = some page) :
    ∃ after, b = some after ∧ page.Alike after := by
  subst ha
  cases h with
  | some halike => exact ⟨_, rfl, halike⟩

theorem exists_before_of_alikeRel (h : Option.Rel Page.Alike a b) (hb : b = some page) :
    ∃ before, a = some before ∧ before.Alike page := by
  subst hb
  cases h with
  | some halike => exact ⟨_, rfl, halike⟩

end AlikeRel

/-- What making room for a page leaves as it is. -/
structure View.Roomier (V W : View) : Prop where
  alike : ∀ s vpn, Option.Rel Page.Alike (V.page s vpn) (W.page s vpn)
  absent : ∀ {s vpn page}, V.page s vpn = some page → page.frame = none →
    W.page s vpn = some page
  userSp_eq : W.userSp = V.userSp
  nextSpace_eq : W.nextSpace = V.nextSpace
  pins_eq : W.pins = V.pins

namespace View.Roomier

variable {U V W : View} {s : SpaceId} {vpn : VirtPage} {page : Page}

theorem of_page_eq (hp : W.page = V.page) (hu : W.userSp = V.userSp)
    (hn : W.nextSpace = V.nextSpace) (hpins : W.pins = V.pins) : V.Roomier W := by
  refine ⟨fun s vpn => ?_, fun h _ => by rw [hp, h], hu, hn, hpins⟩
  rw [hp]
  exact alikeRel_refl _

theorem refl (V : View) : V.Roomier V :=
  of_page_eq rfl rfl rfl rfl

theorem trans (h : U.Roomier V) (h' : V.Roomier W) : U.Roomier W :=
  ⟨fun s vpn => alikeRel_trans (h.alike s vpn) (h'.alike s vpn),
    fun hp hf => h'.absent (h.absent hp hf) hf, h'.userSp_eq.trans h.userSp_eq,
    h'.nextSpace_eq.trans h.nextSpace_eq, h'.pins_eq.trans h.pins_eq⟩

theorem page_eq_none_iff (h : V.Roomier W) : W.page s vpn = none ↔ V.page s vpn = none :=
  alikeRel_eq_none_iff (h.alike s vpn)

theorem exists_page (h : V.Roomier W) (hp : V.page s vpn = some page) :
    ∃ after, W.page s vpn = some after ∧ page.Alike after :=
  exists_after_of_alikeRel (h.alike s vpn) hp

end View.Roomier

/-- A step that makes room moves at most a page that has a frame. -/
theorem Step.roomier {d : Deed} {V W : View} (hstep : Step d V W) (hd : d ∈ Deed.room)
    (h : V.Consistent) : V.Roomier W := by
  cases hstep
  case evict i e page entry bytes kind swap pool full victim found mapped loaded spilled zeroed =>
    have hown := (h.listed e).mp (List.mem_of_getElem? victim)
    refine ⟨fun s vpn => ?_, fun {s vpn p} hp hf => ?_, rfl, rfl, rfl⟩
    · simp only [View.put]
      by_cases hsv : e.space = s ∧ e.vpn = vpn
      · obtain ⟨rfl, rfl⟩ := hsv
        rw [setAt_same, found]
        exact .some spilled.alike
      · rw [setAt_of_ne hsv]
        exact alikeRel_refl _
    · have hsv : ¬(e.space = s ∧ e.vpn = vpn) := by
        rintro ⟨rfl, rfl⟩
        rw [View.frame_of_page hp, hf] at hown
        cases hown
      exact (setAt_of_ne hsv).trans hp
  case take => exact .of_page_eq rfl rfl rfl rfl
  case sweep => exact .of_page_eq rfl rfl rfl rfl
  case spoil => exact .of_page_eq rfl rfl rfl rfl
  case giveBack => exact .of_page_eq rfl rfl rfl rfl
  all_goals exact hd.elim

theorem Steps.roomier {V W : View} (hsteps : Steps Deed.room V W) (h : V.Consistent) :
    V.Roomier W := by
  have hboth := hsteps.invariant (fun X => X.Consistent ∧ V.Roomier X)
    (fun _ hd _ _ hstep hx => ⟨hstep.consistent hx.1, hx.2.trans (hstep.roomier hd hx.1)⟩)
    ⟨h, View.Roomier.refl V⟩
  exact hboth.2

/-- A page cannot be filled when there is room for it: its file ends within its part. -/
def View.Lacks (V : View) (page : Page) : Prop :=
  ∃ U segment bytes, Steps Deed.room V U ∧ page.segment? = some segment ∧
    segment.loadInto U.files PageBytes.zero = (bytes, false)

namespace MachineM

variable {m : Machine} {s : SpaceId} {vpn : VirtPage} {held rest : List Frame}
  {pins : List BackingId} {frame : Frame} {bytes : PageBytes} {page : Page} {pool : FramePool}
  {segment : Segment} {sound : Prop}

/-! ## Reading segments -/

theorem loadSegment_of_complete (hload : m.pool.load frame = .ok PageBytes.zero)
    (hread : segment.loadInto m.files PageBytes.zero = (bytes, true))
    (hstore : m.pool.store frame bytes = .ok pool) :
    loadSegment segment frame m = .ok () { m with pool } := by
  have hsegment : readSegment segment PageBytes.zero m = .ok (bytes, true) m := by
    simp only [readSegment, get, getThe, MonadStateOf.get, Bind.bind, EStateM.bind, EStateM.get,
      hread]
    rfl
  simp only [loadSegment, Bind.bind, EStateM.bind, loadFrame_of_ok hload, hsegment,
    storeFrame_of_ok hstore]
  rfl

theorem loadSegment_of_short (hload : m.pool.load frame = .ok PageBytes.zero)
    (hread : segment.loadInto m.files PageBytes.zero = (bytes, false))
    (hstore : m.pool.store frame bytes = .ok pool) :
    ∃ events, loadSegment segment frame m = .error (.failed .ioError) { m with pool, events } := by
  have hsegment : readSegment segment PageBytes.zero m = .ok (bytes, false)
      { m with events := m.events.push (.shortRead segment.offset segment.readBytes) } := by
    simp only [readSegment, get, getThe, MonadStateOf.get, Bind.bind, EStateM.bind, EStateM.get,
      hread]
    rfl
  have hstored : storeFrame frame bytes
      { m with events := m.events.push (.shortRead segment.offset segment.readBytes) } =
        .ok () { m with
          pool
          events := m.events.push (.shortRead segment.offset segment.readBytes) } :=
    storeFrame_of_ok hstore
  refine ⟨m.events.push (.shortRead segment.offset segment.readBytes), ?_⟩
  simp only [loadSegment, Bind.bind, EStateM.bind, loadFrame_of_ok hload, hsegment, hstored]
  rfl

theorem loadSegment_cases (segment : Segment) (hload : m.pool.load frame = .ok PageBytes.zero)
    (hstore : ∀ bytes, ∃ pool, m.pool.store frame bytes = .ok pool) :
    ∃ bytes pool, m.pool.store frame bytes = .ok pool ∧
      (segment.loadInto m.files PageBytes.zero = (bytes, true) ∧
          loadSegment segment frame m = .ok () { m with pool } ∨
        segment.loadInto m.files PageBytes.zero = (bytes, false) ∧
          ∃ events, loadSegment segment frame m =
            .error (.failed .ioError) { m with pool, events }) := by
  rcases hread : segment.loadInto m.files PageBytes.zero with ⟨bytes, complete⟩
  obtain ⟨pool, hpool⟩ := hstore bytes
  refine ⟨bytes, pool, hpool, ?_⟩
  cases complete with
  | true => exact .inl ⟨rfl, loadSegment_of_complete hload hread hpool⟩
  | false => exact .inr ⟨rfl, loadSegment_of_short hload hread hpool⟩

/-! ## Filling a frame -/

/-- A page is filled from where its contents are, unless a file is too short; then nothing but the
frame has changed. -/
theorem swapIn_cases (h : (m.view held pins).Consistent) (hp : m.page? s vpn = some page)
    (hfree : page.frame = none) (hheld : frame ∈ held)
    (hzero : m.pool.load frame = .ok PageBytes.zero) :
    (∃ m' kind bytes pool swap files, swapIn page frame m = .ok { page with kind } m' ∧
      Fill m.swap m.files page.kind bytes kind swap files ∧
      m.pool.store frame bytes = .ok pool ∧
      m'.view held pins = { m.view held pins with pool, swap, files }) ∨
    (∃ m' segment bytes pool, swapIn page frame m = .error (.failed .ioError) m' ∧
      page.segment? = some segment ∧ segment.loadInto m.files PageBytes.zero = (bytes, false) ∧
      m.pool.store frame bytes = .ok pool ∧
      m'.view held pins = { m.view held pins with pool }) := by
  have hstore := FramePool.store_of_lt (h.held_lt hheld)
  have hplaced := (h.settled hp).placed
  have hslot := View.slot_of_page (V := m.view held pins) hp
  obtain ⟨pageVpn, writable, pageFrame, kind⟩ := page
  simp only at hfree
  subst hfree
  cases kind with
  | uninit touch =>
      cases touch with
      | zero =>
          exact .inl
            ⟨m, _, _, m.pool, m.swap, m.files, rfl, .zero, FramePool.store_of_load hzero, rfl⟩
      | copy segment =>
          obtain ⟨bytes, pool, hpool, ⟨hread, hload⟩ | ⟨hread, events, hload⟩⟩ :=
            loadSegment_cases segment hzero hstore
          · exact .inl ⟨{ m with pool, files := m.files.release segment.backing }, _, bytes, pool,
              m.swap, m.files.release segment.backing, bind_of_ok hload, .copy hread, hpool, rfl⟩
          · exact .inr ⟨_, segment, bytes, pool, bind_of_error hload, rfl, hread, hpool, rfl⟩
      | share segment =>
          obtain ⟨bytes, pool, hpool, ⟨hread, hload⟩ | ⟨hread, events, hload⟩⟩ :=
            loadSegment_cases segment hzero hstore
          · exact .inl ⟨{ m with pool }, _, bytes, pool, m.swap, m.files, bind_of_ok hload,
              .share hread, hpool, rfl⟩
          · exact .inr ⟨_, segment, bytes, pool, bind_of_error hload, rfl, hread, hpool, rfl⟩
  | anon slot =>
      cases slot with
      | none => simp [Page.Placed] at hplaced
      | some slot =>
          obtain ⟨slots, hsupplies, howners⟩ := h.slotted
          have hmem := howners.mem hslot
          obtain ⟨bytes, hread⟩ := hsupplies.read hmem
          obtain ⟨freed, hfreed, -⟩ := (hsupplies.perm (List.perm_cons_erase hmem)).release
          obtain ⟨pool, hpool⟩ := hstore bytes
          refine .inl ⟨{ m with
            pool, swap := freed, events := m.events.push (.swappedIn pageVpn slot) }, _, _, pool,
            freed, m.files, ?_, .slot hread hfreed, hpool, rfl⟩
          have hrelease : releaseSlot slot { m with pool } =
              .ok () { m with pool, swap := freed } := releaseSlot_of_ok hfreed
          simp only [swapIn, Bind.bind, EStateM.bind, loadFromSwap_of_ok hread hpool, hrelease]
          rfl
  | file segment =>
      obtain ⟨bytes, pool, hpool, ⟨hread, hload⟩ | ⟨hread, events, hload⟩⟩ :=
        loadSegment_cases segment hzero hstore
      · exact .inl ⟨{ m with pool }, _, bytes, pool, m.swap, m.files, bind_of_ok hload,
          .file hread, hpool, rfl⟩
      · exact .inr ⟨_, segment, bytes, pool, bind_of_error hload, rfl, hread, hpool, rfl⟩

/-! ## Claiming -/

/-- A page that is installed is mapped to its frame and listed with it. -/
theorem install_ok (page : Page) (hlive : (m.view (frame :: rest) pins).Live s)
    (hfree : page.frame = none) (hentry : m.entryAt? s page.vpn = none) :
    ∃ m', install s page frame m = .ok () m' ∧
      m'.view rest pins = (m.view (frame :: rest) pins).occupied s page frame m.pool rest := by
  have hoccupy : (liftM (page.occupy frame) : MachineM Page) m =
      .ok { page with frame := some frame } m := by
    simp only [Page.occupy, hfree]
    rfl
  obtain ⟨m₁, hmap, hview₁⟩ := mapPage_ok hlive hentry frame page.writable
  have huser₁ : m₁.userSp? = m.userSp? := congrArg View.userSp hview₁
  have hlive₁ : (Machine.view { m₁ with frames := m₁.frames.push ⟨frame, s, page.vpn⟩ }
      (frame :: rest) pins).Live s := by
    change m₁.userSp? s ≠ none
    rw [huser₁]
    exact hlive
  obtain ⟨m₂, hput, hview₂⟩ := putPage_ok hlive₁ { page with frame := some frame }
  refine ⟨m₂, ?_, ?_⟩
  · simp only [install, Bind.bind, EStateM.bind]
    rw [hoccupy]
    simp only [hmap]
    exact hput
  · have hframes₁ : m₁.frames = m.frames := congrArg View.frames hview₁
    have hview : m₂.view rest pins = { m₂.view (frame :: rest) pins with held := rest } := rfl
    rw [hview, hview₂]
    change { m₁.view (frame :: rest) pins with
      page := setAt m₁.page? s page.vpn (some { page with frame := some frame })
      frames := m₁.frames.push ⟨frame, s, page.vpn⟩
      held := rest } = _
    have hpages₁ : m₁.page? = m.page? := congrArg View.page hview₁
    rw [hview₁, hpages₁, hframes₁]
    rfl

theorem exists_release {V : View} (h : V.Consistent) (hfirst : V.held = frame :: rest) :
    ∃ pool, V.pool.release frame = .ok pool := by
  have hsupplied := h.supplied
  rw [hfirst] at hsupplied
  obtain ⟨pool, hpool, -⟩ := (hsupplied.perm List.perm_middle).release
  exact ⟨pool, hpool⟩

theorem steps_giveBack {V : View} {spoiled : FramePool} (hheld : V.held = [frame])
    (hstore : V.pool.store frame bytes = .ok spoiled) (hfreed : spoiled.release frame = .ok pool) :
    Steps {Deed.spoil frame, Deed.giveBack frame} V { V with pool, held := [] } := by
  have hspoil : Step (.spoil frame) V { V with pool := spoiled } :=
    Step.spoil (hheld ▸ List.mem_cons_self) hstore
  exact (Steps.single hspoil (.inl rfl)).tail (Step.giveBack hheld hfreed) (.inr rfl)

/-- The frame of an action that fails goes back, whatever the action has stored in it. -/
theorem guardFrame_of_failed {α : Type} {action : MachineM α} {e : Errno} {m₁ : Machine}
    {spoiled : FramePool} (h : (m.view [frame] pins).Consistent)
    (haction : action m = .error (.failed e) m₁)
    (hstore : m.pool.store frame bytes = .ok spoiled)
    (hview : m₁.view [frame] pins = { m.view [frame] pins with pool := spoiled }) :
    ∃ m' pool, guardFrame frame action m = .error (.failed e) m' ∧
      spoiled.release frame = .ok pool ∧ m'.view [] pins = { m.view [] pins with pool } := by
  have hspoil : Step (.spoil frame) (m.view [frame] pins) (m₁.view [frame] pins) := by
    rw [hview]
    exact Step.spoil List.mem_cons_self hstore
  have hpool₁ : m₁.pool = spoiled := congrArg View.pool hview
  obtain ⟨pool, hfreed⟩ := exists_release (hspoil.consistent h) rfl
  refine ⟨{ m₁ with pool }, pool, ?_, hpool₁ ▸ hfreed, ?_⟩
  · rw [guardFrame, onStop_of_failed haction, bind_of_ok (releaseFrame_of_ok hfreed)]
    rfl
  · change { m₁.view [frame] pins with pool, held := [] } = _
    rw [hview]
    rfl

/-- A zeroed frame is filled for a page that is not resident, or, if the page's file is too short,
given back, and nothing else has changed. -/
theorem fill_cases (h : (m.view [frame] pins).Consistent) (hp : m.page? s vpn = some page)
    (hfree : page.frame = none) (hzero : m.pool.load frame = .ok PageBytes.zero) :
    (∃ m', (do install s (← guardFrame frame (swapIn page frame)) frame : MachineM Unit) m =
        .ok () m' ∧
      Step (.bring s vpn) (m.view [frame] pins) (m'.view [] pins) ∧
      ∃ after, m'.page? s vpn = some after ∧ after.frame ≠ none ∧
        after.writable = page.writable) ∨
    ∃ m', (do install s (← guardFrame frame (swapIn page frame)) frame : MachineM Unit) m =
        .error (.failed .ioError) m' ∧
      ∃ segment bytes spoiled pool, page.segment? = some segment ∧
        segment.loadInto m.files PageBytes.zero = (bytes, false) ∧
        m.pool.store frame bytes = .ok spoiled ∧ spoiled.release frame = .ok pool ∧
        m'.view [] pins = { m.view [] pins with pool } := by
  rcases swapIn_cases h hp hfree List.mem_cons_self hzero with
    ⟨m₁, kind, bytes, pool, swap, files, hswap, hfill, hstore, hview⟩ |
    ⟨m₁, segment, bytes, spoiled, hswap, hsegment, hread, hstore, hview⟩
  · have hsettled := h.settled hp
    have hvpn := hsettled.vpn_eq
    subst hvpn
    have hbefore : (m.view [frame] pins).Live s := Machine.live_of_page? hp
    have hlive : (m₁.view [frame] pins).Live s := by
      rw [hview]
      exact hbefore
    have hentry : m₁.entryAt? s page.vpn = none :=
      (congrFun (congrFun (congrArg View.entry hview) s) page.vpn).trans (hsettled.of_none hfree)
    obtain ⟨m₂, hinstall, hview₂⟩ := install_ok { page with kind } hlive hfree hentry
    have hpool₁ : m₁.pool = pool := congrArg View.pool hview
    refine .inl ⟨m₂, (bind_of_ok (onStop_of_ok hswap _)).trans hinstall, ?_,
      { page with kind, frame := some frame }, ?_, by simp, rfl⟩
    · rw [hview₂, hview, hpool₁]
      exact Step.bring hp hfree rfl hfill hstore
    · have hpages := congrFun (congrFun (congrArg View.page hview₂) s) page.vpn
      exact hpages.trans setAt_same
  · obtain ⟨m', pool, hguard, hfreed, hview'⟩ := guardFrame_of_failed h hswap hstore hview
    exact .inr ⟨m', bind_of_error hguard, segment, bytes, spoiled, pool, hsegment, hread, hstore,
      hfreed, hview'⟩

theorem fill_ends (h : (m.view [frame] pins).Consistent) (hp : m.page? s vpn = some page)
    (hfree : page.frame = none) (hzero : m.pool.load frame = .ok PageBytes.zero) :
    Ends sound (do install s (← guardFrame frame (swapIn page frame)) frame : MachineM Unit) m
      (fun _ m' => Step (.bring s vpn) (m.view [frame] pins) (m'.view [] pins) ∧
        ∃ after, m'.page? s vpn = some after ∧ after.frame ≠ none ∧
          after.writable = page.writable)
      fun e m' => e = .ioError ∧ ∃ segment bytes spoiled pool, page.segment? = some segment ∧
        segment.loadInto m.files PageBytes.zero = (bytes, false) ∧
        m.pool.store frame bytes = .ok spoiled ∧ spoiled.release frame = .ok pool ∧
        m'.view [] pins = { m.view [] pins with pool } := by
  rcases fill_cases h hp hfree hzero with ⟨m', hok, hfilled⟩ | ⟨m', hfailed, hshort⟩
  · exact Ends.of_ok hok hfilled
  · exact Ends.of_failed hfailed ⟨rfl, hshort⟩

/-- A zeroed frame was acquired for a page that is in none. -/
structure AcquiredFor (m : Machine) (pins : List BackingId) (s : SpaceId) (vpn : VirtPage)
    (page : Page) (frame : Frame) (m₁ : Machine) : Prop where
  acquires : Acquires m pins frame m₁
  room : Steps Deed.room (m.view [] pins) (m₁.view [frame] pins)
  consistent : (m₁.view [frame] pins).Consistent
  zeroed : m₁.pool.load frame = .ok PageBytes.zero
  found : m₁.page? s vpn = some page

theorem claim_of_resident (hp : m.page? s vpn = some page) (hframe : page.frame ≠ none) :
    claim s vpn m = .ok () m := by
  have hresident : page.isResident = true := Option.isSome_iff_ne_none.mpr hframe
  rw [claim, bind_of_ok (page_of_some hp)]
  simp only [hresident]
  rfl

theorem claim_of_absent {ok : Unit → Machine → Prop} {failed : Errno → Machine → Prop}
    (h : (m.view [] pins).Consistent) (hp : m.page? s vpn = some page) (hfree : page.frame = none)
    (hpos : sound → 0 < m.pool.total)
    (hfill : ∀ frame m₁, AcquiredFor m pins s vpn page frame m₁ →
      Ends sound (do install s (← guardFrame frame (swapIn page frame)) frame : MachineM Unit) m₁
        ok failed) :
    Ends sound (claim s vpn) m ok failed := by
  have hresident : ¬page.isResident = true := by simp [Page.isResident, hfree]
  unfold claim
  refine Ends.bind_ok (page_of_some hp) ?_
  rw [if_neg hresident]
  refine (acquireFrame_ends h hpos).bind_total fun frame m₁ hacquires => hfill frame m₁ ?_
  obtain ⟨hroom, hzero⟩ := hacquires.room h
  exact ⟨hacquires, hroom, hroom.consistent h, hzero, (hroom.roomier h).absent hp hfree⟩

/-- A page that is claimed is resident then, unless its file is too short for it. -/
theorem claim_ends (h : (m.view [] pins).Consistent) (hp : m.page? s vpn = some page)
    (hpos : sound → 0 < m.pool.total) :
    Ends sound (claim s vpn) m
      (fun _ m' => Steps (Deed.claiming s vpn) (m.view [] pins) (m'.view [] pins) ∧
        ∃ after, m'.page? s vpn = some after ∧ after.frame ≠ none ∧
          after.writable = page.writable)
      fun e m' => e = .ioError ∧
        Steps (Deed.claiming s vpn) (m.view [] pins) (m'.view [] pins) ∧
        (m.view [] pins).Lacks page := by
  by_cases hfree : page.frame = none
  · refine claim_of_absent h hp hfree hpos fun frame m₁ hacquired => ?_
    have hsteps : Steps (Deed.claiming s vpn) (m.view [] pins) (m₁.view [frame] pins) :=
      hacquired.room.mono (Set.subset_insert _ _)
    refine (fill_ends hacquired.consistent hacquired.found hfree hacquired.zeroed).mono ?_ ?_
    · rintro - m' ⟨hbring, hafter⟩
      exact ⟨hsteps.tail hbring (Set.mem_insert _ _), hafter⟩
    · rintro e m' ⟨rfl, segment, bytes, spoiled, pool, hsegment, hread, hstore, hfreed, hview⟩
      refine ⟨rfl, ?_, _, segment, bytes, hacquired.room, hsegment, hread⟩
      have hback : Steps {Deed.spoil frame, Deed.giveBack frame} (m₁.view [frame] pins)
          (m'.view [] pins) := by
        rw [hview]
        exact steps_giveBack rfl hstore hfreed
      refine hsteps.trans (hback.mono ?_)
      rintro d (rfl | rfl) <;> exact Set.mem_insert_of_mem _ trivial
  · exact Ends.of_ok (claim_of_resident hp hfree) ⟨Steps.refl _, page, hp, hfree, rfl⟩

end MachineM

end DemandPaging
