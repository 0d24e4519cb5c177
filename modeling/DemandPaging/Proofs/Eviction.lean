import DemandPaging.Machine.Residency
import DemandPaging.Proofs.Actions
import DemandPaging.Proofs.Outcome
import DemandPaging.Proofs.Preservation

/-! # Taking frames

The clock ages the entries that it passes and picks a page that occupies a frame. That page is
moved out, and its frame is held, zeroed, by whoever asked for one.
-/

namespace DemandPaging

/-! ## The clock -/

/-- Address spaces after the clock has passed some of their pages. -/
structure Swept (spaces swept : SpaceMap) : Prop where
  pages_eq : ∀ s : SpaceId, (swept[s]?).map Space.pages = (spaces[s]?).map Space.pages
  userSp_eq : ∀ s : SpaceId, (swept[s]?).map Space.userSp = (spaces[s]?).map Space.userSp
  aged : ∀ (s : SpaceId) (vpn : VirtPage), Option.Rel PageTable.Entry.Aged
    ((spaces[s]?).bind (·.table.lookup? vpn)) ((swept[s]?).bind (·.table.lookup? vpn))

theorem agedRel_refl (entry : Option PageTable.Entry) :
    Option.Rel PageTable.Entry.Aged entry entry := by
  cases entry with
  | none => exact .none
  | some e => exact .some (PageTable.Entry.Aged.refl e)

theorem agedRel_trans {a b c : Option PageTable.Entry} (h : Option.Rel PageTable.Entry.Aged a b)
    (h' : Option.Rel PageTable.Entry.Aged b c) : Option.Rel PageTable.Entry.Aged a c := by
  cases h with
  | none => exact h'
  | some hab =>
      cases h' with
      | some hbc => exact .some (hab.trans hbc)

theorem Swept.refl (spaces : SpaceMap) : Swept spaces spaces :=
  ⟨fun _ => rfl, fun _ => rfl, fun _ _ => agedRel_refl _⟩

theorem Swept.trans {a b c : SpaceMap} (h : Swept a b) (h' : Swept b c) : Swept a c :=
  ⟨fun s => (h'.pages_eq s).trans (h.pages_eq s), fun s => (h'.userSp_eq s).trans (h.userSp_eq s),
    fun s vpn => agedRel_trans (h.aged s vpn) (h'.aged s vpn)⟩

/-- Passing an entry ages that entry alone. -/
theorem swept_clearAccessed (e : FrameEntry) (spaces : SpaceMap) :
    Swept spaces (e.clearAccessed spaces) := by
  unfold FrameEntry.clearAccessed
  cases hspace : spaces[e.space]? with
  | none => exact Swept.refl spaces
  | some space =>
      refine ⟨fun s => ?_, fun s => ?_, fun s vpn => ?_⟩
      all_goals
        simp only [Std.TreeMap.getElem?_insert, Std.compare_eq_iff_eq]
        split
        case isFalse => first | rfl | exact agedRel_refl _
        case isTrue hs => ?_
      · rw [← hs, hspace]
        rfl
      · rw [← hs, hspace]
        rfl
      · rw [← hs, hspace]
        simp only [Option.bind_some, PageTable.setAccessed, PageTable.lookup?_put]
        split
        · next hvpn =>
          rw [hvpn]
          cases space.table.lookup? vpn with
          | none => exact .none
          | some entry => exact .some entry.aged_put
        · exact agedRel_refl _

namespace FrameTable

theorem scan_swept (entries : List FrameEntry) (steps : ℕ) (state : Scan) :
    Swept state.spaces (scan entries steps state).spaces := by
  induction steps generalizing state with
  | zero => exact Swept.refl _
  | succ steps ih =>
      simp only [scan]
      split
      · exact Swept.refl _
      · next e he =>
        split
        · exact (swept_clearAccessed e _).trans (ih ⟨_, _, _⟩)
        · exact Swept.refl _

/-- The scan ends at an entry of the table and leaves the hand at one. -/
theorem scan_inside {entries : List FrameEntry} (hpos : 0 < entries.length) (steps : ℕ)
    {state : Scan} (h : state.examined < entries.length ∧ state.hand < entries.length) :
    (scan entries steps state).examined < entries.length ∧
      (scan entries steps state).hand < entries.length := by
  induction steps generalizing state with
  | zero => exact h
  | succ steps ih =>
      have hindex := Nat.mod_lt state.hand hpos
      have hnext := Nat.mod_lt (state.hand % entries.length + 1) hpos
      simp only [scan]
      split
      · exact ⟨hindex, hnext⟩
      · split
        · exact ih ⟨hindex, hnext⟩
        · exact ⟨hindex, hnext⟩

theorem victimScan_inside {table : FrameTable} (hne : table.entries ≠ []) (spaces : SpaceMap) :
    (table.victimScan spaces).examined < table.entries.length ∧
      (table.victimScan spaces).hand < table.entries.length := by
  have hpos := List.length_pos_iff.mpr hne
  unfold victimScan size
  obtain ⟨steps, hsteps⟩ : ∃ steps, 2 * table.entries.length = steps + 1 :=
    ⟨2 * table.entries.length - 1, by omega⟩
  have hindex := Nat.mod_lt table.hand hpos
  have hnext := Nat.mod_lt (table.hand % table.entries.length + 1) hpos
  rw [hsteps]
  simp only [scan]
  split
  · exact ⟨hindex, hnext⟩
  · split
    · exact scan_inside hpos steps ⟨hindex, hnext⟩
    · exact ⟨hindex, hnext⟩

end FrameTable

/-- The machine after the scan for a victim, before the victim leaves the frame table. -/
def Machine.swept (m : Machine) : Machine :=
  { m with
    spaces := (m.frames.victimScan m.spaces).spaces
    frames := { m.frames with hand := (m.frames.victimScan m.spaces).hand } }

def Machine.victimIndex (m : Machine) : ℕ :=
  (m.frames.victimScan m.spaces).examined

namespace MachineM

variable {m : Machine} {s : SpaceId} {vpn : VirtPage} {pins : List BackingId}
  {frame : Frame} {bytes : PageBytes} {page : Page} {sound : Prop}

theorem page?_swept (m : Machine) : m.swept.page? = m.page? := by
  funext t u
  have hpages := congrArg (Option.bind · fun pages : PageMap => pages[u]?)
    ((FrameTable.scan_swept m.frames.entries (2 * m.frames.size)
      ⟨m.frames.hand, m.frames.hand, m.spaces⟩).pages_eq t)
  simp only [Option.bind_map] at hpages
  exact hpages

theorem userSp?_swept (m : Machine) : m.swept.userSp? = m.userSp? :=
  funext fun t => (FrameTable.scan_swept m.frames.entries (2 * m.frames.size)
    ⟨m.frames.hand, m.frames.hand, m.spaces⟩).userSp_eq t

theorem step_swept (hne : m.frames.entries ≠ []) (held : List Frame) (pins : List BackingId) :
    Step .sweep (m.view held pins) (m.swept.view held pins) := by
  have hscan := FrameTable.scan_swept m.frames.entries (2 * m.frames.size)
    ⟨m.frames.hand, m.frames.hand, m.spaces⟩
  have hstep := Step.sweep (V := m.view held pins) (m.frames.victimScan m.spaces).hand hscan.aged
    (FrameTable.victimScan_inside hne m.spaces).2
  simp only [Machine.view, page?_swept, userSp?_swept] at hstep ⊢
  exact hstep

theorem takeVictim_ok (hne : m.frames.entries ≠ []) :
    ∃ e, m.frames.entries[m.victimIndex]? = some e ∧
      takeVictim m =
        .ok e { m.swept with frames := m.swept.frames.removeAt m.victimIndex } := by
  have hget := List.getElem?_eq_getElem (FrameTable.victimScan_inside hne m.spaces).1
  have hempty : m.frames.isEmpty = false := by simpa [FrameTable.isEmpty] using hne
  refine ⟨_, hget, ?_⟩
  simp only [takeVictim, get, getThe, MonadStateOf.get, Bind.bind, EStateM.bind, EStateM.get,
    hempty, hget]
  rfl

theorem takeVictim_of_empty (hempty : m.frames.entries = []) :
    takeVictim m = .error (.panicked .noFrameToEvict) m := by
  have hnone : m.frames.isEmpty = true := by simp [FrameTable.isEmpty, hempty]
  simp only [takeVictim, get, getThe, MonadStateOf.get, Bind.bind, EStateM.bind, EStateM.get,
    hnone]
  rfl

/-! ## Saving contents -/

theorem writeSegment_ok (segment : Segment) (bytes : PageBytes) (held : List Frame)
    (pins : List BackingId) :
    ∃ m', writeSegment segment bytes m = .ok () m' ∧ m'.view held pins =
      { m.view held pins with files := (segment.writeBack m.files bytes).2 } := by
  by_cases hall : (segment.writeBack m.files bytes).1 = segment.readBytes
  · refine ⟨{ m with files := (segment.writeBack m.files bytes).2 }, ?_, rfl⟩
    simp only [writeSegment, get, getThe, MonadStateOf.get, Bind.bind, EStateM.bind, EStateM.get,
      hall]
    rfl
  · refine ⟨{ m with
        files := (segment.writeBack m.files bytes).2
        events := m.events.push (.shortWrite (segment.writeBack m.files bytes).1
          segment.readBytes segment.offset) }, ?_, rfl⟩
    · simp only [writeSegment, get, getThe, MonadStateOf.get, Bind.bind, EStateM.bind, EStateM.get,
        hall]
      rfl

theorem saveSegment_ok (segment : Segment) (hload : m.pool.load frame = .ok bytes)
    (held : List Frame) (pins : List BackingId) :
    ∃ m', saveSegment segment frame m = .ok () m' ∧ m'.view held pins =
      { m.view held pins with files := (segment.writeBack m.files bytes).2 } := by
  obtain ⟨m', hwrite, hview⟩ := writeSegment_ok (m := m) segment bytes held pins
  refine ⟨m', ?_, hview⟩
  simp only [saveSegment, Bind.bind, EStateM.bind, loadFrame_of_ok hload]
  exact hwrite

/-! ## Evictions -/

/-- A page that is out of the tables is all that does not agree. -/
theorem stranded {m' : Machine} {i : ℕ} {e : FrameEntry} (h : (m.view [] pins).Consistent)
    (hvictim : m.frames.entries[i]? = some e) (hp : m.page? e.space e.vpn = some page)
    (hframe : page.frame = some e.frame) (hkind : page.kind = .anon none)
    (hview : m'.view [] pins =
      { m.view [] pins with
        entry := setAt m.entryAt? e.space e.vpn none
        frames := m.frames.removeAt i }) : m'.Stranded e := by
  have hpages : m'.page? = m.page? := congrArg View.page hview
  have hperm := FrameTable.perm_removeAt hvictim
  refine ⟨⟨page, by rwa [hpages], (h.settled hp).vpn_eq, hframe, hkind⟩, pins, ?_⟩
  have hout : (m.frames.entries.map FrameEntry.frame ++ []).Perm
      ((m.frames.removeAt i).entries.map FrameEntry.frame ++ [e.frame]) := by
    rw [List.append_nil]
    exact (hperm.map FrameEntry.frame).trans (List.perm_append_singleton _ _).symm
  have hwithout : m'.without e pins = { (m.view [] pins).put e.space e.vpn none none with
      frames := m.frames.removeAt i, held := [e.frame] } := by
    change { m'.view [] pins with
      page := setAt m'.page? e.space e.vpn none, held := [e.frame] } = _
    rw [hview, hpages]
    rfl
  rw [hwithout]
  exact h.leave none (m.frames.removeAt i) hperm (fun q hq => by cases hq) (h.supplied.perm hout)
    rfl (h.slotted_setAt (h.not_slot_of_frame hp hframe).symm)

/-- A page that finds no slot in the swap area finds a page in every slot. -/
theorem swapExhausted {V : View} {e : FrameEntry} (h : V.Consistent) (hfull : V.swap.alloc? = none)
    (hpages : m.page? = V.page) (hswap : m.swap = V.swap) (hstranded : m.Stranded e) :
    m.SwapExhausted e := by
  obtain ⟨slots, hsupplies, howners⟩ := h.slotted
  refine ⟨fun slot hlt => ?_, hstranded⟩
  rw [hswap] at hlt
  have hmem := hsupplies.mem_of_alloc?_eq_none hfull hlt
  obtain ⟨t, u, hown⟩ := (howners.mem_iff slot).mp hmem
  obtain ⟨other, hother, hslot⟩ := Option.bind_eq_some_iff.mp hown
  have hplaced := (h.settled hother).placed
  have hanon : other.kind = .anon (some slot) := by
    unfold Page.slot? at hslot
    split at hslot
    · next hkind => rw [hkind, hslot]
    · cases hslot
  refine ⟨t, u, other, by rw [hpages, hother], ?_, hanon⟩
  unfold Page.Placed at hplaced
  simpa [hanon] using hplaced

/-- The contents of a page that loses its frame go where its kind says, unless they need a slot and
none is free. -/
theorem swapOut_cases {slots : List Slot} (hslots : m.swap.Supplies slots)
    (hload : m.pool.load frame = .ok bytes)
    (hkind : page.kind = .anon none ∨ ∃ segment, page.kind = .file segment) (dirty : Bool)
    (held : List Frame) (pins : List BackingId) :
    (∃ kind swap m', swapOut page frame dirty m = .ok { page with kind } m' ∧
      Spill m.swap page.kind bytes kind swap ∧ m'.view held pins =
        { m.view held pins with swap, files := page.kind.savedIn bytes dirty m.files }) ∨
    (m.swap.alloc? = none ∧ page.kind = .anon none ∧ ∃ events,
      swapOut page frame dirty m = .error (.panicked .outOfSwapSlots) { m with events }) := by
  obtain ⟨pageVpn, writable, pageFrame, kind⟩ := page
  rcases hkind with hkind | ⟨segment, hkind⟩
  · simp only at hkind
    subst hkind
    simp only [swapOut]
    cases halloc : m.swap.alloc? with
    | none =>
        have hsave : saveToSwap frame m = .error (.panicked .outOfSwapSlots)
            { m with events := m.events.push (.swapFull m.swap.used) } := by
          simp only [saveToSwap, get, getThe, MonadStateOf.get, Bind.bind, EStateM.bind,
            EStateM.get, halloc]
          rfl
        exact .inr ⟨rfl, trivial, _, bind_of_error hsave⟩
    | some taken =>
        obtain ⟨slot, taken⟩ := taken
        obtain ⟨-, -, -, htaken, -⟩ := hslots.alloc? halloc
        obtain ⟨written, hwrite, -⟩ := htaken.write List.mem_cons_self bytes
        have hsave : saveToSwap frame m = .ok slot { m with swap := written } := by
          simp only [saveToSwap, get, getThe, MonadStateOf.get, Bind.bind, EStateM.bind,
            EStateM.get, halloc, loadFrame_of_ok hload, hwrite]
          rfl
        exact .inl ⟨_, _, _, bind_of_ok hsave, .anon halloc hwrite, rfl⟩
  · simp only at hkind
    subst hkind
    simp only [swapOut]
    cases dirty with
    | false => exact .inl ⟨_, _, m, rfl, .file segment, rfl⟩
    | true =>
        obtain ⟨m', hsave, hview⟩ := saveSegment_ok segment hload held pins
        exact .inl ⟨_, _, m', bind_of_ok hsave, .file segment, hview⟩

/-- What an eviction does: the page that the scan ends at loses its frame. -/
structure Evicts (m : Machine) (pins : List BackingId) (e : FrameEntry) (frame : Frame)
    (m' : Machine) : Prop where
  victim : m.frames.entries[m.victimIndex]? = some e
  frame_eq : frame = e.frame
  step : Step (.evict e.space e.vpn) (m.swept.view [] pins) (m'.view [frame] pins)
  frames_eq : m'.frames = { m.swept.frames.removeAt m.victimIndex with
    evictions := m.frames.evictions + 1 }
  zeroed : m'.pool.load frame = .ok PageBytes.zero

/-- An eviction finds its victim in the frame table, and stops only if the victim finds no slot. -/
theorem evict_cases (h : (m.view [] pins).Consistent) (hfull : m.pool.alloc? = none)
    (hne : m.frames.entries ≠ []) :
    (∃ e m', evict m = .ok e.frame m' ∧ Evicts m pins e e.frame m') ∨
    (m.swap.alloc? = none ∧ ∃ e m', evict m = .error (.panicked .outOfSwapSlots) m' ∧
      m'.SwapExhausted e ∧ m'.userSp? = m.userSp?) := by
  obtain ⟨e, hvictim, htake⟩ := takeVictim_ok hne
  have hc : (m.swept.view [] pins).Consistent := (step_swept hne [] pins).consistent h
  have hown := (hc.listed e).mp (List.mem_of_getElem? hvictim)
  obtain ⟨page, hpage, hframe⟩ := Option.bind_eq_some_iff.mp hown
  obtain ⟨entry, hentry, -⟩ := hc.mapped hpage hframe
  have hlt := hc.frame_lt hpage hframe
  obtain ⟨bytes, hload⟩ := FramePool.load_of_lt hlt
  obtain ⟨slots, hslots, -⟩ := hc.slotted
  have hsettled := hc.settled hpage
  have hkind : page.kind = .anon none ∨ ∃ segment, page.kind = .file segment := by
    have hplaced := hsettled.placed
    unfold Page.Placed at hplaced
    split at hplaced
    · simp [hframe] at hplaced
    · next slot hk => exact .inl (by simpa [hframe, hk] using hplaced)
    · next segment hk => exact .inr ⟨segment, hk⟩
  obtain ⟨m₁, hunmap, hview₁⟩ := unmapPage_ok
    (m := { m.swept with frames := m.swept.frames.removeAt m.victimIndex }) hentry [] pins
  have hpages₁ : m₁.page? = m.swept.page? := congrArg View.page hview₁
  have hpool₁ : m₁.pool = m.swept.pool := congrArg View.pool hview₁
  have hswap₁ : m₁.swap = m.swept.swap := congrArg View.swap hview₁
  have hfiles₁ : m₁.files = m.swept.files := congrArg View.files hview₁
  have hpage₁ : MachineM.page e.space e.vpn m₁ = .ok page m₁ := page_of_some (by rwa [hpages₁])
  unfold evict
  rw [bind_of_ok htake, bind_of_ok hunmap, bind_of_ok hpage₁]
  rcases swapOut_cases (by rwa [hswap₁]) (by rwa [hpool₁]) hkind (entry.has .dirty) [] pins with
    ⟨kind, swap, m₂, hsaved, hspill, hview₂⟩ | ⟨hnone, hanon, events, hstopped⟩
  · refine .inl ⟨e, ?_⟩
    rw [bind_of_ok hsaved]
    rw [hview₁, hfiles₁] at hview₂
    rw [hswap₁] at hspill
    have hpages₂ : m₂.page? = m.swept.page? := congrArg View.page hview₂
    have hlive : (m₂.view [] pins).Live e.space :=
      Machine.live_of_page? (by rw [hpages₂]; exact hpage)
    obtain ⟨m₃, hput, hview₃⟩ := putPage_ok hlive (Page.vacate { page with kind })
    rw [hview₂, hpages₂] at hview₃
    have hpool₃ : m₃.pool = m.swept.pool := congrArg View.pool hview₃
    have hframes₃ : m₃.frames = m.swept.frames.removeAt m.victimIndex :=
      congrArg View.frames hview₃
    obtain ⟨pool, hstore⟩ := FramePool.store_of_lt hlt PageBytes.zero
    rw [bind_of_ok hput, bind_of_ok (storeFrame_of_ok (by rw [hpool₃]; exact hstore))]
    refine ⟨_, rfl, hvictim, rfl, ?_, ?_, ?_⟩
    · convert Step.evict (V := m.swept.view [] pins) (by rw [← hfull]; rfl) hvictim hpage
        hentry hload hspill hstore using 1
      change { m₃.view [] pins with
        pool
        frames := { m₃.frames with evictions := m₃.frames.evictions + 1 }
        held := [e.frame] } = _
      rw [hview₃, hframes₃, ← hsettled.vpn_eq]
      rfl
    · change { m₃.frames with evictions := m₃.frames.evictions + 1 } = _
      rw [hframes₃]
      rfl
    · exact (FramePool.load_of_store hstore e.frame).trans (if_pos rfl)
  · rw [hswap₁] at hnone
    have hstranded : Machine.Stranded { m₁ with events } e :=
      stranded hc hvictim hpage hframe hanon hview₁
    have huser₁ : m₁.userSp? = m.userSp? := (congrArg View.userSp hview₁).trans (userSp?_swept m)
    exact .inr ⟨hnone, e, _, bind_of_error hstopped,
      swapExhausted hc hnone hpages₁ hswap₁ hstranded, huser₁⟩

theorem evict_ends (h : (m.view [] pins).Consistent) (hfull : m.pool.alloc? = none)
    (hpos : sound → 0 < m.pool.total) :
    Ends sound evict m (fun frame m' => ∃ e, Evicts m pins e frame m') fun _ _ => False := by
  by_cases hne : m.frames.entries = []
  · have htake : Ends sound takeVictim m (fun _ _ => False) fun _ _ => False := by
      refine Ends.of_panicked (takeVictim_of_empty hne) fun hs => ?_
      have hmem := h.supplied.mem_of_alloc?_eq_none hfull (hpos hs)
      simp [Machine.view, hne] at hmem
    exact htake.bind_total fun _ _ hf => hf.elim
  · rcases evict_cases h hfull hne with ⟨e, m', hevict, hevicts⟩ | ⟨-, e, m', hevict, hexhausted, -⟩
    · exact Ends.of_ok hevict ⟨e, hevicts⟩
    · exact Ends.of_panicked hevict fun _ => ⟨rfl, e, hexhausted⟩

/-- An eviction panics for want of a victim, or of a slot for its victim. -/
theorem evict_stopped {m' : Machine} {p : Panic} (h : (m.view [] pins).Consistent)
    (hfull : m.pool.alloc? = none) (hpanic : evict m = .error (.panicked p) m') :
    (p = .noFrameToEvict ∧ m.pool.total = 0 ∧ m' = m) ∨
      (p = .outOfSwapSlots ∧ m.swap.alloc? = none ∧ ∃ e, m'.SwapExhausted e ∧
        m'.userSp? = m.userSp?) := by
  by_cases hne : m.frames.entries = []
  · unfold evict at hpanic
    rw [bind_of_error (takeVictim_of_empty hne)] at hpanic
    obtain ⟨hp, rfl⟩ := EStateM.Result.error.inj hpanic
    refine .inl ⟨(Stop.panicked.inj hp).symm, Nat.eq_zero_of_not_pos fun hpos => ?_, rfl⟩
    have hmem := h.supplied.mem_of_alloc?_eq_none hfull hpos
    simp [Machine.view, hne] at hmem
  · rcases evict_cases h hfull hne with ⟨e, m₁, hevict, -⟩ | ⟨hslot, e, m₁, hevict, hexhausted⟩
    · cases hevict.symm.trans hpanic
    · obtain ⟨hp, rfl⟩ := EStateM.Result.error.inj (hevict.symm.trans hpanic)
      exact .inr ⟨(Stop.panicked.inj hp).symm, hslot, e, hexhausted⟩

theorem Evicts.steps {e : FrameEntry} {m' : Machine} (h : Evicts m pins e frame m') :
    Steps Deed.room (m.view [] pins) (m'.view [frame] pins) := by
  have hne : m.frames.entries ≠ [] := fun hnil => by simpa [hnil] using h.victim
  have hfirst : Steps Deed.room (m.view [] pins) (m.swept.view [] pins) :=
    Steps.single (step_swept hne [] pins) trivial
  exact hfirst.tail h.step trivial

/-- How a zeroed frame is found: a free one is taken, or a page is evicted. -/
inductive Acquires (m : Machine) (pins : List BackingId) (frame : Frame) (m' : Machine) : Prop where
  | free {pool : FramePool} (free : m.pool.alloc? = some (frame, pool))
      (same : m' = { m with pool })
  | evicted {e : FrameEntry} (full : m.pool.alloc? = none) (evicts : Evicts m pins e frame m')

theorem acquireFrame_of_full (hfull : m.pool.alloc? = none) : acquireFrame m = evict m := by
  simp only [acquireFrame, get, getThe, MonadStateOf.get, Bind.bind, EStateM.bind, EStateM.get,
    hfull]

theorem acquireFrame_of_free {pool : FramePool} (hfree : m.pool.alloc? = some (frame, pool)) :
    acquireFrame m = .ok frame { m with pool } := by
  simp only [acquireFrame, get, getThe, MonadStateOf.get, Bind.bind, EStateM.bind, EStateM.get,
    hfree]
  rfl

theorem acquireFrame_stopped {m' : Machine} {p : Panic}
    (hpanic : acquireFrame m = .error (.panicked p) m') :
    m.pool.alloc? = none ∧ evict m = .error (.panicked p) m' := by
  cases halloc : m.pool.alloc? with
  | none => exact ⟨rfl, (acquireFrame_of_full halloc).symm.trans hpanic⟩
  | some taken => cases (acquireFrame_of_free halloc).symm.trans hpanic

theorem acquireFrame_ends (h : (m.view [] pins).Consistent) (hpos : sound → 0 < m.pool.total) :
    Ends sound acquireFrame m (fun frame m' => Acquires m pins frame m') fun _ _ => False := by
  cases halloc : m.pool.alloc? with
  | none =>
      refine Ends.of_eq (acquireFrame_of_full halloc) ((evict_ends h halloc hpos).mono ?_
        fun _ _ hf => hf)
      rintro frame m' ⟨e, hevicts⟩
      exact .evicted halloc hevicts
  | some taken =>
      obtain ⟨frame, pool⟩ := taken
      exact Ends.of_ok (acquireFrame_of_free halloc) (.free halloc rfl)

theorem Acquires.room {m' : Machine} (hacquires : Acquires m pins frame m')
    (h : (m.view [] pins).Consistent) :
    Steps Deed.room (m.view [] pins) (m'.view [frame] pins) ∧
      m'.pool.load frame = .ok PageBytes.zero := by
  cases hacquires with
  | free halloc hsame =>
      subst hsame
      refine ⟨Steps.single (.take (V := m.view [] pins) halloc) trivial, ?_⟩
      exact (h.supplied.load_alloc? halloc frame).trans (if_pos rfl)
  | evicted hfull hevicts => exact ⟨hevicts.steps, hevicts.zeroed⟩

end MachineM

end DemandPaging
