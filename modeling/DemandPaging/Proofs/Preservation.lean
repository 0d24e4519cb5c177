import DemandPaging.Proofs.Consistent
import DemandPaging.Proofs.Step

/-! # Steps keep views consistent -/

namespace DemandPaging

/-! ## The frame table -/

namespace FrameTable

variable {table : FrameTable} {i : ℕ} {e : FrameEntry}

theorem perm_removeAt (h : table.entries[i]? = some e) :
    table.entries.Perm (e :: (table.removeAt i).entries) := by
  obtain ⟨hlt, rfl⟩ := List.getElem?_eq_some_iff.mp h
  exact (List.getElem_cons_eraseIdx_perm hlt).symm

theorem perm_removeFrame (hmem : e ∈ table.entries)
    (hnodup : (table.entries.map FrameEntry.frame).Nodup) :
    table.entries.Perm (e :: (table.removeFrame e.frame).entries) := by
  obtain ⟨i, hi⟩ : ∃ i, table.entries.findIdx? (·.frame == e.frame) = some i := by
    rw [← Option.isSome_iff_exists, List.findIdx?_isSome, List.any_eq_true]
    exact ⟨e, hmem, by simp⟩
  obtain ⟨hlt, hframe, -⟩ := List.findIdx?_eq_some_iff_getElem.mp hi
  have he : table.entries[i] = e :=
    List.inj_on_of_nodup_map hnodup (List.getElem_mem hlt) hmem (by simpa using hframe)
  have hget : table.entries[i]? = some e := by rw [List.getElem?_eq_getElem hlt, he]
  simpa only [removeFrame, hi] using perm_removeAt hget

end FrameTable

namespace View

variable {V : View} {s : SpaceId} {vpn : VirtPage} {page : Page} {frame : Frame}

theorem frame_of_page (h : V.page s vpn = some page) : V.frame s vpn = page.frame := by
  simp [View.frame, h]

theorem slot_of_page (h : V.page s vpn = some page) : V.slot s vpn = page.slot? := by
  simp [View.slot, h]

theorem frame_of_none (h : V.page s vpn = none) : V.frame s vpn = none := by
  simp [View.frame, h]

theorem slot_of_none (h : V.page s vpn = none) : V.slot s vpn = none := by
  simp [View.slot, h]

theorem frame_eq_setAt {W : View} {p : Option Page} (h : W.page = setAt V.page s vpn p) :
    W.frame = setAt V.frame s vpn (p.bind Page.frame) := by
  have hcomp : (fun t u => (W.page t u).bind Page.frame) =
      setAt V.frame s vpn (p.bind Page.frame) := by
    rw [h]
    exact comp_setAt (Option.bind · Page.frame)
  exact hcomp

theorem slot_eq_setAt {W : View} {p : Option Page} (h : W.page = setAt V.page s vpn p) :
    W.slot = setAt V.slot s vpn (p.bind Page.slot?) := by
  have hcomp : (fun t u => (W.page t u).bind Page.slot?) =
      setAt V.slot s vpn (p.bind Page.slot?) := by
    rw [h]
    exact comp_setAt (Option.bind · Page.slot?)
  exact hcomp

namespace Consistent

/-! ## A change in one place -/

variable {p : Option Page} {entry : Option PageTable.Entry}

theorem settled_setAt (h : V.Consistent) (hp : ∀ q, p = some q → q.Settled vpn entry) {t : SpaceId}
    {u : VirtPage} {q : Page} (hq : setAt V.page s vpn p t u = some q) :
    q.Settled u (setAt V.entry s vpn entry t u) := by
  by_cases htu : s = t ∧ vpn = u
  · obtain ⟨rfl, rfl⟩ := htu
    rw [setAt_same] at hq ⊢
    exact hp q hq
  · rw [setAt_of_ne htu] at hq ⊢
    exact h.settled hq

theorem unmapped_setAt (h : V.Consistent) (hp : p = none → entry = none) {t : SpaceId}
    {u : VirtPage} (hq : setAt V.page s vpn p t u = none) :
    setAt V.entry s vpn entry t u = none := by
  by_cases htu : s = t ∧ vpn = u
  · obtain ⟨rfl, rfl⟩ := htu
    rw [setAt_same] at hq ⊢
    exact hp hq
  · rw [setAt_of_ne htu] at hq ⊢
    exact h.unmapped hq

theorem slotted_setAt (h : V.Consistent) {slot : Option Slot} (hslot : slot = V.slot s vpn) :
    ∃ slots, V.swap.Supplies slots ∧ Owners (setAt V.slot s vpn slot) slots := by
  rw [setAt_eq_self hslot.symm]
  exact h.slotted

theorem putBare (h : V.Consistent) (hframe : p.bind Page.frame = V.frame s vpn)
    (hp : ∀ q, p = some q → q.Settled vpn (V.entry s vpn)) (hn : p = none → V.entry s vpn = none)
    {swap : SwapArea} {files : FileStore}
    (hslotted : ∃ slots, swap.Supplies slots ∧
      Owners (setAt V.slot s vpn (p.bind Page.slot?)) slots) :
    Consistent { V with page := setAt V.page s vpn p, swap, files } := by
  have hentry : setAt V.entry s vpn (V.entry s vpn) = V.entry := setAt_eq_self rfl
  refine ⟨fun hq => ?_, fun hq => ?_, ?_, h.supplied, h.bounded, ?_⟩
  · simpa only [hentry] using h.settled_setAt hp hq
  · simpa only [hentry] using h.unmapped_setAt hn hq
  · rw [frame_eq_setAt (V := V) rfl, setAt_eq_self hframe.symm]
    exact h.listed
  · rw [slot_eq_setAt (V := V) rfl]
    exact hslotted

theorem putEntry (h : V.Consistent) {before after : PageTable.Entry}
    (hentry : V.entry s vpn = some before) (hsame : before.SameMapping after) :
    Consistent { V with entry := setAt V.entry s vpn (some after) } := by
  obtain ⟨page, hpage, -⟩ := h.exists_page hentry
  have hself : setAt V.page s vpn (some page) = V.page := setAt_eq_self hpage
  refine ⟨fun hq => ?_, fun hq => ?_, h.listed, h.supplied, h.bounded, h.slotted⟩
  · have hsettled := h.settled hpage
    rw [hentry] at hsettled
    refine h.settled_setAt (p := some page) (fun q hq => ?_) (by rwa [hself])
    exact Option.some.inj hq ▸ hsettled.same hsame
  · exact h.unmapped_setAt (p := some page) (fun hn => by simp at hn) (by rwa [hself])

theorem putPool (h : V.Consistent) {pool : FramePool} {bytes : PageBytes}
    (hstore : V.pool.store frame bytes = .ok pool) : Consistent { V with pool } :=
  ⟨h.settled, h.unmapped, h.listed, h.supplied.store hstore,
    (FramePool.total_of_store hstore).trans_le h.bounded, h.slotted⟩

/-! ## Coming into a frame -/

/-- A page that has no frame may take the first one that is held. -/
theorem occupy (h : V.Consistent) (page : Page) {rest : List Frame} {pool : FramePool}
    {bytes : PageBytes} (hfirst : V.held = frame :: rest)
    (hstore : V.pool.store frame bytes = .ok pool) (hfree : V.frame s page.vpn = none)
    (hin : page.vpn.number < userPages)
    (hplaced : Page.Placed { page with frame := some frame }) {swap : SwapArea} {files : FileStore}
    (hslotted : ∃ slots, swap.Supplies slots ∧
      Owners (setAt V.slot s page.vpn page.slot?) slots) :
    Consistent { V.occupied s page frame pool rest with swap, files } := by
  have hlt : frame < PageTable.Entry.frameBound :=
    lt_of_lt_of_le (h.held_lt (by rw [hfirst]; exact List.mem_cons_self)) h.bounded
  have hsettled : Page.Settled { page with frame := some frame } page.vpn
      (some (PageTable.Entry.fresh frame page.writable)) := by
    refine ⟨rfl, hin, ?_, ?_, hplaced⟩
    · rw [Option.map_some, PageTable.Entry.frame_fresh hlt]
    · rintro e he
      obtain rfl := Option.some.inj he
      exact ⟨PageTable.Entry.isValid_fresh, PageTable.Entry.isWritable_fresh⟩
  refine ⟨fun hq => ?_, fun hq => ?_, ?_, ?_, ?_, ?_⟩
  · exact h.settled_setAt (fun q hq => Option.some.inj hq ▸ hsettled) hq
  · exact h.unmapped_setAt (fun hn => by simp at hn) hq
  · rw [frame_eq_setAt (V := V) rfl]
    exact h.listed.push hfree
  · refine (h.supplied.store hstore).perm (List.Perm.of_eq ?_)
    simp [View.occupied, FrameTable.push, hfirst]
  · exact (FramePool.total_of_store hstore).trans_le h.bounded
  · rw [slot_eq_setAt (V := V) rfl]
    exact hslotted

/-! ## Leaving a frame -/

/-- A page may leave its frame if its entry in the table goes with it. -/
theorem leave (h : V.Consistent) {e : FrameEntry} (p : Option Page) (frames : FrameTable)
    (hperm : V.frames.entries.Perm (e :: frames.entries))
    (hp : ∀ q, p = some q → q.Settled e.vpn none) {pool : FramePool} {held : List Frame}
    {swap : SwapArea} {files : FileStore}
    (hsupplied : pool.Supplies (frames.entries.map FrameEntry.frame ++ held))
    (htotal : pool.total = V.pool.total)
    (hslotted : ∃ slots, swap.Supplies slots ∧
      Owners (setAt V.slot e.space e.vpn (p.bind Page.slot?)) slots) :
    Consistent { V.put e.space e.vpn p none with frames, pool, swap, files, held } := by
  have hframe : p.bind Page.frame = none := by
    cases p with
    | none => rfl
    | some q => simpa using (hp q rfl).frame_eq
  refine ⟨fun hq => ?_, fun hq => ?_, ?_, hsupplied, htotal.trans_le h.bounded, ?_⟩
  · exact h.settled_setAt hp hq
  · exact h.unmapped_setAt (fun _ => rfl) hq
  · rw [frame_eq_setAt (V := V) rfl, hframe]
    exact h.listed.erase hperm h.entries_nodup
  · rw [slot_eq_setAt (V := V) rfl]
    exact hslotted

/-! ## Slots -/

theorem not_slot_of_frame (h : V.Consistent) (hp : V.page s vpn = some page)
    (hf : page.frame = some frame) : V.slot s vpn = none := by
  have hplaced := (h.settled hp).placed
  rw [slot_of_page hp]
  unfold Page.Placed at hplaced
  unfold Page.slot?
  split
  · next slot hkind => simpa [hkind, hf] using hplaced
  · rfl

theorem slotted_release (h : V.Consistent) {slot : Slot} {freed : SwapArea}
    (hown : V.slot s vpn = some slot) (hfreed : V.swap.release slot = .ok freed) :
    ∃ slots, freed.Supplies slots ∧ Owners (setAt V.slot s vpn none) slots := by
  obtain ⟨slots, hsupplies, howners⟩ := h.slotted
  have hperm := List.perm_cons_erase (howners.mem hown)
  have hsupplies' := hsupplies.perm hperm
  obtain ⟨changed, hchanged, hrest, -⟩ := hsupplies'.release
  obtain rfl : changed = freed := Except.ok.inj (hchanged.symm.trans hfreed)
  exact ⟨_, hrest, (howners.perm hperm).erase hsupplies'.nodup hown⟩

/-- A page that is moved to the swap area owns the slot that it takes. -/
theorem slotted_spill (h : V.Consistent) {kind : PageKind} {bytes : PageBytes} {swap : SwapArea}
    (hp : V.page s vpn = some page) (hspill : Spill V.swap page.kind bytes kind swap) :
    ∃ slots, swap.Supplies slots ∧
      Owners (setAt V.slot s vpn (Page.slot? { page with frame := none, kind })) slots := by
  have hslot := slot_of_page hp
  obtain ⟨pageVpn, writable, pageFrame, pageKind⟩ := page
  cases hspill with
  | anon halloc hwrite =>
      obtain ⟨slots, hsupplies, howners⟩ := h.slotted
      obtain ⟨-, hnot, -, htaken, -⟩ := hsupplies.alloc? halloc
      obtain ⟨written, hwritten, hsupplies', -⟩ := htaken.write List.mem_cons_self bytes
      obtain rfl : written = swap := Except.ok.inj (hwritten.symm.trans hwrite)
      exact ⟨_, hsupplies', howners.insert hslot hnot⟩
  | file segment => exact h.slotted_setAt hslot.symm

theorem slotted_fill (h : V.Consistent) {kind : PageKind} {bytes : PageBytes} {swap : SwapArea}
    {files : FileStore} (hp : V.page s vpn = some page)
    (hfill : Fill V.swap V.files page.kind bytes kind swap files) :
    ∃ slots, swap.Supplies slots ∧
      Owners (setAt V.slot s vpn (Page.slot? { page with kind })) slots := by
  have hslot := slot_of_page hp
  obtain ⟨pageVpn, writable, pageFrame, pageKind⟩ := page
  cases hfill with
  | zero | copy _ | share _ | file _ => exact h.slotted_setAt hslot.symm
  | slot _ hfreed => exact h.slotted_release hslot hfreed

end Consistent

end View

/-! ## Every step -/

theorem Spill.placed {swap swap' : SwapArea} {kind kind' : PageKind} {bytes : PageBytes}
    (h : Spill swap kind bytes kind' swap') (vpn : VirtPage) (writable : Bool) :
    Page.Placed ⟨vpn, writable, none, kind'⟩ := by
  cases h with
  | anon => simp [Page.Placed]
  | file => trivial

theorem Fill.placed {swap swap' : SwapArea} {files files' : FileStore} {kind kind' : PageKind}
    {bytes : PageBytes} (h : Fill swap files kind bytes kind' swap' files') (vpn : VirtPage)
    (writable : Bool) (frame : Frame) : Page.Placed ⟨vpn, writable, some frame, kind'⟩ := by
  cases h with
  | zero | copy _ | slot _ _ => simp [Page.Placed]
  | share _ | file _ => trivial

theorem Page.frame_of_isUninit {page : Page} (h : page.Placed) (hu : page.isUninit = true) :
    page.frame = none := by
  unfold Page.isUninit at hu
  unfold Page.Placed at h
  split at hu
  · next hkind => simpa only [hkind] using h
  · cases hu

theorem Page.slot_of_isUninit {page : Page} (hu : page.isUninit = true) : page.slot? = none := by
  unfold Page.isUninit at hu
  unfold Page.slot?
  split at hu
  · next hkind => simp only [hkind]
  · cases hu

namespace View.Consistent

variable {V : View} {s : SpaceId} {vpn : VirtPage} {page : Page}

theorem registered (h : V.Consistent) (hfresh : V.page s page.vpn = none)
    (hin : page.vpn.number < userPages) (hu : page.isUninit = true) (hplaced : page.Placed) :
    (V.registered s page).Consistent := by
  have hframe := page.frame_of_isUninit hplaced hu
  have hslot := Page.slot_of_isUninit hu
  have hentry := h.unmapped hfresh
  refine h.putBare ?_ ?_ (fun hn => by cases hn) (h.slotted_setAt ?_)
  · rw [Option.bind_some, hframe, frame_of_none hfresh]
  · rintro q hq
    obtain rfl := Option.some.inj hq
    refine ⟨rfl, hin, by rw [hframe, hentry]; rfl, ?_, hplaced⟩
    intro e he
    rw [hentry] at he
    cases he
  · rw [Option.bind_some, hslot, slot_of_none hfresh]

end View.Consistent

theorem Page.placed_untouched (vpn : VirtPage) (writable : Bool) (touch : FirstTouch) :
    (Page.untouched vpn writable touch).Placed := rfl

/-- The records agree with the pages after every step if they did before. -/
theorem Step.consistent {d : Deed} {V W : View} (hstep : Step d V W) (h : V.Consistent) :
    W.Consistent := by
  have same : ∀ {W : View}, W.page = V.page → W.entry = V.entry → W.frames = V.frames →
      W.pool = V.pool → W.swap = V.swap → W.held = V.held → W.Consistent := by
    rintro ⟨page, entry, userSp, nextSpace, frames, pool, swap, files, held, pins⟩
    rintro rfl rfl rfl rfl rfl rfl
    exact ⟨h.settled, h.unmapped, h.listed, h.supplied, h.bounded, h.slotted⟩
  cases hstep with
  | take free =>
      refine ⟨h.settled, h.unmapped, h.listed, ?_, ?_, h.slotted⟩
      · exact (h.supplied.alloc? free).2.2.perm List.perm_middle.symm
      · exact (FramePool.total_of_alloc? free).trans_le h.bounded
  | @sweep _ aged hand passed inside =>
      refine ⟨fun {s vpn page} hp => ?_, fun {s vpn} hp => ?_, h.listed, h.supplied, h.bounded,
        h.slotted⟩
      · have hsettled := h.settled hp
        have hrel := passed s vpn
        change page.Settled vpn (aged s vpn)
        generalize V.entry s vpn = before at hrel hsettled
        generalize aged s vpn = after at hrel ⊢
        cases hrel with
        | none => exact hsettled
        | some haged => exact hsettled.same haged.sameMapping
      · have hrel := passed s vpn
        change aged s vpn = none
        rw [h.unmapped hp] at hrel
        generalize aged s vpn = after at hrel ⊢
        cases hrel
        rfl
  | @evict _ i e page entry bytes kind swap pool full victim found mapped loaded spilled zeroed =>
      have hsettled := h.settled found
      refine h.leave (some { page with frame := none, kind })
        { V.frames.removeAt i with evictions := V.frames.evictions + 1 }
        (FrameTable.perm_removeAt victim) ?_ ?_ (FramePool.total_of_store zeroed) ?_
      · rintro q hq
        obtain rfl := Option.some.inj hq
        exact ⟨hsettled.vpn_eq, hsettled.in_user, rfl, by simp, spilled.placed _ _⟩
      · have hperm := (FrameTable.perm_removeAt victim).map FrameEntry.frame
        refine (h.supplied.store zeroed).perm ((hperm.append_right _).trans ?_)
        exact List.perm_middle.symm
      · exact h.slotted_spill found spilled
  | spoil _ stored => exact h.putPool stored
  | @giveBack _ frame rest pool first freed =>
      have hsupplied := h.supplied
      rw [first] at hsupplied
      obtain ⟨changed, hchanged, hrest, hmemory⟩ := (hsupplied.perm List.perm_middle).release
      obtain rfl : changed = pool := Except.ok.inj (hchanged.symm.trans freed)
      refine ⟨h.settled, h.unmapped, h.listed, hrest, ?_, h.slotted⟩
      have htotal : changed.total = V.pool.total := by simp only [FramePool.total, hmemory]
      exact htotal.trans_le h.bounded
  | @bring _ s vpn page frame rest bytes kind swap files pool found absent first filled stored =>
      have hsettled := h.settled found
      have hvpn := hsettled.vpn_eq
      subst hvpn
      refine h.occupy { page with kind } first stored ?_ hsettled.in_user (filled.placed _ _ _) ?_
      · rw [View.frame_of_page found]
        exact absent
      · exact h.slotted_fill found filled
  | register _ fresh inside _ =>
      exact h.registered fresh inside rfl (Page.placed_untouched _ _ _)
  | adopt _ fresh inside =>
      exact h.registered fresh inside rfl (Page.placed_untouched _ _ _)
  | inherit _ found untouched fresh =>
      have hsettled := h.settled found
      have hvpn := hsettled.vpn_eq
      subst hvpn
      exact h.registered fresh hsettled.in_user untouched hsettled.placed
  | @copy _ dst src vpn page frame rest bytes pool _ found touched fresh first copied stored =>
      have hchild : Page.slot? ⟨vpn, page.writable, none, MachineM.childKind page.kind⟩ = none := by
        cases page.kind <;> rfl
      refine h.occupy _ first stored (View.frame_of_none fresh) (h.settled found).in_user ?_ ?_
      · unfold Page.isUninit at touched
        cases hkind : page.kind with
        | uninit touch => simp [hkind] at touched
        | anon slot => simp [Page.Placed, MachineM.childKind]
        | file segment => trivial
      · have hslot := View.slot_of_none fresh
        rw [hchild, setAt_eq_self hslot]
        exact h.slotted
  | @discardResident _ s vpn page frame entry bytes pool found resident mapped loaded freed =>
      have hmem : ⟨frame, s, vpn⟩ ∈ V.frames.entries :=
        (h.listed ⟨frame, s, vpn⟩).mpr ((View.frame_of_page found).trans resident)
      have hperm := FrameTable.perm_removeFrame hmem h.frames_nodup
      have hsupplied := h.supplied.perm ((hperm.map FrameEntry.frame).append_right V.held)
      obtain ⟨changed, hchanged, hrest, hmemory⟩ := hsupplied.release
      obtain rfl : changed = pool := Except.ok.inj (hchanged.symm.trans freed)
      refine h.leave none _ hperm (by simp) hrest ?_ ?_
      · simp only [FramePool.total, hmemory]
      · exact h.slotted_setAt (h.not_slot_of_frame found resident).symm
  | @discardSlot _ s vpn page slot swap found absent inSlot freed =>
      refine h.putBare (p := none) ?_ (by simp) (fun _ => (h.settled found).of_none absent) ?_
      · rw [View.frame_of_page found, absent]
        rfl
      · exact h.slotted_release ((View.slot_of_page found).trans inSlot) freed
  | @discardBare _ s vpn page found absent bare =>
      refine h.putBare (p := none) ?_ (by simp) (fun _ => (h.settled found).of_none absent) ?_
      · rw [View.frame_of_page found, absent]
        rfl
      · refine h.slotted_setAt ?_
        rw [View.slot_of_page found, bare]
        rfl
  | touch mapped _ => exact h.putEntry mapped (PageTable.Entry.sameMapping_marked _ _)
  | adjust mapped same => exact h.putEntry mapped same
  | store _ _ _ _ _ stored => exact h.putPool stored
  | create _ _ | next | drop _ | setUserSp _ | pin _ _ | unpin _ | edit _ | reopen _ | release _ =>
      exact same rfl rfl rfl rfl rfl rfl

theorem Step.total_eq {d : Deed} {V W : View} (hstep : Step d V W) :
    W.pool.total = V.pool.total := by
  cases hstep
  case take free => exact FramePool.total_of_alloc? free
  case evict zeroed => exact FramePool.total_of_store zeroed
  case spoil stored => exact FramePool.total_of_store stored
  case giveBack freed => exact FramePool.total_of_release freed
  case bring stored => exact FramePool.total_of_store stored
  case copy stored => exact FramePool.total_of_store stored
  case discardResident freed => exact FramePool.total_of_release freed
  case store stored => exact FramePool.total_of_store stored
  all_goals rfl

theorem Steps.total_eq {deeds : Set Deed} {V W : View} (hsteps : Steps deeds V W) :
    W.pool.total = V.pool.total :=
  hsteps.invariant (fun X => X.pool.total = V.pool.total)
    (fun _ _ _ _ hstep h => hstep.total_eq.trans h) rfl

/-- A step that concerns no address space as a whole. -/
def Deed.KeepsSpaces : Deed → Prop
  | .create _ | .next | .drop _ | .setUserSp _ => False
  | _ => True

theorem Step.spaces_eq {d : Deed} {V W : View} (hstep : Step d V W) (hd : d.KeepsSpaces) :
    W.userSp = V.userSp ∧ W.nextSpace = V.nextSpace := by
  cases hstep
  case create => exact hd.elim
  case next => exact hd.elim
  case drop => exact hd.elim
  case setUserSp => exact hd.elim
  all_goals exact ⟨rfl, rfl⟩

theorem Steps.spaces_eq {deeds : Set Deed} {V W : View} (hsteps : Steps deeds V W)
    (hd : ∀ d ∈ deeds, d.KeepsSpaces) : W.userSp = V.userSp ∧ W.nextSpace = V.nextSpace :=
  hsteps.invariant (fun X => X.userSp = V.userSp ∧ X.nextSpace = V.nextSpace)
    (fun d hmem _ _ hstep hx =>
      have heq := hstep.spaces_eq (hd d hmem)
      ⟨heq.1.trans hx.1, heq.2.trans hx.2⟩) ⟨rfl, rfl⟩

/-- The numbers of address spaces that were not given out yet name none. -/
def View.Fresh (V : View) : Prop :=
  ∀ s, V.nextSpace ≤ s → ¬V.Live s

def Deed.MakesNoSpace : Deed → Prop
  | .create _ | .next => False
  | _ => True

theorem Step.live_of_live {d : Deed} {V W : View} (hstep : Step d V W) (hd : d.MakesNoSpace) :
    W.nextSpace = V.nextSpace ∧ ∀ s, W.Live s → V.Live s := by
  cases hstep
  case create => exact hd.elim
  case next => exact hd.elim
  case drop s empty =>
    refine ⟨rfl, fun t ht => ?_⟩
    unfold View.Live at ht ⊢
    simp only [Function.update_apply] at ht
    split at ht
    · exact absurd rfl ht
    · exact ht
  case setUserSp s userSp live =>
    refine ⟨rfl, fun t ht => ?_⟩
    unfold View.Live at ht
    simp only [Function.update_apply] at ht
    split at ht
    · next hts => rwa [hts]
    · exact ht
  all_goals exact ⟨rfl, fun _ ht => ht⟩

theorem Steps.live_of_live {deeds : Set Deed} {V W : View} (hsteps : Steps deeds V W)
    (hd : ∀ d ∈ deeds, d.MakesNoSpace) : W.nextSpace = V.nextSpace ∧ ∀ s, W.Live s → V.Live s :=
  hsteps.invariant (fun X => X.nextSpace = V.nextSpace ∧ ∀ s, X.Live s → V.Live s)
    (fun d hmem _ _ hstep hx =>
      have heq := hstep.live_of_live (hd d hmem)
      ⟨heq.1.trans hx.1, fun s hs => hx.2 s (heq.2 s hs)⟩) ⟨rfl, fun _ hs => hs⟩

theorem Steps.fresh {deeds : Set Deed} {V W : View} (hsteps : Steps deeds V W)
    (hd : ∀ d ∈ deeds, d.MakesNoSpace) (h : V.Fresh) : W.Fresh := by
  obtain ⟨hnext, hlive⟩ := hsteps.live_of_live hd
  intro s hs hW
  rw [hnext] at hs
  exact h s hs (hlive s hW)

def Deed.KeepsPages : Deed → Prop
  | .discard _ _ => False
  | _ => True

theorem setAt_ne_none {α : Type} {f : SpaceId → VirtPage → Option α} {s t : SpaceId}
    {vpn u : VirtPage} (a : α) (h : f t u ≠ none) : setAt f s vpn (some a) t u ≠ none := by
  unfold setAt
  split
  · simp
  · exact h

/-- A page that is registered stays registered until it is removed. -/
theorem Step.page_ne_none {d : Deed} {V W : View} (hstep : Step d V W) {s : SpaceId}
    {vpn : VirtPage} (hd : d ≠ .discard s vpn) (hp : V.page s vpn ≠ none) :
    W.page s vpn ≠ none := by
  have hgone : ∀ {t u}, Deed.discard t u ≠ .discard s vpn → setAt V.page t u none s vpn ≠ none := by
    intro t u hne
    rw [setAt_of_ne]
    · exact hp
    · rintro ⟨rfl, rfl⟩
      exact hne rfl
  cases hstep
  case discardResident => exact hgone hd
  case discardSlot => exact hgone hd
  case discardBare => exact hgone hd
  case evict => exact setAt_ne_none _ hp
  case bring => exact setAt_ne_none _ hp
  case register => exact setAt_ne_none _ hp
  case adopt => exact setAt_ne_none _ hp
  case inherit => exact setAt_ne_none _ hp
  case copy => exact setAt_ne_none _ hp
  all_goals exact hp

theorem Deed.KeepsPages.ne_discard {d : Deed} (hd : d.KeepsPages) (s : SpaceId) (vpn : VirtPage) :
    d ≠ .discard s vpn := by
  rintro rfl
  exact hd

theorem Steps.page_ne_none {deeds : Set Deed} {V W : View} (hsteps : Steps deeds V W) {s : SpaceId}
    {vpn : VirtPage} (hd : ∀ d ∈ deeds, d ≠ .discard s vpn) (hp : V.page s vpn ≠ none) :
    W.page s vpn ≠ none :=
  hsteps.invariant (fun X => X.page s vpn ≠ none)
    (fun d hmem _ _ hstep hx => hstep.page_ne_none (hd d hmem) hx) hp

theorem Steps.consistent {deeds : Set Deed} {V W : View} (hsteps : Steps deeds V W)
    (h : V.Consistent) : W.Consistent :=
  hsteps.invariant View.Consistent (fun _ _ _ _ hstep => hstep.consistent) h

end DemandPaging
