import DemandPaging.Proofs.Preservation

/-! # The contents of anonymous pages

An anonymous page that starts as zeros has the same contents in a frame and in a swap slot, and
before it is first touched. Only a store to the page itself changes them, whatever happens to other
pages, to frames and to slots.
-/

namespace DemandPaging

/-- The contents of a page that takes none from a file: zeros before the first touch, and later what
is in its slot or in its frame. -/
def Page.contents? (pool : FramePool) (swap : SwapArea) (page : Page) : Option PageBytes :=
  match page.kind with
  | .uninit .zero => some PageBytes.zero
  | .anon (some slot) => (swap.read slot).toOption
  | .anon none => page.frame.bind fun frame => (pool.load frame).toOption
  | .uninit (.copy _) | .uninit (.share _) | .file _ => none

namespace View

variable {V W : View} {s : SpaceId} {vpn : VirtPage} {page : Page} {frame : Frame} {slot : Slot}
  {bytes : PageBytes}

def contents (V : View) (s : SpaceId) (vpn : VirtPage) : Option PageBytes :=
  (V.page s vpn).bind (Page.contents? V.pool V.swap)

theorem contents_of_page (h : V.page s vpn = some page) :
    V.contents s vpn = page.contents? V.pool V.swap := by
  rw [contents, h, Option.bind_some]

/-- The contents of a page stay if its own frame or slot keeps what it holds. -/
theorem contents_congr (hpage : W.page s vpn = V.page s vpn)
    (hload : ∀ frame, V.frame s vpn = some frame → W.pool.load frame = V.pool.load frame)
    (hread : ∀ slot, V.slot s vpn = some slot → W.swap.read slot = V.swap.read slot) :
    W.contents s vpn = V.contents s vpn := by
  unfold contents
  rw [hpage]
  cases hp : V.page s vpn with
  | none => rfl
  | some page =>
      have hframe := V.frame_of_page hp
      have hslot := V.slot_of_page hp
      simp only [Option.bind_some, Page.contents?]
      cases hk : page.kind with
      | uninit touch => cases touch <;> rfl
      | file segment => rfl
      | anon held =>
          cases held with
          | some slot =>
              have hown : V.slot s vpn = some slot := by
                rw [hslot, Page.slot?, hk]
              simp only [hread slot hown]
          | none =>
              cases hf : page.frame with
              | none => rfl
              | some frame =>
                  have hown : V.frame s vpn = some frame := hframe.trans hf
                  simp only [Option.bind_some, hload frame hown]

namespace Consistent

/-- What a resident page shows is in its frame. -/
theorem load_of_contents (h : V.Consistent) (hp : V.page s vpn = some page)
    (hframe : page.frame = some frame) (hbytes : V.contents s vpn = some bytes) :
    V.pool.load frame = .ok bytes := by
  have hplaced := (h.settled hp).placed
  rw [contents_of_page hp] at hbytes
  unfold Page.contents? at hbytes
  unfold Page.Placed at hplaced
  cases hk : page.kind with
  | uninit touch =>
      rw [hk, hframe] at hplaced
      cases hplaced
  | file segment =>
      rw [hk] at hbytes
      cases hbytes
  | anon held =>
      rw [hk] at hplaced hbytes
      cases held with
      | some slot =>
          rw [hframe] at hplaced
          simp at hplaced
      | none =>
          simp only [hframe, Option.bind_some] at hbytes
          cases hload : V.pool.load frame with
          | error e => simp [hload, Except.toOption] at hbytes
          | ok loaded =>
              rw [hload] at hbytes
              rw [Option.some.inj hbytes]

theorem frame_ne (h : V.Consistent) {t : SpaceId} {u : VirtPage} {other : Frame}
    (hs : V.frame s vpn = some frame) (ht : V.frame t u = some other)
    (hne : ¬(t = s ∧ u = vpn)) : frame ≠ other := by
  intro he
  subst he
  exact hne (h.listed.inj h.frames_nodup ht hs)

theorem frame_ne_held (h : V.Consistent) {other : Frame} (hs : V.frame s vpn = some frame)
    (hheld : other ∈ V.held) : frame ≠ other := by
  obtain ⟨page, hp, hframe⟩ := Option.bind_eq_some_iff.mp hs
  exact h.ne_held hp hframe hheld

end Consistent

end View

/-! ## Slots that are left alone -/

section

variable {swap swap' : SwapArea} {files files' : FileStore} {slots : List Slot} {slot : Slot}
  {kind kind' : PageKind} {bytes : PageBytes}

theorem Spill.read_eq (h : Spill swap kind bytes kind' swap') (hs : swap.Supplies slots)
    (hmem : slot ∈ slots) : swap'.read slot = swap.read slot := by
  cases h with
  | file segment => rfl
  | anon halloc hwrite =>
      rename_i fresh taken
      obtain ⟨-, hnot, -, htaken, -, hread⟩ := hs.alloc? halloc
      obtain ⟨written, hwritten, -, -, hreads⟩ := htaken.write List.mem_cons_self bytes
      obtain rfl : swap' = written := Except.ok.inj (hwrite.symm.trans hwritten)
      have hne : slot ≠ fresh := fun he => hnot (he ▸ hmem)
      rw [hreads, if_neg hne, hread slot hne]

theorem Spill.read_slot (h : Spill swap (.anon none) bytes (.anon (some slot)) swap')
    (hs : swap.Supplies slots) : swap'.read slot = .ok bytes := by
  cases h with
  | anon halloc hwrite =>
      obtain ⟨-, -, -, htaken, -⟩ := hs.alloc? halloc
      obtain ⟨written, hwritten, -, -, hreads⟩ := htaken.write List.mem_cons_self bytes
      obtain rfl : swap' = written := Except.ok.inj (hwrite.symm.trans hwritten)
      rw [hreads, if_pos rfl]

theorem Fill.read_eq (h : Fill swap files kind bytes kind' swap' files') (hs : swap.Supplies slots)
    (hkind : ∀ own, kind = .anon (some own) → own ∈ slots ∧ slot ≠ own) :
    swap'.read slot = swap.read slot := by
  cases h with
  | slot hread hfreed =>
      rename_i own
      obtain ⟨hmem, hne⟩ := hkind own rfl
      obtain ⟨freed, hrelease, -, -, hreads⟩ := (hs.perm (List.perm_cons_erase hmem)).release
      obtain rfl : swap' = freed := Except.ok.inj (hfreed.symm.trans hrelease)
      exact hreads slot hne
  | zero => rfl
  | copy hload => rfl
  | share hload => rfl
  | file hload => rfl

end

/-! ## Steps -/

section

variable {V W : View} {d : Deed} {s : SpaceId} {vpn : VirtPage} {page : Page} {frame : Frame}
  {slot : Slot} {bytes : PageBytes}

theorem View.Consistent.contents_evicted (h : V.Consistent) {e : FrameEntry}
    (he : e ∈ V.frames.entries) {saved : PageBytes} {kind : PageKind} {swap : SwapArea}
    {pool : FramePool} (hp : V.page e.space e.vpn = some page)
    (hload : V.pool.load e.frame = .ok saved) (hspill : Spill V.swap page.kind saved kind swap)
    (hbytes : V.contents e.space e.vpn = some bytes) :
    Page.contents? pool swap { page with frame := none, kind } = some bytes := by
  have hframe : page.frame = some e.frame := by
    rw [← View.frame_of_page hp]
    exact (h.listed e).mp he
  have hsaved := h.load_of_contents hp hframe hbytes
  obtain rfl : saved = bytes := Except.ok.inj (hload.symm.trans hsaved)
  obtain ⟨slots, hsupplies, -⟩ := h.slotted
  rw [View.contents_of_page hp] at hbytes
  unfold Page.contents? at hbytes ⊢
  generalize page.kind = before at hspill hbytes
  cases hspill with
  | anon halloc hwrite =>
      have hspill : Spill V.swap (.anon none) saved (.anon (some _)) swap := .anon halloc hwrite
      have hread := hspill.read_slot hsupplies
      simp only [hread, Except.toOption]
  | file segment => cases hbytes

theorem View.contents_filled {frame : Frame} {filled : PageBytes} {kind : PageKind}
    {swap : SwapArea} {files : FileStore} {pool : FramePool} (hp : V.page s vpn = some page)
    (hfill : Fill V.swap V.files page.kind filled kind swap files)
    (hload : pool.load frame = .ok filled) (hbytes : V.contents s vpn = some bytes) :
    Page.contents? pool swap { page with frame := some frame, kind } = some bytes := by
  rw [View.contents_of_page hp] at hbytes
  unfold Page.contents? at hbytes ⊢
  generalize page.kind = before at hfill hbytes
  cases hfill with
  | zero => simpa [hload, Except.toOption] using hbytes
  | copy hread => cases hbytes
  | share hread => cases hbytes
  | slot hread hfreed =>
      simp only [hread, Except.toOption] at hbytes
      simpa [hload, Except.toOption] using hbytes
  | file hread => cases hbytes

/-- What is in the frame of a page stays there while the page keeps it, unless the page is stored
to. -/
theorem Step.load_eq (hstep : Step d V W) (h : V.Consistent) (hstore : d ≠ .store s vpn)
    (hbefore : V.frame s vpn = some frame) (hafter : W.frame s vpn = some frame) :
    W.pool.load frame = V.pool.load frame := by
  have helsewhere : ∀ {other stored pool}, V.pool.store other stored = .ok pool →
      frame ≠ other → pool.load frame = V.pool.load frame := by
    intro other stored pool hstored hne
    rw [FramePool.load_of_store hstored, if_neg hne]
  cases hstep with
  | take free =>
      rename_i taken pool
      have hnot := (h.supplied.alloc? free).2.1
      have hne : frame ≠ taken := fun he =>
        hnot (he ▸ List.mem_append_left V.held (h.listed.mem_frames hbefore))
      exact (h.supplied.load_alloc? free frame).trans (if_neg hne)
  | evict full victim found mapped loaded spilled zeroed =>
      have hvictim := (h.listed _).mp (List.mem_of_getElem? victim)
      refine helsewhere zeroed (h.frame_ne hbefore hvictim ?_)
      rintro ⟨rfl, rfl⟩
      cases (View.frame_of_page setAt_same).symm.trans hafter
  | spoil mem stored => exact helsewhere stored (h.frame_ne_held hbefore mem)
  | bring found absent first filled stored =>
      exact helsewhere stored (h.frame_ne_held hbefore (first ▸ List.mem_cons_self))
  | copy live found touched fresh first copied stored =>
      exact helsewhere stored (h.frame_ne_held hbefore (first ▸ List.mem_cons_self))
  | store found resident mapped allowed dirty stored =>
      have hother := (View.frame_of_page found).trans resident
      refine helsewhere stored (h.frame_ne hbefore hother ?_)
      rintro ⟨rfl, rfl⟩
      exact hstore rfl
  | giveBack first freed =>
      exact FramePool.load_of_memory_eq (FramePool.memory_of_release freed) frame
  | discardResident found resident mapped loaded freed =>
      exact FramePool.load_of_memory_eq (FramePool.memory_of_release freed) frame
  | sweep | register | adopt | inherit | discardSlot | discardBare | touch | adjust | create | next
  | drop | setUserSp | pin | unpin | edit | reopen | release => rfl

/-- What is in the slot of a page stays there while the page keeps it. -/
theorem Step.read_eq (hstep : Step d V W) (h : V.Consistent) (hbefore : V.slot s vpn = some slot)
    (hafter : W.slot s vpn = some slot) : W.swap.read slot = V.swap.read slot := by
  obtain ⟨slots, hsupplies, howners⟩ := h.slotted
  cases hstep with
  | evict full victim found mapped loaded spilled zeroed =>
      exact spilled.read_eq hsupplies (howners.mem hbefore)
  | bring found absent first filled stored =>
      rename_i t u other frame rest loaded kind swap files pool
      have hvpn := (h.settled found).vpn_eq
      subst hvpn
      refine filled.read_eq hsupplies fun own hown => ?_
      have howned : V.slot t other.vpn = some own := by
        rw [View.slot_of_page found, Page.slot?, hown]
      refine ⟨howners.mem howned, ?_⟩
      rintro rfl
      obtain ⟨rfl, rfl⟩ := howners.inj howned hbefore
      rw [View.slot_of_page setAt_same] at hafter
      rw [hown] at filled
      cases filled
      cases hafter
  | discardSlot found absent inSlot freed =>
      rename_i t u other own swap
      have howned : V.slot t u = some own := (View.slot_of_page found).trans inSlot
      obtain ⟨left, hleft, -, -, hreads⟩ :=
        (hsupplies.perm (List.perm_cons_erase (howners.mem howned))).release
      obtain rfl : swap = left := Except.ok.inj (freed.symm.trans hleft)
      refine hreads slot ?_
      rintro rfl
      obtain ⟨rfl, rfl⟩ := howners.inj howned hbefore
      cases (View.slot_of_none setAt_same).symm.trans hafter
  | take | sweep | spoil | giveBack | register | adopt | inherit | copy | discardResident
  | discardBare | touch | adjust | store | create | next | drop | setUserSp | pin | unpin | edit
  | reopen | release => rfl

theorem Step.contents_of_same (hstep : Step d V W) (h : V.Consistent) (hstore : d ≠ .store s vpn)
    (hpage : W.page s vpn = V.page s vpn) : W.contents s vpn = V.contents s vpn := by
  refine View.contents_congr hpage (fun frame hframe => ?_) fun slot hslot => ?_
  · refine hstep.load_eq h hstore hframe ?_
    rwa [View.frame, hpage]
  · refine hstep.read_eq h hslot ?_
    rwa [View.slot, hpage]

/-- The contents of a page change only if it is stored to, or removed. -/
theorem Step.contents_eq (hstep : Step d V W) (h : V.Consistent) (hstore : d ≠ .store s vpn)
    (hdiscard : d ≠ .discard s vpn) (hbytes : V.contents s vpn = some bytes) :
    W.contents s vpn = some bytes := by
  obtain ⟨page, hp, -⟩ := Option.bind_eq_some_iff.mp hbytes
  have hsame : W.page s vpn = V.page s vpn → W.contents s vpn = some bytes := fun hpage =>
    (hstep.contents_of_same h hstore hpage).trans hbytes
  have hfresh : ∀ {t u}, V.page t u = none → ¬(t = s ∧ u = vpn) := by
    rintro t u hnone ⟨rfl, rfl⟩
    cases hnone.symm.trans hp
  cases hstep with
  | evict full victim found mapped loaded spilled zeroed =>
      rename_i i e other entry saved kind swap pool
      by_cases hhere : e.space = s ∧ e.vpn = vpn
      · obtain ⟨rfl, rfl⟩ := hhere
        refine (View.contents_of_page setAt_same).trans ?_
        exact h.contents_evicted (List.mem_of_getElem? victim) found loaded spilled hbytes
      · exact hsame (setAt_of_ne hhere)
  | bring found absent first filled stored =>
      rename_i t u other frame rest loaded kind swap files pool
      have hvpn := (h.settled found).vpn_eq
      subst hvpn
      by_cases hhere : t = s ∧ other.vpn = vpn
      · obtain ⟨rfl, rfl⟩ := hhere
        have hload : pool.load frame = .ok loaded := by
          rw [FramePool.load_of_store stored, if_pos rfl]
        have hshown : Page.contents? pool swap { other with frame := some frame, kind } =
            some bytes := View.contents_filled found filled hload hbytes
        exact (View.contents_of_page setAt_same).trans hshown
      · exact hsame (setAt_of_ne hhere)
  | register live fresh | adopt live fresh | copy live found touched fresh =>
      exact hsame (setAt_of_ne (hfresh fresh))
  | inherit live found untouched fresh =>
      have hvpn := (h.settled found).vpn_eq
      subst hvpn
      exact hsame (setAt_of_ne (hfresh fresh))
  | discardResident | discardSlot | discardBare =>
      refine hsame (setAt_of_ne ?_)
      rintro ⟨rfl, rfl⟩
      exact hdiscard rfl
  | take | sweep | spoil | giveBack | touch | adjust | store | create | next | drop | setUserSp
  | pin | unpin | edit | reopen | release => exact hsame rfl

/-- The contents of a page are kept while it is neither stored to nor removed. -/
theorem Steps.contents_kept {deeds : Set Deed} (hsteps : Steps deeds V W) (h : V.Consistent)
    (hd : ∀ d ∈ deeds, d ≠ .store s vpn ∧ d ≠ .discard s vpn)
    (hbytes : V.contents s vpn = some bytes) : W.contents s vpn = some bytes :=
  (hsteps.invariant (fun U => U.Consistent ∧ U.contents s vpn = some bytes)
    (fun d hmem _ _ hstep hU => ⟨hstep.consistent hU.1,
      hstep.contents_eq hU.1 (hd d hmem).1 (hd d hmem).2 hU.2⟩) ⟨h, hbytes⟩).2

theorem Step.page_eq_none (hstep : Step (.discard s vpn) V W) : W.page s vpn = none := by
  cases hstep with
  | discardResident => exact setAt_same
  | discardSlot => exact setAt_same
  | discardBare => exact setAt_same

theorem View.contents_untouched {writable : Bool}
    (hp : V.page s vpn = some (.untouched vpn writable .zero)) :
    V.contents s vpn = some PageBytes.zero :=
  View.contents_of_page hp

/-- A store to a page that shows its frame changes what it shows. -/
theorem View.Consistent.contents_stored (h : V.Consistent) {frame : Frame} {pool : FramePool}
    {stored : PageBytes} (hp : V.page s vpn = some page) (hframe : page.frame = some frame)
    (hstore : V.pool.store frame stored = .ok pool) (hbytes : V.contents s vpn = some bytes) :
    View.contents { V with pool } s vpn = some stored := by
  have hplaced := (h.settled hp).placed
  have hp' : View.page { V with pool } s vpn = some page := hp
  rw [View.contents_of_page hp']
  rw [View.contents_of_page hp] at hbytes
  unfold Page.contents? at hbytes ⊢
  unfold Page.Placed at hplaced
  cases hk : page.kind with
  | uninit touch =>
      rw [hk, hframe] at hplaced
      cases hplaced
  | file segment =>
      rw [hk] at hbytes
      cases hbytes
  | anon slot =>
      rw [hk] at hplaced
      cases slot with
      | some slot =>
          rw [hframe] at hplaced
          simp at hplaced
      | none =>
          have hload : pool.load frame = .ok stored := by
            rw [FramePool.load_of_store hstore, if_pos rfl]
          simp only [hframe, Option.bind_some, hload, Except.toOption]

/-- What a fork finds in a page is what the page shows. -/
theorem Found.eq_of_contents {loaded : PageBytes} (h : V.Consistent) (hp : V.page s vpn = some page)
    (hfound : Found V.pool V.swap V.files page.frame page.kind loaded)
    (hbytes : V.contents s vpn = some bytes) :
    loaded = bytes ∧ MachineM.childKind page.kind = .anon none := by
  have hshown := hbytes
  rw [View.contents_of_page hp] at hshown
  unfold Page.contents? at hshown
  cases hframe : page.frame with
  | some frame =>
      have hload := h.load_of_contents hp hframe hbytes
      have hplaced := (h.settled hp).placed
      unfold Page.Placed at hplaced
      rw [hframe] at hfound hplaced
      cases hfound with
      | resident hloaded =>
          refine ⟨Except.ok.inj (hloaded.symm.trans hload), ?_⟩
          cases hk : page.kind with
          | uninit touch =>
              rw [hk] at hplaced
              cases hplaced
          | file segment =>
              rw [hk] at hshown
              cases hshown
          | anon slot => rfl
  | none =>
      rw [hframe] at hfound
      generalize page.kind = kind at hfound hshown
      cases hfound with
      | slot hread =>
          simp only [hread, Except.toOption] at hshown
          exact ⟨Option.some.inj hshown, rfl⟩
      | file hread => cases hshown

/-- Where a page comes from that was not registered before the step. -/
theorem Step.page_new {d : Deed} (hstep : Step d V W) (h : V.Consistent)
    (hnone : V.page s vpn = none) (hsome : W.page s vpn = some page) :
    (∃ writable touch, page = .untouched vpn writable touch ∧
      (d = .register s (.untouched vpn writable touch) ∨
        d = .adopt s (.untouched vpn writable touch))) ∨
    ∃ src, (d = .inherit s src vpn ∨ d = .copy s src vpn) ∧ V.page src vpn ≠ none ∧
      ∀ bytes, V.contents src vpn = some bytes → W.contents s vpn = some bytes := by
  have hold : W.page = V.page → False := by
    intro he
    rw [he, hnone] at hsome
    cases hsome
  have hat : ∀ {t u q}, W.page = setAt V.page t u (some q) → t = s ∧ u = vpn ∧ q = page := by
    intro t u q he
    rw [he] at hsome
    by_cases hsame : t = s ∧ u = vpn
    · obtain ⟨rfl, rfl⟩ := hsame
      rw [setAt_same] at hsome
      exact ⟨rfl, rfl, Option.some.inj hsome⟩
    · rw [setAt_of_ne hsame, hnone] at hsome
      cases hsome
  have hgone : ∀ {t u}, W.page = setAt V.page t u none → False := by
    intro t u he
    rw [he] at hsome
    by_cases hsame : t = s ∧ u = vpn
    · obtain ⟨rfl, rfl⟩ := hsame
      simp at hsome
    · rw [setAt_of_ne hsame, hnone] at hsome
      cases hsome
  cases hstep with
  | evict full victim found =>
      obtain ⟨rfl, rfl, -⟩ := hat rfl
      cases hnone.symm.trans found
  | bring found absent =>
      have hvpn := (h.settled found).vpn_eq
      subst hvpn
      obtain ⟨rfl, rfl, -⟩ := hat rfl
      cases hnone.symm.trans found
  | register live fresh inside pinned =>
      rename_i writable touch
      obtain ⟨rfl, rfl, rfl⟩ := hat rfl
      exact .inl ⟨writable, touch, rfl, .inl rfl⟩
  | adopt live fresh inside =>
      rename_i writable touch
      obtain ⟨rfl, rfl, rfl⟩ := hat rfl
      exact .inl ⟨writable, touch, rfl, .inr rfl⟩
  | inherit live found untouched fresh =>
      rename_i dst src u other
      have hvpn := (h.settled found).vpn_eq
      subst hvpn
      obtain ⟨rfl, rfl, rfl⟩ := hat rfl
      refine .inr ⟨src, .inl rfl, by simp [found], fun bytes hbytes => ?_⟩
      rw [View.contents_of_page hsome]
      exact (View.contents_of_page found).symm.trans hbytes
  | copy live found touched fresh first copied stored =>
      rename_i dst src u other frame rest loaded pool
      obtain ⟨rfl, rfl, rfl⟩ := hat rfl
      refine .inr ⟨src, .inr rfl, by simp [found], fun bytes hbytes => ?_⟩
      obtain ⟨rfl, hkind⟩ := Found.eq_of_contents h found copied hbytes
      have hload : pool.load frame = .ok loaded := by
        rw [FramePool.load_of_store stored, if_pos rfl]
      rw [View.contents_of_page hsome]
      simp only [Page.contents?, hkind, Option.bind_some]
      exact congrArg Except.toOption hload
  | discardResident => exact (hgone rfl).elim
  | discardSlot => exact (hgone rfl).elim
  | discardBare => exact (hgone rfl).elim
  | take | sweep | spoil | giveBack | touch | adjust | store | create | next | drop | setUserSp
  | pin | unpin | edit | reopen | release => exact (hold rfl).elim

end

end DemandPaging
