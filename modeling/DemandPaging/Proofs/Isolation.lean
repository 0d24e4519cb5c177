import DemandPaging.Proofs.Contents
import DemandPaging.Proofs.Runs

/-! # Isolation of address spaces

A request of one address space shows in the others at most where a page of theirs is evicted, or the
clock passes one. A page that is evicted takes its contents along: to a slot that was free, or to
its file if it is dirty.
-/

namespace DemandPaging

/-! ## Pages that stay and pages that leave -/

/-- A page that stays where it is, with its contents. The clock may have passed it. -/
structure View.Stays (V W : View) (t : SpaceId) (vpn : VirtPage) : Prop where
  page_eq : W.page t vpn = V.page t vpn
  aged : Option.Rel PageTable.Entry.Aged (V.entry t vpn) (W.entry t vpn)
  load_eq : ∀ frame, V.frame t vpn = some frame → W.pool.load frame = V.pool.load frame
  read_eq : ∀ slot, V.slot t vpn = some slot → W.swap.read slot = V.swap.read slot

/-- Where the contents of an evicted page are: an anonymous page has a slot of its own, and a file
page was written back when it was evicted, if it was dirty. -/
inductive View.Saved (deeds : Set Deed) (V W : View) (t : SpaceId) (vpn : VirtPage) (page : Page)
    (dirty : Bool) (bytes : PageBytes) : Prop where
  | anon {slot : Slot} (kind_eq : page.kind = .anon none)
      (now : W.page t vpn = some { page.vacate with kind := .anon (some slot) })
      (read : W.swap.read slot = .ok bytes)
  | file {segment : Segment} {before after : View} (kind_eq : page.kind = .file segment)
      (now : W.page t vpn = some page.vacate) (first : Steps deeds V before)
      (evicted : Step (.evict t vpn) before after)
      (files_eq : after.files =
        if dirty then (segment.writeBack before.files bytes).2 else before.files)
      (later : Steps deeds after W)

/-- A page that was evicted: it has lost its frame and its entry. -/
structure View.Leaves (deeds : Set Deed) (V W : View) (t : SpaceId) (vpn : VirtPage) (page : Page)
    (entry : PageTable.Entry) (bytes : PageBytes) : Prop where
  found : V.page t vpn = some page
  mapped : V.entry t vpn = some entry
  resident : page.frame = some entry.frame
  loaded : V.pool.load entry.frame = .ok bytes
  unmapped : W.entry t vpn = none
  saved : V.Saved deeds W t vpn page (entry.has .dirty) bytes

/-- Steps that change an address space in no other way than by evictions. -/
def Deed.Spares (t : SpaceId) : Deed → Prop
  | .bring s _ | .register s _ | .adopt s _ | .inherit s _ _ | .copy s _ _ | .discard s _
  | .touch s _ _ | .adjust s _ | .store s _ | .create s | .drop s | .setUserSp s => s ≠ t
  | _ => True

section

variable {deeds : Set Deed} {d : Deed} {U V W : View} {s t : SpaceId} {u vpn : VirtPage}
  {page : Page} {entry : PageTable.Entry} {bytes : PageBytes} {slot : Slot}

namespace View.Stays

theorem refl (V : View) (t : SpaceId) (vpn : VirtPage) : V.Stays V t vpn :=
  ⟨rfl, agedRel_refl _, fun _ _ => rfl, fun _ _ => rfl⟩

theorem frame_eq (h : V.Stays W t vpn) : W.frame t vpn = V.frame t vpn := by
  rw [View.frame, h.page_eq, View.frame]

theorem slot_eq (h : V.Stays W t vpn) : W.slot t vpn = V.slot t vpn := by
  rw [View.slot, h.page_eq, View.slot]

theorem trans (h : U.Stays V t vpn) (h' : V.Stays W t vpn) : U.Stays W t vpn := by
  refine ⟨h'.page_eq.trans h.page_eq, agedRel_trans h.aged h'.aged, fun frame hframe => ?_,
    fun slot hslot => ?_⟩
  · exact (h'.load_eq frame (h.frame_eq.trans hframe)).trans (h.load_eq frame hframe)
  · exact (h'.read_eq slot (h.slot_eq.trans hslot)).trans (h.read_eq slot hslot)

end View.Stays

/-! ## Steps -/

theorem Step.userSp_eq (hstep : Step d V W) (hd : d.Spares t) : W.userSp t = V.userSp t := by
  cases hstep with
  | create | drop | setUserSp => exact Function.update_of_ne (Ne.symm hd) _ _
  | take | sweep | evict | spoil | giveBack | bring | register | adopt | inherit | copy
  | discardResident | discardSlot | discardBare | touch | adjust | store | next | pin | unpin
  | edit | reopen | release => rfl

/-- A step that spares an address space moves a page of it only by evicting that page. -/
theorem Step.stays (hstep : Step d V W) (h : V.Consistent) (hd : d.Spares t)
    (hevict : d ≠ .evict t vpn) : V.Stays W t vpn := by
  have hstore : d ≠ .store t vpn := by
    rintro rfl
    exact hd rfl
  have hplace : W.page t vpn = V.page t vpn ∧
      Option.Rel PageTable.Entry.Aged (V.entry t vpn) (W.entry t vpn) := by
    have hrefl : ∀ {after}, after = V.entry t vpn →
        Option.Rel PageTable.Entry.Aged (V.entry t vpn) after := by
      rintro after rfl
      exact agedRel_refl _
    have hne : ∀ {s u}, s ≠ t → ¬(s = t ∧ u = vpn) := fun hst he => hst he.1
    cases hstep with
    | evict full victim found mapped loaded spilled zeroed =>
        have hother : ¬(_ = t ∧ _ = vpn) := fun he => hevict (congrArg₂ Deed.evict he.1 he.2)
        exact ⟨setAt_of_ne hother, hrefl (setAt_of_ne hother)⟩
    | sweep hand passed inside => exact ⟨rfl, passed t vpn⟩
    | bring | copy | discardResident =>
        exact ⟨setAt_of_ne (hne hd), hrefl (setAt_of_ne (hne hd))⟩
    | register | adopt | inherit | discardSlot | discardBare =>
        exact ⟨setAt_of_ne (hne hd), hrefl rfl⟩
    | touch | adjust => exact ⟨rfl, hrefl (setAt_of_ne (hne hd))⟩
    | take | spoil | giveBack | store | create | next | drop | setUserSp | pin | unpin | edit
    | reopen | release => exact ⟨rfl, hrefl rfl⟩
  refine ⟨hplace.1, hplace.2, fun frame hframe => hstep.load_eq h hstore hframe ?_,
    fun slot hslot => hstep.read_eq h hslot ?_⟩
  · rwa [View.frame, hplace.1]
  · rwa [View.slot, hplace.1]

/-- A page is evicted with the contents and the notes of use that it had when it was last seen. -/
theorem Step.leaves (hstep : Step (.evict t vpn) V W) (h : V.Consistent) (hfirst : Steps deeds U V)
    (hstays : U.Stays V t vpn) : ∃ page entry bytes, U.Leaves deeds W t vpn page entry bytes := by
  have hevict := hstep
  cases hstep with
  | evict full victim found mapped loaded spilled zeroed =>
      rename_i i e page entry bytes kind swap pool
      have hframe : V.frame e.space e.vpn = some e.frame :=
        (h.listed e).mp (List.mem_of_getElem? victim)
      obtain ⟨before, hbefore, haged⟩ : ∃ before, U.entry e.space e.vpn = some before ∧
          before.Aged entry := by
        have hrel := hstays.aged
        rw [mapped] at hrel
        generalize U.entry e.space e.vpn = seen at hrel
        cases hrel with
        | some haged => exact ⟨_, rfl, haged⟩
      have hresident : page.frame = some before.frame := by
        rw [(h.settled found).frame_eq, mapped, Option.map_some, haged.frame_eq]
      have hown : e.frame = before.frame := by
        rw [View.frame_of_page found, hresident] at hframe
        exact (Option.some.inj hframe).symm
      refine ⟨page, before, bytes, hstays.page_eq.symm.trans found, hbefore, hresident, ?_,
        setAt_same, ?_⟩
      · rw [← hown, ← hstays.load_eq e.frame (hstays.frame_eq.symm.trans hframe)]
        exact loaded
      · obtain ⟨slots, hsupplies, -⟩ := h.slotted
        rw [← haged.has_eq .dirty (by decide)]
        generalize hkind : page.kind = old at spilled
        cases spilled with
        | anon halloc hwrite =>
            exact .anon hkind setAt_same (Spill.read_slot (.anon halloc hwrite) hsupplies)
        | file segment =>
            refine .file hkind ?_ hfirst hevict ?_ (Steps.of_eq (by rw [hkind]))
            · refine setAt_same.trans (congrArg some ?_)
              rw [Page.vacate, ← hkind]
            · change page.kind.savedIn bytes (entry.has .dirty) V.files = _
              rw [hkind]
              rfl

namespace View.Leaves

theorem not_resident (h : U.Leaves deeds V t vpn page entry bytes) : V.frame t vpn = none := by
  cases h.saved with
  | anon kind_eq now read => exact View.frame_of_page now
  | file kind_eq now first evicted files_eq later => exact View.frame_of_page now

/-- A page that was evicted stays where its contents are. -/
theorem tail (h : U.Leaves deeds V t vpn page entry bytes) (hc : V.Consistent)
    (hstep : Step d V W) (hmem : d ∈ deeds) (hd : d.Spares t) :
    U.Leaves deeds W t vpn page entry bytes := by
  have hevict : d ≠ .evict t vpn := by
    rintro rfl
    have hfirst : Steps deeds V V := Steps.refl V
    obtain ⟨other, mapped, loaded, hleaves⟩ := hstep.leaves hc hfirst (.refl V t vpn)
    have hframe := (View.frame_of_page hleaves.found).trans hleaves.resident
    cases h.not_resident.symm.trans hframe
  have hstays := hstep.stays hc hd hevict
  have hunmapped : W.entry t vpn = none := by
    have haged := hstays.aged
    rw [h.unmapped] at haged
    generalize W.entry t vpn = after at haged
    cases haged
    rfl
  refine ⟨h.found, h.mapped, h.resident, h.loaded, hunmapped, ?_⟩
  cases h.saved with
  | anon kind_eq now read =>
      exact .anon kind_eq (hstays.page_eq.trans now)
        ((hstays.read_eq _ (View.slot_of_page now)).trans read)
  | file kind_eq now first evicted files_eq later =>
      exact .file kind_eq (hstays.page_eq.trans now) first evicted files_eq
        (later.tail hstep hmem)

theorem alike (h : V.Leaves deeds W t vpn page entry bytes) :
    ∃ after, W.page t vpn = some after ∧ page.Alike after := by
  obtain ⟨pageVpn, writable, frame, kind⟩ := page
  cases h.saved with
  | anon kind_eq now read =>
      obtain rfl : kind = _ := kind_eq
      exact ⟨_, now, ⟨rfl, rfl, rfl, rfl, rfl⟩⟩
  | file kind_eq now first evicted files_eq later =>
      exact ⟨_, now, ⟨rfl, rfl, rfl, rfl, rfl⟩⟩

end View.Leaves

/-! ## Sequences of steps -/

theorem Steps.stays_or_leaves (hsteps : Steps deeds V W) (h : V.Consistent)
    (hd : ∀ d ∈ deeds, d.Spares t) (vpn : VirtPage) :
    V.Stays W t vpn ∨ ∃ page entry bytes, V.Leaves deeds W t vpn page entry bytes := by
  refine (hsteps.invariant (fun U => Steps deeds V U ∧ U.Consistent ∧
    (V.Stays U t vpn ∨ ∃ page entry bytes, V.Leaves deeds U t vpn page entry bytes))
    (fun d hmem U U' hstep hU => ?_) ⟨Steps.refl V, h, .inl (.refl V t vpn)⟩).2.2
  obtain ⟨hfirst, hc, hplace⟩ := hU
  refine ⟨hfirst.tail hstep hmem, hstep.consistent hc, ?_⟩
  rcases hplace with hstays | ⟨page, entry, bytes, hleaves⟩
  · by_cases hevict : d = .evict t vpn
    · subst hevict
      exact .inr (hstep.leaves hc hfirst hstays)
    · exact .inl (hstays.trans (hstep.stays hc (hd d hmem) hevict))
  · exact .inr ⟨page, entry, bytes, hleaves.tail hc hstep hmem (hd d hmem)⟩

theorem Steps.userSp_eq (hsteps : Steps deeds V W) (hd : ∀ d ∈ deeds, d.Spares t) :
    W.userSp t = V.userSp t :=
  hsteps.invariant (fun U => U.userSp t = V.userSp t)
    (fun d hmem _ _ hstep hU => (hstep.userSp_eq (hd d hmem)).trans hU) rfl

/-- Pages of an address space that is spared are what they were, wherever they are. -/
theorem Steps.alike (hsteps : Steps deeds V W) (h : V.Consistent) (hd : ∀ d ∈ deeds, d.Spares t)
    (vpn : VirtPage) : Option.Rel Page.Alike (V.page t vpn) (W.page t vpn) := by
  rcases hsteps.stays_or_leaves h hd vpn with hstays | ⟨page, entry, bytes, hleaves⟩
  · rw [hstays.page_eq]
    exact alikeRel_refl _
  · obtain ⟨after, hafter, halike⟩ := hleaves.alike
    rw [hleaves.found, hafter]
    exact .some halike

theorem Steps.contents_eq (hsteps : Steps deeds V W) (h : V.Consistent)
    (hd : ∀ d ∈ deeds, d.Spares t) (hbytes : V.contents t vpn = some bytes) :
    W.contents t vpn = some bytes := by
  refine hsteps.contents_kept h (fun d hmem => ⟨?_, ?_⟩) hbytes
  · rintro rfl
    exact hd _ hmem rfl
  · rintro rfl
    exact hd _ hmem rfl

/-- A slot that a page of a spared address space has at the end it had before, or no page of a
spared address space had it. -/
theorem Steps.slot_unique (hsteps : Steps deeds V W) (h : V.Consistent)
    (hd : ∀ d ∈ deeds, d.Spares s) (hbefore : V.slot s u = some slot)
    (hafter : W.slot t vpn = some slot) : s = t ∧ u = vpn := by
  obtain ⟨slots, -, howners⟩ := (hsteps.consistent h).slotted
  rcases hsteps.stays_or_leaves h hd u with hstays | ⟨page, entry, bytes, hleaves⟩
  · exact howners.inj (hstays.slot_eq.trans hbefore) hafter
  · have hnone := h.not_slot_of_frame hleaves.found hleaves.resident
    cases hnone.symm.trans hbefore

/-! ## Requests -/

namespace Deed

variable {child dst src : SpaceId}

theorem spares_of_room (hd : d ∈ room) : d.Spares t := by
  cases d <;> trivial

theorem spares_of_claiming (hd : d ∈ claiming s vpn) (hne : s ≠ t) : d.Spares t := by
  rcases hd with rfl | hd
  · exact hne
  · exact spares_of_room hd

theorem spares_of_faulting (hd : d ∈ faulting s) (hne : s ≠ t) : d.Spares t := by
  rcases hd with hd | ⟨u, rfl⟩ | ⟨u, rfl⟩
  · exact spares_of_room hd
  · exact hne
  · exact hne

theorem spares_of_accessing (hd : d ∈ accessing s) (hne : s ≠ t) : d.Spares t := by
  rcases hd with hd | ⟨u, write, rfl⟩
  · exact spares_of_faulting hd hne
  · exact hne

theorem spares_of_writing (hd : d ∈ writing s) (hne : s ≠ t) : d.Spares t := by
  rcases hd with hd | ⟨u, rfl⟩
  · exact spares_of_accessing hd hne
  · exact hne

theorem spares_of_copying (hd : d ∈ copying dst src) (hne : dst ≠ t) : d.Spares t := by
  rcases hd with hd | ⟨u, rfl⟩ | ⟨u, rfl⟩
  · exact spares_of_room hd
  · exact hne
  · exact hne

theorem spares_of_discarding (hd : d ∈ discarding s) (hne : s ≠ t) : d.Spares t := by
  obtain ⟨u, rfl⟩ := hd
  exact hne

theorem spares_of_dropping (hd : d ∈ dropping s) (hne : s ≠ t) : d.Spares t := by
  rcases hd with rfl | hd
  · exact hne
  · exact spares_of_discarding hd hne

/-- A fork changes the child alone. -/
theorem spares_of_forking (hd : d ∈ forking child s) (hne : child ≠ t) : d.Spares t := by
  rcases hd with hd | hd | rfl | rfl
  · exact spares_of_copying hd hne
  · exact spares_of_dropping hd hne
  · exact hne
  · trivial

theorem spares_of_mapping {file : FileId} (hd : d ∈ mapping s file) (hne : s ≠ t) :
    d.Spares t := by
  rcases hd with ⟨page, rfl⟩ | rfl | ⟨id, rfl⟩
  · exact hne
  · trivial
  · trivial

end Deed

/-- The address space that a request changes, if it is one that exists. -/
def Op.subject? : Op → Option SpaceId
  | drop s | alloc s _ _ _ _ | claim s _ | fault s _ | setUserSp s _ | setupStack s | read s _ _
  | write s _ _ | remove s _ | recycle s | map s _ _ _ _ _ | unmap s _
  | loadExecutable s _ _ _ _ _ _ | mapCall s _ _ _ _ _ _ | unmapCall s _ | access s _ _
  | setFlags s _ _ _ => some s
  | copy dst _ => some dst
  | create | fork _ | reopen _ _ _ | release _ | truncate _ _ | writeFile _ _ _ => none

theorem Op.spares_of_deeds {op : Op} {child : SpaceId} (hd : d ∈ op.deeds child)
    (hop : op.subject? ≠ some t) (hchild : child ≠ t) : d.Spares t := by
  have hne : ∀ {s}, op.subject? = some s → s ≠ t := by
    rintro s hs rfl
    exact hop hs
  cases op with
  | create =>
      rcases hd with rfl | rfl
      · exact hchild
      · trivial
  | drop s => exact Deed.spares_of_dropping hd (hne rfl)
  | fork s => exact Deed.spares_of_forking hd hchild
  | copy dst src => exact Deed.spares_of_copying hd (hne rfl)
  | alloc s va writable loader target =>
      cases loader with
      | zero =>
          obtain rfl : d = _ := hd
          exact hne rfl
      | file segment =>
          obtain ⟨touch, -, rfl⟩ := hd
          exact hne rfl
  | claim s va => exact Deed.spares_of_claiming hd (hne rfl)
  | fault s f => exact Deed.spares_of_faulting hd (hne rfl)
  | setupStack s =>
      rcases hd with rfl | hd
      · exact hne rfl
      · exact Deed.spares_of_faulting hd (hne rfl)
  | read s va buffer => exact Deed.spares_of_accessing hd (hne rfl)
  | write s va data => exact Deed.spares_of_writing hd (hne rfl)
  | recycle s | unmap s va | unmapCall s addr => exact Deed.spares_of_discarding hd (hne rfl)
  | map s va length writable file offset => exact Deed.spares_of_mapping hd (hne rfl)
  | loadExecutable s va file offset readBytes zeroBytes writable =>
      exact Deed.spares_of_mapping hd (hne rfl)
  | mapCall s descriptors addr length writable fd offset =>
      obtain ⟨file, -, hd⟩ := hd
      exact Deed.spares_of_mapping hd (hne rfl)
  | setUserSp s userSp | remove s va | access s va isWrite | setFlags s va accessed dirty =>
      obtain rfl : d = _ := hd
      exact hne rfl
  | reopen file base pages | release id | truncate file length | writeFile file offset data =>
      obtain rfl : d = _ := hd
      trivial

end

namespace Machine

variable {m m' : Machine} {t : SpaceId} {op : Op} {visit : Visit} {requests : List (Visit × Op)}

/-- An address space before and after a request of another one: its pages are the same, and each of
them stays where it is or was evicted. -/
structure Undisturbed (m m' : Machine) (op : Op) (t : SpaceId) : Prop where
  userSp_eq : m'.userSp? t = m.userSp? t
  alike : ∀ vpn, Option.Rel Page.Alike (m.page? t vpn) (m'.page? t vpn)
  place : ∀ vpn, (m.view [] []).Stays (m'.view [] []) t vpn ∨ ∃ page entry bytes,
    (m.view [] []).Leaves (op.deeds m.nextSpace) (m'.view [] []) t vpn page entry bytes
  /-- A slot belongs to one page alone. -/
  slot_unique : ∀ {vpn slot s u}, (m'.view [] []).slot t vpn = some slot →
    (m'.view [] []).slot s u = some slot → s = t ∧ u = vpn
  /-- Before, the slot was free, or belonged to the same page or to one that the request changes. -/
  slot_fresh : ∀ {vpn slot s u}, (m'.view [] []).slot t vpn = some slot →
    op.subject? ≠ some s → (m.view [] []).slot s u = some slot → s = t ∧ u = vpn

theorem Sound.ne_nextSpace (h : m.Sound) (hlive : (m.view [] []).Live t) : m.nextSpace ≠ t := by
  rintro rfl
  exact h.fresh _ le_rfl hlive

theorem Sound.undisturbed (h : m.Sound) (hlive : (m.view [] []).Live t)
    (hop : op.subject? ≠ some t) (hstep : m.step? visit op = some m') :
    m.Undisturbed m' op t := by
  have hfinished := Op.finished h hstep
  have hspares : ∀ {s}, (m.view [] []).Live s → op.subject? ≠ some s →
      ∀ d ∈ op.deeds m.nextSpace, d.Spares s := fun hs hsubject d hd =>
    Op.spares_of_deeds hd hsubject (h.ne_nextSpace hs)
  have hd := hspares hlive hop
  refine ⟨hfinished.steps.userSp_eq hd, hfinished.steps.alike h.consistent hd,
    hfinished.steps.stays_or_leaves h.consistent hd, fun hslot hother => ?_,
    fun {vpn slot s u} hslot hsubject hbefore => ?_⟩
  · obtain ⟨slots, -, howners⟩ := hfinished.sound.consistent.slotted
    exact howners.inj hother hslot
  · obtain ⟨page, hpage, -⟩ := Option.bind_eq_some_iff.mp hbefore
    exact hfinished.steps.slot_unique h.consistent
      (hspares (Machine.live_of_page? hpage) hsubject) hbefore hslot

/-- No request disturbs an address space that it does not change, whatever the request comes to. -/
theorem undisturbed_of_run {frames : ℕ} {disk : Disk} {files : FileStore}
    (hframes : frames ≤ PageTable.Entry.frameBound)
    (hrun : (boot frames disk files).run? requests = some m) (hlive : m.userSp? t ≠ none)
    (hop : op.subject? ≠ some t) (hstep : m.step? visit op = some m') : m.Undisturbed m' op t :=
  (sound_of_run hframes hrun).undisturbed hlive hop hstep

/-- The only frame goes from a page of one address space to a page of another. -/
theorem undisturbed_of_claim : ∃ m m' : Machine, ∃ page : Page, ∃ entry : PageTable.Entry,
    ∃ bytes : PageBytes, m.step? .ascending (.claim 1 ⟨pageSize⟩) = some m' ∧
      m.Undisturbed m' (.claim 1 ⟨pageSize⟩) 0 ∧
      (m.view [] []).Leaves (Deed.claiming 1 ⟨1⟩) (m'.view [] []) 0 ⟨1⟩ page entry bytes := by
  have hserved : ((boot 1 (.zeroed 16) (.ofFiles #[])).run? ([.create, .create,
      .alloc 0 ⟨pageSize⟩ true .zero .anon, .claim 0 ⟨pageSize⟩,
      .alloc 1 ⟨pageSize⟩ true .zero .anon].map (Visit.ascending, ·))).any (fun m =>
        (m.userSp? 0).isSome && ((m.page? 0 ⟨1⟩).bind Page.frame).isSome &&
        (m.step? .ascending (.claim 1 ⟨pageSize⟩)).any fun m' =>
          decide ((m'.page? 0 ⟨1⟩).bind Page.frame = none)) = true := by
    decide +kernel
  simp only [Option.any_eq_true, Bool.and_eq_true, decide_eq_true_eq] at hserved
  obtain ⟨m, hrun, ⟨hlive, hresident⟩, m', hstep, hgone⟩ := hserved
  have hundisturbed := undisturbed_of_run (t := 0) (by decide) hrun
    (Option.isSome_iff_ne_none.mp hlive) (by decide) hstep
  rcases hundisturbed.place ⟨1⟩ with hstays | ⟨page, entry, bytes, hleaves⟩
  · have hframe : (m'.page? 0 ⟨1⟩).bind Page.frame = (m.page? 0 ⟨1⟩).bind Page.frame :=
      hstays.frame_eq
    rw [← hframe, hgone] at hresident
    cases hresident
  · exact ⟨m, m', page, entry, bytes, hstep, hundisturbed, hleaves⟩

end Machine

end DemandPaging
