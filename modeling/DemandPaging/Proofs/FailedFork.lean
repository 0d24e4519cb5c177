import DemandPaging.Proofs.ForkStructure
import DemandPaging.Proofs.HandleLifetime
import DemandPaging.Proofs.ResidencyInvariant
import DemandPaging.Proofs.SharedPages
import DemandPaging.Proofs.SlotOwnership

/-! # Failed forks

A fork fails only if a page of the parent cannot be read from its file. By then pages may have been
copied, and some of the copies may have been evicted again. All that the child held goes with it:
what tells of it afterwards is that pages of others have lost their frames.
-/

namespace DemandPaging

/-! ## Borrowed references -/

/-- What one address space refers to, beside references that are held elsewhere. -/
def View.alone (V : View) (t : SpaceId) (pins : List BackingId) : View :=
  { V with page := fun s vpn => if s = t then V.page s vpn else none, pins }

/-- Steps in which one address space alone takes references to backings or drops them. -/
def Deed.Borrows (t : SpaceId) : Deed → Prop
  | .inherit s _ _ | .copy s _ _ | .discard s _ => s = t
  | .bring _ _ | .register _ _ | .adopt _ _ | .pin _ | .unpin _ | .edit _ | .reopen _
  | .release _ => False
  | _ => True

section

variable {deeds : Set Deed} {d : Deed} {U V W : View} {s t child : SpaceId} {vpn : VirtPage}
  {id : BackingId} {pins : List BackingId}

namespace Deed

theorem borrows_of_forking (hd : d ∈ forking child s) : d.Borrows child := by
  rcases hd with (hd | ⟨u, rfl⟩ | ⟨u, rfl⟩) | (rfl | ⟨u, rfl⟩) | rfl | rfl
  · cases d <;> trivial
  · rfl
  · rfl
  · trivial
  · rfl
  · trivial
  · trivial

theorem Borrows.opensNone (hd : d.Borrows t) : d.OpensNone := by
  cases d <;> trivial

end Deed

namespace View

theorem page_alone (V : View) (t : SpaceId) (pins : List BackingId) (vpn : VirtPage) :
    (V.alone t pins).page t vpn = V.page t vpn :=
  if_pos rfl

theorem page_alone_setAt {p : Option Page} (hpage : W.page = setAt V.page t vpn p) :
    (W.alone t pins).page = setAt (V.alone t pins).page t vpn p := by
  funext s u
  simp only [alone, hpage, setAt]
  by_cases hs : s = t
  · simp [hs]
  · simp [hs, Ne.symm hs]

theorem page_alone_of_ne {p : Option Page} (hpage : W.page = setAt V.page s vpn p) (hne : s ≠ t) :
    (W.alone t pins).page = (V.alone t pins).page := by
  funext r u
  simp only [alone, hpage, setAt]
  by_cases hr : r = t
  · subst hr
    simp [hne]
  · simp [hr]

theorem references_alone (h : ∀ vpn, V.page t vpn = none) :
    (V.alone t pins).references id = pins.count id := by
  have hnone : {x : SpaceId × VirtPage | (V.alone t pins).backing x.1 x.2 = some id} = ∅ := by
    refine Set.eq_empty_of_forall_notMem fun x hx => ?_
    obtain ⟨page, hpage, -⟩ := Option.bind_eq_some_iff.mp hx
    simp only [alone] at hpage
    split at hpage
    · next hs =>
      rw [hs, h] at hpage
      cases hpage
    · cases hpage
  rw [references, hnone, Set.encard_empty, zero_add]
  rfl

end View

/-- The references to a backing are those that are held elsewhere and those of one address space, as
long as that one alone takes references and drops them. -/
theorem Step.tallies_alone (hstep : Step d V W) (hd : d.Borrows t) (hc : V.Consistent)
    (hn : V.files.Numbered) (hid : id ∈ pins) (h : (V.alone t pins).Tallies id) :
    (W.alone t pins).Tallies id := by
  have hopen : 0 < V.files.refs id := h.refs_pos_of_pin hid
  cases hstep with
  | evict full victim found mapped loaded spilled zeroed =>
      rename_i i e page entry bytes kind swap pool
      have hbackings := (PageKind.backings_savedIn page.kind bytes (entry.has .dirty) V.files).1
      by_cases hs : e.space = t
      · subst hs
        exact h.changed ((V.page_alone _ _ _).trans found) (View.page_alone_setAt rfl)
          spilled.alike.backing?_eq rfl hbackings
      · exact h.congr (View.page_alone_of_ne rfl hs) rfl (FileStore.refs_congr hbackings id)
  | inherit live found untouched fresh =>
      rename_i dst src vpn page
      obtain rfl : dst = t := hd
      have hvpn := (hc.settled found).vpn_eq
      subst hvpn
      refine (h.registered ((V.page_alone _ _ _).trans fresh) fun _ => hopen).congr ?_ rfl rfl
      exact View.page_alone_setAt rfl
  | copy live found touched fresh first copied stored =>
      rename_i dst src vpn page frame rest bytes pool
      obtain rfl : dst = t := hd
      refine h.putPage (View.page_alone_setAt rfl) rfl ?_
      have hcopied := (Page.alike_child touched (some frame)).backing?_eq
      have hvpn := (hc.settled found).vpn_eq
      subst hvpn
      rw [View.backing_of_none ((V.page_alone _ _ _).trans fresh), Option.bind_some, hcopied]
      exact (Nat.add_zero _).trans (Page.refs_retainedIn fun _ => hopen)
  | discardResident found resident mapped loaded freed =>
      obtain rfl := hd
      obtain ⟨hbackings, hnext⟩ := PageKind.backings_savedIn _ _ _ V.files
      exact h.removed hn ((V.page_alone _ _ _).trans found) (View.page_alone_setAt rfl) rfl
        hbackings hnext rfl
  | discardSlot found | discardBare found =>
      obtain rfl := hd
      exact h.removed hn ((V.page_alone _ _ _).trans found) (View.page_alone_setAt rfl) rfl rfl rfl
        rfl
  | take | sweep | spoil | giveBack | touch | adjust | store | create | next | drop | setUserSp =>
      exact h.congr rfl rfl rfl
  | bring | register | adopt | pin | unpin | edit | reopen | release => exact hd.elim

theorem Step.size_readAt (hstep : Step d V W) (hc : V.Consistent) {file : FileId}
    (hd : d ≠ .edit file) (offset count : ℕ) :
    (W.files.readAt file offset count).size = (V.files.readAt file offset count).size := by
  rcases hstep.file?_cases hc hd with hfile | ⟨r, u, segment, bytes, entry, -, -, -, hfile⟩
  · rw [FileStore.size_readAt, FileStore.size_readAt, hfile]
  · rw [← segment.size_readAt_writeBack V.files bytes, FileStore.size_readAt,
      FileStore.size_readAt, hfile]

section

variable (hsteps : Steps deeds V W) (hd : ∀ d ∈ deeds, d.Borrows t) (hc : V.Consistent)
  (hn : V.files.Numbered) (hempty : ∀ vpn, V.page t vpn = none)

include hsteps hd hc hn hempty

theorem Steps.tallies_alone (hpos : 0 < V.files.refs id) :
    (W.alone t (List.replicate (V.files.refs id) id)).Tallies id := by
  have hmem : id ∈ List.replicate (V.files.refs id) id := List.mem_replicate.mpr ⟨hpos.ne', rfl⟩
  have hstart : (V.alone t (List.replicate (V.files.refs id) id)).Tallies id := by
    rw [View.Tallies, View.references_alone hempty, List.count_replicate_self]
    rfl
  exact (hsteps.invariant (fun U => U.Consistent ∧ U.files.Numbered ∧
      (U.alone t (List.replicate (V.files.refs id) id)).Tallies id)
    (fun d hmem' _ _ hstep hU => ⟨hstep.consistent hU.1, hstep.numbered hU.2.1,
      hstep.tallies_alone (hd d hmem') hU.1 hU.2.1 hmem hU.2.2⟩) ⟨hc, hn, hstart⟩).2.2

theorem Steps.file_of_borrows (id : BackingId) :
    (W.files.backing? id).map Backing.file = (V.files.backing? id).map Backing.file := by
  have hrecounted := hsteps.recounted fun d hmem => (hd d hmem).opensNone
  have hkept : ∀ {after}, W.files.backing? id = some after →
      (V.files.backing? id).map Backing.file = some after.file := by
    intro after hafter
    obtain ⟨before, hbefore, hsame, -⟩ := hrecounted.exists_before hafter
    rw [hbefore, hsame.file_eq, Option.map_some]
  cases hafter : W.files.backing? id with
  | some after => exact (hkept hafter).symm
  | none =>
      by_contra hne
      obtain ⟨before, hbefore⟩ : ∃ before, V.files.backing? id = some before := by
        refine Option.ne_none_iff_exists'.mp fun hnone => hne ?_
        rw [hnone]
      have hpos : 0 < V.files.refs id := (FileStore.refs_pos_iff hn).mpr ⟨before, hbefore⟩
      have htallies := hsteps.tallies_alone hd hc hn hempty hpos
      have hopen : 0 < W.files.refs id :=
        htallies.refs_pos_of_pin (List.mem_replicate.mpr ⟨hpos.ne', rfl⟩)
      obtain ⟨after, hsome⟩ := (FileStore.refs_pos_iff (hrecounted.numbered hn)).mp hopen
      cases hafter.symm.trans hsome

/-- Once the address space has no page again, nothing is left of what it borrowed. -/
theorem Steps.backing?_of_borrows (hgone : ∀ vpn, W.page t vpn = none) (id : BackingId) :
    W.files.backing? id = V.files.backing? id := by
  have hrecounted := hsteps.recounted fun d hmem => (hd d hmem).opensNone
  have hfile := hsteps.file_of_borrows hd hc hn hempty id
  cases hafter : W.files.backing? id with
  | none =>
      rw [hafter] at hfile
      exact (Option.map_eq_none_iff.mp hfile.symm).symm
  | some after =>
      obtain ⟨before, hbefore, hsame, -⟩ := hrecounted.exists_before hafter
      have hpos : 0 < V.files.refs id := (FileStore.refs_pos_iff hn).mpr ⟨before, hbefore⟩
      have htallies := hsteps.tallies_alone hd hc hn hempty hpos
      rw [View.Tallies, View.references_alone hgone, List.count_replicate_self] at htallies
      have hrefs : W.files.refs id = V.files.refs id := by exact_mod_cast htallies
      simp only [FileStore.refs, hafter, hbefore, Option.elim_some] at hrefs
      obtain ⟨file, base, pages, refs⟩ := before
      obtain ⟨file', base', pages', refs'⟩ := after
      obtain ⟨rfl, rfl, rfl⟩ := hsame
      rw [hbefore]
      exact congrArg some (congrArg _ hrefs)

theorem Steps.size_fetch_of_borrows (segment : Segment) :
    (segment.fetch W.files).size = (segment.fetch V.files).size := by
  have hread : ∀ file offset count,
      (W.files.readAt file offset count).size = (V.files.readAt file offset count).size := by
    intro file offset count
    refine (hsteps.invariant (fun U => U.Consistent ∧ (U.files.readAt file offset count).size =
      (V.files.readAt file offset count).size) (fun d hmem _ _ hstep hU => ?_) ⟨hc, rfl⟩).2
    refine ⟨hstep.consistent hU.1, (hstep.size_readAt hU.1 ?_ offset count).trans hU.2⟩
    rintro rfl
    exact hd _ hmem
  rw [Segment.size_fetch, Segment.size_fetch, hsteps.file_of_borrows hd hc hn hempty]
  simp only [hread]

end

theorem View.Unreadable.dropped (hshort : V.Unreadable s)
    (hsteps : Steps (Deed.dropping child) V W) (hc : V.Consistent) (hne : child ≠ s)
    (hsize : ∀ segment : Segment,
      (segment.fetch W.files).size = (segment.fetch V.files).size) : W.Unreadable s := by
  obtain ⟨vpn, page, segment, hpage, hframe, hkind, hlt⟩ := hshort
  refine ⟨vpn, page, segment, ?_, hframe, hkind, (hsize segment).trans_lt hlt⟩
  rcases hsteps.stays_or_leaves hc (fun d hd => Deed.spares_of_dropping hd hne) vpn with
    hstays | ⟨other, entry, bytes, hleaves⟩
  · exact hstays.page_eq.trans hpage
  · obtain rfl : page = other := Option.some.inj (hpage.symm.trans hleaves.found)
    cases hframe.symm.trans hleaves.resident

end

/-! ## Failed forks -/

namespace Machine

variable {m m' : Machine} {s t : SpaceId} {visit : Visit} {requests : List (Visit × Op)} {e : Errno}

/-- Nothing belongs to an address space. -/
structure OwnsNothing (m : Machine) (s : SpaceId) : Prop where
  dead : m.space? s = none
  page_eq_none : ∀ vpn, m.page? s vpn = none
  entry_eq_none : ∀ vpn, m.entryAt? s vpn = none
  not_listed : ∀ e ∈ m.frames.entries, e.space ≠ s
  not_holds : ∀ vpn slot, ¬m.Holds s vpn slot

/-- What a fork that failed leaves behind. -/
structure ForkUndone (m m' : Machine) (s : SpaceId) : Prop where
  /-- A file page of the parent is not resident, and its file is too short for it. -/
  unreadable : (m'.view [] []).Unreadable s
  child : m'.OwnsNothing m.nextSpace
  nextSpace_eq : m'.nextSpace = m.nextSpace
  /-- Every backing is referred to as often as before. -/
  backing?_eq : ∀ id, m'.files.backing? id = m.files.backing? id
  handles_eq : ∀ file, m'.files.handles file = m.files.handles file
  userSp_eq : ∀ t, m'.userSp? t = m.userSp? t
  /-- Pages differ at most in where their contents are. -/
  alike : ∀ t vpn, Option.Rel Page.Alike (m.page? t vpn) (m'.page? t vpn)
  /-- The anonymous pages have the bytes that they had. -/
  contents_eq : ∀ t vpn page, m.page? t vpn = some page → page.type = .anon →
    page.isUninit = false → ∃ bytes, m.contents? t vpn = some bytes ∧
      m'.contents? t vpn = some bytes
  undisturbed : ∀ t, m.userSp? t ≠ none → m.Undisturbed m' (.fork s) t
  residency : m'.Residency
  slotOwnership : m'.SlotOwnership
  resident_eq : {x : SpaceId × VirtPage | ∃ page, m'.page? x.1 x.2 = some page ∧
    page.isResident = true}.encard = m'.stats.resident
  slotsInUse_eq : {x : SpaceId × VirtPage | ∃ page slot, m'.page? x.1 x.2 = some page ∧
    page.kind = .anon slot ∧ page.isResident = false}.encard = m'.stats.slotsInUse

theorem Residency.ownsNothing (h : m.Residency) (hdead : m.space? s = none) : m.OwnsNothing s := by
  refine ⟨hdead, page?_eq_none hdead, entryAt?_eq_none hdead, fun e he hs => ?_, ?_⟩
  · obtain ⟨page, entry, hocc⟩ := h.occupied e he
    cases (page?_eq_none (hs ▸ hdead) e.vpn).symm.trans hocc.page_eq
  · rintro vpn slot ⟨page, hpage, -⟩
    cases (page?_eq_none hdead vpn).symm.trans hpage

theorem Residency.encard_resident (h : m.Residency) :
    {x : SpaceId × VirtPage | ∃ page, m.page? x.1 x.2 = some page ∧
      page.isResident = true}.encard = m.stats.resident := by
  classical
  rw [← h.bijOn.image_eq, h.bijOn.injOn.encard_image]
  have hentries : {e | e ∈ m.frames.entries} = (m.frames.entries.toFinset : Set FrameEntry) := by
    ext e
    simp
  rw [hentries, Set.encard_coe_eq_coe_finsetCard, List.toFinset_card_of_nodup h.listed_once]
  rfl

theorem Sound.forkUndone {m₁ : Machine} {outside : FileId → ℕ} (h : m.Sound)
    (hb : (m.view [] []).Balanced outside) (hlive : (m.view [] []).Live s)
    (hshort : (m₁.view [] []).Unreadable s) (hleft : MachineM.Abandoned m m₁ m' s)
    (hstep : m.step? visit (.fork s) = some m') : m.ForkUndone m' s := by
  have hc := h.consistent
  have hsound : m'.Sound := ⟨hleft.steps.consistent hc, hleft.fresh⟩
  have hempty : ∀ vpn, (m.view [] []).page m.nextSpace vpn = none :=
    page?_eq_none (MachineM.space?_nextSpace h.fresh)
  have hdead : m'.space? m.nextSpace = none := Option.map_eq_none_iff.mp hleft.dead
  have hborrows : ∀ d ∈ Deed.forking m.nextSpace s, d.Borrows m.nextSpace :=
    fun d hd => Deed.borrows_of_forking hd
  have hspares : ∀ t, t ≠ m.nextSpace → ∀ d ∈ Deed.forking m.nextSpace s, d.Spares t :=
    fun t ht d hd => Deed.spares_of_forking hd ht.symm
  have hbacking : ∀ id, m'.files.backing? id = m.files.backing? id :=
    hleft.steps.backing?_of_borrows hborrows hc hb.numbered hempty (page?_eq_none hdead)
  refine ⟨?_, hsound.residency.ownsNothing hdead, hleft.nextSpace_eq, hbacking, fun file => ?_,
    fun t => ?_, fun t vpn => ?_, fun t vpn page hpage htype htouched => ?_,
    fun t ht => h.undisturbed ht (Option.some_ne_none t).symm hstep, hsound.residency,
    hsound.slotOwnership, hsound.residency.encard_resident, hsound.slotOwnership.used_eq⟩
  · have hmaking := hleft.making.mono fun _ hd => MachineM.forking_of_making hd
    refine hshort.dropped hleft.dropping (hleft.making.consistent hc) (h.ne_nextSpace hlive)
      fun segment => ?_
    exact (hleft.steps.size_fetch_of_borrows hborrows hc hb.numbered hempty segment).trans
      (hmaking.size_fetch_of_borrows hborrows hc hb.numbered hempty segment).symm
  · refine hb.balanced.handles_eq (hleft.steps.balanced hb).balanced ?_
    change m'.files.openOn file = m.files.openOn file
    simp only [FileStore.openOn, hbacking]
  · by_cases ht : t = m.nextSpace
    · subst ht
      rw [hleft.dead, userSp?, MachineM.space?_nextSpace h.fresh]
      rfl
    · exact hleft.steps.userSp_eq (hspares t ht)
  · by_cases ht : t = m.nextSpace
    · subst ht
      rw [page?_eq_none hdead, page?_eq_none (MachineM.space?_nextSpace h.fresh)]
      exact .none
    · exact hleft.steps.alike hc (hspares t ht) vpn
  · have ht : t ≠ m.nextSpace := (h.ne_nextSpace (live_of_page? hpage)).symm
    obtain ⟨bytes, hbytes⟩ := hc.exists_contents hpage htype htouched
    exact ⟨bytes, hbytes, hleft.steps.contents_eq hc (hspares t ht) hbytes⟩

/-- A fork that fails, in whatever order it visits the pages and wherever it stops, fails because a
page of the parent could not be read. Nothing of the child is left then, and no address space
has lost more than frames. -/
theorem forkUndone_of_run {frames : ℕ} {disk : Disk} {files : Array File}
    (hframes : frames ≤ PageTable.Entry.frameBound)
    (hrun : (boot frames disk (.ofFiles files)).run? requests = some m)
    (hfork : (Op.fork s).execBy visit m = .error (.failed e) m') :
    e = .ioError ∧ m.ForkUndone m' s := by
  have hsound := sound_of_run hframes hrun
  obtain ⟨he, hlive, m₁, hshort, hleft⟩ := (Op.fork_ends visit hsound s).failed_of_eq hfork
  exact ⟨he, hsound.forkUndone (balanced_of_run hframes hrun) hlive hshort hleft
    (step?_of_failed hfork)⟩

/-- A page is copied to the only frame and evicted again before the fork fails: the page that is to
be copied next was evicted before its file was cut. -/
theorem forkUndone_of_truncated : ∃ m m' : Machine,
    (Op.fork 0).execBy .ascending m = .error (.failed .ioError) m' ∧
      m.ForkUndone m' 0 ∧ m'.stats.evictions = m.stats.evictions + 2 := by
  generalize hcontent : File.mk #[0x41] 1 none none none none = content
  generalize hrequests : [Op.create, .alloc 0 ⟨pageSize⟩ true .zero .anon,
    .map 0 ⟨2 * pageSize⟩ 1 true 0 0, .read 0 ⟨2 * pageSize⟩ #[0], .write 0 ⟨pageSize⟩ #[7],
    .truncate 0 0].map (Visit.ascending, ·) = requests
  have hserved : ((boot 1 (.zeroed 16) (.ofFiles #[content])).run? requests).any (fun m =>
      (m.answer? .ascending (.fork 0)).isNone && (m.step? .ascending (.fork 0)).any fun m' =>
        decide (m'.stats.evictions = m.stats.evictions + 2)) = true := by
    rw [← hcontent, ← hrequests]
    decide +kernel
  simp only [Option.any_eq_true, Bool.and_eq_true, decide_eq_true_eq, Option.isNone_iff_eq_none]
    at hserved
  obtain ⟨m, hrun, hanswer, m', hstep, hevictions⟩ := hserved
  obtain ⟨e, hfork⟩ := exists_failed_of_step? hstep hanswer
  obtain ⟨rfl, hundone⟩ := forkUndone_of_run (by decide) hrun hfork
  exact ⟨m, m', hfork, hundone, hevictions⟩

end Machine

end DemandPaging
