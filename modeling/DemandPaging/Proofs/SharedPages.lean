import DemandPaging.Proofs.Contents
import DemandPaging.Proofs.FileBytes

/-! # Pages that show files

A page that shows a file is filled from its segment and written back to it. What is in its frame
after a step was there before, came from the segment, or is a copy of a page that a fork found. What
is in the file after a step was there before, or came from the frame of a page that left it dirty.
-/

namespace DemandPaging

namespace Page

variable {page after : Page} {segment : Segment}

/-- The segment that the page shows, or will show after its first touch. -/
def shared? (page : Page) : Option Segment :=
  match page.type with
  | .anon => none
  | .file => page.segment?

theorem Alike.shared?_eq (h : page.Alike after) : after.shared? = page.shared? := by
  rw [shared?, shared?, h.type_eq, h.segment?_eq]

theorem type_eq_anon_iff : page.type = .anon ↔ page.shared? = none := by
  unfold shared? type segment?
  cases page.kind with
  | uninit touch => cases touch <;> simp [FirstTouch.target, FirstTouch.segment?]
  | anon slot => simp
  | file segment => simp

theorem shared?_of_kind (h : page.kind = .file segment) : page.shared? = some segment := by
  simp only [shared?, type, segment?, h]

theorem backing?_of_shared? (h : page.shared? = some segment) :
    page.backing? = some segment.backing := by
  unfold shared? at h
  split at h
  · cases h
  · rw [backing?, h, Option.map_some]

end Page

namespace View

variable {V W : View} {s : SpaceId} {vpn : VirtPage} {page : Page} {segment : Segment}
  {bytes : PageBytes} {entry : PageTable.Entry} {d : Deed}

/-- The segment that a page shows, or will show after its first touch. -/
def shared (V : View) (s : SpaceId) (vpn : VirtPage) : Option Segment :=
  (V.page s vpn).bind Page.shared?

theorem shared_of_page (h : V.page s vpn = some page) : V.shared s vpn = page.shared? := by
  rw [shared, h, Option.bind_some]

/-- A page that shows a segment is in a frame with some bytes. -/
structure Resident (V : View) (s : SpaceId) (vpn : VirtPage) (segment : Segment)
    (bytes : PageBytes) (entry : PageTable.Entry) : Prop where
  exists_page : ∃ page frame, V.page s vpn = some page ∧ page.kind = .file segment ∧
    page.frame = some frame ∧ V.pool.load frame = .ok bytes
  mapped : V.entry s vpn = some entry

/-- A page can be filled with some bytes from the segment that it shows. -/
structure Fillable (V : View) (s : SpaceId) (vpn : VirtPage) (segment : Segment)
    (bytes : PageBytes) : Prop where
  shared_eq : V.shared s vpn = some segment
  loaded : segment.loadInto V.files PageBytes.zero = (bytes, true)

theorem Resident.shared_eq (h : V.Resident s vpn segment bytes entry) :
    V.shared s vpn = some segment := by
  obtain ⟨page, frame, hp, hkind, -⟩ := h.exists_page
  rw [shared_of_page hp, Page.shared?_of_kind hkind]

theorem Resident.of_page (h : V.Resident s vpn segment bytes entry)
    (hp : V.page s vpn = some page) : page.kind = .file segment ∧
      ∃ frame, page.frame = some frame ∧ V.pool.load frame = .ok bytes := by
  obtain ⟨other, frame, hother, hkind, hframe, hload⟩ := h.exists_page
  obtain rfl : page = other := Option.some.inj (hp.symm.trans hother)
  exact ⟨hkind, frame, hframe, hload⟩

theorem Resident.eq {other : PageBytes} {another : PageTable.Entry}
    (h : V.Resident s vpn segment bytes entry) {segment' : Segment}
    (h' : V.Resident s vpn segment' other another) :
    segment = segment' ∧ bytes = other ∧ entry = another := by
  obtain ⟨page, frame, hp, hkind, hframe, hload⟩ := h.exists_page
  obtain ⟨hkind', frame', hframe', hload'⟩ := h'.of_page hp
  obtain rfl : frame = frame' := Option.some.inj (hframe.symm.trans hframe')
  exact ⟨PageKind.file.inj (hkind.symm.trans hkind'), Except.ok.inj (hload.symm.trans hload'),
    Option.some.inj (h.mapped.symm.trans h'.mapped)⟩

theorem Consistent.exists_resident (h : V.Consistent) (hp : V.page s vpn = some page)
    (hshared : page.shared? = some segment) {frame : Frame} (hframe : page.frame = some frame) :
    ∃ bytes entry, V.pool.load frame = .ok bytes ∧ V.Resident s vpn segment bytes entry := by
  obtain ⟨entry, hentry, -⟩ := h.mapped hp hframe
  obtain ⟨bytes, hload⟩ := FramePool.load_of_lt (h.frame_lt hp hframe)
  refine ⟨bytes, entry, hload, ⟨page, frame, hp, ?_, hframe, hload⟩, hentry⟩
  have hplaced := (h.settled hp).placed
  unfold Page.Placed at hplaced
  unfold Page.shared? Page.type Page.segment? at hshared
  cases hkind : page.kind with
  | uninit touch =>
      rw [hkind, hframe] at hplaced
      cases hplaced
  | anon slot => simp [hkind] at hshared
  | file own => simpa [hkind] using hshared

/-- Where the bytes of a resident page come from that shows a segment. -/
inductive Origin (V : View) (d : Deed) (s : SpaceId) (vpn : VirtPage) (segment : Segment)
    (bytes : PageBytes) (entry : PageTable.Entry) : Prop where
  /-- The page was resident before, and is dirty still if it was. -/
  | stayed {before : PageTable.Entry} (resident : V.Resident s vpn segment bytes before)
      (dirty : before.has .dirty = true → entry.has .dirty = true ∨ d = .adjust s vpn)
  | filled (deed : d = .bring s vpn)
      (absent : ∀ segment bytes before, ¬V.Resident s vpn segment bytes before)
      (fillable : V.Fillable s vpn segment bytes)
  | copied {src : SpaceId} {other : PageTable.Entry} (deed : d = .copy s src vpn)
      (resident : V.Resident src vpn segment bytes other)
  | read {src : SpaceId} (deed : d = .copy s src vpn) (fillable : V.Fillable src vpn segment bytes)

end View

section

variable {V W : View} {d : Deed} {s : SpaceId} {vpn : VirtPage} {segment : Segment}
  {bytes : PageBytes} {entry : PageTable.Entry}

theorem PageTable.Entry.dirty_marked {before : PageTable.Entry} (h : before.has .dirty = true)
    (write : Bool) : (before.marked write).has .dirty = true := by
  unfold PageTable.Entry.marked
  split
  · rw [PageTable.Entry.has_put, if_pos rfl]
  · rw [PageTable.Entry.has_put, if_neg (by decide), h]

theorem MachineM.kind_of_childKind {kind : PageKind} (h : MachineM.childKind kind = .file segment) :
    kind = .file segment := by
  cases kind with
  | uninit touch => cases h
  | anon slot => cases h
  | file own => exact h

theorem Fill.shared?_eq {swap swap' : SwapArea} {files files' : FileStore} {page : Page}
    (h : Fill swap files page.kind bytes (.file segment) swap' files') :
    page.shared? = some segment := by
  generalize hkind : page.kind = kind at h
  cases h with
  | share =>
      simp only [Page.shared?, Page.type, Page.segment?, hkind, FirstTouch.target,
        FirstTouch.segment?]
  | file => exact Page.shared?_of_kind hkind

theorem Fill.loadInto_eq {swap swap' : SwapArea} {files files' : FileStore} {kind : PageKind}
    (h : Fill swap files kind bytes (.file segment) swap' files') :
    segment.loadInto files PageBytes.zero = (bytes, true) := by
  cases h with
  | share hread => exact hread
  | file hread => exact hread

theorem Step.origin_of_same (hstep : Step d V W) (h : V.Consistent) (hd : d ≠ .store s vpn)
    (hW : W.Resident s vpn segment bytes entry) (hpage : W.page s vpn = V.page s vpn)
    (hdirty : ∀ before, V.entry s vpn = some before → before.has .dirty = true →
      entry.has .dirty = true ∨ d = .adjust s vpn) : V.Origin d s vpn segment bytes entry := by
  obtain ⟨page, frame, hp, hkind, hframe, hload⟩ := hW.exists_page
  have hafter : W.frame s vpn = some frame := (View.frame_of_page hp).trans hframe
  rw [hpage] at hp
  rw [hstep.load_eq h hd ((View.frame_of_page hp).trans hframe) hafter] at hload
  obtain ⟨before, hbefore, -⟩ := h.mapped hp hframe
  exact .stayed ⟨⟨page, frame, hp, hkind, hframe, hload⟩, hbefore⟩ (hdirty before hbefore)

theorem Step.origin_of_same_entry (hstep : Step d V W) (h : V.Consistent) (hd : d ≠ .store s vpn)
    (hW : W.Resident s vpn segment bytes entry) (hpage : W.page s vpn = V.page s vpn)
    (hentry : W.entry s vpn = V.entry s vpn) : V.Origin d s vpn segment bytes entry := by
  refine hstep.origin_of_same h hd hW hpage fun before hbefore hdirty => .inl ?_
  obtain rfl : entry = before := Option.some.inj (hW.mapped.symm.trans (hentry.trans hbefore))
  exact hdirty

/-- A page that is brought in has the bytes of the file in its frame. -/
theorem Step.origin_of_bring (hstep : Step (.bring s vpn) V W) (h : V.Consistent)
    (hW : W.Resident s vpn segment bytes entry) :
    V.Origin (.bring s vpn) s vpn segment bytes entry := by
  cases hstep with
  | bring found absent first filled stored =>
      rename_i page held rest loaded kind swap files pool
      have hvpn := (h.settled found).vpn_eq
      subst hvpn
      obtain ⟨hkind, frame, hframe, hload⟩ := hW.of_page setAt_same
      obtain rfl : held = frame := Option.some.inj hframe
      obtain rfl : kind = .file segment := hkind
      have hloaded : pool.load held = .ok loaded := by
        rw [FramePool.load_of_store stored, if_pos rfl]
      obtain rfl : loaded = bytes := Except.ok.inj (hloaded.symm.trans hload)
      refine .filled rfl (fun segment bytes before hV => ?_) ⟨?_, filled.loadInto_eq⟩
      · obtain ⟨-, frame, hresident, -⟩ := hV.of_page found
        cases absent.symm.trans hresident
      · exact (View.shared_of_page found).trans filled.shared?_eq

/-- A page that is copied has what the page it was copied from shows. -/
theorem Step.origin_of_copy {src : SpaceId} (hstep : Step (.copy s src vpn) V W)
    (h : V.Consistent) (hW : W.Resident s vpn segment bytes entry) :
    V.Origin (.copy s src vpn) s vpn segment bytes entry := by
  cases hstep with
  | copy live found touched fresh first copied stored =>
      rename_i page held rest loaded pool
      obtain ⟨hkind, frame, hframe, hload⟩ := hW.of_page setAt_same
      obtain rfl : held = frame := Option.some.inj hframe
      have hloaded : pool.load held = .ok loaded := by
        rw [FramePool.load_of_store stored, if_pos rfl]
      obtain rfl : loaded = bytes := Except.ok.inj (hloaded.symm.trans hload)
      have hsource : page.kind = .file segment := MachineM.kind_of_childKind hkind
      have hshared := Page.shared?_of_kind hsource
      cases hresident : page.frame with
      | some own =>
          obtain ⟨own', before, hown, hfrom⟩ := h.exists_resident found hshared hresident
          rw [hresident] at copied
          cases copied with
          | resident hread =>
              obtain rfl : loaded = own' := Except.ok.inj (hread.symm.trans hown)
              exact .copied rfl hfrom
      | none =>
          rw [hresident, hsource] at copied
          cases copied with
          | file hread => exact .read rfl ⟨(View.shared_of_page found).trans hshared, hread⟩

/-- What is in the frame of a page that shows a segment, after a step that is no store to it. -/
theorem Step.origin (hstep : Step d V W) (h : V.Consistent) (hd : d ≠ .store s vpn)
    (hW : W.Resident s vpn segment bytes entry) : V.Origin d s vpn segment bytes entry := by
  by_cases hbring : d = .bring s vpn
  · subst hbring
    exact hstep.origin_of_bring h hW
  by_cases hcopy : ∃ src, d = .copy s src vpn
  · obtain ⟨src, rfl⟩ := hcopy
    exact hstep.origin_of_copy h hW
  have hsame := hstep.origin_of_same h hd hW
  have hsameEntry := hstep.origin_of_same_entry h hd hW
  cases hstep with
  | sweep hand passed inside =>
      refine hsame rfl fun before hbefore hdirty => .inl ?_
      rename_i aged
      have haged := passed s vpn
      have hentry : aged s vpn = some entry := hW.mapped
      rw [hbefore, hentry] at haged
      cases haged with
      | some haged => rwa [haged.has_eq .dirty (by decide)]
  | evict full victim found mapped loaded spilled zeroed =>
      rename_i i e other before saved kind swap pool
      have hne : ¬(e.space = s ∧ e.vpn = vpn) := by
        rintro ⟨rfl, rfl⟩
        obtain ⟨-, frame, hframe, -⟩ := hW.of_page setAt_same
        cases hframe
      exact hsameEntry (setAt_of_ne hne) (setAt_of_ne hne)
  | bring found absent first filled stored =>
      have hvpn := (h.settled found).vpn_eq
      subst hvpn
      have hne := fun he : _ ∧ _ => hbring (congrArg₂ Deed.bring he.1 he.2)
      exact hsameEntry (setAt_of_ne hne) (setAt_of_ne hne)
  | register live fresh | adopt live fresh =>
      refine hsameEntry (setAt_of_ne ?_) rfl
      rintro ⟨rfl, rfl⟩
      obtain ⟨-, frame, hframe, -⟩ := hW.of_page setAt_same
      cases hframe
  | inherit live found untouched fresh =>
      have hvpn := (h.settled found).vpn_eq
      subst hvpn
      refine hsameEntry (setAt_of_ne ?_) rfl
      rintro ⟨rfl, rfl⟩
      obtain ⟨hkind, -⟩ := hW.of_page setAt_same
      simp only [Page.isUninit, hkind, Bool.false_eq_true] at untouched
  | copy live found touched fresh first copied stored =>
      rename_i dst src u other held rest loaded pool
      have hne : ¬(dst = s ∧ u = vpn) := by
        rintro ⟨rfl, rfl⟩
        exact hcopy ⟨src, rfl⟩
      exact hsameEntry (setAt_of_ne hne) (setAt_of_ne hne)
  | discardResident found resident mapped loaded freed =>
      rename_i t u other own before saved pool
      have hne : ¬(t = s ∧ u = vpn) := by
        rintro ⟨rfl, rfl⟩
        obtain ⟨page, frame, hp, -⟩ := hW.exists_page
        cases setAt_same.symm.trans hp
      exact hsameEntry (setAt_of_ne hne) (setAt_of_ne hne)
  | discardSlot found | discardBare found =>
      refine hsameEntry (setAt_of_ne ?_) rfl
      rintro ⟨rfl, rfl⟩
      obtain ⟨page, frame, hp, -⟩ := hW.exists_page
      cases setAt_same.symm.trans hp
  | touch mapped allowed =>
      rename_i t u before write
      by_cases hhere : t = s ∧ u = vpn
      · obtain ⟨rfl, rfl⟩ := hhere
        refine hsame rfl fun other hother hdirty => .inl ?_
        obtain rfl : before = other := Option.some.inj (mapped.symm.trans hother)
        obtain rfl := Option.some.inj (setAt_same.symm.trans hW.mapped)
        exact PageTable.Entry.dirty_marked hdirty write
      · exact hsameEntry rfl (setAt_of_ne hhere)
  | adjust mapped same =>
      rename_i t u before after
      by_cases hhere : t = s ∧ u = vpn
      · obtain ⟨rfl, rfl⟩ := hhere
        exact hsame rfl fun _ _ _ => .inr rfl
      · exact hsameEntry rfl (setAt_of_ne hhere)
  | take | spoil | giveBack | store | create | next | drop | setUserSp | pin | unpin | edit
  | reopen | release => exact hsameEntry rfl rfl

/-! ## Pages that come and go -/

/-- A page that moves, or is touched for the first time, shows what it was to show and may be
written as before. A reference that it has left, it had before. -/
structure Page.Becomes (before after : Page) : Prop where
  writable_eq : after.writable = before.writable
  shared?_eq : after.shared? = before.shared?
  backing?_of : ∀ {id}, after.backing? = some id → before.backing? = some id

theorem Page.Alike.becomes {before after : Page} (h : before.Alike after) : before.Becomes after :=
  ⟨h.writable_eq, h.shared?_eq, fun hid => h.backing?_eq.symm.trans hid⟩

theorem Fill.becomes {swap swap' : SwapArea} {files files' : FileStore} {page : Page}
    {kind : PageKind} (h : Fill swap files page.kind bytes kind swap' files')
    (frame : Option Frame) : page.Becomes { page with frame, kind } := by
  generalize hkind : page.kind = old at h
  cases h <;> constructor <;> simp [Page.shared?, Page.type, Page.backing?, Page.segment?, hkind,
    FirstTouch.target, FirstTouch.segment?]

/-- What a step makes of the page in one place. -/
inductive PageChange (V W : View) (d : Deed) (s : SpaceId) (vpn : VirtPage) : Prop where
  | same (page_eq : W.page s vpn = V.page s vpn)
  | moved {before after : Page} (found : V.page s vpn = some before)
      (now : W.page s vpn = some after) (becomes : before.Becomes after)
  | gone (now : W.page s vpn = none) (deed : d = .discard s vpn)
  | registered {page : Page} (fresh : V.page s vpn = none) (now : W.page s vpn = some page)
      (vpn_eq : page.vpn = vpn) (deed : d = .register s page ∨ d = .adopt s page)
  | inherited {src : SpaceId} {other page : Page} (fresh : V.page s vpn = none)
      (now : W.page s vpn = some page) (found : V.page src vpn = some other)
      (becomes : other.Becomes page) (deed : d = .inherit s src vpn ∨ d = .copy s src vpn)

theorem PageChange.of_put {t : SpaceId} {u : VirtPage} {page : Option Page}
    (hput : W.page = setAt V.page t u page)
    (hat : t = s → u = vpn → W.page s vpn = page → PageChange V W d s vpn) :
    PageChange V W d s vpn := by
  by_cases hsame : t = s ∧ u = vpn
  · refine hat hsame.1 hsame.2 ?_
    rw [hput, hsame.1, hsame.2, setAt_same]
  · exact .same (by rw [hput, setAt_of_ne hsame])

theorem Step.pageChange (hstep : Step d V W) (h : V.Consistent) (s : SpaceId) (vpn : VirtPage) :
    PageChange V W d s vpn := by
  cases hstep with
  | evict full victim found mapped loaded spilled zeroed =>
      refine .of_put rfl ?_
      rintro rfl rfl hnow
      exact .moved found hnow spilled.alike.becomes
  | bring found absent first filled stored =>
      have hvpn := (h.settled found).vpn_eq
      subst hvpn
      refine .of_put rfl ?_
      rintro rfl rfl hnow
      exact .moved found hnow (filled.becomes _)
  | register live fresh inside pinned =>
      refine .of_put rfl ?_
      rintro rfl rfl hnow
      exact .registered fresh hnow rfl (.inl rfl)
  | adopt live fresh inside =>
      refine .of_put rfl ?_
      rintro rfl rfl hnow
      exact .registered fresh hnow rfl (.inr rfl)
  | inherit live found untouched fresh =>
      have hvpn := (h.settled found).vpn_eq
      subst hvpn
      refine .of_put rfl ?_
      rintro rfl rfl hnow
      exact .inherited fresh hnow found (Page.Alike.refl _).becomes (.inl rfl)
  | copy live found touched fresh first copied stored =>
      have hvpn := (h.settled found).vpn_eq
      subst hvpn
      refine .of_put rfl ?_
      rintro rfl rfl hnow
      exact .inherited fresh hnow found (Page.alike_child touched _).becomes (.inr rfl)
  | discardResident | discardSlot | discardBare =>
      refine .of_put rfl ?_
      rintro rfl rfl hnow
      exact .gone hnow rfl
  | take | sweep | spoil | giveBack | touch | adjust | store | create | next | drop | setUserSp
  | pin | unpin | edit | reopen | release => exact .same rfl

/-- Steps that neither register nor remove a page that shows a segment. -/
def Deed.KeepsShared : Deed → Prop
  | .register _ page => page.shared? = none
  | .adopt _ _ | .inherit _ _ _ | .copy _ _ _ | .discard _ _ => False
  | _ => True

theorem Deed.keepsShared_of_accessing (hd : d ∈ Deed.accessing s) : d.KeepsShared := by
  rcases hd with (hd | ⟨u, rfl⟩ | ⟨u, rfl⟩) | ⟨u, write, rfl⟩
  · cases d <;> trivial
  · trivial
  · rfl
  · trivial

theorem Step.shared_eq (hstep : Step d V W) (hd : d.KeepsShared) (h : V.Consistent) :
    W.shared = V.shared := by
  funext t u
  unfold View.shared
  cases hstep.pageChange h t u with
  | same hsame => rw [hsame]
  | moved hfound hnow hbecomes =>
      rw [hfound, hnow, Option.bind_some, Option.bind_some, hbecomes.shared?_eq]
  | gone hnow hdeed => exact (hdeed ▸ hd : Deed.KeepsShared (.discard t u)).elim
  | registered hfresh hnow hvpn hdeed =>
      rcases hdeed with rfl | rfl
      · rw [hfresh, hnow, Option.bind_some, Option.bind_none]
        exact hd
      · exact hd.elim
  | inherited hfresh hnow hfound hbecomes hdeed => rcases hdeed with rfl | rfl <;> exact hd.elim

theorem Steps.shared_eq {deeds : Set Deed} (hsteps : Steps deeds V W)
    (hd : ∀ d ∈ deeds, d.KeepsShared) (h : V.Consistent) : W.shared = V.shared :=
  (hsteps.invariant (fun U => U.Consistent ∧ U.shared = V.shared)
    (fun d hmem _ _ hstep hU =>
      ⟨hstep.consistent hU.1, (hstep.shared_eq (hd d hmem) hU.1).trans hU.2⟩) ⟨h, rfl⟩).2

/-! ## Files -/

theorem PageKind.file?_savedIn {kind : PageKind} (hkind : kind = .file segment) (bytes : PageBytes)
    (dirty : Bool) (files : FileStore) (file : FileId) :
    (kind.savedIn bytes dirty files).file? file =
      if dirty = true then (segment.writeBack files bytes).2.file? file else files.file? file := by
  subst hkind
  cases dirty <;> rfl

/-- Steps that write to a file what is in the frame of a page. -/
def Deed.WritesBack : Deed → Prop
  | .evict _ _ | .discard _ _ => True
  | _ => False

/-- A step that writes nothing back changes files only if it does so from outside. -/
theorem Step.file?_eq (hstep : Step d V W) (hback : ¬d.WritesBack) {file : FileId}
    (hd : d ≠ .edit file) : W.files.file? file = V.files.file? file := by
  cases hstep with
  | bring found absent first filled stored => exact filled.file?_eq file
  | register | adopt | inherit | copy => exact Page.file?_retainedIn _ _ file
  | unpin | release => exact FileStore.file?_release _ _ file
  | pin inside opened => exact FileStore.file?_reopen opened file
  | reopen opened => exact FileStore.file?_reopen opened file
  | edit change =>
      refine FileStore.file?_modifyFile_of_ne ?_ change
      rintro rfl
      exact hd rfl
  | evict | discardResident | discardSlot | discardBare => exact absurd trivial hback
  | take | sweep | spoil | giveBack | touch | adjust | store | create | next | drop | setUserSp =>
      rfl

/-- A file changes only if a dirty page is written back to it, or from outside. -/
theorem Step.file?_cases (hstep : Step d V W) (h : V.Consistent) {file : FileId}
    (hd : d ≠ .edit file) :
    W.files.file? file = V.files.file? file ∨ ∃ s vpn segment bytes entry,
      V.Resident s vpn segment bytes entry ∧ entry.has .dirty = true ∧ W.entry s vpn = none ∧
        W.files.file? file = (segment.writeBack V.files bytes).2.file? file := by
  have hsaved : ∀ {s vpn page frame entry bytes}, V.page s vpn = some page →
      page.frame = some frame → V.entry s vpn = some entry → V.pool.load frame = .ok bytes →
      W.entry s vpn = none →
      W.files.file? file = (page.kind.savedIn bytes (entry.has .dirty) V.files).file? file →
      W.files.file? file = V.files.file? file ∨ ∃ s vpn segment bytes entry,
        V.Resident s vpn segment bytes entry ∧ entry.has .dirty = true ∧ W.entry s vpn = none ∧
          W.files.file? file = (segment.writeBack V.files bytes).2.file? file := by
    intro s vpn page frame entry bytes hp hframe hentry hload hgone hfile
    cases hkind : page.kind with
    | uninit touch => exact .inl (hfile.trans (by rw [hkind]; rfl))
    | anon slot => exact .inl (hfile.trans (by rw [hkind]; rfl))
    | file segment =>
        rw [PageKind.file?_savedIn hkind] at hfile
        split at hfile
        · next hdirty =>
          exact .inr ⟨s, vpn, segment, bytes, entry,
            ⟨⟨page, frame, hp, hkind, hframe, hload⟩, hentry⟩, hdirty, hgone, hfile⟩
        · exact .inl hfile
  by_cases hback : d.WritesBack
  · cases hstep with
    | evict full victim found mapped loaded spilled zeroed =>
        have hframe := (h.listed _).mp (List.mem_of_getElem? victim)
        rw [View.frame_of_page found] at hframe
        exact hsaved found hframe mapped loaded setAt_same rfl
    | discardResident found resident mapped loaded freed =>
        exact hsaved found resident mapped loaded setAt_same (Page.file?_releasedIn _ _ file)
    | discardSlot | discardBare => exact .inl (Page.file?_releasedIn _ _ file)
    | take | sweep | spoil | giveBack | bring | register | adopt | inherit | copy | touch | adjust
    | store | create | next | drop | setUserSp | pin | unpin | edit | reopen | release =>
        exact hback.elim
  · exact .inl (hstep.file?_eq hback hd)

/-- A resident page of a segment stays in a frame, or it leaves and is written back if dirty. -/
theorem Step.resident_cases (hstep : Step d V W) (h : V.Consistent)
    (hV : V.Resident s vpn segment bytes entry) :
    (∃ after other, W.Resident s vpn segment after other) ∨ ∀ file, W.files.file? file =
      if entry.has .dirty = true then (segment.writeBack V.files bytes).2.file? file
      else V.files.file? file := by
  obtain ⟨page, frame, hp, hkind, hframe, hload⟩ := hV.exists_page
  have hsame : W.page s vpn = V.page s vpn →
      ∃ after other, W.Resident s vpn segment after other := by
    intro hpage
    obtain ⟨after, other, -, hW⟩ := (hstep.consistent h).exists_resident (hpage.trans hp)
      (Page.shared?_of_kind hkind) hframe
    exact ⟨after, other, hW⟩
  have hfresh : ∀ {t u}, V.page t u = none → ¬(t = s ∧ u = vpn) := by
    rintro t u hnone ⟨rfl, rfl⟩
    cases hnone.symm.trans hp
  have habsent : ∀ {t u other}, V.page t u = some other → other.frame = none →
      ¬(t = s ∧ u = vpn) := by
    rintro t u other hother hnone ⟨rfl, rfl⟩
    obtain rfl : page = other := Option.some.inj (hp.symm.trans hother)
    cases hnone.symm.trans hframe
  cases hstep with
  | evict full victim found mapped loaded spilled zeroed =>
      rename_i i e other before saved kind swap pool
      by_cases hat : e.space = s ∧ e.vpn = vpn
      · obtain ⟨rfl, rfl⟩ := hat
        have hown := (h.listed e).mp (List.mem_of_getElem? victim)
        rw [View.frame_of_page found] at hown
        obtain rfl : page = other := Option.some.inj (hp.symm.trans found)
        obtain rfl : before = entry := Option.some.inj (mapped.symm.trans hV.mapped)
        obtain rfl : frame = e.frame := Option.some.inj (hframe.symm.trans hown)
        obtain rfl : bytes = saved := Except.ok.inj (hload.symm.trans loaded)
        exact .inr fun file => PageKind.file?_savedIn hkind _ _ _ file
      · exact .inl (hsame (setAt_of_ne hat))
  | discardResident found resident mapped loaded freed =>
      rename_i t u other own before saved pool
      by_cases hat : t = s ∧ u = vpn
      · obtain ⟨rfl, rfl⟩ := hat
        obtain rfl : page = other := Option.some.inj (hp.symm.trans found)
        obtain rfl : before = entry := Option.some.inj (mapped.symm.trans hV.mapped)
        obtain rfl : frame = own := Option.some.inj (hframe.symm.trans resident)
        obtain rfl : bytes = saved := Except.ok.inj (hload.symm.trans loaded)
        exact .inr fun file =>
          (Page.file?_releasedIn _ _ file).trans (PageKind.file?_savedIn hkind _ _ _ file)
      · exact .inl (hsame (setAt_of_ne hat))
  | bring found absent first filled stored =>
      have hvpn := (h.settled found).vpn_eq
      exact .inl (hsame (setAt_of_ne fun he => habsent found absent (hvpn ▸ he)))
  | discardSlot found absent | discardBare found absent =>
      exact .inl (hsame (setAt_of_ne (habsent found absent)))
  | register live fresh | adopt live fresh => exact .inl (hsame (setAt_of_ne (hfresh fresh)))
  | inherit live found untouched fresh =>
      have hvpn := (h.settled found).vpn_eq
      exact .inl (hsame (setAt_of_ne fun he => hfresh fresh (hvpn ▸ he)))
  | copy live found touched fresh => exact .inl (hsame (setAt_of_ne (hfresh fresh)))
  | take | sweep | spoil | giveBack | touch | adjust | store | create | next | drop | setUserSp
  | pin | unpin | edit | reopen | release => exact .inl (hsame rfl)

theorem Step.resident_of_store (hstep : Step (.store s vpn) V W) (h : V.Consistent)
    (hW : W.Resident s vpn segment bytes entry) :
    entry.has .dirty = true ∧ ∃ before, V.Resident s vpn segment before entry := by
  obtain ⟨page, frame, hp, hkind, hframe, -⟩ := hW.exists_page
  cases hstep with
  | store found resident mapped allowed dirty stored =>
      obtain rfl := Option.some.inj (hW.mapped.symm.trans mapped)
      obtain ⟨before, hload⟩ := FramePool.load_of_lt (h.frame_lt hp hframe)
      exact ⟨dirty, before, ⟨page, frame, hp, hkind, hframe, hload⟩, mapped⟩

theorem View.Resident.of_stored {page : Page} {frame : Frame} {pool : FramePool}
    {before stored after : PageBytes} (hW : View.Resident { V with pool } s vpn segment after entry)
    (hp : V.page s vpn = some page) (hframe : page.frame = some frame)
    (hload : V.pool.load frame = .ok before) (hstore : V.pool.store frame stored = .ok pool) :
    after = stored ∧ V.Resident s vpn segment before entry := by
  obtain ⟨hkind, own, hown, hafter⟩ := hW.of_page (hp : View.page { V with pool } s vpn = some page)
  obtain rfl : frame = own := Option.some.inj (hframe.symm.trans hown)
  rw [FramePool.load_of_store hstore, if_pos rfl] at hafter
  exact ⟨(Except.ok.inj hafter).symm, ⟨page, frame, hp, hkind, hframe, hload⟩, hW.mapped⟩

/-! ## Numbers of backings -/

/-- Backings that are open have numbers that were given out, and so have the backings whose bytes
are in frames. -/
structure View.Numbered (V : View) : Prop where
  files : V.files.Numbered
  lt_next : ∀ {s vpn segment bytes entry}, V.Resident s vpn segment bytes entry →
    0 < segment.readBytes → segment.backing < V.files.nextBacking

theorem View.Fillable.exists_backing (h : V.Fillable s vpn segment bytes)
    (hpos : 0 < segment.readBytes) :
    ∃ backing, V.files.backing? segment.backing = some backing :=
  Segment.exists_backing_of_loadInto h.loaded hpos

theorem Step.viewNumbered (hstep : Step d V W) (h : V.Consistent) (hn : V.Numbered) :
    W.Numbered := by
  refine ⟨hstep.numbered hn.files, fun {s vpn segment bytes entry} hW hpos => ?_⟩
  refine lt_of_lt_of_le ?_ hstep.nextBacking_le
  have hfillable : ∀ {t}, V.Fillable t vpn segment bytes →
      segment.backing < V.files.nextBacking := by
    intro t hfill
    obtain ⟨backing, hopen⟩ := hfill.exists_backing hpos
    exact hn.files.lt_next hopen
  by_cases hd : d = .store s vpn
  · subst hd
    obtain ⟨-, before, hV⟩ := hstep.resident_of_store h hW
    exact hn.lt_next hV hpos
  · cases hstep.origin h hd hW with
    | stayed hV => exact hn.lt_next hV hpos
    | filled deed absent hfill => exact hfillable hfill
    | copied deed hV => exact hn.lt_next hV hpos
    | read deed hfill => exact hfillable hfill

theorem Steps.viewNumbered {deeds : Set Deed} (hsteps : Steps deeds V W) (h : V.Consistent)
    (hn : V.Numbered) : W.Numbered :=
  (hsteps.invariant (fun U => U.Consistent ∧ U.Numbered)
    (fun _ _ _ _ hstep hU => ⟨hstep.consistent hU.1, hstep.viewNumbered hU.1 hU.2⟩) ⟨h, hn⟩).2

end

end DemandPaging
