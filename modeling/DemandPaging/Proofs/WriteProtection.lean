import DemandPaging.Proofs.AddressChecks
import DemandPaging.Proofs.SharedPages

/-! # Write protection

A page that may only be read is protected twice: while it is mapped its entry refuses a write, and
otherwise the fault of the write is refused. Neither leaves anything but a report. So a page that
may only be read is never dirty, and a file changes only through pages that may be written.
-/

namespace DemandPaging

/-! ## Writes that are turned down -/

theorem Chunk.exists_split_eq_cons (va : VirtAddr) {length : ℕ} (h : 0 < length) :
    ∃ chunk chunks, Chunk.split va length = chunk :: chunks ∧ chunk.page = va.page := by
  have hcount : ∃ count, (va.val + length - 1) / pageSize + 1 - va.page.number = count + 1 := by
    have hle : va.val / pageSize ≤ (va.val + length - 1) / pageSize :=
      Nat.div_le_div_right (by omega)
    rw [VirtAddr.page_number]
    exact ⟨(va.val + length - 1) / pageSize - va.val / pageSize, by omega⟩
  obtain ⟨count, hcount⟩ := hcount
  simp only [Chunk.split, if_neg h.ne', hcount, List.range'_succ, List.map_cons]
  exact ⟨_, _, rfl, rfl⟩

namespace MachineM

variable {m : Machine} {s : SpaceId} {vpn : VirtPage} {page : Page}

theorem handleFault_of_readOnly {fault : PageFault}
    (hp : m.page? s (VirtAddr.page ⟨fault.addr⟩) = some page) (hreadOnly : page.writable = false)
    (hwrite : fault.write = true) : TurnsDown (handleFault s fault) m := by
  obtain ⟨space, hspace, hat⟩ := Machine.exists_space_of_page? hp
  refine handleFault_of_refuses hspace ?_
  simp [Space.refuses, Space.pageAt?, hat, hwrite, hreadOnly]

/-- Whether it is mapped or not, a page that may only be read is not accessed for a write. -/
theorem userFrame_of_readOnly (h : (m.view [] []).Consistent) (hp : m.page? s vpn = some page)
    (hreadOnly : page.writable = false) : TurnsDown (userFrame s vpn true) m := by
  obtain ⟨space, hspace, -⟩ := Machine.exists_space_of_page? hp
  have hsettled := h.settled hp
  cases hentry : m.entryAt? s vpn with
  | none =>
      refine userFrame_of_refuses hspace hentry ((refuses_iff hspace _).mp ?_)
      rw [refuses_accessFault hspace hsettled.in_user true, hp]
      exact ⟨rfl, hreadOnly⟩
  | some entry =>
      obtain ⟨hvalid, hwritable⟩ := hsettled.mapped entry hentry
      have hlookup := (Machine.entryAt?_of_space? hspace vpn).symm.trans hentry
      have hdenied : (true && !entry.isWritable) = true := by
        rw [hwritable, hreadOnly]
        rfl
      obtain ⟨events, hreport⟩ := turnsDown_emit (α := Frame) (.readOnlyPage vpn) m
      refine ⟨events, ?_⟩
      unfold userFrame accessAttempts
      rw [accessPage, bind_of_ok (space_of_some hspace), PageTable.access_of_some hlookup hvalid,
        hdenied, if_pos rfl]
      exact hreport

/-- A write that starts in a page that may only be read is refused before anything is stored. -/
theorem writeUser_of_readOnly {va : VirtAddr} {data : Bytes} (h : (m.view [] []).Consistent)
    (hp : m.page? s va.page = some page) (hreadOnly : page.writable = false)
    (hdata : 0 < data.size) : TurnsDown (writeUser s va data) m := by
  obtain ⟨chunk, chunks, hsplit, hfirst⟩ := Chunk.exists_split_eq_cons va hdata
  by_cases hrange : isUserRange va data.size = true
  · have hparts : userChunks va data.size m = .ok (chunk :: chunks) m := by
      rw [userChunks, if_pos hrange, hsplit]
      rfl
    obtain ⟨events, hframe⟩ := userFrame_of_readOnly h hp hreadOnly
    rw [← hfirst] at hframe
    exact ⟨events, (bind_of_ok hparts).trans (bind_of_error (bind_of_error hframe))⟩
  · have hrefused : userChunks va data.size m = .error (.failed .badAddress) m := by
      rw [userChunks, if_neg hrange]
      rfl
    exact ⟨m.events, bind_of_error hrefused⟩

end MachineM

/-! ## Dirty pages -/

/-- Every page that is dirty may be written. -/
def View.Guarded (V : View) : Prop :=
  ∀ {s vpn entry}, V.entry s vpn = some entry → entry.has .dirty = true → entry.isWritable = true

section

variable {V W : View} {d : Deed} {deeds : Set Deed} {s : SpaceId} {vpn : VirtPage}
  {file : FileId} {x : ℕ}

theorem View.Guarded.setAt {entry : Option PageTable.Entry} (h : V.Guarded)
    (hentry : ∀ e, entry = some e → e.has .dirty = true → e.isWritable = true)
    (hW : W.entry = setAt V.entry s vpn entry) : W.Guarded := by
  intro t u e he hdirty
  rw [hW] at he
  by_cases hat : s = t ∧ vpn = u
  · obtain ⟨rfl, rfl⟩ := hat
    exact hentry e (setAt_same.symm.trans he) hdirty
  · exact h ((setAt_of_ne hat).symm.trans he) hdirty

/-- Only a write that the entry permits makes a page dirty. -/
theorem Step.guarded (hstep : Step d V W) (hd : ∀ t u, d ≠ .adjust t u) (h : V.Guarded) :
    W.Guarded := by
  cases hstep with
  | sweep hand passed inside =>
      intro t u e he hdirty
      have haged := passed t u
      rename_i aged
      have hafter : aged t u = some e := he
      rw [hafter] at haged
      generalize hbefore : V.entry t u = before at haged
      cases haged with
      | some haged =>
          rw [haged.sameMapping.writable_eq]
          exact h hbefore ((haged.has_eq .dirty (by decide)).symm.trans hdirty)
  | bring found absent first filled stored | copy live found touched fresh first copied stored =>
      refine h.setAt (fun e he hdirty => ?_) rfl
      rw [← Option.some.inj he, PageTable.Entry.not_dirty_fresh] at hdirty
      cases hdirty
  | evict | discardResident => exact h.setAt (fun _ he => by cases he) rfl
  | touch mapped allowed =>
      rename_i t u entry write
      refine h.setAt (fun e he hdirty => ?_) rfl
      rw [← Option.some.inj he] at hdirty ⊢
      rw [(entry.sameMapping_marked write).writable_eq]
      cases write with
      | true => exact allowed rfl
      | false =>
          refine h mapped ?_
          rwa [PageTable.Entry.marked, if_neg Bool.false_ne_true,
            PageTable.Entry.has_put, if_neg (by decide)] at hdirty
  | adjust => exact absurd rfl (hd _ _)
  | take | spoil | giveBack | register | adopt | inherit | discardSlot | discardBare | store
  | create | next | drop | setUserSp | pin | unpin | edit | reopen | release => exact h

/-! ## Files -/

/-- A page through which a byte of a file may be written. -/
structure Page.Exposes (page : Page) (files : FileStore) (file : FileId) (x : ℕ) : Prop where
  writable : page.writable = true
  shows_byte : ∃ segment backing i, page.shared? = some segment ∧
    files.backing? segment.backing = some backing ∧ backing.file = file ∧ segment.Covers x i

/-- A byte of a file may be written through some page. -/
def View.Exposes (V : View) (file : FileId) (x : ℕ) : Prop :=
  ∃ s vpn page, V.page s vpn = some page ∧ page.Exposes V.files file x

/-- A byte of a file that no page may write stays as it is, unless the file is changed directly. -/
theorem Step.byte?_of_not_exposes (hstep : Step d V W) (h : V.Consistent) (hguarded : V.Guarded)
    (hd : d ≠ .edit file) (hx : ¬V.Exposes file x) :
    W.files.byte? file x = V.files.byte? file x := by
  rcases hstep.file?_cases h hd with hsame | ⟨s, vpn, segment, bytes, entry, hV, hdirty, -, hW⟩
  · exact FileStore.byte?_congr hsame x
  rw [FileStore.byte?_congr hW]
  by_cases hcovers : ∃ i, segment.Covers x i
  · obtain ⟨i, hcovers⟩ := hcovers
    cases hopen : V.files.backing? segment.backing with
    | none => rw [Segment.writeBack_of_closed hopen]
    | some backing =>
        obtain ⟨page, frame, hp, hkind, hframe, -⟩ := hV.exists_page
        have hwritable := ((h.settled hp).mapped entry hV.mapped).2
        refine FileStore.byte?_congr ?_ x
        refine (Segment.file?_writeBack hopen bytes file).trans (if_neg ?_)
        intro hfile
        refine hx ⟨s, vpn, page, hp, hwritable.symm.trans (hguarded hV.mapped hdirty), segment,
          backing, i, Page.shared?_of_kind hkind, hopen, hfile, hcovers⟩
  · exact Segment.byte?_writeBack_of_not_covers (fun i hi => hcovers ⟨i, hi⟩) bytes

/-- Steps after which a file may be written from a page that could not write it before. -/
def Deed.AddsWriters : Deed → Prop
  | .register _ page => page.shared? ≠ none
  | .adopt _ _ | .pin _ | .reopen _ | .adjust _ _ => True
  | _ => False

theorem Step.exposes_of_exposes (hstep : Step d V W) (h : V.Consistent) (hd : ¬d.AddsWriters)
    (hW : W.Exposes file x) : V.Exposes file x := by
  obtain ⟨s, vpn, page, hp, hwritable, segment, after, i, hshared, hafter, hfile, hcovers⟩ := hW
  have hrecounted : V.files.Recounted W.files := by
    rcases hstep.recounted with hsame | ⟨_, _, _, _, -, ⟨rfl, -⟩ | rfl⟩
    · exact hsame
    · exact absurd trivial hd
    · exact absurd trivial hd
  obtain ⟨before, hbefore, hsame, -⟩ := hrecounted.exists_before hafter
  have hopen : before.file = file := hsame.file_eq.symm.trans hfile
  cases hstep.pageChange h s vpn with
  | same hpage =>
      exact ⟨s, vpn, page, hpage.symm.trans hp, hwritable, segment, before, i, hshared, hbefore,
        hopen, hcovers⟩
  | moved found now becomes =>
      obtain rfl := Option.some.inj (now.symm.trans hp)
      exact ⟨s, vpn, _, found, becomes.writable_eq.symm.trans hwritable, segment, before, i,
        becomes.shared?_eq.symm.trans hshared, hbefore, hopen, hcovers⟩
  | gone now => cases now.symm.trans hp
  | registered fresh now vpn_eq deed =>
      obtain rfl := Option.some.inj (now.symm.trans hp)
      rcases deed with rfl | rfl
      · exact absurd (fun hnone => by cases hnone.symm.trans hshared) hd
      · exact absurd trivial hd
  | inherited fresh now found becomes deed =>
      obtain rfl := Option.some.inj (now.symm.trans hp)
      exact ⟨_, vpn, _, found, becomes.writable_eq.symm.trans hwritable, segment, before, i,
        becomes.shared?_eq.symm.trans hshared, hbefore, hopen, hcovers⟩

/-- A byte of a file that no page may write when a request starts stays as it is until it ends, if
the request gives the file no other page to be written from. -/
theorem Steps.byte?_of_not_exposes (hsteps : Steps deeds V W) (hd : ∀ d ∈ deeds, ¬d.AddsWriters)
    (hedit : ∀ d ∈ deeds, d ≠ .edit file) (h : V.Consistent) (hguarded : V.Guarded)
    (hx : ¬V.Exposes file x) : W.files.byte? file x = V.files.byte? file x := by
  refine (hsteps.invariant (fun U => U.Consistent ∧ U.Guarded ∧ ¬U.Exposes file x ∧
    U.files.byte? file x = V.files.byte? file x) (fun d hmem U U' hstep hU => ?_)
    ⟨h, hguarded, hx, rfl⟩).2.2.2
  obtain ⟨hc, hg, hnot, hsame⟩ := hU
  refine ⟨hstep.consistent hc, hstep.guarded ?_ hg,
    fun hafter => hnot (hstep.exposes_of_exposes hc (hd d hmem) hafter),
    (hstep.byte?_of_not_exposes hc hg (hedit d hmem) hnot).trans hsame⟩
  rintro t u rfl
  exact hd _ hmem trivial

theorem Steps.file?_eq (hsteps : Steps deeds V W) (hd : ∀ d ∈ deeds, ¬d.WritesBack)
    (hedit : ∀ d ∈ deeds, d ≠ .edit file) : W.files.file? file = V.files.file? file :=
  hsteps.invariant (fun U => U.files.file? file = V.files.file? file)
    (fun d hmem _ _ hstep hU => (hstep.file?_eq (hd d hmem) (hedit d hmem)).trans hU) rfl

/-! ## Requests -/

theorem Deed.not_addsWriters_of_room (hd : d ∈ Deed.room) : ¬d.AddsWriters := by
  cases d <;> first | exact hd.elim | exact not_false

theorem Deed.not_addsWriters_of_faulting (hd : d ∈ Deed.faulting s) : ¬d.AddsWriters := by
  rcases hd with hd | ⟨u, rfl⟩ | ⟨u, rfl⟩
  · exact not_addsWriters_of_room hd
  · exact not_false
  · exact not_not_intro rfl

theorem Deed.not_addsWriters_of_writing (hd : d ∈ Deed.writing s) : ¬d.AddsWriters := by
  rcases hd with (hd | ⟨u, write, rfl⟩) | ⟨u, rfl⟩
  · exact not_addsWriters_of_faulting hd
  · exact not_false
  · exact not_false

theorem Deed.not_addsWriters_of_copying {dst src : SpaceId} (hd : d ∈ Deed.copying dst src) :
    ¬d.AddsWriters := by
  rcases hd with hd | ⟨u, rfl⟩ | ⟨u, rfl⟩
  · exact not_addsWriters_of_room hd
  · exact not_false
  · exact not_false

theorem Deed.not_addsWriters_of_dropping (hd : d ∈ Deed.dropping s) : ¬d.AddsWriters := by
  rcases hd with rfl | ⟨u, rfl⟩ <;> exact not_false

theorem Deed.not_writesBack_of_mapping (hd : d ∈ Deed.mapping s file) : ¬d.WritesBack := by
  rcases hd with ⟨page, rfl⟩ | rfl | ⟨id, rfl⟩ <;> exact not_false

/-- A request that writes pages back gives no file another page to be written from. -/
theorem Op.not_writesBack_or_not_addsWriters (op : Op) (child : SpaceId) :
    (∀ d ∈ op.deeds child, ¬d.WritesBack) ∨ ∀ d ∈ op.deeds child, ¬d.AddsWriters := by
  cases op with
  | create =>
      refine .inl fun d hd => ?_
      rcases hd with rfl | rfl <;> exact not_false
  | drop => exact .inr fun d hd => Deed.not_addsWriters_of_dropping hd
  | fork =>
      refine .inr fun d hd => ?_
      rcases hd with hd | hd | rfl | rfl
      · exact Deed.not_addsWriters_of_copying hd
      · exact Deed.not_addsWriters_of_dropping hd
      · exact not_false
      · exact not_false
  | copy => exact .inr fun d hd => Deed.not_addsWriters_of_copying hd
  | alloc s va writable loader target =>
      refine .inl fun d hd => ?_
      cases loader with
      | zero =>
          obtain rfl : d = _ := hd
          exact not_false
      | file segment =>
          obtain ⟨touch, -, rfl⟩ := hd
          exact not_false
  | claim =>
      refine .inr fun d hd => ?_
      rcases hd with rfl | hd
      · exact not_false
      · exact Deed.not_addsWriters_of_room hd
  | fault => exact .inr fun d hd => Deed.not_addsWriters_of_faulting hd
  | setupStack =>
      refine .inr fun d hd => ?_
      rcases hd with rfl | hd
      · exact not_false
      · exact Deed.not_addsWriters_of_faulting hd
  | read => exact .inr fun d hd => Deed.not_addsWriters_of_writing (.inl hd)
  | write => exact .inr fun d hd => Deed.not_addsWriters_of_writing hd
  | remove =>
      refine .inr fun d hd => ?_
      obtain rfl : d = _ := hd
      exact not_false
  | recycle | unmap | unmapCall =>
      exact .inr fun d hd => Deed.not_addsWriters_of_dropping (.inr hd)
  | map | loadExecutable => exact .inl fun d hd => Deed.not_writesBack_of_mapping hd
  | mapCall =>
      refine .inl fun d hd => ?_
      obtain ⟨file, -, hd⟩ := hd
      exact Deed.not_writesBack_of_mapping hd
  | setUserSp | access | setFlags | reopen | release | truncate | writeFile =>
      refine .inl fun d hd => ?_
      obtain rfl : d = _ := hd
      exact not_false

/-- A request that changes the notes of use of a page from outside. -/
def Op.SetsFlags (op : Op) : Prop :=
  ∃ s va accessed dirty, op = .setFlags s va accessed dirty

end

namespace Machine

open MachineM

variable {m m' : Machine} {visit : Visit} {op : Op} {requests : List (Visit × Op)} {s : SpaceId}
  {vpn : VirtPage} {page : Page} {file : FileId} {x : ℕ}

theorem byte?_of_not_exposes (h : m.Sound) (hguarded : (m.view [] []).Guarded)
    (hedit : ¬op.Edits file) (hx : ¬(m.view [] []).Exposes file x)
    (hstep : m.step? visit op = some m') : m'.files.byte? file x = m.files.byte? file x := by
  have hsteps := (Op.finished h hstep).steps
  have hunedited : ∀ d ∈ op.deeds m.nextSpace, d ≠ .edit file := by
    rintro d hd rfl
    exact hedit (Op.belongsTo_of_deeds hd)
  rcases op.not_writesBack_or_not_addsWriters m.nextSpace with hback | hadds
  · exact FileStore.byte?_congr (hsteps.file?_eq hback hunedited) x
  · exact hsteps.byte?_of_not_exposes hadds hunedited h.consistent hguarded hx

theorem guarded_run (h : m.Sound) (hflags : ∀ request ∈ requests, ¬request.2.SetsFlags)
    (hguarded : (m.view [] []).Guarded) (hrun : m.run? requests = some m') :
    (m'.view [] []).Guarded := by
  refine (run_invariant (fun m₁ => m₁.Sound ∧ (m₁.view [] []).Guarded)
    (fun request hmem m₁ m₂ hinv hstep => ?_) ⟨h, hguarded⟩ hrun).2
  have hfinished := Op.finished hinv.1 hstep
  refine ⟨hfinished.sound, hfinished.steps.invariant View.Guarded ?_ hinv.2⟩
  intro d hd V W hstep' hV
  refine hstep'.guarded ?_ hV
  rintro t u rfl
  obtain ⟨va, accessed, dirty, hop⟩ := Op.belongsTo_of_deeds hd
  exact hflags request hmem ⟨t, va, accessed, dirty, hop⟩

/-- A page that may only be read: a write to it is refused, whatever state the page is in, and
nothing of the machine changes but what it has reported. -/
structure RefusesWrites (m : Machine) (s : SpaceId) (vpn : VirtPage) : Prop where
  /-- A copy of data that starts in the page. -/
  write : ∀ visit va (data : Bytes), va.page = vpn → 0 < data.size →
    TurnsDown ((Op.write s va data).execBy visit) m
  /-- A fault of a write at an address of the page. -/
  fault : ∀ visit (fault : PageFault), VirtAddr.page ⟨fault.addr⟩ = vpn → fault.write = true →
    TurnsDown ((Op.fault s fault).execBy visit) m

theorem Sound.refusesWrites (h : m.Sound) (hp : m.page? s vpn = some page)
    (hreadOnly : page.writable = false) : m.RefusesWrites s vpn := by
  constructor
  · rintro visit va data rfl hdata
    exact (writeUser_of_readOnly h.consistent hp hreadOnly hdata).bind _
  · rintro visit fault rfl hwrite
    exact (handleFault_of_readOnly hp hreadOnly hwrite).bind _

/-- Pages that may only be read are clean, and no file is written because of them: a byte of a file
that a request changes is changed directly or may be written through some page. -/
structure KeepsReadOnly (m : Machine) : Prop where
  clean : ∀ {s vpn page entry}, m.page? s vpn = some page → page.writable = false →
    m.entryAt? s vpn = some entry → entry.has .dirty = false
  unwritten : ∀ {visit op m' file x}, m.step? visit op = some m' → ¬op.Edits file →
    m'.files.byte? file x ≠ m.files.byte? file x → (m.view [] []).Exposes file x

/-- Whatever requests a machine has served, a page that may only be read refuses writes; and if no
notes of use were changed from outside, it is clean and writes no file. -/
theorem writeProtection_of_run {frames : ℕ} {disk : Disk} {files : FileStore}
    (hframes : frames ≤ PageTable.Entry.frameBound)
    (hrun : (boot frames disk files).run? requests = some m) :
    (∀ s vpn page, m.page? s vpn = some page → page.writable = false → m.RefusesWrites s vpn) ∧
      ((∀ request ∈ requests, ¬request.2.SetsFlags) → m.KeepsReadOnly) := by
  have hsound := sound_of_run hframes hrun
  refine ⟨fun s vpn page hp hreadOnly => hsound.refusesWrites hp hreadOnly, fun hflags => ?_⟩
  have hnone : ∀ s vpn, (boot frames disk files).entryAt? s vpn = none := fun s vpn =>
    entryAt?_eq_none rfl vpn
  have hguarded : (m.view [] []).Guarded := by
    refine guarded_run (sound_boot hframes disk files) hflags ?_ hrun
    intro s vpn entry he
    cases (hnone s vpn).symm.trans he
  refine ⟨fun {s vpn page entry} hp hreadOnly hentry => ?_, fun hstep hedit hchanged => ?_⟩
  · rw [← Bool.not_eq_true]
    intro hdirty
    have hwritable := ((hsound.consistent.settled hp).mapped entry hentry).2
    cases hreadOnly.symm.trans (hwritable.symm.trans (hguarded hentry hdirty))
  · by_contra hx
    exact hchanged (byte?_of_not_exposes hsound hguarded hedit hx hstep)

/-- Two pages of a file that may only be read: the first has lost its frame to the second. -/
theorem writeProtection_of_evicted : ∃ m : Machine, ∃ first second : Page,
    m.page? 0 ⟨1⟩ = some first ∧ first.writable = false ∧ first.frame = none ∧
      m.page? 0 ⟨2⟩ = some second ∧ second.writable = false ∧ second.frame ≠ none ∧
      m.RefusesWrites 0 ⟨1⟩ ∧ m.RefusesWrites 0 ⟨2⟩ ∧ m.KeepsReadOnly := by
  generalize hcontent : File.mk #[0x41] 1 none none none none = content
  generalize hrequests : [Op.create, .map 0 ⟨pageSize⟩ (2 * pageSize) false 0 0,
    .claim 0 ⟨pageSize⟩, .claim 0 ⟨2 * pageSize⟩].map (Visit.ascending, ·) = requests
  have hserved : ((boot 1 (.zeroed 8) (.ofFiles #[content])).run? requests).any (fun m =>
      (m.page? 0 ⟨1⟩).any fun first => (m.page? 0 ⟨2⟩).any fun second =>
        !first.writable && !first.isResident && !second.writable && second.isResident) = true := by
    rw [← hcontent, ← hrequests]
    decide +kernel
  have hflags : ∀ request ∈ requests, ¬request.2.SetsFlags := by
    rw [← hrequests]
    simp [Op.SetsFlags]
  simp only [Option.any_eq_true, Bool.and_eq_true, Bool.not_eq_true', Page.isResident,
    Option.isSome_eq_false_iff, Option.isNone_iff_eq_none] at hserved
  obtain ⟨m, hrun, first, hfirst, second, hsecond, ⟨⟨hreadOnly, hgone⟩, hreadOnly'⟩, hresident⟩ :=
    hserved
  obtain ⟨hrefuses, hkeeps⟩ := writeProtection_of_run (by decide) hrun
  refine ⟨m, first, second, hfirst, hreadOnly, hgone, hsecond, hreadOnly', ?_,
    hrefuses 0 ⟨1⟩ first hfirst hreadOnly, hrefuses 0 ⟨2⟩ second hsecond hreadOnly', hkeeps hflags⟩
  rwa [Option.ne_none_iff_isSome]

end Machine

end DemandPaging
