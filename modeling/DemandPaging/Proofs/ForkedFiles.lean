import DemandPaging.Proofs.MappedFile.Runs

/-! # Files of forked address spaces

A child has copies of its parent's pages of a mapping, with the parent's bytes. A copy counts as
clean, also if the page was dirty: a copy that is evicted before the page is written back has the
bytes of the file when it comes back, and not those of the parent.
-/

namespace DemandPaging

/-- A byte of a file that pages of a backing show. -/
structure FileByte where
  backing : BackingId
  file : FileId
  position : ℕ

/-- The byte of a file that byte `i` of the pages of a segment shows. -/
def Segment.byte (segment : Segment) (file : FileId) (i : ℕ) : FileByte :=
  ⟨segment.backing, file, segment.offset + i⟩

/-- Whether a backing is on the file of a byte: it is the byte's own, or open on the same file. -/
def FileStore.Backs (files : FileStore) (b : FileByte) (id : BackingId) : Prop :=
  id = b.backing ∨ ∃ backing, files.backing? id = some backing ∧ backing.file = b.file

/-- Byte `i` of a page is a byte of a file. -/
def View.ShowsByte (V : View) (b : FileByte) (s : SpaceId) (vpn : VirtPage) (i : ℕ) : Prop :=
  ∃ segment, V.shared s vpn = some segment ∧ V.files.Backs b segment.backing ∧
    segment.Covers b.position i

/-- Where a byte of a file is, in the file or in the frame of a page, it is one of some values; but
nothing is said of some pages. -/
structure View.Carries (V : View) (b : FileByte) (good : Set UInt8)
    (aside : Set (SpaceId × VirtPage)) : Prop where
  consistent : V.Consistent
  numbered : V.Numbered
  lt_next : b.backing < V.files.nextBacking
  file_eq : ∀ {backing}, V.files.backing? b.backing = some backing → backing.file = b.file
  saved : ∀ {byte}, V.files.byte? b.file b.position = some byte → byte ∈ good
  shown : ∀ {s vpn i segment bytes entry byte}, (s, vpn) ∉ aside →
    V.Resident s vpn segment bytes entry → V.files.Backs b segment.backing →
    segment.Covers b.position i → bytes[i]? = some byte → byte ∈ good

section

variable {V W : View} {b : FileByte} {good more : Set UInt8} {aside : Set (SpaceId × VirtPage)}
  {d : Deed} {s t : SpaceId}
  {vpn : VirtPage} {segment : Segment} {bytes : PageBytes} {entry : PageTable.Entry} {i : ℕ}
  {byte : UInt8} {files changed : FileStore} {id : BackingId}

theorem FileStore.Recounted.backs (h : files.Recounted changed) (hbacks : changed.Backs b id) :
    files.Backs b id := by
  rcases hbacks with rfl | ⟨after, hafter, hfile⟩
  · exact .inl rfl
  · obtain ⟨before, hbefore, hsame, -⟩ := h.exists_before hafter
    exact .inr ⟨before, hbefore, hsame.file_eq.symm.trans hfile⟩

theorem Step.backs_of_lt (hstep : Step d V W) (hlt : id < V.files.nextBacking)
    (hbacks : W.files.Backs b id) : V.files.Backs b id := by
  rcases hbacks with rfl | ⟨after, hafter, hfile⟩
  · exact .inl rfl
  · obtain ⟨before, hbefore, hsame⟩ := hstep.backing?_of_lt hlt hafter
    exact .inr ⟨before, hbefore, hsame.trans hfile⟩

namespace View.Carries

theorem mono (h : V.Carries b good aside) (hsub : good ⊆ more) : V.Carries b more aside :=
  ⟨h.consistent, h.numbered, h.lt_next, h.file_eq, fun hbyte => hsub (h.saved hbyte),
    fun hpage hV hbacks hcovers hbyte => hsub (h.shown hpage hV hbacks hcovers hbyte)⟩

theorem of_fillable (h : V.Carries b good aside) (hfill : V.Fillable s vpn segment bytes)
    (hbacks : V.files.Backs b segment.backing) (hcovers : segment.Covers b.position i)
    (hbyte : bytes[i]? = some byte) : byte ∈ good := by
  obtain ⟨backing, hopen⟩ := hfill.exists_backing (Nat.zero_lt_of_lt hcovers.lt)
  have hfile : backing.file = b.file := by
    rcases hbacks with he | ⟨other, hother, hfile⟩
    · exact h.file_eq (he ▸ hopen)
    · rwa [Option.some.inj (hopen.symm.trans hother)]
  rw [Segment.getElem?_of_loadInto_of_covers hfill.loaded hopen hcovers, hfile] at hbyte
  exact h.saved hbyte

/-- What is in the frame of a page was there before, or is in the file. -/
theorem of_origin (h : V.Carries b good aside) (hstep : Step d V W) (hpage : (s, vpn) ∉ aside)
    (hcopy : ∀ dst src u, d = .copy dst src u → (src, u) ∉ aside)
    (horigin : V.Origin d s vpn segment bytes entry) (hbacks : W.files.Backs b segment.backing)
    (hcovers : segment.Covers b.position i) (hbyte : bytes[i]? = some byte) : byte ∈ good := by
  have hpos := Nat.zero_lt_of_lt hcovers.lt
  have hshown : ∀ {t other}, (t, vpn) ∉ aside → V.Resident t vpn segment bytes other →
      byte ∈ good := by
    intro t other ht hV
    exact h.shown ht hV (hstep.backs_of_lt (h.numbered.lt_next hV hpos) hbacks) hcovers hbyte
  have hfilled : ∀ {t}, V.Fillable t vpn segment bytes → byte ∈ good := by
    intro t hfill
    obtain ⟨backing, hopen⟩ := hfill.exists_backing hpos
    have hlt := h.numbered.files.lt_next hopen
    exact h.of_fillable hfill (hstep.backs_of_lt hlt hbacks) hcovers hbyte
  cases horigin with
  | stayed hV => exact hshown hpage hV
  | filled deed absent hfill => exact hfilled hfill
  | copied deed hV => exact hshown (hcopy _ _ _ deed) hV
  | read deed hfill => exact hfilled hfill

end View.Carries

theorem Step.saved_of_carries (hstep : Step d V W) (h : V.Carries b good aside)
    (hedit : d ≠ .edit b.file) (hkept : ∀ s vpn, (s, vpn) ∈ aside → W.entry s vpn ≠ none)
    (hbyte : W.files.byte? b.file b.position = some byte) : byte ∈ good := by
  rcases hstep.file?_cases h.consistent hedit with
    hsame | ⟨s, vpn, segment, bytes, entry, hV, -, hgone, hW⟩
  · rw [FileStore.byte?_congr hsame] at hbyte
    exact h.saved hbyte
  · rw [FileStore.byte?_congr hW] at hbyte
    rcases Segment.byte?_writeBack_cases hbyte with hold | ⟨i, backing, hopen, hfile, hcovers, hget⟩
    · exact h.saved hold
    · exact h.shown (fun hpage => hkept s vpn hpage hgone) hV (.inr ⟨backing, hopen, hfile⟩) hcovers
        hget

/-- A byte of a file stays one of its values, unless a page that nothing is said of loses its frame
or is copied. -/
theorem Step.carries (hstep : Step d V W) (hedit : d ≠ .edit b.file)
    (hstore : ∀ t u, d ≠ .store t u) (hkept : ∀ s vpn, (s, vpn) ∈ aside → W.entry s vpn ≠ none)
    (hcopy : ∀ dst src u, d = .copy dst src u → (src, u) ∉ aside)
    (h : V.Carries b good aside) : W.Carries b good aside := by
  refine ⟨hstep.consistent h.consistent, hstep.viewNumbered h.consistent h.numbered,
    lt_of_lt_of_le h.lt_next hstep.nextBacking_le, fun {after} hafter => ?_,
    fun hbyte => hstep.saved_of_carries h hedit hkept hbyte,
    fun {s vpn i segment bytes entry byte} hpage hW hbacks hcovers hbyte => ?_⟩
  · obtain ⟨before, hbefore, hsame⟩ := hstep.backing?_of_lt h.lt_next hafter
    exact hsame.symm.trans (h.file_eq hbefore)
  · exact h.of_origin hstep hpage hcopy (hstep.origin h.consistent (hstore s vpn) hW) hbacks hcovers
      hbyte

theorem Steps.carries {deeds : Set Deed} (hsteps : Steps deeds V W)
    (hedit : ∀ d ∈ deeds, d ≠ .edit b.file) (hstore : ∀ d ∈ deeds, ∀ t u, d ≠ .store t u)
    (h : V.Carries b good ∅) : W.Carries b good ∅ :=
  hsteps.invariant (fun U => U.Carries b good ∅)
    (fun d hd _ _ hstep hU =>
      hstep.carries (hedit d hd) (hstore d hd) (fun _ _ hin => hin.elim)
        (fun _ _ _ _ => not_false) hU) h

/-! ## A page apart -/

/-- Steps that neither bring in a page nor copy or change one, nor change a file directly. -/
def Deed.Avoids (s : SpaceId) (vpn : VirtPage) : Deed → Prop
  | .bring t u => ¬(t = s ∧ u = vpn)
  | .copy _ _ _ | .store _ _ | .edit _ => False
  | _ => True

/-- A page that is in no frame stays out. -/
theorem Step.entry_eq_none (hstep : Step d V W) (hd : d.Avoids s vpn) (h : V.Consistent)
    (hnone : V.entry s vpn = none) : W.entry s vpn = none := by
  have hput : ∀ {t u before} {after : Option PageTable.Entry}, V.entry t u = some before →
      setAt V.entry t u after s vpn = none := by
    intro t u before after hmapped
    rwa [setAt_of_ne]
    rintro ⟨rfl, rfl⟩
    cases hnone.symm.trans hmapped
  cases hstep with
  | sweep hand passed inside =>
      rename_i aged
      have haged := passed s vpn
      rw [hnone] at haged
      change aged s vpn = none
      generalize aged s vpn = after at haged
      cases haged
      rfl
  | evict full victim found mapped | discardResident found resident mapped | touch mapped
  | adjust mapped => exact hput mapped
  | bring found =>
      have hvpn := (h.settled found).vpn_eq
      exact (setAt_of_ne fun he => hd (hvpn ▸ he)).trans hnone
  | copy | store | edit => exact hd.elim
  | take | spoil | giveBack | register | adopt | inherit | discardSlot | discardBare | create | next
  | drop | setUserSp | pin | unpin | reopen | release => exact hnone

theorem Deed.avoids_of_accessing (hd : d ∈ Deed.accessing t) (hne : t ≠ s) : d.Avoids s vpn := by
  rcases hd with (hd | ⟨u, rfl⟩ | ⟨u, rfl⟩) | ⟨u, write, rfl⟩
  · cases d <;> trivial
  · exact fun he => hne he.1
  · trivial
  · trivial

/-- A page may have another byte than the file and the other pages, while it keeps its frame: what
comes back from the file then is the byte of the file. -/
theorem Steps.carries_apart {deeds : Set Deed} (hsteps : Steps deeds V W)
    (hd : ∀ d ∈ deeds, d.Avoids s vpn) (h : V.Carries b good {(s, vpn)})
    (hkept : W.entry s vpn ≠ none) : W.Carries b good {(s, vpn)} := by
  have hinv := hsteps.invariant
    (fun U => U.Consistent ∧ (U.entry s vpn ≠ none → U.Carries b good {(s, vpn)})) ?_
    ⟨h.consistent, fun _ => h⟩
  · exact hinv.2 hkept
  · rintro d hmem U U' hstep ⟨hc, hU⟩
    refine ⟨hstep.consistent hc, fun hin => ?_⟩
    have havoids := hd d hmem
    refine hstep.carries ?_ ?_ ?_ ?_ (hU fun hnone => hin (hstep.entry_eq_none havoids hc hnone))
    · rintro rfl
      exact havoids
    · rintro t u rfl
      exact havoids
    · rintro t u ⟨⟩
      exact hin
    · rintro dst src u rfl
      exact havoids.elim

/-! ## Accesses -/

/-- Steps that neither open a file nor change what a file or a page contains. -/
def Deed.LeavesContents : Deed → Prop
  | .edit _ | .store _ _ | .pin _ | .reopen _ => False
  | _ => True

theorem Deed.leavesContents_of_accessing (hd : d ∈ Deed.accessing s) : d.LeavesContents := by
  rcases hd with (hd | ⟨u, rfl⟩ | ⟨u, rfl⟩) | ⟨u, write, rfl⟩
  · cases d <;> trivial
  · trivial
  · trivial
  · trivial

theorem Step.recounted_of_leavesContents (hstep : Step d V W) (hd : d.LeavesContents) :
    V.files.Recounted W.files := by
  rcases hstep.recounted with hsame | ⟨file, base, pages, own, -, ⟨rfl, -⟩ | rfl⟩
  · exact hsame
  · exact hd.elim
  · exact hd.elim

theorem Step.carries_of_leavesContents (hstep : Step d V W) (hd : d.LeavesContents)
    (h : V.Carries b good ∅) : W.Carries b good ∅ := by
  refine hstep.carries ?_ ?_ (fun _ _ hin => hin.elim) (fun _ _ _ _ => not_false) h
  · rintro rfl
    exact hd
  · rintro t u rfl
    exact hd

/-- The values that data has where the pages that it was stored to show a byte. -/
def FileByte.stored (b : FileByte) (V : View) (s : SpaceId) (va : VirtAddr) (data : Bytes)
    (pages : List VirtPage) : Set UInt8 :=
  {byte | ∃ u i, V.ShowsByte b s u i ∧ u ∈ pages ∧ va.val ≤ u.number * pageSize + i ∧
    data[u.number * pageSize + i - va.val]? = some byte}

theorem FileByte.stored_subset (b : FileByte) (V : View) (s : SpaceId) (va : VirtAddr)
    (data : Bytes) {pages longer : List VirtPage} (h : pages ⊆ longer) :
    b.stored V s va data pages ⊆ b.stored V s va data longer := by
  rintro byte ⟨u, i, hshows, hu, hle, hbyte⟩
  exact ⟨u, i, hshows, h hu, hle, hbyte⟩

namespace MachineM

variable {m : Machine} {va : VirtAddr} {data : Bytes}

theorem writeInvariant_carries (U : View) (s : SpaceId) (va : VirtAddr) (data : Bytes) :
    WriteInvariant s va data fun pages V => V.Carries b (good ∪ b.stored U s va data pages) ∅ ∧
      ∀ u i, V.ShowsByte b s u i → U.ShowsByte b s u i where
  consistent h := h.1.consistent
  access d hd V W hstep h := by
    have hleaves := Deed.leavesContents_of_accessing hd
    refine ⟨hstep.carries_of_leavesContents hleaves h.1, ?_⟩
    rintro u i ⟨segment, hshared, hbacks, hcovers⟩
    rw [hstep.shared_eq (Deed.keepsShared_of_accessing hd) h.1.consistent] at hshared
    have hrecounted := hstep.recounted_of_leavesContents hleaves
    exact h.2 u i ⟨segment, hshared, hrecounted.backs hbacks, hcovers⟩
  store {pages V number page frame bytes pool} h hstep hp hframe hload hstore := by
    obtain ⟨hcarries, hshows⟩ := h
    have hc := hcarries.consistent
    have hlonger : good ∪ b.stored U s va data pages ⊆
        good ∪ b.stored U s va data (pages ++ [⟨number⟩]) :=
      Set.union_subset_union_right _ (b.stored_subset U s va data (List.subset_append_left _ _))
    refine ⟨⟨hstep.consistent hc, hstep.viewNumbered hc hcarries.numbered, hcarries.lt_next,
      hcarries.file_eq, fun hbyte => hlonger (hcarries.saved hbyte), ?_⟩, hshows⟩
    intro t u i segment after entry byte hpage hW hbacks hcovers hbyte
    by_cases hsame : s = t ∧ (⟨number⟩ : VirtPage) = u
    · obtain ⟨rfl, rfl⟩ := hsame
      obtain ⟨rfl, hV⟩ := hW.of_stored hp hframe hload hstore
      rw [Chunk.getElem?_stored va number bytes data (hcovers.lt.trans_le segment.readBytes_le)]
        at hbyte
      split at hbyte
      · next hin =>
        refine .inr ⟨⟨number⟩, i, hshows _ i ⟨segment, hV.shared_eq, hbacks, hcovers⟩, ?_, hin.1,
          hbyte⟩
        exact List.mem_append_right _ List.mem_cons_self
      · exact hlonger (hcarries.shown hpage hV hbacks hcovers hbyte)
    · have hd : Deed.store s ⟨number⟩ ≠ .store t u := by
        intro he
        injection he with hs hu
        exact hsame ⟨hs, hu⟩
      exact hlonger (hcarries.of_origin hstep hpage (fun _ _ _ _ => not_false)
        (hstep.origin hc hd hW) hbacks hcovers hbyte)

/-- A write that stores nothing where a byte of a file is shown leaves it alone. -/
theorem writeUser_carries (h : (m.view [] []).Carries b good ∅)
    (hspared : ∀ u i, (m.view [] []).ShowsByte b s u i →
      (Op.write s va data).stored? m s (u.number * pageSize + i) = none) :
    Ends False (writeUser s va data) m (fun _ m' => (m'.view [] []).Carries b good ∅)
      fun _ m' => (m'.view [] []).Carries b good ∅ := by
  have hnone : b.stored (m.view [] []) s va data (writtenPages s va data m) ⊆ good := by
    rintro byte ⟨u, i, hshows, hu, hle, hbyte⟩
    obtain ⟨segment, -, -, hcovers⟩ := id hshows
    have hat := pageOf_number_mul_add u (hcovers.lt.trans_le segment.readBytes_le)
    have hstored := hspared u i hshows
    rw [Op.stored?, if_pos ⟨rfl, hle, by rwa [hat]⟩, hbyte] at hstored
    cases hstored
  have hends := (writeInvariant_carries (m.view [] []) s va data).writeUser
    (m := m) ⟨h.mono Set.subset_union_left, fun _ _ hshows => hshows⟩
  exact hends.mono (fun _ _ hafter => hafter.1.mono (Set.union_subset subset_rfl hnone))
    fun _ _ hafter => hafter.1.mono (Set.union_subset subset_rfl hnone)

theorem readInvariant_carries (good : Set UInt8) (s : SpaceId) (vpn : VirtPage)
    (hid : segment.backing = b.backing) (hcovers : segment.Covers b.position i) :
    ReadInvariant s (fun V => V.Carries b good ∅ ∧ V.shared s vpn = some segment)
      fun addr byte => addr = vpn.number * pageSize + i → byte ∈ good where
  consistent h := h.1.consistent
  access d hd V W hstep h := by
    refine ⟨hstep.carries_of_leavesContents (Deed.leavesContents_of_accessing hd) h.1, ?_⟩
    rw [hstep.shared_eq (Deed.keepsShared_of_accessing hd) h.1.consistent]
    exact h.2
  good {V u page frame bytes} h hp hframe hload j hj byte hbyte hat := by
    have hi := hcovers.lt.trans_le segment.readBytes_le
    obtain rfl : u = vpn := by
      rw [← pageOf_number_mul_add u hj, hat, pageOf_number_mul_add vpn hi]
    obtain rfl : j = i := Nat.add_left_cancel hat
    have hshared := (View.shared_of_page hp).symm.trans h.2
    obtain ⟨other, entry, hother, hV⟩ := h.1.consistent.exists_resident hp hshared hframe
    obtain rfl : bytes = other := Except.ok.inj (hload.symm.trans hother)
    exact h.1.shown not_false hV (.inl hid) hcovers hbyte

end MachineM

end

/-! ## Requests -/

/-- A request that neither changes a byte of a file directly nor stores to a page that shows it. -/
structure Op.Spares (b : FileByte) (m : Machine) (op : Op) : Prop where
  edits : ¬op.Edits b.file
  stores : ∀ t u i, (m.view [] []).ShowsByte b t u i →
    op.stored? m t (u.number * pageSize + i) = none

namespace Machine

variable {m m' : Machine} {b : FileByte} {good : Set UInt8} {visit : Visit} {op : Op}
  {requests : List (Visit × Op)}

/-- A request that spares a byte of a file leaves it one of its values, wherever it is. -/
theorem carries_step (h : m.Sound) (hcarries : (m.view [] []).Carries b good ∅)
    (hspares : op.Spares b m) (hstep : m.step? visit op = some m') :
    (m'.view [] []).Carries b good ∅ := by
  by_cases hwrite : ∃ s va data, op = .write s va data
  · obtain ⟨s, va, data, rfl⟩ := hwrite
    have hends := MachineM.writeUser_carries (s := s) hcarries (hspares.stores s)
    exact (hends.reply fun _ => Reply.done).of_step? hstep
  · have hbelongs : ∀ d ∈ op.deeds m.nextSpace, d.BelongsTo op m.nextSpace := fun _ hd =>
      Op.belongsTo_of_deeds hd
    refine (Op.finished h hstep).steps.carries ?_ ?_ hcarries
    · rintro d hd rfl
      exact hspares.edits (hbelongs _ hd)
    · rintro d hd t u rfl
      obtain ⟨va, data, he⟩ := hbelongs _ hd
      exact hwrite ⟨t, va, data, he⟩

theorem carries_run (h : m.Sound) (hcarries : (m.view [] []).Carries b good ∅)
    (halong : m.Along (Op.Spares b) requests) (hrun : m.run? requests = some m') :
    (m'.view [] []).Carries b good ∅ := by
  refine (along_invariant (fun m => m.Sound ∧ (m.view [] []).Carries b good ∅) ?_ halong
    ⟨h, hcarries⟩ hrun).2
  intro visit op m₁ m₂ hinv hspares hstep
  exact ⟨(Op.finished hinv.1 hstep).sound, carries_step hinv.1 hinv.2 hspares hstep⟩

/-! ## Forked pages of a file -/

/-- A byte of a page that shows a file: in the frame of the page, or else in the file. -/
def shownByte? (m : Machine) (s : SpaceId) (vpn : VirtPage) (i : ℕ) : Option UInt8 :=
  (m.page? s vpn).bind fun page =>
    match page.frame with
    | some frame => (m.pool.load frame).toOption.bind fun bytes => bytes[i]?
    | none => page.segment?.bind fun segment =>
      (m.files.backing? segment.backing).bind fun backing =>
        m.files.byte? backing.file (segment.offset + i)

variable {m₁ m₂ m₃ : Machine} {s : SpaceId} {vpn : VirtPage} {page : Page} {segment : Segment}
  {backing : Backing} {i : ℕ}

/-- A page that was touched shows a byte of an open file that no other page shows. -/
structure ShowsAlone (m : Machine) (s : SpaceId) (vpn : VirtPage) (segment : Segment)
    (backing : Backing) (i : ℕ) : Prop where
  touched : ∃ page, m.page? s vpn = some page ∧ page.kind = .file segment
  opened : m.files.backing? segment.backing = some backing
  lt : i < segment.readBytes
  alone : ∀ {t u j}, (m.view [] []).ShowsByte (segment.byte backing.file i) t u j → t = s ∧ u = vpn

theorem ShowsAlone.carries (h : m.ShowsAlone s vpn segment backing i) (hsound : m.Sound)
    (hn : (m.view [] []).Numbered) :
    (m.view [] []).Carries (segment.byte backing.file i)
      {byte | m.shownByte? s vpn i = some byte ∨
        m.files.byte? backing.file (segment.offset + i) = some byte} ∅ := by
  obtain ⟨page, hpage, hkind⟩ := h.touched
  refine ⟨hsound.consistent, hn, hn.files.lt_next h.opened, fun hother => ?_,
    fun hbyte => .inr hbyte, ?_⟩
  · rw [Option.some.inj (hother.symm.trans h.opened)]
    rfl
  · intro t u j own bytes entry byte _ hV hbacks hcovers hbyte
    obtain ⟨rfl, rfl⟩ := h.alone ⟨own, hV.shared_eq, hbacks, hcovers⟩
    obtain ⟨hown, frame, hframe, hload⟩ := hV.of_page hpage
    obtain rfl : segment = own := PageKind.file.inj (hkind.symm.trans hown)
    obtain rfl : j = i := Nat.add_left_cancel hcovers.offset_add
    refine .inl ?_
    have hloaded : m.pool.load frame = .ok bytes := hload
    simp only [shownByte?, hpage, Option.bind_some, hframe, hloaded, Except.toOption]
    exact hbyte

/-- A child that reads a byte of a file through its copy of a page gets the byte that its parent's
page had at the fork or the byte that the file had then, whatever pages are evicted meanwhile, if no
later request changes the byte. The two differ if the page was dirty. -/
theorem childByte_of_run {frames : ℕ} {disk : Disk} {files : Array File}
    {later : List (Visit × Op)} {reply : Reply} {va : VirtAddr} {buffer bytes : Bytes}
    {visit' : Visit} {j : ℕ} (hframes : frames ≤ PageTable.Entry.frameBound)
    (hrun : (boot frames disk (.ofFiles files)).run? requests = some m)
    (halone : m.ShowsAlone s vpn segment backing i)
    (hfork : (Op.fork s).execBy visit m = .ok reply m₁)
    (halong : m₁.Along (Op.Spares (segment.byte backing.file i)) later)
    (hlater : m₁.run? later = some m₂)
    (hchild : (m₂.view [] []).shared m.nextSpace vpn = some segment)
    (hread : (Op.read m.nextSpace va buffer).execBy visit' m₂ = .ok (.buffer bytes none) m₃)
    (hj : j < buffer.size) (hat : va.val + j = vpn.number * pageSize + i) :
    ∃ byte, bytes[j]? = some byte ∧ (m.shownByte? s vpn i = some byte ∨
      m.files.byte? backing.file (segment.offset + i) = some byte) := by
  have hsound := sound_of_run hframes hrun
  have hstart := halone.carries hsound (numbered_of_run hframes hrun)
  have hstep : m.step? visit (.fork s) = some m₁ := by
    simp only [step?, hfork]
  have hspares : (Op.fork s).Spares (segment.byte backing.file i) m :=
    ⟨fun hedits => hedits, fun _ _ _ _ => rfl⟩
  have hforked := carries_step hsound hstart hspares hstep
  have hcarries := carries_run (Op.finished hsound hstep).sound hforked halong hlater
  have hcovers : segment.Covers (segment.byte backing.file i).position i := ⟨halone.lt, rfl⟩
  have hinv := MachineM.readInvariant_carries
    {byte | m.shownByte? s vpn i = some byte ∨
      m.files.byte? backing.file (segment.offset + i) = some byte} m.nextSpace vpn rfl hcovers
  obtain ⟨hsize, hgood⟩ := hinv.answer ⟨hcarries, hchild⟩ hread
  have hget := Array.getElem?_eq_getElem (hj.trans_eq hsize.symm)
  exact ⟨_, hget, hgood j hj _ hget hat⟩

/-! ## A copy that loses its frame first -/

theorem showsAlone_of_registered
    (hothers : ∀ x ∈ m.registered, x = (s, vpn) ∨ (m.view [] []).shared x.1 x.2 = none)
    (hpage : m.page? s vpn = some page) (hkind : page.kind = .file segment)
    (hopened : m.files.backing? segment.backing = some backing) (hlt : i < segment.readBytes) :
    m.ShowsAlone s vpn segment backing i := by
  refine ⟨⟨page, hpage, hkind⟩, hopened, hlt, ?_⟩
  rintro t u j ⟨other, hshared, -⟩
  obtain ⟨shown, hshown, -⟩ := Option.bind_eq_some_iff.mp hshared
  rcases hothers (t, u) (mem_registered_of_page? hshown) with he | hnone
  · exact Prod.mk.inj he
  · cases hnone.symm.trans hshared

/-- A page that no other page in a frame shows the file of may be apart from the file. -/
theorem carries_of_registered {byte : UInt8} (h : m.Sound) (hn : (m.view [] []).Numbered)
    (hothers : ∀ x ∈ m.registered, x = (s, vpn) ∨ (m.view [] []).shared x.1 x.2 = none ∨
      (m.view [] []).frame x.1 x.2 = none)
    (hopened : m.files.backing? b.backing = some backing) (hfile : backing.file = b.file)
    (hbyte : m.files.byte? b.file b.position = some byte) :
    (m.view [] []).Carries b {byte} {(s, vpn)} := by
  refine ⟨h.consistent, hn, hn.files.lt_next hopened, fun hother => ?_, fun hother => ?_, ?_⟩
  · rwa [Option.some.inj (hother.symm.trans hopened)]
  · exact Option.some.inj (hother.symm.trans hbyte)
  · intro t u j own bytes entry other hpage hV
    obtain ⟨shown, frame, hshown, -, hframe, -⟩ := hV.exists_page
    rcases hothers (t, u) (mem_registered_of_page? hshown) with he | hnone | hnone
    · exact (hpage he).elim
    · cases hnone.symm.trans hV.shared_eq
    · cases hnone.symm.trans ((View.frame_of_page hshown).trans hframe)

/-- A page of a mapping that is in a frame shows what is known of it. -/
theorem shownByte?_of_mirrors {M : FileMapping} {memory : ℕ → Option UInt8} {index : ℕ}
    {byte : UInt8} (hm : (m.view [] []).Mirrors M memory)
    (hpage : m.page? M.space (M.page index) = some page) (hkind : page.kind = .file segment)
    (hbacking : segment.backing = M.backing) {frame : Frame} (hframe : page.frame = some frame)
    (hi : i < pageSize)
    (hknown : M.known memory ((M.page index).number * pageSize + i) = some byte) :
    m.shownByte? M.space (M.page index) i = some byte := by
  have hshared := Page.shared?_of_kind hkind
  obtain ⟨bytes, entry, hload, hV⟩ := hm.consistent.exists_resident hpage hshared hframe
  obtain ⟨other, hat, hsegment⟩ := hm.exists_index (hbacking ▸ hV.backing_eq)
  obtain rfl := FileMapping.page_inj hat
  obtain rfl := Option.some.inj (hV.shared_eq.symm.trans hsegment)
  have hloaded : m.pool.load frame = .ok bytes := hload
  simp only [shownByte?, hpage, Option.bind_some, hframe, hloaded, Except.toOption]
  exact hm.shown hV hi hknown

/-- A page that was only read, and lost its frame before the fork: parent and child share one frame,
and the child finds the byte of the file. -/
theorem childByte_of_unwritten : ∃ m m₂ m₃ : Machine, ∃ bytes : Bytes,
    (boot 1 (.zeroed 32) (.ofFiles #[⟨#[0x41], 1, none, none, none, none⟩])).run?
      ([.create, .map 0 ⟨pageSize⟩ 1 true 0 0, .read 0 ⟨pageSize⟩ #[0],
        .alloc 0 ⟨2 * pageSize⟩ true .zero .anon, .claim 0 ⟨2 * pageSize⟩].map
          (Visit.ascending, ·)) = some m ∧
      m.shownByte? 0 ⟨1⟩ 0 = some 0x41 ∧ (m₂.view [] []).frame m.nextSpace ⟨1⟩ = none ∧
      (Op.read m.nextSpace ⟨pageSize⟩ #[0]).execBy .ascending m₂ = .ok (.buffer bytes none) m₃ ∧
      bytes[0]? = some 0x41 := by
  generalize hrequests : [Op.create, .map 0 ⟨pageSize⟩ 1 true 0 0, .read 0 ⟨pageSize⟩ #[0],
    .alloc 0 ⟨2 * pageSize⟩ true .zero .anon, .claim 0 ⟨2 * pageSize⟩].map
      (Visit.ascending, ·) = requests
  generalize hlater : [Op.claim 0 ⟨2 * pageSize⟩].map (Visit.ascending, ·) = later
  have hserved : ((boot 1 (.zeroed 32)
      (.ofFiles #[⟨#[0x41], 1, none, none, none, none⟩])).run? requests).any (fun m =>
        decide ((∀ x ∈ m.registered, x = (0, ⟨1⟩) ∨ (m.view [] []).shared x.1 x.2 = none) ∧
          m.page? 0 ⟨1⟩ = some ⟨⟨1⟩, true, none, .file ⟨0, 0, 1, by decide⟩⟩ ∧
          m.files.backing? 0 = some ⟨0, ⟨1⟩, 1, 1⟩ ∧ m.shownByte? 0 ⟨1⟩ 0 = some 0x41 ∧
          m.files.byte? 0 0 = some 0x41) &&
        (m.answer? .ascending (.fork 0)).any fun answer =>
          (answer.2.run? later).any fun m₂ =>
            decide ((m₂.view [] []).shared m.nextSpace ⟨1⟩ = some ⟨0, 0, 1, by decide⟩ ∧
              (m₂.view [] []).frame m.nextSpace ⟨1⟩ = none) &&
            (m₂.read? .ascending m.nextSpace ⟨pageSize⟩ #[0] none).isSome) = true := by
    rw [← hrequests, ← hlater]
    decide +kernel
  simp only [Option.any_eq_true, Bool.and_eq_true, decide_eq_true_eq] at hserved
  obtain ⟨m, hrun, ⟨hothers, hpage, hopened, hshown, hbyte⟩, ⟨reply, m₁⟩, hanswer, m₂, hrun',
    ⟨hchild, hframe⟩, hread⟩ := hserved
  obtain ⟨⟨bytes, m₃⟩, hread⟩ := Option.isSome_iff_exists.mp hread
  have hreply := execBy_of_read? hread
  have halone := showsAlone_of_registered hothers hpage rfl hopened Nat.zero_lt_one
  have halong : m₁.Along (Op.Spares (Segment.byte ⟨0, 0, 1, by decide⟩ 0 0)) later := by
    apply along_of_forall
    rw [← hlater]
    intro request hrequest m
    obtain rfl := List.mem_singleton.mp hrequest
    exact ⟨not_false, fun _ _ _ _ => rfl⟩
  obtain ⟨byte, hget, hvalue⟩ := childByte_of_run (by decide) hrun halone
    (execBy_of_answer? hanswer) halong hrun' hchild hreply Nat.zero_lt_one rfl
  refine ⟨m, m₂, m₃, bytes, hrun, hshown, hframe, hreply, ?_⟩
  rcases hvalue with hpage | hfile
  · exact hget.trans (hpage.symm.trans hshown)
  · exact hget.trans (hfile.symm.trans hbyte)

/-- A page of a mapping that a process has written to has the byte that was written, and the file
does not have it yet. -/
theorem exists_written : ∃ m : Machine,
    (boot 2 (.zeroed 32) (.ofFiles #[⟨#[0x41], 1, none, none, none, none⟩])).run?
      ([.create, .map 0 ⟨pageSize⟩ 1 true 0 0, .write 0 ⟨pageSize⟩ #[0x42]].map
        (Visit.ascending, ·)) = some m ∧
      m.ShowsAlone 0 ⟨1⟩ ⟨0, 0, 1, by decide⟩ ⟨0, ⟨1⟩, 1, 1⟩ 0 ∧
      m.shownByte? 0 ⟨1⟩ 0 = some 0x42 := by
  generalize hcontent : File.mk #[0x41] 0 none none none none = content
  generalize hwrite : [(Visit.ascending, Op.write 0 ⟨pageSize⟩ #[0x42])] = write
  have hserved : ((boot 2 (.zeroed 32)
      (.ofFiles #[⟨#[0x41], 1, none, none, none, none⟩])).run? [(.ascending, .create)]).any
        (fun m₀ => decide (m₀.registered = [] ∧ m₀.files.backings.isEmpty = true ∧
            m₀.files.file? 0 = some content ∧ m₀.files.nextBacking = 0) &&
          (m₀.answer? .ascending (.map 0 ⟨pageSize⟩ 1 true 0 0)).any fun answer =>
            decide ((m₀.mappingOf 0 ⟨pageSize⟩ 1 0 0 content).lastWritten answer.2
              (fun _ => none) write pageSize = some 0x42) &&
            (answer.2.run? write).any fun m =>
              decide ((∀ x ∈ m.registered, x = (0, ⟨1⟩) ∨
                  (m.view [] []).shared x.1 x.2 = none) ∧
                m.page? 0 ⟨1⟩ = some ⟨⟨1⟩, true, some 0, .file ⟨0, 0, 1, by decide⟩⟩ ∧
                m.files.backing? 0 = some ⟨0, ⟨1⟩, 1, 1⟩)) = true := by
    rw [← hwrite, ← hcontent]
    decide +kernel
  simp only [Option.any_eq_true, Bool.and_eq_true, decide_eq_true_eq] at hserved
  obtain ⟨m₀, hrun, ⟨hpages, hbackings, hfile, hnext⟩, ⟨reply, mapped⟩, hanswer, hwritten, m, hrun',
    hothers, hpage, hopened⟩ := hserved
  have hmap := execBy_of_answer? hanswer
  have hmappable := mappable_of_registered hpages hbackings hfile (by rw [← hcontent])
    (by rw [← hcontent])
  have halong : mapped.Along (Op.Respects (m₀.mappingOf 0 ⟨pageSize⟩ 1 0 0 content)) write := by
    apply along_of_forall
    rw [← hwrite]
    intro request hrequest m
    obtain rfl := List.mem_singleton.mp hrequest
    exact Op.respects_of_isLocal rfl
  obtain ⟨hstart, hmirrors⟩ := mirrors_of_map (sound_of_run (by decide) hrun)
    (numbered_of_run (by decide) hrun) hmappable hmap halong hrun'
  have hmapped : (m₀.mappingOf 0 ⟨pageSize⟩ 1 0 0 content).mapped = 1 := by
    rw [← hcontent]
    rfl
  have hin : pageSize - (m₀.mappingOf 0 ⟨pageSize⟩ 1 0 0 content).start <
      (m₀.mappingOf 0 ⟨pageSize⟩ 1 0 0 content).mapped := by
    rw [hstart, hmapped]
    decide
  have hpage' : m.page? (m₀.mappingOf 0 ⟨pageSize⟩ 1 0 0 content).space
      ((m₀.mappingOf 0 ⟨pageSize⟩ 1 0 0 content).page 0) = some _ := hpage
  refine ⟨m, ?_, showsAlone_of_registered hothers hpage rfl hopened Nat.zero_lt_one, ?_⟩
  · have hstep : m₀.step? .ascending (.map 0 ⟨pageSize⟩ 1 true 0 0) = some mapped := by
      simp only [step?, hmap]
    have hall := run?_append [(.ascending, .create)]
      ((.ascending, .map 0 ⟨pageSize⟩ 1 true 0 0) :: write)
      (boot 2 (.zeroed 32) (.ofFiles #[⟨#[0x41], 1, none, none, none, none⟩]))
    rw [hrun, Option.bind_some, run?_cons, hstep, Option.bind_some, hrun', ← hwrite] at hall
    exact hall
  · refine shownByte?_of_mirrors hmirrors hpage' rfl hnext.symm rfl (by decide) ?_
    rw [FileMapping.page_mul_add, hstart]
    exact FileMapping.known_of_written hwritten hin

/-- A read by another address space does not bring the page back in. -/
theorem shown_of_apart {t : SpaceId} {va : VirtAddr} {bytes : Bytes} {byte : UInt8} {visit : Visit}
    (hcarries : (m.view [] []).Carries b {byte} {(s, vpn)}) (hne : t ≠ s)
    (hread : (Op.read t va #[0]).execBy visit m = .ok (.buffer bytes none) m')
    (huser : va.isUser = true) (hshared : (m.view [] []).shared t va.page = some segment)
    (hid : segment.backing = b.backing) (hcovers : segment.Covers b.position va.offset)
    (hkept : m'.entryAt? s vpn ≠ none) : bytes[0]? = some byte := by
  have hbyte := MachineM.readByte_answer hcarries.consistent huser hread
  have hapart := hbyte.steps.carries_apart (fun d hd => Deed.avoids_of_accessing hd hne) hcarries
    hkept
  have hsame : (m'.view [] []).shared = (m.view [] []).shared :=
    hbyte.steps.shared_eq (fun d hd => Deed.keepsShared_of_accessing hd) hcarries.consistent
  obtain ⟨page, frame, shown, hpage, hframe, hload, hget⟩ := hbyte.shown rfl
  rw [← hsame] at hshared
  obtain ⟨other, entry, hother, hV⟩ := hapart.consistent.exists_resident hpage
    ((View.shared_of_page hpage).symm.trans hshared) hframe
  obtain rfl : shown = other := Except.ok.inj (hload.symm.trans hother)
  have hlt := hcovers.lt.trans_le segment.readBytes_le
  rw [← hget, Vector.getElem?_eq_getElem hlt]
  refine congrArg some (hapart.shown ?_ hV (.inl hid) hcovers (Vector.getElem?_eq_getElem hlt))
  rintro ⟨⟩
  exact hne rfl

/-- A parent has written to its page, and the child's copy loses its frame while the parent's page
keeps its own: the child finds the byte that the file still has, and not the one that its parent had
at the fork. -/
theorem childByte_ne_of_evictedCopy : ∃ m m₁ m₂ m₃ : Machine, ∃ segment backing reply,
    ∃ later : List (Visit × Op), ∃ bytes : Bytes,
    (boot 2 (.zeroed 32) (.ofFiles #[⟨#[0x41], 1, none, none, none, none⟩])).run?
      ([.create, .map 0 ⟨pageSize⟩ 1 true 0 0, .write 0 ⟨pageSize⟩ #[0x42]].map
        (Visit.ascending, ·)) = some m ∧
      m.ShowsAlone 0 ⟨1⟩ segment backing 0 ∧ m.shownByte? 0 ⟨1⟩ 0 = some 0x42 ∧
      (Op.fork 0).execBy .ascending m = .ok reply m₁ ∧
      m₁.Along (Op.Spares (segment.byte backing.file 0)) later ∧ m₁.run? later = some m₂ ∧
      (m₂.view [] []).shared m.nextSpace ⟨1⟩ = some segment ∧
      (Op.read m.nextSpace ⟨pageSize⟩ #[0]).execBy .ascending m₂ = .ok (.buffer bytes none) m₃ ∧
      bytes[0]? = some 0x41 := by
  obtain ⟨m, hrun, halone, hshown⟩ := exists_written
  generalize hrequests : [Op.create, .map 0 ⟨pageSize⟩ 1 true 0 0,
    .write 0 ⟨pageSize⟩ #[0x42]].map (Visit.ascending, ·) = requests at hrun ⊢
  generalize hlater : [Op.alloc 1 ⟨2 * pageSize⟩ true .zero .anon, .claim 1 ⟨2 * pageSize⟩,
    .access 0 ⟨pageSize⟩ false].map (Visit.ascending, ·) = later
  have hserved : ((boot 2 (.zeroed 32)
      (.ofFiles #[⟨#[0x41], 1, none, none, none, none⟩])).run? requests).any (fun m =>
        (m.answer? .ascending (.fork 0)).any fun answer =>
          (answer.2.run? later).any fun m₂ => decide (m.nextSpace = 1 ∧
              (m₂.view [] []).shared 1 ⟨1⟩ = some ⟨0, 0, 1, by decide⟩ ∧
              (∀ x ∈ m₂.registered, x = (0, ⟨1⟩) ∨ (m₂.view [] []).shared x.1 x.2 = none ∨
                (m₂.view [] []).frame x.1 x.2 = none) ∧
              m₂.files.byte? 0 0 = some 0x41 ∧ m₂.files.backing? 0 = some ⟨0, ⟨1⟩, 1, 2⟩) &&
            (m₂.read? .ascending m.nextSpace ⟨pageSize⟩ #[0] none).any fun result =>
              decide (result.2.entryAt? 0 ⟨1⟩ ≠ none)) = true := by
    rw [← hrequests, ← hlater]
    decide +kernel
  rw [hrun, Option.any_some] at hserved
  simp only [Option.any_eq_true, Bool.and_eq_true, decide_eq_true_eq] at hserved
  obtain ⟨⟨reply, m₁⟩, hanswer, m₂, hrun', ⟨hnext, hchild, hothers, hbyte, hopened⟩,
    ⟨bytes, m₃⟩, hread, hkept⟩ := hserved
  have hfork := execBy_of_answer? hanswer
  have hreply := execBy_of_read? hread
  have hstep : m.step? .ascending (.fork 0) = some m₁ := by
    simp only [step?, hfork]
  have hall : m.run? ((.ascending, .fork 0) :: later) = some m₂ := by
    rw [run?_cons, hstep]
    exact hrun'
  have hsound := sound_of_run (by decide) hrun
  have hapart := carries_of_registered (b := ⟨0, 0, 0⟩) (hsound.run hall)
    (hsound.numbered (numbered_of_run (by decide) hrun) hall) hothers hopened rfl hbyte
  refine ⟨m, m₁, m₂, m₃, _, _, reply, later, bytes, hrun, halone, hshown, hfork, ?_, hrun',
    ?_, hreply, ?_⟩
  · apply along_of_forall
    rw [← hlater]
    intro request hrequest m
    simp only [List.map_cons, List.map_nil, List.mem_cons, List.not_mem_nil, or_false] at hrequest
    rcases hrequest with rfl | rfl | rfl <;> exact ⟨not_false, fun _ _ _ _ => rfl⟩
  · rwa [hnext]
  · rw [hnext] at hreply
    exact shown_of_apart hapart one_ne_zero hreply rfl hchild rfl ⟨Nat.zero_lt_one, rfl⟩ hkept

end Machine

end DemandPaging
