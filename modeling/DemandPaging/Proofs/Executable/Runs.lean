import DemandPaging.Proofs.Executable.Loading
import DemandPaging.Proofs.Executable.Requests
import DemandPaging.Proofs.MappedFile.Runs

/-! # Executables

The pages of a loaded segment show the bytes of its file and zeros after them, or what was written
to them last, whatever pages lose their frames meanwhile. The file stays as it was. A page for which
the file is too short cannot be touched, and the other pages can.
-/

namespace DemandPaging

open MachineM

/-- A range of addresses lies in pages of a segment that are kept. -/
structure LoadedSegment.Within (L : LoadedSegment) (kept : ℕ → Prop) (va : VirtAddr)
    (length : ℕ) : Prop extends L.Contains va length where
  kept_page : ∀ j < length, ∀ index, pageOf (va.val + j) = L.page index → kept index

/-- A fault asks for a page of a segment that is not present, and for no more than may be done
there. -/
structure LoadedSegment.Misses (L : LoadedSegment) (fault : PageFault) (index : ℕ) : Prop where
  page_eq : VirtAddr.page ⟨fault.addr⟩ = L.page index
  notPresent : fault.notPresent = true
  allowed : fault.write = true → L.writable = true

theorem Op.shelters_of_isLocal {L : LoadedSegment} {m : Machine} {op : Op} (h : op.isLocal = true)
    (hwrites : ∀ s va data, op = .write s va data → (m.view [] []).Spares L.file s va data.size) :
    op.Shelters L m := by
  refine ⟨?_, ?_, ?_, fun {s va data} => hwrites s va data⟩
  · intro hedits
    cases op <;> first | exact hedits | cases h
  · rintro s va writable segment target rfl
    cases h
  · rintro rfl
    cases h

theorem Deed.of_mapping {d : Deed} {s : SpaceId} {file : FileId}
    (hd : d ∈ Deed.mapping s file) :
    (∀ other, d ≠ .edit other) ∧ (∀ t vpn, d ≠ .store t vpn) ∧ (∀ other, d ≠ .reopen other) ∧
      ∀ id, d.Accounts id := by
  rcases hd with ⟨page, rfl⟩ | rfl | ⟨id, rfl⟩ <;> simp [Deed.Accounts]

namespace Machine

variable {m m₁ m₂ m' : Machine} {s : SpaceId} {va : VirtAddr} {file : FileId}
  {offset readBytes zeroBytes : ℕ} {writable : Bool} {content : File} {visit : Visit}
  {reply : Reply} {L : LoadedSegment} {memory : Flat} {kept : ℕ → Prop} {index : ℕ}

/-- A file that a segment can be loaded from: reads of it are not cut short, and pages that show it
have what it has. -/
structure Loadable (m : Machine) (file : FileId) (content : File) : Prop where
  file?_eq : m.files.file? file = some content
  readCap_eq : content.readCap = none
  shown : ∀ {s vpn segment bytes entry}, (m.view [] []).Resident s vpn segment bytes entry →
    m.files.OpenOn file segment.backing → ∀ {x i}, segment.Covers x i → x < content.data.size →
      bytes[i]? = content.data[x]?
  unused : ∀ s vpn, (m.view [] []).backing s vpn ≠ some m.files.nextBacking

/-- A file that is not in use can be loaded from. -/
theorem Mappable.loadable (h : m.Mappable file content) (hcap : content.readCap = none) :
    m.Loadable file content := by
  refine ⟨h.file?_eq, hcap, ?_, h.unused⟩
  rintro s vpn segment bytes entry - ⟨backing, hopen, hfile⟩
  exact (h.closed hopen hfile).elim

/-! ## Loading -/

/-- The segment that a request loads: its file is opened as the next backing. -/
def segmentOf (m : Machine) (s : SpaceId) (va : VirtAddr) (file : FileId)
    (offset readBytes zeroBytes : ℕ) (writable : Bool) (content : File) : LoadedSegment where
  space := s
  base := va.page
  pages := (readBytes + zeroBytes) / pageSize
  writable
  backing := m.files.nextBacking
  file
  content
  offset
  readBytes

/-- A request to load a segment gets all of its pages, or changes nothing. -/
theorem load_ends (m : Machine) (visit : Visit) :
    Ends False
      ((Op.loadExecutable s va file offset readBytes zeroBytes writable).execBy visit) m
      (fun _ m' => m.GainsSegment m' s va file offset readBytes zeroBytes writable)
      fun _ m' => m' = m := by
  have hends : Ends False (loadExecutable s va file offset readBytes zeroBytes writable) m _ _ :=
    loadExecutable_gains False.elim va file offset readBytes zeroBytes writable
  exact hends.reply fun _ => .done

/-- A segment that was loaded is served by its file. -/
theorem serves_of_load (h : m.Sound) (hn : (m.view [] []).Numbered)
    (hfile : m.Loadable file content)
    (hload : (Op.loadExecutable s va file offset readBytes zeroBytes writable).execBy visit m =
      .ok reply m₁) :
    (m₁.view [] []).Serves
      (m.segmentOf s va file offset readBytes zeroBytes writable content) := by
  have hgains := (load_ends m visit).ok_of_eq hload
  have hstep : m.step? visit (.loadExecutable s va file offset readBytes zeroBytes writable) =
      some m₁ := by simp only [step?, hload]
  have hsteps : Steps (Deed.mapping s file) (m.view [] []) (m₁.view [] []) :=
    (Op.finished h hstep).steps
  have hstart : (m.view [] []).Upholds file content :=
    ⟨h.consistent, hn, hfile.file?_eq, hfile.shown⟩
  have htallies : (m.view [] []).Tallies m.files.nextBacking :=
    View.tallies_next hn.files hfile.unused rfl
  obtain ⟨hupholds, htallies⟩ := hsteps.invariant
    (fun V => V.Upholds file content ∧ V.Tallies m.files.nextBacking)
    (fun d hd V W hstep hV => by
      obtain ⟨hedit, hstore, hreopen, haccounts⟩ := Deed.of_mapping hd
      exact ⟨hstep.upholds (hedit file) hstore hV.1, hstep.tallies hV.1.consistent
        hV.1.numbered.files (haccounts _) (fun other he => (hreopen other he).elim) hV.2⟩)
    ⟨hstart, htallies⟩
  have hopened : readBytes ≠ 0 → ∃ backing,
      m₁.files.backing? m.files.nextBacking = some backing ∧ backing.file = file := fun hread =>
    hgains.opened _ (if_neg hread)
  refine ⟨hupholds, fun hread => ?_, fun hread {backing} hbacking => ?_, fun _ => htallies⟩
  · obtain ⟨backing, hbacking, -⟩ := hopened hread
    exact hupholds.numbered.files.lt_next hbacking
  · obtain ⟨own, hown, hon⟩ := hopened hread
    obtain rfl := Option.some.inj (hown.symm.trans hbacking)
    exact hon

theorem stands_of_load
    (hgains : m.GainsSegment m₁ s va file offset readBytes zeroBytes writable) (content : File)
    (hindex : index < (readBytes + zeroBytes) / pageSize) :
    (m₁.view [] []).Stands (m.segmentOf s va file offset readBytes zeroBytes writable content)
      index (m.segmentOf s va file offset readBytes zeroBytes writable content).flat :=
  .untouched (hgains.page index hindex) fun _ hi => LoadedSegment.flat_page hindex hi

/-! ## Using a segment -/

theorem spares_of_registered (h : m.registered.all (fun entry =>
      ((m.page? entry.1 entry.2).bind Page.shared?).isNone) = true) (length : ℕ) :
    (m.view [] []).Spares file s va length := by
  rintro vpn i ⟨segment, hshared, -⟩
  obtain ⟨page, hp, -⟩ := Option.bind_eq_some_iff.mp hshared
  have hnone := List.all_eq_true.mp h _ (mem_registered_of_page? (m := m) hp)
  rw [Option.isNone_iff_eq_none] at hnone
  exact (Option.some_ne_none _ (hshared.symm.trans hnone)).elim

/-- What a process finds in a segment, of which some pages are kept and have some bytes. -/
structure Executes (m : Machine) (L : LoadedSegment) (kept : ℕ → Prop) (memory : Flat) :
    Prop where
  file?_eq : m.files.file? L.file = some L.content
  /-- All pages are anonymous. One for which the file is too short was never touched. -/
  anonymous : ∀ index, kept index → ∃ page, m.page? L.space (L.page index) = some page ∧
    page.type = .anon ∧ (L.Short index → page = L.untouched index)
  /-- No write to the pages reaches the file. -/
  spares : ∀ va length, L.Within kept va length →
    (m.view [] []).Spares L.file L.space va length
  /-- A page can be brought in if the file is long enough for it. -/
  claimed : ∀ index m', kept index → claim L.space (L.page index) m = .ok () m' → ¬L.Short index
  refused : ∀ index e m', kept index → claim L.space (L.page index) m = .error (.failed e) m' →
    e = .ioError ∧ L.Short index
  /-- So a fault of a missing page is resolved, if it asks for no more than the page allows. -/
  resolved : ∀ fault index m', kept index → L.Misses fault index →
    handleFault L.space fault m = .ok () m' → ¬L.Short index
  unresolved : ∀ fault index e m', kept index → L.Misses fault index →
    handleFault L.space fault m = .error (.failed e) m' → e = .ioError ∧ L.Short index
  /-- A read succeeds if the file is long enough for all pages of its range, and returns their
  bytes. -/
  read : ∀ visit va buffer bytes error m', L.Within kept va buffer.size →
    (Op.read L.space va buffer).execBy visit m = .ok (.buffer bytes error) m' →
    (error = none ∧ ¬L.ShortIn va buffer.size ∧ bytes.size = buffer.size ∧
      ∀ j < buffer.size, bytes[j]? = memory L.space (va.val + j)) ∨
    (error = some .ioError ∧ L.ShortIn va buffer.size)
  /-- A write succeeds if the file is long enough for all pages of its range, and stores all of its
  data. -/
  written : ∀ visit va data reply m', L.writable = true → L.Within kept va data.size →
    (Op.write L.space va data).execBy visit m = .ok reply m' →
    ¬L.ShortIn va data.size ∧
      ∀ i < data.size, (Op.write L.space va data).stored? m L.space (va.val + i) = data[i]?
  denied : ∀ visit va data e m', L.writable = true → L.Within kept va data.size →
    (Op.write L.space va data).execBy visit m = .error (.failed e) m' →
    e = .ioError ∧ L.ShortIn va data.size

theorem readInvariant_stands (L : LoadedSegment) (kept : ℕ → Prop) (memory : Flat) :
    ReadInvariant L.space
      (fun V => V.Serves L ∧ ∀ index, kept index → V.Stands L index memory)
      fun addr byte => ∀ index, kept index → pageOf addr = L.page index →
        memory L.space addr = some byte where
  consistent h := h.1.consistent
  access d hd V W hstep h := by
    have hstore := ne_store_of_accessing hd
    refine ⟨hstep.serves (Deed.shelters_of_accessing hd) hstore h.1, fun index hkept => ?_⟩
    exact hstep.stands h.1 (hstore _ _) (ne_discard_of_accessing hd _ _) (h.2 index hkept)
  good {V vpn page frame bytes} h hp hframe hload i hi byte hbyte index hkept hat := by
    obtain rfl : vpn = L.page index := (pageOf_number_mul_add vpn hi).symm.trans hat
    obtain ⟨-, own, -, hown, hknown⟩ := (h.2 index hkept).load h.1.consistent hp hframe
    obtain rfl : bytes = own := Except.ok.inj (hload.symm.trans hown)
    rw [hknown i hi, hbyte]

section

variable (h : (m.view [] []).Serves L) (hwhole : L.content.readCap = none)
  (hin : L.base.number + L.pages ≤ userPages)
  (hstands : ∀ index, kept index → (m.view [] []).Stands L index memory)
include hstands

theorem standsAt_of_within {length : ℕ} (hrange : L.Within kept va length) :
    ∀ j < length, (m.view [] []).StandsAt L (pageOf (va.val + j)) := by
  intro j hj
  obtain ⟨index, -, i, -, hat, -⟩ := hrange.exists_page hj
  exact ⟨index, memory, hat, hstands index (hrange.kept_page j hj index hat)⟩

theorem spares_of_within {length : ℕ} (hrange : L.Within kept va length) :
    (m.view [] []).Spares L.file L.space va length := by
  rintro vpn i ⟨segment, hshared, -, hi⟩ ⟨hle, hlt⟩
  have hat : va.val + (vpn.number * pageSize + i - va.val) = vpn.number * pageSize + i := by omega
  have hj : vpn.number * pageSize + i - va.val < length := by omega
  obtain ⟨index, memory, hindex, hpage⟩ := standsAt_of_within hstands hrange _ hj
  obtain ⟨page, hp, htype, -⟩ := hpage.exists_page
  rw [hat, pageOf_number_mul_add _ (hi.trans_le segment.readBytes_le)] at hindex
  rw [hindex, View.shared_of_page hp, Page.type_eq_anon_iff.mp htype] at hshared
  cases hshared

include h hwhole

theorem claim_of_stands (hkept : kept index) : Ends False (claim L.space (L.page index)) m
    (fun _ _ => ¬L.Short index) fun e _ => e = .ioError ∧ L.Short index := by
  have hends : Ends False (claim L.space (L.page index)) m _ _ :=
    claim_of_standsAt h hwhole False.elim ⟨index, memory, rfl, hstands index hkept⟩
  simp only [LoadedSegment.shortAt_page] at hends
  exact hends.mono (fun _ _ hok => hok.1) fun _ _ hf => ⟨hf.1, hf.2.1⟩

theorem handleFault_of_stands {fault : PageFault} (hkept : kept index)
    (hmisses : L.Misses fault index) : Ends False (handleFault L.space fault) m
    (fun _ _ => ¬L.Short index) fun e _ => e = .ioError ∧ L.Short index := by
  obtain ⟨page, hp, -⟩ := (hstands index hkept).exists_page
  have huser : VirtAddr.isUser ⟨fault.addr⟩ = true :=
    VirtAddr.isUser_of_page_lt (hmisses.page_eq ▸ (h.consistent.settled hp).in_user)
  have hends : Ends False (handleFault L.space fault) m _ _ :=
    handleFault_of_standsAt h hwhole False.elim ⟨index, memory, rfl, hstands index hkept⟩
      hmisses.page_eq huser hmisses.notPresent hmisses.allowed
  simp only [LoadedSegment.shortAt_page] at hends
  exact hends.mono (fun _ _ hok => hok.1) fun _ _ hf => ⟨hf.1, hf.2.1⟩

include hin

theorem writeUser_of_stands {data : Bytes} (hwritable : L.writable = true)
    (hrange : L.Within kept va data.size) :
    Ends False (writeUser L.space va data) m (fun _ _ => ¬L.ShortIn va data.size)
      fun e _ => e = .ioError ∧ L.ShortIn va data.size :=
  writeUser_of_standsAt hwhole h False.elim hin hwritable hrange.toContains
    (standsAt_of_within hstands hrange)

/-- A read of a segment returns its bytes, unless the file is too short for one of the pages. -/
theorem read_of_stands {buffer bytes : Bytes} {error : Option Errno}
    (hrange : L.Within kept va buffer.size)
    (hread : (Op.read L.space va buffer).execBy visit m = .ok (.buffer bytes error) m') :
    (error = none ∧ ¬L.ShortIn va buffer.size ∧ bytes.size = buffer.size ∧
      ∀ j < buffer.size, bytes[j]? = memory L.space (va.val + j)) ∨
    (error = some .ioError ∧ L.ShortIn va buffer.size) := by
  have hends : Ends False (readUser L.space va buffer) m _ _ :=
    readUser_of_standsAt hwhole h False.elim hin hrange.toContains
      (standsAt_of_within hstands hrange)
  rcases hends.ok_of_eq (readUser_of_execBy hread) with ⟨rfl, hcomplete⟩ | hshort
  · obtain ⟨hsize, hgood⟩ := (readInvariant_stands L kept memory).answer ⟨h, hstands⟩ hread
    refine .inl ⟨rfl, hcomplete, hsize, fun j hj => ?_⟩
    obtain ⟨index, -, i, -, hat, -⟩ := hrange.exists_page hj
    have hget := Array.getElem?_eq_getElem (hj.trans_eq hsize.symm)
    rw [hgood j hj _ hget index (hrange.kept_page j hj index hat) hat, hget]
  · exact .inr hshort

/-- A segment with its file and its pages can be used. -/
theorem executes_of_stands : m.Executes L kept memory := by
  constructor
  · exact h.file?_eq
  · intro index hkept
    obtain ⟨page, hp, htype, -⟩ := (hstands index hkept).exists_page
    refine ⟨page, hp, htype, fun hshort => ?_⟩
    exact Option.some.inj (hp.symm.trans ((hstands index hkept).page_of_short hshort))
  · exact fun va length hrange => spares_of_within hstands hrange
  · intro index m' hkept hclaim
    exact (claim_of_stands h hwhole hstands hkept).ok_of_eq hclaim
  · intro index e m' hkept hclaim
    exact (claim_of_stands h hwhole hstands hkept).failed_of_eq hclaim
  · intro fault index m' hkept hmisses hfault
    exact (handleFault_of_stands h hwhole hstands hkept hmisses).ok_of_eq hfault
  · intro fault index e m' hkept hmisses hfault
    exact (handleFault_of_stands h hwhole hstands hkept hmisses).failed_of_eq hfault
  · intro visit va buffer bytes error m' hrange hread
    exact read_of_stands h hwhole hin hstands hrange hread
  · intro visit va data reply m' hwritable hrange hwrite
    have hwrote := writeUser_of_execBy hwrite
    exact ⟨(writeUser_of_stands h hwhole hin hstands hwritable hrange).ok_of_eq hwrote,
      fun i hi => stored?_of_ok hwrote hi⟩
  · intro visit va data e m' hwritable hrange hwrite
    have hends : Ends False ((Op.write L.space va data).execBy visit) m _ _ :=
      (writeUser_of_stands h hwhole hin hstands hwritable hrange).reply fun _ => Reply.done
    exact hends.failed_of_eq hwrite

end

/-! ## Runs -/

/-- What comes of a request to load a segment: nothing, or a segment with its pages. -/
structure LoadsSegment (m : Machine) (s : SpaceId) (va : VirtAddr) (file : FileId)
    (offset readBytes zeroBytes : ℕ) (writable : Bool) (content : File) (m₁ : Machine) : Prop where
  gains : m.GainsSegment m₁ s va file offset readBytes zeroBytes writable
  start_eq : (m.segmentOf s va file offset readBytes zeroBytes writable content).start = va.val
  /-- Whatever requests spare the file, the pages that stay registered have what was written to them
  last. -/
  executes : ∀ later m₂,
    m₁.Along (Op.Shelters (m.segmentOf s va file offset readBytes zeroBytes writable content))
      later → m₁.run? later = some m₂ →
    m₂.Executes (m.segmentOf s va file offset readBytes zeroBytes writable content)
      (fun index => index < (readBytes + zeroBytes) / pageSize ∧
        m₁.Along (fun m _ => m.page? s ⟨va.page.number + index⟩ ≠ none) later ∧
        m₂.page? s ⟨va.page.number + index⟩ ≠ none)
      (m₁.lastWritten
        (m.segmentOf s va file offset readBytes zeroBytes writable content).flat later)
  /-- Where nothing was written the segment is as it was loaded. -/
  initial : ∀ later addr, m₁.Along (fun m op => op.stored? m s addr = none) later →
    m₁.lastWritten (m.segmentOf s va file offset readBytes zeroBytes writable content).flat later
      s addr = (m.segmentOf s va file offset readBytes zeroBytes writable content).flat s addr

theorem Sound.loadsSegment (h : m.Sound) (hn : (m.view [] []).Numbered)
    (hfile : m.Loadable file content)
    (hload : (Op.loadExecutable s va file offset readBytes zeroBytes writable).execBy visit m =
      .ok reply m₁) :
    m.LoadsSegment s va file offset readBytes zeroBytes writable content m₁ := by
  have hgains := (load_ends m visit).ok_of_eq hload
  have hserves := serves_of_load h hn hfile hload
  have hstep : m.step? visit (.loadExecutable s va file offset readBytes zeroBytes writable) =
      some m₁ := by simp only [step?, hload]
  refine ⟨hgains, hgains.aligned, fun later m₂ halong hlater => ?_, fun later addr hquiet => ?_⟩
  · obtain ⟨hserves₂, hstands⟩ :=
      stands_run (Op.finished h hstep).sound hserves halong hlater
    refine executes_of_stands hserves₂ hfile.readCap_eq hgains.inside ?_
    rintro index ⟨hindex, hkept, hend⟩
    exact hstands hkept hend (stands_of_load hgains content hindex)
  · exact lastWritten_of_unwritten hquiet

/-- In every machine that was booted and served requests, a segment of an executable is loaded with
all of its pages or not at all. Its pages show the bytes of the file and zeros after them, until
they are written to, and never change the file. -/
theorem loadsSegment_of_run {frames : ℕ} {disk : Disk} {files : Array File}
    {requests : List (Visit × Op)} (hframes : frames ≤ PageTable.Entry.frameBound)
    (hrun : (boot frames disk (.ofFiles files)).run? requests = some m) :
    ∀ visit s va file offset readBytes zeroBytes writable,
      (∀ e m', (Op.loadExecutable s va file offset readBytes zeroBytes writable).execBy visit m =
        .error (.failed e) m' → m' = m) ∧
      ∀ content reply m₁, m.Loadable file content →
        (Op.loadExecutable s va file offset readBytes zeroBytes writable).execBy visit m =
          .ok reply m₁ →
        m.LoadsSegment s va file offset readBytes zeroBytes writable content m₁ := by
  intro visit s va file offset readBytes zeroBytes writable
  refine ⟨fun e m' hfailed => (load_ends m visit).failed_of_eq hfailed,
    fun content reply m₁ hfile hload => ?_⟩
  exact (sound_of_run hframes hrun).loadsSegment (numbered_of_run hframes hrun) hfile hload

/-- A segment of two bytes is written to and loses the only frame: the byte that was written, the
other byte of the file and a zero are read back, and the file is as it was. -/
theorem loadsSegment_of_evicted : ∃ m m₁ m₂ m₃ : Machine, ∃ reply : Reply, ∃ bytes : Bytes,
    ∃ content : File, ∃ later : List (Visit × Op),
      (boot 1 (.zeroed 16) (.ofFiles #[content])).run? [(.ascending, .create)] = some m ∧
      (Op.loadExecutable 0 ⟨pageSize⟩ 0 0 2 (pageSize - 2) true).execBy .ascending m =
        .ok reply m₁ ∧
      m₁.run? later = some m₂ ∧ (m₂.page? 0 ⟨1⟩).bind Page.frame = none ∧
      (Op.read 0 ⟨pageSize⟩ #[7, 7, 7]).execBy .ascending m₂ = .ok (.buffer bytes none) m₃ ∧
      bytes[0]? = some 0x42 ∧ bytes[1]? = some 0x43 ∧ bytes[2]? = some 0 ∧
      content.data = #[0x41, 0x43] ∧ m₂.files.file? 0 = some content := by
  generalize hcontent : File.mk #[0x41, 0x43] 0 none none none none = content
  generalize hlater : [Op.alloc 0 ⟨2 * pageSize⟩ true .zero .anon,
    .claim 0 ⟨2 * pageSize⟩].map (Visit.ascending, ·) = later
  have hserved : ((boot 1 (.zeroed 16) (.ofFiles #[content])).run?
      [(.ascending, .create)]).any (fun m =>
        decide (m.registered = [] ∧ m.files.backings.isEmpty = true ∧
          m.files.file? 0 = some content) &&
        (m.answer? .ascending (.loadExecutable 0 ⟨pageSize⟩ 0 0 2 (pageSize - 2) true)).any
          fun answer =>
          answer.2.registered.all (fun entry =>
            ((answer.2.page? entry.1 entry.2).bind Page.shared?).isNone) &&
          (answer.2.run? ((.ascending, .write 0 ⟨pageSize⟩ #[0x42]) :: later)).any fun m₂ =>
            decide ((m₂.page? 0 ⟨1⟩).bind Page.frame = none ∧ ∀ j < 3,
              answer.2.lastWritten (m.segmentOf 0 ⟨pageSize⟩ 0 0 2 (pageSize - 2) true content).flat
                ((.ascending, .write 0 ⟨pageSize⟩ #[0x42]) :: later) 0 (pageSize + j) =
                  #[(0x42 : UInt8), 0x43, 0][j]?) &&
            (m₂.read? .ascending 0 ⟨pageSize⟩ #[7, 7, 7] none).isSome) = true := by
    rw [← hlater, ← hcontent]
    decide +kernel
  simp only [Option.any_eq_true, Bool.and_eq_true, decide_eq_true_eq] at hserved
  obtain ⟨m, hrun, ⟨hpages, hbackings, hfile⟩, ⟨reply, m₁⟩, hanswer, hanonymous, m₂, hlater₂,
    ⟨hframe, hlast⟩, hread⟩ := hserved
  obtain ⟨⟨bytes, m₃⟩, hread⟩ := Option.isSome_iff_exists.mp hread
  have hmappable := mappable_of_registered hpages hbackings hfile (by rw [← hcontent])
    (by rw [← hcontent])
  have hload := execBy_of_answer? hanswer
  obtain ⟨hgains, hstart, hexecutes, -⟩ := (loadsSegment_of_run (by decide) hrun .ascending 0
    ⟨pageSize⟩ 0 0 2 (pageSize - 2) true).2 content reply m₁
    (hmappable.loadable (by rw [← hcontent])) hload
  have hlocal : ∀ request ∈ later, (request.2.isLocal = true ∧
      ∀ s va data, request.2 ≠ .write s va data) ∧ ∀ page, ¬request.2.Removes 0 page := by
    rw [← hlater]
    simp [Op.isLocal, Op.Removes]
  have hexecutes := hexecutes ((.ascending, .write 0 ⟨pageSize⟩ #[0x42]) :: later) m₂
    ⟨Op.shelters_of_isLocal rfl fun _ _ _ _ => spares_of_registered hanonymous _, fun m' _ =>
      along_of_forall (fun request hr _ => Op.shelters_of_isLocal (hlocal request hr).1.1
        fun s va data h => ((hlocal request hr).1.2 s va data h).elim) m'⟩ hlater₂
  have hstep : m.step? .ascending (.loadExecutable 0 ⟨pageSize⟩ 0 0 2 (pageSize - 2) true) =
      some m₁ := by simp only [step?, hload]
  have hsound := (Op.finished (sound_of_run (by decide) hrun) hstep).sound
  have hregistered : m₁.page? 0 ⟨1⟩ ≠ none := fun hnone =>
    Option.some_ne_none _ ((hgains.page 0 (by decide)).symm.trans hnone)
  have hspared : m₁.Along (fun _ op => ¬op.Removes 0 ⟨1⟩)
      ((.ascending, .write 0 ⟨pageSize⟩ #[0x42]) :: later) :=
    ⟨id, fun m' _ => along_of_forall (fun request hr _ => (hlocal request hr).2 _) m'⟩
  have hkept := registered_run hsound hregistered hspared hlater₂
  have hpage : ∀ j < 3, ∀ index : ℕ, pageOf (pageSize + j) = ⟨1 + index⟩ → index = 0 := by
    intro j hj index hat
    have hnumber := (pageOf_number _).symm.trans (congrArg VirtPage.number hat)
    simp only [pageSize] at hnumber
    omega
  have hend : pageSize + 3 ≤ (m.segmentOf 0 ⟨pageSize⟩ 0 0 2 (pageSize - 2) true content).start +
      (2 + (pageSize - 2)) / pageSize * pageSize := by
    rw [hstart]
    decide
  have hreply := execBy_of_read? hread
  have hbytes := hexecutes.read .ascending ⟨pageSize⟩ #[7, 7, 7] bytes none m₃
    ⟨⟨hstart.le, hend⟩, fun j hj index hat => by
      obtain rfl := hpage j hj index hat
      exact ⟨Nat.one_pos, hkept⟩⟩ hreply
  simp only [true_and, reduceCtorEq, false_and, or_false] at hbytes
  obtain ⟨-, -, hread⟩ := hbytes
  refine ⟨m, m₁, m₂, m₃, reply, bytes, content, _, hrun, hload, hlater₂, hframe, hreply, ?_, ?_,
    ?_, ?_, hexecutes.file?_eq⟩
  · exact (hread 0 (by decide)).trans (hlast 0 (by decide))
  · exact (hread 1 (by decide)).trans (hlast 1 (by decide))
  · exact (hread 2 (by decide)).trans (hlast 2 (by decide))
  · rw [← hcontent]

end Machine

end DemandPaging
