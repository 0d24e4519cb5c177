import DemandPaging.Proofs.MappedFile.UserCopy
import DemandPaging.Proofs.Runs

/-! # Mapped files

A process that maps a file and uses it through the mapping alone finds in it what it wrote last, or
else what the file had, whatever pages lose their frames meanwhile. What it wrote is in the file
when the pages of the mapping are removed.
-/

namespace DemandPaging

theorem FileStore.length_of_file? {store : FileStore} {file : FileId} {content : File}
    (h : store.file? file = some content) : store.length file = content.length := by
  obtain ⟨own, hown, rfl⟩ := Option.map_eq_some_iff.mp h
  rw [FileStore.length, hown, Option.elim_some]
  rfl

/-! ## Requests -/

/-- Requests that use the file of a mapping through the mapping alone, and neither change the notes
of use of a page nor copy the mapping. -/
structure Op.Respects (M : FileMapping) (m : Machine) (op : Op) : Prop where
  opens : ¬op.Opens M.file
  edits : ¬op.Edits M.file
  allocs : ∀ {s va writable segment target}, op = .alloc s va writable (.file segment) target →
    segment.backing ≠ M.backing
  releases : op ≠ .release M.backing
  flags : ∀ {s va accessed dirty}, op ≠ .setFlags s va accessed dirty
  copies : op.CopiesFrom M.space → ∀ vpn, (m.view [] []).backing M.space vpn ≠ some M.backing

/-- Whether a request reaches files only through the pages of its own address space. -/
def Op.isLocal : Op → Bool
  | .create | .drop _ | .alloc _ _ _ .zero _ | .claim _ _ | .fault _ _ | .setUserSp _ _
  | .setupStack _ | .read _ _ _ | .write _ _ _ | .remove _ _ | .recycle _ | .unmap _ _
  | .unmapCall _ _ | .access _ _ _ => true
  | _ => false

/-- The bytes that were written through a mapping, after one more request. -/
def FileMapping.after (M : FileMapping) (m : Machine) (op : Op) (memory : ℕ → Option UInt8) :
    ℕ → Option UInt8 := fun addr =>
  (if (m.view [] []).backing M.space (pageOf addr) = some M.backing then op.stored? m M.space addr
    else none).or (memory addr)

/-- The bytes that are written last through a mapping, by a sequence of requests. -/
def FileMapping.lastWritten (M : FileMapping) (m : Machine) (memory : ℕ → Option UInt8) :
    List (Visit × Op) → ℕ → Option UInt8
  | [] => memory
  | (visit, op) :: requests =>
    match m.step? visit op with
    | none => memory
    | some m' => M.lastWritten m' (M.after m op memory) requests

section

variable {M : FileMapping} {m : Machine} {memory : ℕ → Option UInt8} {op : Op} {d : Deed}
  {V W : View} {child : SpaceId} {id : BackingId}

theorem Op.respects_of_isLocal (h : op.isLocal = true) : op.Respects M m := by
  refine ⟨fun hopens => ?_, fun hedits => ?_, ?_, ?_, ?_, ?_⟩
  · cases op <;> first | exact hopens | cases h
  · cases op <;> first | exact hedits | cases h
  · rintro s va writable segment target rfl
    cases h
  · rintro rfl
    cases h
  · rintro s va accessed dirty rfl
    cases h
  · rintro (rfl | ⟨dst, rfl⟩) <;> cases h

theorem FileMapping.after_write (s : SpaceId) (va : VirtAddr) (data : Bytes) :
    M.stored (m.view [] []) s va data (MachineM.writtenPages s va data m) memory =
      M.after m (.write s va data) memory := by
  funext addr
  rw [stored, after, Op.stored?]
  split
  · next h => rw [if_pos h.1, if_pos h.2]
  · next h =>
    split
    · next hpage => rw [if_neg fun hin => h ⟨hpage, hin⟩]
    · rfl

theorem FileMapping.after_of_not_write (hop : ∀ s va data, op ≠ .write s va data) :
    M.after m op memory = memory := by
  funext addr
  have hnone : op.stored? m M.space addr = none := by
    cases op with
    | write s va data => exact (hop s va data rfl).elim
    | _ => rfl
  rw [after, hnone, ite_self, Option.none_or]

theorem Step.mem_pins (hstep : Step d V W) (hid : id ∈ W.pins) (hlt : id < V.files.nextBacking) :
    id ∈ V.pins := by
  cases hstep with
  | pin inside opened =>
      obtain ⟨rfl, -⟩ := FileStore.backing?_reopen opened
      exact (List.mem_cons.mp hid).resolve_left hlt.ne
  | unpin first =>
      rw [first]
      exact List.mem_cons_of_mem _ hid
  | _ => exact hid

/-- A request in the middle, that holds no reference to the backing of a mapping. -/
structure View.Respected (V : View) (M : FileMapping) (memory : ℕ → Option UInt8) (op : Op) : Prop
    extends V.Mirrors M memory where
  unpinned : M.backing ∉ V.pins
  copies : op.CopiesFrom M.space → ∀ vpn, V.backing M.space vpn ≠ some M.backing

theorem Step.respects (hstep : Step d V W) (hop : op.Respects M m) (hd : d.BelongsTo op child)
    (h : V.Respected M memory op) : d.Respects M V := by
  have hcopies : ∀ {src vpn}, op.CopiesFrom src → V.backing src vpn ≠ some M.backing := by
    intro src vpn hsrc hpage
    obtain ⟨rfl, -⟩ := h.placed hpage
    exact h.copies hsrc vpn hpage
  cases d with
  | register s page => exact fun hid => (h.unpinned (hstep.mem_pins_of_register hid)).elim
  | adopt s page =>
      obtain ⟨va, writable, segment, target, rfl, hsegment⟩ := hd
      intro hid
      rw [Page.backing?, hsegment] at hid
      exact hop.allocs rfl (Option.some.inj hid)
  | inherit dst src vpn | copy dst src vpn =>
      rcases hd with ⟨rfl, -⟩ | rfl
      · exact hcopies (.inl rfl)
      · exact hcopies (.inr ⟨dst, rfl⟩)
  | adjust s vpn =>
      obtain ⟨va, accessed, dirty, rfl⟩ := hd
      exact (hop.flags rfl).elim
  | pin file =>
      rintro rfl
      exact hop.opens hd
  | edit file =>
      rintro rfl
      exact hop.edits hd
  | reopen file =>
      obtain ⟨base, pages, rfl⟩ := hd
      exact fun he => hop.opens he
  | release id =>
      obtain rfl : op = .release id := hd
      rintro rfl
      exact hop.releases rfl
  | _ => trivial

theorem Step.respected (hstep : Step d V W) (hop : op.Respects M m) (hd : d.BelongsTo op child)
    (hwrite : ∀ s va data, op ≠ .write s va data) (h : V.Respected M memory op) :
    W.Respected M memory op := by
  have hrespects := hstep.respects hop hd h
  refine ⟨hstep.mirrors hrespects ?_ h.toMirrors,
    fun hid => h.unpinned (hstep.mem_pins hid h.lt_next), fun hfrom vpn hpage => ?_⟩
  · rintro vpn rfl
    obtain ⟨va, data, rfl⟩ := hd
    exact (hwrite _ _ _ rfl).elim
  · rcases hstep.backing_cases hrespects h.toMaps hpage with ⟨hbefore, -⟩ | ⟨page, rfl, -, hid, -⟩
    · exact h.copies hfrom vpn hbefore
    · exact h.unpinned (hstep.mem_pins_of_register hid)

end

namespace Machine

variable {m m' m₁ m₂ : Machine} {M : FileMapping} {memory : ℕ → Option UInt8} {visit : Visit}
  {op : Op} {requests later : List (Visit × Op)}

/-- A request that uses the file through the mapping alone changes what is known by its writes. -/
theorem mirrors_step (h : m.Sound) (hm : (m.view [] []).Mirrors M memory)
    (hop : op.Respects M m) (hstep : m.step? visit op = some m') :
    (m'.view [] []).Mirrors M (M.after m op memory) := by
  by_cases hwrite : ∃ s va data, op = .write s va data
  · obtain ⟨s, va, data, rfl⟩ := hwrite
    have hends := MachineM.writeUser_mirrors (s := s) hm va data
    rw [FileMapping.after_write] at hends
    exact (hends.reply fun _ => Reply.done).of_step? hstep
  · have hnot : ∀ s va data, op ≠ .write s va data := fun s va data he => hwrite ⟨s, va, data, he⟩
    rw [FileMapping.after_of_not_write hnot]
    have hstart : (m.view [] []).Respected M memory op := ⟨hm, List.not_mem_nil, hop.copies⟩
    have hdone := (Op.finished h hstep).steps.invariant (fun V => V.Respected M memory op)
      (fun d hd V W hstep' hV => hstep'.respected hop (Op.belongsTo_of_deeds hd) hnot hV) hstart
    exact hdone.toMirrors

theorem mirrors_run (h : m.Sound) (hm : (m.view [] []).Mirrors M memory)
    (halong : m.Along (Op.Respects M) requests) (hrun : m.run? requests = some m') :
    (m'.view [] []).Mirrors M (M.lastWritten m memory requests) := by
  induction requests generalizing m memory with
  | nil =>
      obtain rfl := Option.some.inj hrun
      exact hm
  | cons request requests ih =>
      rw [run?_cons] at hrun
      obtain ⟨m₁, hfirst, hrest⟩ := Option.bind_eq_some_iff.mp hrun
      obtain ⟨hop, hlater⟩ := halong
      simp only [FileMapping.lastWritten, hfirst]
      exact ih (Op.finished h hfirst).sound (mirrors_step h hm hop hfirst) (hlater m₁ hfirst) hrest

/-! ## Making a mapping -/

theorem Sound.numbered (h : m.Sound) (hn : (m.view [] []).Numbered)
    (hrun : m.run? requests = some m') : (m'.view [] []).Numbered := by
  refine (run_invariant (fun m => m.Sound ∧ (m.view [] []).Numbered) ?_ ⟨h, hn⟩ hrun).2
  intro request _ m₁ m₂ hinv hstep
  have hfinished := Op.finished hinv.1 hstep
  exact ⟨hfinished.sound, hfinished.steps.viewNumbered hinv.1.consistent hinv.2⟩

/-- A machine that was booted with files and served requests has given out the numbers of its
backings. -/
theorem numbered_of_run {frames : ℕ} {disk : Disk} {files : Array File}
    (hframes : frames ≤ PageTable.Entry.frameBound)
    (hrun : (boot frames disk (.ofFiles files)).run? requests = some m) :
    (m.view [] []).Numbered := by
  refine (sound_boot hframes disk _).numbered ⟨⟨?_, ?_⟩, fun {s vpn segment bytes entry} hV => ?_⟩
    hrun
  · rintro id backing ⟨⟩
  · rintro id backing ⟨⟩
  · obtain ⟨page, frame, hp, -⟩ := hV.exists_page
    have hnone : (boot frames disk (.ofFiles files)).page? s vpn = none := page?_eq_none rfl vpn
    cases hnone.symm.trans hp

/-- The mapping that a request makes: the file is opened as the next backing, and the pages show its
bytes from the offset on, but no more than were asked for. -/
def mappingOf (m : Machine) (s : SpaceId) (va : VirtAddr) (length : ℕ) (file : FileId) (offset : ℕ)
    (content : File) : FileMapping where
  backing := m.files.nextBacking
  file
  space := s
  base := va.page
  pages := pagesFor length
  offset
  original := content.data
  mapped := min length (content.data.size - offset)
  mapped_le := min_le_right _ _

/-- A file that can be mapped: it says how long it is, takes whole writes, and is not in use. -/
structure Mappable (m : Machine) (file : FileId) (content : File) : Prop where
  file?_eq : m.files.file? file = some content
  writeCap_eq : content.writeCap = none
  claimedLength_eq : content.claimedLength = none
  closed : ∀ {id backing}, m.files.backing? id = some backing → backing.file ≠ file
  unused : ∀ s vpn, (m.view [] []).backing s vpn ≠ some m.files.nextBacking

section

variable {s : SpaceId} {va : VirtAddr} {length offset : ℕ} {writable : Bool} {file : FileId}
  {content : File} {id : BackingId} {files : FileStore}

/-- A file that was opened for a mapping has what it had. -/
theorem mirrors_of_opened (s : SpaceId) (offset : ℕ) (h : m.Sound) (hn : m.files.Numbered)
    (hfile : m.Mappable file content) (hinside : va.page.number + pagesFor length ≤ userPages)
    (hopen : m.files.reopen file va.page (pagesFor length) = .ok (id, files)) :
    (Machine.view { m with files } [] [id]).Mirrors
      (m.mappingOf s va length file offset content) fun _ => none := by
  have hpin : Step (.pin file) (m.view [] []) (Machine.view { m with files } [] [id]) :=
    Step.pin hinside hopen
  have hcontent := (FileStore.file?_reopen hopen file).trans hfile.file?_eq
  obtain ⟨rfl, hnext, hback⟩ := FileStore.backing?_reopen hopen
  have htallies : (m.view [] []).Tallies m.files.nextBacking :=
    View.tallies_next hn hfile.unused rfl
  refine ⟨⟨hpin.consistent h.consistent, hpin.numbered hn, hnext ▸ Nat.lt_succ_self _,
    hpin.tallies h.consistent hn trivial ?_ htallies, ?_, ?_, ?_, ?_⟩, ?_, ?_, ?_⟩
  · rintro - ⟨⟩
  · intro backing hother
    have hown : files.backing? m.files.nextBacking = some backing := hother
    rw [hback, if_pos rfl] at hown
    rw [← Option.some.inj hown]
    rfl
  · intro other backing hother hon
    have hown : files.backing? other = some backing := hother
    rw [hback] at hown
    split at hown
    · next he => exact he.symm
    · exact (hfile.closed hown hon).elim
  · exact fun hpage => (hfile.unused _ _ hpage).elim
  · exact ⟨content, hcontent, hfile.writeCap_eq, rfl⟩
  · exact fun hV => (hfile.unused _ _ hV.backing_eq).elim
  · intro index x i hcovers _
    rw [FileMapping.known_of_covers hcovers, Option.none_or]
    exact FileStore.byte?_of_file? hcontent
  · exact fun _ => FileStore.byte?_of_file? hcontent

theorem mirrors_of_made (h : m.Sound) (hn : m.files.Numbered) (hfile : m.Mappable file content)
    (hmade : MachineM.MadeMapping m m' s va length writable file offset id files) :
    (m'.view [] []).Mirrors (m.mappingOf s va length file offset content) fun _ => none := by
  have hstart := mirrors_of_opened s offset h hn hfile hmade.inside hmade.opened
  have hcontent := (FileStore.file?_reopen hmade.opened file).trans hfile.file?_eq
  obtain ⟨rfl, -, hback⟩ := FileStore.backing?_reopen hmade.opened
  have hlength : files.backingLength m.files.nextBacking = content.data.size := by
    rw [FileStore.backingLength, hback, if_pos rfl, Option.elim_some,
      FileStore.length_of_file? hcontent, File.length, hfile.claimedLength_eq, Option.getD_none]
  obtain ⟨U, hsteps, hunpin⟩ := hmade.registered
  have hU := hsteps.invariant
    (fun V => V.Mirrors (m.mappingOf s va length file offset content) fun _ => none) ?_ hstart
  · refine hunpin.mirrors trivial ?_ hU
    rintro vpn ⟨⟩
  · rintro d ⟨page, hpage, rfl⟩ V W hstep hV
    refine hstep.mirrors (fun _ => ⟨rfl, ?_⟩) ?_ hV
    · obtain ⟨index, hindex, rfl⟩ := List.mem_map.mp hpage
      refine ⟨index, List.mem_range.mp hindex, rfl, ?_⟩
      rw [hlength]
      rfl
    · rintro vpn ⟨⟩

end

theorem exists_madeMapping {s : SpaceId} {va : VirtAddr} {length offset : ℕ} {writable : Bool}
    {file : FileId} {reply : Reply}
    (hmap : (Op.map s va length writable file offset).execBy visit m = .ok reply m') :
    (m.view [] []).Live s ∧
      ∃ id files, MachineM.MadeMapping m m' s va length writable file offset id files := by
  have hlive : False → (m.view [] []).Live s := False.elim
  have hends := MachineM.mapFile_made hlive va length writable file offset
  cases hresult : MachineM.mapFile s va length writable file offset m with
  | ok a m₁ =>
      simp only [Op.execBy, Bind.bind, EStateM.bind, hresult] at hmap
      cases hmap
      exact hends.ok_of_eq hresult
  | error stop m₁ =>
      simp only [Op.execBy, Bind.bind, EStateM.bind, hresult] at hmap
      cases hmap

theorem mirrors_of_map {s : SpaceId} {va : VirtAddr} {length offset : ℕ} {writable : Bool}
    {file : FileId} {content : File} {reply : Reply} (h : m.Sound) (hn : (m.view [] []).Numbered)
    (hfile : m.Mappable file content)
    (hmap : (Op.map s va length writable file offset).execBy visit m = .ok reply m₁)
    (halong : m₁.Along (Op.Respects (m.mappingOf s va length file offset content)) later)
    (hlater : m₁.run? later = some m₂) :
    (m.mappingOf s va length file offset content).start = va.val ∧
      (m₂.view [] []).Mirrors (m.mappingOf s va length file offset content)
        ((m.mappingOf s va length file offset content).lastWritten m₁ (fun _ => none) later) := by
  obtain ⟨-, id, files, hmade⟩ := exists_madeMapping hmap
  have hstep : m.step? visit (.map s va length writable file offset) = some m₁ := by
    simp only [step?, hmap]
  have hstart := mirrors_of_made h hn.files hfile hmade
  exact ⟨hmade.aligned, mirrors_run (Op.finished h hstep).sound hstart halong hlater⟩

/-! ## What a process finds -/

/-- A mapping and its file have what is known, where `memory` has the bytes that were last written
through the mapping. -/
structure Mirrored (m : Machine) (M : FileMapping) (memory : ℕ → Option UInt8) : Prop where
  /-- A write that succeeds stores all of its data. -/
  written : ∀ {visit va data reply m'},
    (Op.write M.space va data).execBy visit m = .ok reply m' → ∀ i < data.size,
      (m.view [] []).backing M.space (pageOf (va.val + i)) = some M.backing →
        M.after m (.write M.space va data) memory (va.val + i) = data[i]?
  /-- A read that succeeds returns what is known of the pages that are registered. -/
  read : ∀ {visit va buffer bytes m'},
    (Op.read M.space va buffer).execBy visit m = .ok (.buffer bytes none) m' →
      ∀ j < buffer.size, (m.view [] []).backing M.space (pageOf (va.val + j)) = some M.backing →
        ∀ byte, M.known memory (va.val + j) = some byte → bytes[j]? = some byte
  /-- The file has what is known of the pages that were removed. -/
  saved : ∀ j < M.mapped,
    (m.view [] []).backing M.space (pageOf (M.start + j)) ≠ some M.backing →
      m.files.byte? M.file (M.offset + j) = M.known memory (M.start + j)
  /-- Where the mapping does not show the file it has what it had. -/
  others : ∀ x, x < M.offset ∨ M.offset + M.mapped ≤ x →
    m.files.byte? M.file x = M.original[x]?
  size_eq : ∃ content, m.files.file? M.file = some content ∧ content.data.size = M.original.size

theorem mirrored_of_mirrors (hm : (m.view [] []).Mirrors M memory) : m.Mirrored M memory := by
  constructor
  · intro visit va data reply m' hwrite i hi hpage
    have hstored := MachineM.stored?_of_ok (MachineM.writeUser_of_execBy hwrite) hi
    rw [FileMapping.after, if_pos hpage, hstored, Array.getElem?_eq_getElem hi, Option.some_or]
  · intro visit va buffer bytes m' hread j hj hpage byte hknown
    have hinv := MachineM.readInvariant_mirrors M memory (m.view [] [])
    obtain ⟨hsize, hgood⟩ := hinv.answer ⟨hm, fun _ => Iff.rfl⟩ hread
    have hget := Array.getElem?_eq_getElem (hj.trans_eq hsize.symm)
    rw [hget, hgood j hj _ hget hpage byte hknown]
  · intro j hj hpage
    have hcovers := FileMapping.covers_div_mod hj
    have hat : (M.page (j / pageSize)).number * pageSize + j % pageSize = M.start + j := by
      rw [FileMapping.page_mul_add, Nat.div_add_mod']
    rw [← hat]
    refine hm.saved hcovers ?_
    rintro ⟨bytes, entry, hV, -⟩
    rw [FileMapping.pageOf_start_add] at hpage
    exact hpage hV.backing_eq
  · intro x hx
    refine hm.others fun index i hcovers => ?_
    obtain ⟨-, hlt, rfl⟩ := FileMapping.covers_iff.mp hcovers
    omega
  · obtain ⟨content, hcontent, -, hsize⟩ := hm.content
    exact ⟨content, hcontent, hsize⟩

/-- A file that is mapped and used through the mapping alone shows what was written last, or else
what it had, whatever pages lose their frames meanwhile, and has it when the pages are removed. -/
theorem mirrored_of_run {frames : ℕ} {disk : Disk} {files : Array File} {s : SpaceId}
    {va : VirtAddr} {length offset : ℕ} {writable : Bool} {file : FileId} {content : File}
    {reply : Reply}
    (hframes : frames ≤ PageTable.Entry.frameBound)
    (hrun : (boot frames disk (.ofFiles files)).run? requests = some m)
    (hfile : m.Mappable file content)
    (hmap : (Op.map s va length writable file offset).execBy visit m = .ok reply m₁)
    (halong : m₁.Along (Op.Respects (m.mappingOf s va length file offset content)) later)
    (hlater : m₁.run? later = some m₂) :
    (m.mappingOf s va length file offset content).start = va.val ∧
      m₂.Mirrored (m.mappingOf s va length file offset content)
        ((m.mappingOf s va length file offset content).lastWritten m₁ (fun _ => none) later) := by
  have hsound := sound_of_run hframes hrun
  have hn := numbered_of_run hframes hrun
  obtain ⟨hstart, hmirrors⟩ := mirrors_of_map hsound hn hfile hmap halong hlater
  exact ⟨hstart, mirrored_of_mirrors hmirrors⟩

def registered (m : Machine) : List (SpaceId × VirtPage) :=
  m.spaces.toList.flatMap fun entry => entry.2.pages.keys.map (entry.1, ·)

theorem mem_registered_of_page? {s : SpaceId} {vpn : VirtPage} {page : Page}
    (h : m.page? s vpn = some page) : (s, vpn) ∈ m.registered := by
  obtain ⟨space, hspace, hpage⟩ := exists_space_of_page? h
  refine List.mem_flatMap.mpr ⟨(s, space), ?_, List.mem_map_of_mem ?_⟩
  · exact Std.TreeMap.mem_toList_iff_getElem?_eq_some.mpr hspace
  · rw [Std.TreeMap.mem_keys, Std.TreeMap.mem_iff_isSome_getElem?, hpage]
    rfl

/-- A file can be mapped where no page is registered and no backing is open. -/
theorem mappable_of_registered {file : FileId} {content : File} (hpages : m.registered = [])
    (hbackings : m.files.backings.isEmpty = true) (hfile : m.files.file? file = some content)
    (hcap : content.writeCap = none) (hlength : content.claimedLength = none) :
    m.Mappable file content := by
  refine ⟨hfile, hcap, hlength, fun {id backing} hopen => ?_, fun s vpn hpage => ?_⟩
  · rw [FileStore.backing?, Std.TreeMap.getElem?_of_isEmpty hbackings] at hopen
    cases hopen
  · obtain ⟨page, hp, -⟩ := Option.bind_eq_some_iff.mp hpage
    have hmem := mem_registered_of_page? (m := m) hp
    rw [hpages] at hmem
    exact List.not_mem_nil hmem

/-- A page of a mapping is written, loses the only frame and is brought back in, or is unmapped: the
byte is read back, and the file has it. -/
theorem mirrored_of_evicted : ∃ m₁ m₂ m₃ m₄ : Machine, ∃ bytes : Bytes,
    ∃ later : List (Visit × Op), m₁.run? later = some m₂ ∧
      (m₂.page? 0 ⟨1⟩).bind Page.frame = none ∧
      (Op.read 0 ⟨pageSize⟩ #[0]).execBy .ascending m₂ = .ok (.buffer bytes none) m₃ ∧
      bytes[0]? = some 0x42 ∧
      m₁.run? (later ++ [(.ascending, .unmap 0 ⟨pageSize⟩)]) = some m₄ ∧
      m₄.files.byte? 0 0 = some 0x42 := by
  generalize hcontent : File.mk #[0x41] 0 none none none none = content
  generalize hlater : [Op.write 0 ⟨pageSize⟩ #[0x42], .alloc 0 ⟨2 * pageSize⟩ true .zero .anon,
    .claim 0 ⟨2 * pageSize⟩].map (Visit.ascending, ·) = later
  have hserved : ((boot 1 (.zeroed 16) (.ofFiles #[content])).run?
      [(.ascending, .create)]).any (fun m =>
        decide (m.registered = [] ∧ m.files.backings.isEmpty = true ∧
          m.files.file? 0 = some content) &&
        (m.answer? .ascending (.map 0 ⟨pageSize⟩ 1 true 0 0)).any fun answer =>
          decide ((m.mappingOf 0 ⟨pageSize⟩ 1 0 0 content).lastWritten answer.2
              (fun _ => none) later pageSize = some 0x42 ∧
            (m.mappingOf 0 ⟨pageSize⟩ 1 0 0 content).lastWritten answer.2 (fun _ => none)
              (later ++ [(.ascending, .unmap 0 ⟨pageSize⟩)]) pageSize = some 0x42) &&
          ((answer.2.run? later).any fun m₂ =>
            decide ((m₂.page? 0 ⟨1⟩).bind Page.frame = none ∧
              (m₂.view [] []).backing 0 ⟨1⟩ = some m.files.nextBacking) &&
            (m₂.read? .ascending 0 ⟨pageSize⟩ #[0] none).isSome) &&
          (answer.2.run? (later ++ [(.ascending, .unmap 0 ⟨pageSize⟩)])).any fun m₄ =>
            decide (m₄.page? 0 ⟨1⟩ = none)) = true := by
    rw [← hlater, ← hcontent]
    decide +kernel
  have hlocal : ∀ request ∈ later ++ [(Visit.ascending, Op.unmap 0 ⟨pageSize⟩)],
      request.2.isLocal = true := by
    rw [← hlater]
    simp [Op.isLocal]
  simp only [Option.any_eq_true, Bool.and_eq_true, decide_eq_true_eq] at hserved
  obtain ⟨m, hrun, ⟨hpages, hbackings, hfile⟩, ⟨reply, m₁⟩, hanswer, ⟨⟨hwritten, hwritten'⟩, m₂,
    hlater₂, ⟨hframe, hbacking⟩, hread⟩, m₄, hlater₄, hgone⟩ := hserved
  obtain ⟨⟨bytes, m₃⟩, hread⟩ := Option.isSome_iff_exists.mp hread
  have hmap := execBy_of_answer? hanswer
  have hmappable := mappable_of_registered hpages hbackings hfile (by rw [← hcontent])
    (by rw [← hcontent])
  obtain ⟨hstart, hmirrored⟩ := mirrored_of_run (by decide) hrun hmappable hmap
    (along_of_forall (fun request hr _ => Op.respects_of_isLocal
      (hlocal request (List.mem_append_left _ hr))) m₁) hlater₂
  obtain ⟨-, hmirrored'⟩ := mirrored_of_run (by decide) hrun hmappable hmap
    (along_of_forall (fun request hr _ => Op.respects_of_isLocal (hlocal request hr)) m₁) hlater₄
  have hmapped : (m.mappingOf 0 ⟨pageSize⟩ 1 0 0 content).mapped = 1 := by
    rw [← hcontent]
    rfl
  have hin : pageSize - (m.mappingOf 0 ⟨pageSize⟩ 1 0 0 content).start <
      (m.mappingOf 0 ⟨pageSize⟩ 1 0 0 content).mapped := by
    rw [hstart, hmapped]
    decide
  have hreply := execBy_of_read? hread
  refine ⟨m₁, m₂, m₃, m₄, bytes, later, hlater₂, hframe, hreply, ?_, hlater₄, ?_⟩
  · exact hmirrored.read hreply 0 (by decide) hbacking 0x42
      (FileMapping.known_of_written hwritten hin)
  · have hsaved := hmirrored'.saved 0 (hmapped.symm ▸ Nat.zero_lt_one)
    rw [hstart] at hsaved
    refine (hsaved ?_).trans (FileMapping.known_of_written hwritten' hin)
    change (m₄.view [] []).backing 0 ⟨1⟩ ≠ _
    rw [View.backing_of_none hgone]
    exact (Option.some_ne_none _).symm

end Machine

end DemandPaging
