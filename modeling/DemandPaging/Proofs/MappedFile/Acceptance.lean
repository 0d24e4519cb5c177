import DemandPaging.Proofs.Handles
import DemandPaging.Proofs.Runs

/-! # Accepted mappings

A request to map a file is accepted if its arguments are sound, its pages are free and its file can
be opened again. It then registers all pages of the mapping and opens the file once, and a request
that is not accepted changes nothing at all.
-/

namespace DemandPaging

/-! ## The bytes of the pages of a run -/

section

variable {total index : ℕ}

theorem bytesOfPage_of_lt (h : index < total / pageSize) : bytesOfPage total index = pageSize := by
  simp only [bytesOfPage, pageSize] at h ⊢
  omega

theorem bytesOfPage_last (total : ℕ) :
    bytesOfPage total (total / pageSize) = total % pageSize := by
  simp only [bytesOfPage, pageSize]
  omega

theorem bytesOfPage_of_gt (h : total / pageSize < index) : bytesOfPage total index = 0 := by
  simp only [bytesOfPage, pageSize] at h ⊢
  omega

theorem sum_bytesOfPage (total count : ℕ) :
    ∑ i ∈ Finset.range count, bytesOfPage total i = min total (count * pageSize) := by
  induction count with
  | zero => simp
  | succ count ih =>
      rw [Finset.sum_range_succ, ih, bytesOfPage, Nat.succ_mul]
      omega

theorem pagesFor_pos {length : ℕ} (h : length ≠ 0) : 0 < pagesFor length := by
  simp only [pagesFor, pageSize]
  omega

theorem le_pagesFor_mul (length : ℕ) : length ≤ pagesFor length * pageSize := by
  simp only [pagesFor, pageSize]
  omega

end

/-! ## Registered runs -/

namespace PageMap

variable {pages registered : PageMap} {run : List Page} {base vpn : VirtPage} {count : ℕ}
  {page : Page}

theorem occupied_eq_false_iff : pages.occupied base count = false ↔
    ∀ i < count, pages[(⟨base.number + i⟩ : VirtPage)]? = none := by
  refine ⟨fun h i hi => getElem?_of_not_contains (contains_of_not_occupied h hi), fun h => ?_⟩
  refine List.any_eq_false.mpr fun vpn hvpn hin => ?_
  simp only [Bool.and_eq_true, decide_eq_true_eq] at hin
  have hfree := h (vpn.number - base.number) (by omega)
  rw [Nat.add_sub_cancel' hin.1] at hfree
  have hmem := Std.TreeMap.contains_iff_mem.mpr (Std.TreeMap.mem_keys.mp hvpn)
  rw [Std.TreeMap.contains_eq_isSome_getElem?, hfree] at hmem
  cases hmem

theorem getElem?_registerAll_of_ne (h : pages.registerAll run = .ok registered)
    (hne : ∀ page ∈ run, page.vpn ≠ vpn) : registered[vpn]? = pages[vpn]? := by
  induction run generalizing pages with
  | nil =>
      obtain rfl : pages = registered := Except.ok.inj h
      rfl
  | cons page run ih =>
      obtain ⟨-, hrest⟩ := exists_of_registerAll_cons h
      refine (ih hrest fun q hq => hne q (by simp [hq])).trans ?_
      rw [Std.TreeMap.getElem?_insert, if_neg]
      simpa [Std.compare_eq_iff_eq] using hne page (by simp)

theorem getElem?_registerAll_of_some (h : pages.registerAll run = .ok registered)
    (hpage : pages[vpn]? = some page) : registered[vpn]? = some page := by
  induction run generalizing pages with
  | nil =>
      obtain rfl : pages = registered := Except.ok.inj h
      exact hpage
  | cons other run ih =>
      obtain ⟨hfree, hrest⟩ := exists_of_registerAll_cons h
      refine ih hrest ?_
      rw [Std.TreeMap.getElem?_insert, if_neg]
      · exact hpage
      · intro he
        have hvpn : other.vpn = vpn := Std.compare_eq_iff_eq.mp he
        rw [← hvpn, getElem?_of_not_contains hfree] at hpage
        cases hpage

theorem getElem?_registerAll_of_mem (h : pages.registerAll run = .ok registered)
    (hmem : page ∈ run) : registered[page.vpn]? = some page := by
  induction run generalizing pages with
  | nil => cases hmem
  | cons other run ih =>
      obtain ⟨-, hrest⟩ := exists_of_registerAll_cons h
      rcases List.mem_cons.mp hmem with rfl | hmem
      · exact getElem?_registerAll_of_some hrest (by simp)
      · exact ih hrest hmem

end PageMap

/-- The pages of a run are where they were registered, and the other places are as they were. -/
theorem Machine.page?_registered {m : Machine} {s : SpaceId} {space : Space} {run : List Page}
    {registered : PageMap} (hspace : m.space? s = some space)
    (hregistered : space.pages.registerAll run = .ok registered) :
    (∀ page ∈ run, Machine.page? (m.setSpace s { space with pages := registered }) s page.vpn =
      some page) ∧
    ∀ t vpn, (t = s → ∀ page ∈ run, page.vpn ≠ vpn) →
      Machine.page? (m.setSpace s { space with pages := registered }) t vpn = m.page? t vpn := by
  have hpage : ∀ t u, Machine.page? (m.setSpace s { space with pages := registered }) t u =
      if s = t then registered[u]? else m.page? t u := fun t u =>
    congrFun (congrFun (congrArg View.page (Machine.view_setPages hspace registered [] [])) t) u
  refine ⟨fun page hmem => ?_, fun t vpn hout => ?_⟩
  · rw [hpage, if_pos rfl]
    exact PageMap.getElem?_registerAll_of_mem hregistered hmem
  · rw [hpage]
    split
    · next hst =>
      subst hst
      rw [Machine.page?_of_space? hspace]
      exact PageMap.getElem?_registerAll_of_ne hregistered (hout rfl)
    · rfl

/-! ## The references of a run -/

namespace FileStore

variable {store : FileStore} {id : BackingId}

theorem files_retain (store : FileStore) (id : BackingId) :
    (store.retain id).files = store.files := by
  unfold retain
  split <;> rfl

theorem files_release_of_lt {backing : Backing} (hid : store.backing? id = some backing)
    (hlt : 1 < backing.refs) : (store.release id).files = store.files := by
  simp only [release, hid, if_neg (Nat.not_le_of_lt hlt)]

/-- The pages of a run take the references that they hold. -/
theorem foldl_retainedIn {run : List Page} {store changed : FileStore}
    (h : run.foldl (fun files page => page.retainedIn files) store = changed) :
    changed.files = store.files ∧ changed.nextBacking = store.nextBacking ∧
      ∀ id, changed.backing? id = (store.backing? id).map fun backing =>
        { backing with refs := backing.refs + run.countP fun page => page.backing? = some id } := by
  induction run generalizing store with
  | nil =>
      subst h
      exact ⟨rfl, rfl, fun id => by simp⟩
  | cons page run ih =>
      rw [List.foldl_cons] at h
      obtain ⟨hfiles, hnext, hback⟩ := ih h
      cases hpage : page.backing? with
      | none =>
          have hsame : page.retainedIn store = store := by rw [Page.retainedIn, hpage]; rfl
          rw [hsame] at hfiles hnext hback
          refine ⟨hfiles, hnext, fun id => ?_⟩
          rw [hback, List.countP_cons_of_neg (by simp [hpage])]
      | some own =>
          have hone : page.retainedIn store = store.retain own := by
            rw [Page.retainedIn, hpage]
            rfl
          rw [hone] at hfiles hnext hback
          refine ⟨hfiles.trans (files_retain store own), hnext.trans (nextBacking_retain store own),
            fun id => ?_⟩
          rw [hback, backing?_retain]
          split
          · next he =>
            subst he
            rw [Option.map_map, List.countP_cons_of_pos (by simp [hpage])]
            refine congrArg (fun f => Option.map f (store.backing? own)) (funext fun backing => ?_)
            simp only [Function.comp_apply, Nat.add_assoc, Nat.add_comm]
          · next hne => rw [List.countP_cons_of_neg (by simp [hpage, hne])]

/-- The pages of a run, if there are any that refer to the backing that was opened for them, are
left with all references to it. -/
theorem release_foldl_retainedIn {store opened : FileStore} {file : FileId} {base : VirtPage}
    {pages : ℕ} (hopen : store.reopen file base pages = .ok (id, opened)) {run : List Page}
    (hrun : ∀ page ∈ run, ∀ own, page.backing? = some own → own = id)
    (hsome : ∃ page ∈ run, page.backing? = some id) :
    ((run.foldl (fun files page => page.retainedIn files) opened).release id).files =
        opened.files ∧
      ∀ other, ((run.foldl (fun files page => page.retainedIn files) opened).release id).backing?
        other = if id = other then
          some ⟨file, base, pages, run.countP fun page => page.backing? = some id⟩
        else store.backing? other := by
  generalize hretained : run.foldl (fun files page => Page.retainedIn page files) opened = retained
  obtain ⟨-, -, hback⟩ := backing?_reopen hopen
  obtain ⟨hfiles, -, hbackRetained⟩ := foldl_retainedIn hretained
  generalize hcount : (run.countP fun page => page.backing? = some id) = count
  have hpos : 0 < count := by
    obtain ⟨page, hpage, hid⟩ := hsome
    exact hcount ▸ List.countP_pos_iff.mpr ⟨page, hpage, decide_eq_true hid⟩
  have hown : retained.backing? id = some ⟨file, base, pages, 1 + count⟩ := by
    rw [hbackRetained, hback, if_pos rfl, hcount]
    rfl
  have hlt : 1 < 1 + count := Nat.lt_add_of_pos_right hpos
  refine ⟨(files_release_of_lt hown hlt).trans hfiles, fun other => ?_⟩
  rw [backing?_release, hown, Option.bind_some, if_neg (Nat.not_le_of_lt hlt),
    Nat.add_sub_cancel_left]
  split
  · rfl
  · next hne =>
    have hnone : (run.countP fun page => page.backing? = some other) = 0 := by
      refine List.countP_eq_zero.mpr fun page hpage he => hne ?_
      exact (hrun page hpage other (of_decide_eq_true he)).symm
    rw [hbackRetained, hback, if_neg hne, hnone]
    exact Option.map_id'

end FileStore

/-! ## Accepted requests -/

/-- What a request to map a file has to ask for. -/
structure Machine.AcceptsMapping (m : Machine) (s : SpaceId) (va : VirtAddr) (length : ℕ)
    (file : FileId) (offset : ℕ) : Prop where
  address_ne : va.val ≠ 0
  address_aligned : va.val % pageSize = 0
  length_ne : length ≠ 0
  offset_aligned : offset % pageSize = 0
  inside : va.val + length ≤ userEnd
  fileLength_ne : m.files.length file ≠ 0
  /-- The part of the file that the pages cover ends at a position that is a word. -/
  range : offset + pagesFor length * pageSize < Word.bound
  free : ∀ i < pagesFor length, m.page? s ⟨va.page.number + i⟩ = none
  reopens : m.files.reopenError? file = none

instance (m : Machine) (s : SpaceId) (va : VirtAddr) (length : ℕ) (file : FileId) (offset : ℕ) :
    Decidable (m.AcceptsMapping s va length file offset) :=
  decidable_of_iff
    (va.val ≠ 0 ∧ va.val % pageSize = 0 ∧ length ≠ 0 ∧ offset % pageSize = 0 ∧
      va.val + length ≤ userEnd ∧ m.files.length file ≠ 0 ∧
      offset + pagesFor length * pageSize < Word.bound ∧
      (∀ i < pagesFor length, m.page? s ⟨va.page.number + i⟩ = none) ∧
      m.files.reopenError? file = none)
    ⟨fun h => ⟨h.1, h.2.1, h.2.2.1, h.2.2.2.1, h.2.2.2.2.1, h.2.2.2.2.2.1, h.2.2.2.2.2.2.1,
        h.2.2.2.2.2.2.2.1, h.2.2.2.2.2.2.2.2⟩,
      fun h => ⟨h.address_ne, h.address_aligned, h.length_ne, h.offset_aligned, h.inside,
        h.fileLength_ne, h.range, h.free, h.reopens⟩⟩

/-- How many bytes of a file a mapping shows. -/
def Machine.mappedBytes (m : Machine) (file : FileId) (length offset : ℕ) : ℕ :=
  min length (m.files.length file - offset)

/-- A machine before and after a file was mapped: the pages are registered, untouched, each with its
own part of the file, the file has one more handle for all of them, and nothing else changed. -/
structure Machine.GainsMapping (m m' : Machine) (s : SpaceId) (va : VirtAddr) (length : ℕ)
    (writable : Bool) (file : FileId) (offset : ℕ) (segment : ℕ → Segment) : Prop where
  page : ∀ i < pagesFor length, m'.page? s ⟨va.page.number + i⟩ =
    some (.untouched ⟨va.page.number + i⟩ writable (.share (segment i)))
  backing : ∀ i, (segment i).backing = m.files.nextBacking
  start : ∀ i, (segment i).offset = offset + i * pageSize
  full : ∀ i < m.mappedBytes file length offset / pageSize, (segment i).readBytes = pageSize
  last : (segment (m.mappedBytes file length offset / pageSize)).readBytes =
    m.mappedBytes file length offset % pageSize
  beyond : ∀ i > m.mappedBytes file length offset / pageSize, (segment i).readBytes = 0
  sum : ∑ i ∈ Finset.range (pagesFor length), (segment i).readBytes =
    m.mappedBytes file length offset
  others : ∀ t vpn, (t = s → ∀ i < pagesFor length, vpn ≠ ⟨va.page.number + i⟩) →
    m'.page? t vpn = m.page? t vpn
  entries : m'.entryAt? = m.entryAt?
  userSp : m'.userSp? = m.userSp?
  nextSpace : m'.nextSpace = m.nextSpace
  frames : m'.frames = m.frames
  pool : m'.pool = m.pool
  swap : m'.swap = m.swap
  files : m'.files.files = m.files.files.modify file File.openHandle
  /-- The pages share one backing, which counts them. -/
  shared : ∀ id, m'.files.backing? id = if m.files.nextBacking = id then
    some ⟨file, va.page, pagesFor length, pagesFor length⟩ else m.files.backing? id

namespace FileStore

variable {store changed : FileStore} {file : FileId} {base : VirtPage} {pages : ℕ}

theorem reopen_eq_error {e : Errno} (h : store.reopenError? file = some e) (base : VirtPage)
    (pages : ℕ) : store.reopen file base pages = .error e := by
  simp only [reopen, h]

theorem exists_reopen (h : store.reopenError? file = none) (base : VirtPage) (pages : ℕ) :
    ∃ changed, store.reopen file base pages = .ok (store.nextBacking, changed) ∧
      changed.files = store.files.modify file File.openHandle := by
  obtain ⟨changed, hchanged⟩ : ∃ changed, changed = { store.modifyFile file File.openHandle with
      backings := store.backings.insert store.nextBacking ⟨file, base, pages, 1⟩
      nextBacking := store.nextBacking + 1 } := ⟨_, rfl⟩
  refine ⟨changed, ?_, by rw [hchanged]; rfl⟩
  simp only [reopen, h, hchanged]
  rfl

theorem length_modify_openHandle
    (hfiles : changed.files = store.files.modify file File.openHandle) :
    changed.length file = store.length file := by
  simp only [length, hfiles, Array.getElem?_modify, if_true]
  cases store.files[file]? <;> rfl

end FileStore

namespace MachineM

variable {m : Machine} {s : SpaceId} {space : Space} {va : VirtAddr} {length offset : ℕ}
  {writable : Bool} {file : FileId}

theorem requireUnoccupied_of_free {base : VirtPage} {count : ℕ} (hspace : m.space? s = some space)
    (h : space.pages.occupied base count = false) :
    requireUnoccupied s base count m = .ok () m := by
  unfold requireUnoccupied
  rw [bind_of_ok (space_of_some hspace), h]
  rfl

theorem requireUnoccupied_of_occupied {base : VirtPage} {count : ℕ}
    (hspace : m.space? s = some space) (h : ¬space.pages.occupied base count = false) :
    requireUnoccupied s base count m = .error (.failed .alreadyExists) m := by
  unfold requireUnoccupied
  rw [bind_of_ok (space_of_some hspace), Bool.not_eq_false _ |>.mp h]
  rfl

theorem get_ok (m : Machine) : (get : MachineM Machine) m = .ok m m := rfl

/-- The pages of a run are registered, and hold all references to a backing that was opened for
them. -/
theorem gainsMapping_of_registered {files : FileStore} {registered : PageMap} {run : List Page}
    (hrun : run = (List.range (pagesFor length)).map (mappedAt m.files.nextBacking va.page writable
      offset (m.mappedBytes file length offset)))
    (hspace : m.space? s = some space) (hlength : length ≠ 0)
    (hopen : m.files.reopen file va.page (pagesFor length) = .ok (m.files.nextBacking, files))
    (hfiles : files.files = m.files.files.modify file File.openHandle)
    (hregistered : space.pages.registerAll run = .ok registered) (events : Array Event) :
    m.GainsMapping { m.setSpace s { space with pages := registered } with
        files := (run.foldl (fun files page => page.retainedIn files) files).release
          m.files.nextBacking
        events } s va length writable file offset
      (segmentOf m.files.nextBacking offset (m.mappedBytes file length offset)) := by
  have hbacking : ∀ page ∈ run, page.backing? = some m.files.nextBacking := by
    rw [hrun]
    intro page hpage
    obtain ⟨i, -, rfl⟩ := List.mem_map.mp hpage
    rfl
  have hlength' : run.length = pagesFor length := by simp [hrun]
  have hcount : (run.countP fun page => page.backing? = some m.files.nextBacking) =
      pagesFor length :=
    (List.countP_eq_length.mpr fun page hpage => decide_eq_true (hbacking page hpage)).trans
      hlength'
  obtain ⟨first, hfirst⟩ := List.exists_mem_of_length_pos (hlength' ▸ pagesFor_pos hlength)
  obtain ⟨hleft, hshared⟩ := FileStore.release_foldl_retainedIn hopen
    (fun page hpage own hown => Option.some.inj (hown.symm.trans (hbacking page hpage)))
    ⟨first, hfirst, hbacking first hfirst⟩
  rw [hcount] at hshared
  obtain ⟨hown, hothers⟩ := Machine.page?_registered hspace hregistered
  have hview := Machine.view_setPages hspace registered [] []
  refine ⟨fun i hi => ?_, fun _ => rfl, fun _ => rfl, fun i hi => bytesOfPage_of_lt hi,
    bytesOfPage_last _, fun i hi => bytesOfPage_of_gt hi, ?_, fun t vpn hout => ?_,
    congrArg View.entry hview, congrArg View.userSp hview, rfl, rfl, rfl, rfl,
    hleft.trans hfiles, hshared⟩
  · refine hown (mappedAt m.files.nextBacking va.page writable offset
      (m.mappedBytes file length offset) i) ?_
    rw [hrun]
    exact List.mem_map_of_mem (List.mem_range.mpr hi)
  · refine (sum_bytesOfPage _ _).trans (min_eq_left ?_)
    exact (min_le_left _ _).trans (le_pagesFor_mul length)
  · refine hothers t vpn fun hst page hpage he => ?_
    rw [hrun] at hpage
    obtain ⟨i, hi, rfl⟩ := List.mem_map.mp hpage
    exact hout hst i (List.mem_range.mp hi) he.symm

/-- A request that is accepted maps the file. -/
theorem mapFile_of_accepts (hspace : m.space? s = some space)
    (h : m.AcceptsMapping s va length file offset) (writable : Bool) :
    ∃ m', mapFile s va length writable file offset m = .ok va m' ∧
      m.GainsMapping m' s va length writable file offset
        (segmentOf m.files.nextBacking offset (m.mappedBytes file length offset)) := by
  have hargs : (va.val != 0 && va.isAligned && length != 0 && offset % pageSize == 0) = true := by
    simp [h.address_ne, h.address_aligned, h.length_ne, h.offset_aligned, VirtAddr.isAligned,
      VirtAddr.offset]
  have haligned : va.isAligned = true := decide_eq_true h.address_aligned
  have hin := add_pagesFor_le haligned h.inside
  have hrange : (Word.add? offset (pagesFor length * pageSize)).isSome = true := by
    rw [Word.add?_of_lt h.range]
    rfl
  have hfree : space.pages.occupied va.page (pagesFor length) = false :=
    PageMap.occupied_eq_false_iff.mpr fun i hi =>
      (Machine.page?_of_space? hspace _).symm.trans (h.free i hi)
  obtain ⟨files, hopen, hfiles⟩ := FileStore.exists_reopen h.reopens va.page (pagesFor length)
  obtain ⟨-, -, hback⟩ := FileStore.backing?_reopen hopen
  have hmapped : min length (files.backingLength m.files.nextBacking - offset) =
      m.mappedBytes file length offset := by
    rw [FileStore.backingLength, hback, if_pos rfl, Option.elim_some,
      FileStore.length_modify_openHandle hfiles]
    rfl
  have hbuilt : ∀ i < pagesFor length, (mappedAt m.files.nextBacking va.page writable offset
      (m.mappedBytes file length offset) i).vpn = ⟨va.page.number + i⟩ := fun _ _ => rfl
  obtain ⟨registered, hregistered, hok⟩ :=
    registerRun_eq (m := { m with files }) (s := s) hspace hfree hbuilt
  refine ⟨_, ?_, gainsMapping_of_registered rfl hspace h.length_ne hopen hfiles hregistered
    (m.events.push (.mapped va (pagesFor length) offset))⟩
  unfold mapFile
  rw [bind_of_ok (require_of_true hargs m),
    bind_of_ok (require_of_true (decide_eq_true h.inside) m), bind_of_ok (get_ok m),
    bind_of_ok (require_of_true (bne_iff_ne.mpr h.fileLength_ne) m),
    bind_of_ok (checked_ok (pagesFor_mul_lt hin) m), bind_of_ok (require_of_true hrange m),
    bind_of_ok (requireUnoccupied_of_free hspace hfree), bind_of_ok (reopen_of_ok hopen),
    bind_of_ok (get_ok _), hmapped,
    bind_of_ok (ofExcept_of_ok (mappedPages_ok hin h.range _ writable _) _), bind_of_ok hok]
  rfl

/-- Any other request fails and changes nothing. -/
theorem mapFile_of_not_accepts (hspace : m.space? s = some space)
    (h : ¬m.AcceptsMapping s va length file offset) (writable : Bool) :
    ∃ e, mapFile s va length writable file offset m = .error (.failed e) m := by
  unfold mapFile
  by_cases hargs : (va.val != 0 && va.isAligned && length != 0 && offset % pageSize == 0) = true
  swap
  · exact ⟨_, bind_of_error (require_of_not hargs m)⟩
  rw [bind_of_ok (require_of_true hargs m)]
  by_cases hend : decide (va.val + length ≤ userEnd) = true
  swap
  · exact ⟨_, bind_of_error (require_of_not hend m)⟩
  rw [bind_of_ok (require_of_true hend m), bind_of_ok (get_ok m)]
  by_cases hfile : (m.files.length file != 0) = true
  swap
  · exact ⟨_, bind_of_error (require_of_not hfile m)⟩
  rw [bind_of_ok (require_of_true hfile m)]
  simp only [Bool.and_eq_true, decide_eq_true_eq, bne_iff_ne, beq_iff_eq] at hargs hend hfile
  rw [bind_of_ok (checked_ok (pagesFor_mul_lt (add_pagesFor_le hargs.1.1.2 hend)) m)]
  by_cases hrange : (Word.add? offset (pagesFor length * pageSize)).isSome = true
  swap
  · exact ⟨_, bind_of_error (require_of_not hrange m)⟩
  rw [bind_of_ok (require_of_true hrange m)]
  by_cases hfree : space.pages.occupied va.page (pagesFor length) = false
  swap
  · exact ⟨_, bind_of_error (requireUnoccupied_of_occupied hspace hfree)⟩
  rw [bind_of_ok (requireUnoccupied_of_free hspace hfree)]
  cases hreopens : m.files.reopenError? file with
  | some e =>
      exact ⟨e, bind_of_error (reopen_of_error
        (FileStore.reopen_eq_error hreopens va.page (pagesFor length)))⟩
  | none =>
      refine (h ⟨hargs.1.1.1, of_decide_eq_true hargs.1.1.2, hargs.1.2, hargs.2, hend, hfile, ?_,
        fun i hi => ?_, hreopens⟩).elim
      · by_contra hle
        rw [Word.add?_eq_none.mpr (Nat.le_of_not_lt hle)] at hrange
        cases hrange
      · exact (Machine.page?_of_space? hspace _).trans
          (PageMap.occupied_eq_false_iff.mp hfree i hi)

/-- A request that maps a file was accepted, or the machine stays as it was. -/
theorem mapFile_gains (s : SpaceId) (va : VirtAddr) (length : ℕ) (writable : Bool) (file : FileId)
    (offset : ℕ) (m : Machine) :
    Ends False (mapFile s va length writable file offset) m
      (fun _ m' => m.AcceptsMapping s va length file offset ∧
        ∃ segment, m.GainsMapping m' s va length writable file offset segment)
      fun _ m' => m' = m := by
  have hmade := mapFile_made (m := m) (s := s) False.elim va length writable file offset
  cases hresult : mapFile s va length writable file offset m with
  | ok a m' =>
      obtain ⟨space, hspace⟩ := Machine.exists_space_of_live (hmade.ok_of_eq hresult).1
      by_cases haccepts : m.AcceptsMapping s va length file offset
      · obtain ⟨m₁, hok, hgains⟩ := mapFile_of_accepts hspace haccepts writable
        obtain ⟨-, rfl⟩ := EStateM.Result.ok.inj (hok.symm.trans hresult)
        exact Ends.of_ok hresult ⟨haccepts, _, hgains⟩
      · obtain ⟨e, hfailed⟩ := mapFile_of_not_accepts hspace haccepts writable
        cases hfailed.symm.trans hresult
  | error stop m' =>
      cases stop with
      | failed e => exact Ends.of_failed hresult (hmade.failed_of_eq hresult)
      | panicked p => exact Ends.of_panicked hresult False.elim

end MachineM

namespace Machine

/-- A mapping is made as a whole exactly if it is accepted, and otherwise the machine stays as it
was. -/
theorem mapping_all_or_nothing {m : Machine} {s : SpaceId} {space : Space}
    (hspace : m.space? s = some space) (visit : Visit) (va : VirtAddr) (length : ℕ)
    (writable : Bool) (file : FileId) (offset : ℕ) :
    (m.AcceptsMapping s va length file offset ↔ ∃ reply m',
      (Op.map s va length writable file offset).execBy visit m = .ok reply m') ∧
    (∀ reply m', (Op.map s va length writable file offset).execBy visit m = .ok reply m' →
      reply = .address va.val ∧
        ∃ segment, m.GainsMapping m' s va length writable file offset segment) ∧
    (¬m.AcceptsMapping s va length file offset → ∃ e,
      (Op.map s va length writable file offset).execBy visit m = .error (.failed e) m) := by
  by_cases haccepts : m.AcceptsMapping s va length file offset
  · obtain ⟨m', hok, hgains⟩ := MachineM.mapFile_of_accepts hspace haccepts writable
    have hexec : (Op.map s va length writable file offset).execBy visit m =
        .ok (.address va.val) m' := MachineM.bind_of_ok hok
    refine ⟨⟨fun _ => ⟨_, _, hexec⟩, fun _ => haccepts⟩, fun reply m'' hother => ?_,
      fun hnot => (hnot haccepts).elim⟩
    rw [hexec] at hother
    cases hother
    exact ⟨rfl, _, hgains⟩
  · obtain ⟨e, hfailed⟩ := MachineM.mapFile_of_not_accepts hspace haccepts writable
    have hexec : (Op.map s va length writable file offset).execBy visit m =
        .error (.failed e) m := MachineM.bind_of_error hfailed
    refine ⟨⟨fun h => (haccepts h).elim, ?_⟩, fun reply m' hok => ?_, fun _ => ⟨e, hexec⟩⟩
    · rintro ⟨reply, m', hok⟩
      rw [hexec] at hok
      cases hok
    · rw [hexec] at hok
      cases hok

/-- A file of one byte is mapped to two pages, and no mapping may overlap them. -/
theorem mapping_all_or_nothing_twice : ∃ m m' : Machine, ∃ segment : ℕ → Segment, ∃ e : Errno,
    (Op.map 0 ⟨pageSize⟩ (pageSize + 1) true 0 0).execBy .ascending m =
      .ok (.address pageSize) m' ∧
    m.GainsMapping m' 0 ⟨pageSize⟩ (pageSize + 1) true 0 0 segment ∧
    (Op.map 0 ⟨2 * pageSize⟩ 1 true 0 0).execBy .ascending m' = .error (.failed e) m' := by
  generalize hcontent : File.mk #[0x41] 1 none none none none = content
  have hserved : ((boot 1 (.zeroed 16) (.ofFiles #[content])).run?
      [(.ascending, .create)]).any (fun m => (m.space? 0).isSome &&
        decide (m.AcceptsMapping 0 ⟨pageSize⟩ (pageSize + 1) 0 0) &&
        (m.answer? .ascending (.map 0 ⟨pageSize⟩ (pageSize + 1) true 0 0)).any fun answer =>
          (answer.2.space? 0).isSome &&
            decide ¬answer.2.AcceptsMapping 0 ⟨2 * pageSize⟩ 1 0 0) = true := by
    rw [← hcontent]
    decide +kernel
  simp only [Option.any_eq_true, Bool.and_eq_true, decide_eq_true_eq,
    Option.isSome_iff_exists] at hserved
  obtain ⟨m, -, ⟨⟨space, hspace⟩, -⟩, ⟨reply, m'⟩, hanswer, ⟨space', hspace'⟩, hnot⟩ := hserved
  have hexec := execBy_of_answer? hanswer
  obtain ⟨rfl, segment, hgains⟩ := (mapping_all_or_nothing hspace .ascending ⟨pageSize⟩
    (pageSize + 1) true 0 0).2.1 reply m' hexec
  obtain ⟨e, hrefused⟩ := (mapping_all_or_nothing hspace' .ascending ⟨2 * pageSize⟩ 1 true 0 0).2.2
    hnot
  exact ⟨m, m', segment, e, hexec, hgains, hrefused⟩

end Machine

end DemandPaging
