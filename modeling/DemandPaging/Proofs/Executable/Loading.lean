import DemandPaging.Proofs.MappedFile.Acceptance

/-! # Loaded segments

A segment of an executable is loaded with all of its pages or not at all. A page is filled from the
file by its first touch if it has bytes of the file, and with zeros otherwise. The file is opened
once if any page needs it.
-/

namespace DemandPaging

open MachineM

/-- The backing that a segment opens, if bytes of it come from the file. -/
def Machine.segmentBacking? (m : Machine) (readBytes : ℕ) : Option BackingId :=
  if readBytes = 0 then none else some m.files.nextBacking

/-- A machine before and after a segment was loaded: the pages are registered, untouched, in places
that were free, the file is open if it is needed, and nothing else changed. -/
structure Machine.GainsSegment (m m' : Machine) (s : SpaceId) (va : VirtAddr) (file : FileId)
    (offset readBytes zeroBytes : ℕ) (writable : Bool) : Prop where
  aligned : va.page.number * pageSize = va.val
  whole : (readBytes + zeroBytes) % pageSize = 0
  inside : va.page.number + (readBytes + zeroBytes) / pageSize ≤ userPages
  free : ∀ i < (readBytes + zeroBytes) / pageSize, m.page? s ⟨va.page.number + i⟩ = none
  page : ∀ i < (readBytes + zeroBytes) / pageSize, m'.page? s ⟨va.page.number + i⟩ =
    some (segmentAt (m.segmentBacking? readBytes) va.page writable offset readBytes i)
  others : ∀ t vpn, (t = s → ∀ i < (readBytes + zeroBytes) / pageSize,
    vpn ≠ ⟨va.page.number + i⟩) → m'.page? t vpn = m.page? t vpn
  entries : m'.entryAt? = m.entryAt?
  userSp : m'.userSp? = m.userSp?
  nextSpace : m'.nextSpace = m.nextSpace
  frames : m'.frames = m.frames
  pool : m'.pool = m.pool
  swap : m'.swap = m.swap
  file_eq : m'.files.file? = m.files.file?
  opened : ∀ id, m.segmentBacking? readBytes = some id →
    ∃ backing, m'.files.backing? id = some backing ∧ backing.file = file
  backings : ∀ id, m.segmentBacking? readBytes ≠ some id →
    m'.files.backing? id = m.files.backing? id

namespace FileStore

variable {store changed : FileStore}

theorem file?_congr (h : changed.files = store.files) : changed.file? = store.file? := by
  funext file
  rw [file?, file?, h]

theorem backing?_foldl_of_none {run : List Page} (hrun : ∀ page ∈ run, page.backing? = none)
    (h : run.foldl (fun files page => page.retainedIn files) store = changed) (id : BackingId) :
    changed.backing? id = store.backing? id := by
  have hcount : (run.countP fun page => page.backing? = some id) = 0 :=
    List.countP_eq_zero.mpr fun page hpage => by simp [hrun page hpage]
  rw [(foldl_retainedIn h).2.2 id, hcount]
  exact Option.map_id'

end FileStore

namespace MachineM

variable {m : Machine} {s : SpaceId} {space : Space} {va : VirtAddr} {file : FileId}
  {offset readBytes zeroBytes : ℕ} {writable : Bool} {sound : Prop}

theorem backing?_segmentAt (backing : Option BackingId) (base : VirtPage) (writable : Bool)
    (offset readBytes i : ℕ) :
    (segmentAt backing base writable offset readBytes i).backing? =
      if bytesOfPage readBytes i = 0 then none else backing := by
  cases backing with
  | none =>
      split <;> rfl
  | some id =>
      simp only [segmentAt, touchOf, Page.backing?, Page.segment?, Page.untouched]
      split <;> rfl

theorem type_segmentAt (backing : Option BackingId) (base : VirtPage) (writable : Bool)
    (offset readBytes i : ℕ) :
    (segmentAt backing base writable offset readBytes i).type = .anon := by
  cases backing with
  | none => rfl
  | some id =>
      simp only [segmentAt, touchOf, Page.type, Page.untouched]
      split <;> rfl

theorem mapping?_segmentAt (backing : Option BackingId) (base : VirtPage) (writable : Bool)
    (offset readBytes i : ℕ) :
    (segmentAt backing base writable offset readBytes i).mapping? = none := by
  rw [Page.mapping?, type_segmentAt]

/-- What the pages of a segment refer to, once they are registered: the file is as it was, and open
if any page needs it. -/
theorem files_of_segment {files released : FileStore} {backing : Option BackingId} {count : ℕ}
    (hcount : readBytes ≠ 0 → 0 < count) (hbacking : backing = m.segmentBacking? readBytes)
    (hopened : backing.elim (files = m.files) fun id =>
      m.files.reopen file va.page count = .ok (id, files))
    (hreleased : released = backing.elim id (fun id files => FileStore.release files id)
      (((List.range count).map (segmentAt backing va.page writable offset readBytes)).foldl
        (fun files page => Page.retainedIn page files) files)) :
    released.file? = m.files.file? ∧
      (∀ id, m.segmentBacking? readBytes = some id →
        ∃ backing, released.backing? id = some backing ∧ backing.file = file) ∧
      ∀ id, m.segmentBacking? readBytes ≠ some id →
        released.backing? id = m.files.backing? id := by
  generalize hrun : (List.range count).map (segmentAt backing va.page writable offset readBytes) =
    run at hreleased
  rw [← hbacking]
  have hpage : ∀ page ∈ run, ∀ own, page.backing? = some own → backing = some own := by
    rw [← hrun]
    intro page hmem own hown
    obtain ⟨i, -, rfl⟩ := List.mem_map.mp hmem
    rw [backing?_segmentAt] at hown
    split at hown
    · cases hown
    · exact hown
  cases backing with
  | none =>
      obtain rfl : files = m.files := hopened
      have hnone : ∀ page ∈ run, page.backing? = none := fun page hmem =>
        Option.eq_none_iff_forall_ne_some.mpr fun own hown => by cases hpage page hmem own hown
      refine ⟨FileStore.file?_congr ?_, ?_, fun id _ => ?_⟩
      · exact hreleased ▸ (FileStore.foldl_retainedIn rfl).1
      · rintro id ⟨⟩
      · exact hreleased ▸ FileStore.backing?_foldl_of_none hnone rfl id
  | some own =>
      have hread : readBytes ≠ 0 := by
        rintro rfl
        cases hbacking
      have hfirst : ∃ page ∈ run, page.backing? = some own := by
        refine ⟨segmentAt (some own) va.page writable offset readBytes 0, ?_, ?_⟩
        · exact hrun ▸ List.mem_map_of_mem (List.mem_range.mpr (hcount hread))
        · rw [backing?_segmentAt, if_neg]
          simp only [bytesOfPage, pageSize]
          omega
      obtain ⟨hfiles, hback⟩ := FileStore.release_foldl_retainedIn hopened
        (fun page hmem id hid => (Option.some.inj (hpage page hmem id hid)).symm) hfirst
      have hfinal : released = FileStore.release
          (run.foldl (fun files page => Page.retainedIn page files) files) own := hreleased
      rw [hfinal]
      refine ⟨(FileStore.file?_congr hfiles).trans (funext fun id => ?_), ?_, ?_⟩
      · exact FileStore.file?_reopen hopened id
      · rintro id ⟨⟩
        exact ⟨_, (hback own).trans (if_pos rfl), rfl⟩
      · intro id hid
        exact (hback id).trans (if_neg fun he => hid (congrArg some he))

/-- A segment that is loaded gets its pages, and one that is refused leaves the machine as it
was. -/
theorem loadExecutable_gains (hlive : sound → (m.view [] []).Live s) (va : VirtAddr)
    (file : FileId) (offset readBytes zeroBytes : ℕ) (writable : Bool) :
    Ends sound (loadExecutable s va file offset readBytes zeroBytes writable) m
      (fun _ m' => m.GainsSegment m' s va file offset readBytes zeroBytes writable)
      fun _ m' => m' = m := by
  refine loadExecutable_of_registration hlive va file offset readBytes zeroBytes writable ?_
  intro space backing files haccepts hspace hfree hread hopened
  have hbacking : backing = m.segmentBacking? readBytes := by
    cases backing with
    | none => exact (if_pos (hread.mp rfl)).symm
    | some id =>
        obtain ⟨rfl, -, -⟩ := FileStore.backing?_reopen hopened
        exact (if_neg fun hzero => Option.some_ne_none _ (hread.mpr hzero)).symm
  have hpos : readBytes ≠ 0 → 0 < (readBytes + zeroBytes) / pageSize := fun hread => by
    have htotal := Nat.div_mul_cancel (Nat.dvd_of_mod_eq_zero haccepts.whole)
    refine Nat.pos_of_ne_zero fun hzero => ?_
    rw [hzero] at htotal
    omega
  obtain ⟨registered, hregistered, hok⟩ := registerRun_eq (m := { m with files }) (s := s)
    hspace hfree fun i _ =>
      (rfl : (segmentAt backing va.page writable offset readBytes i).vpn = _)
  obtain ⟨hown, hothers⟩ := Machine.page?_registered hspace hregistered
  have hview := Machine.view_setPages hspace registered [] []
  have hgains : ∀ released,
      released = backing.elim id (fun id files => FileStore.release files id)
        (((List.range ((readBytes + zeroBytes) / pageSize)).map
          (segmentAt backing va.page writable offset readBytes)).foldl
            (fun files page => Page.retainedIn page files) files) →
      m.GainsSegment { m.setSpace s { space with pages := registered } with
        files := released } s va file offset readBytes zeroBytes writable := by
    intro released hreleased
    obtain ⟨hfiles, hopen, hback⟩ := files_of_segment hpos hbacking hopened hreleased
    refine ⟨haccepts.aligned, haccepts.whole, haccepts.inside, fun i hi => ?_, fun i hi => ?_,
      fun t vpn hout => ?_, congrArg View.entry hview, congrArg View.userSp hview, rfl, rfl, rfl,
      rfl, hfiles, hopen, hback⟩
    · exact (Machine.page?_of_space? hspace _).trans (PageMap.occupied_eq_false_iff.mp hfree i hi)
    · rw [← hbacking]
      exact hown _ (List.mem_map_of_mem (List.mem_range.mpr hi))
    · refine hothers t vpn fun hst page hmem he => ?_
      obtain ⟨i, hi, rfl⟩ := List.mem_map.mp hmem
      exact hout hst i (List.mem_range.mp hi) he.symm
  refine Ends.bind_ok hok ?_
  cases backing with
  | none => exact Ends.pure (hgains _ rfl)
  | some id => exact Ends.of_ok rfl (hgains _ rfl)

end MachineM

end DemandPaging
