import DemandPaging.Machine.Mapping
import DemandPaging.Proofs.UserCopy

/-! # Mappings and segments

The pages of a mapping are registered all together or not at all, and a request that is refused
leaves the machine as it was. No sum or product on the way exceeds a word.
-/

namespace DemandPaging

/-! ## Free ranges -/

namespace PageMap

variable {pages : PageMap} {run : List Page} {base : VirtPage} {count : ℕ}

theorem contains_of_not_occupied (h : pages.occupied base count = false) {i : ℕ} (hi : i < count) :
    pages.contains ⟨base.number + i⟩ = false := by
  by_contra hne
  have hmem : (⟨base.number + i⟩ : VirtPage) ∈ pages.keys := by
    rw [Std.TreeMap.mem_keys, ← Std.TreeMap.contains_iff_mem]
    simpa using hne
  have hall := List.any_eq_false.mp h _ hmem
  simp only [Bool.and_eq_true, decide_eq_true_eq] at hall
  exact hall ⟨Nat.le_add_right _ _, Nat.add_lt_add_left hi _⟩

/-- Pages with numbers of their own are all registered where no page is. -/
theorem registerAll_ok (hfree : ∀ page ∈ run, pages.contains page.vpn = false)
    (hnodup : (run.map Page.vpn).Nodup) : ∃ registered, pages.registerAll run = .ok registered := by
  induction run generalizing pages with
  | nil => exact ⟨pages, rfl⟩
  | cons page run ih =>
      rw [List.map_cons, List.nodup_cons] at hnodup
      have hone : pages.register page = .ok (pages.insert page.vpn page) :=
        PageMap.register_eq_ok.mpr ⟨hfree page (by simp), rfl⟩
      have hrest : ∀ q ∈ run, Std.TreeMap.contains (pages.insert page.vpn page) q.vpn = false := by
        intro q hq
        have hne : page.vpn ≠ q.vpn := fun he => hnodup.1 (he ▸ List.mem_map_of_mem hq)
        rw [Std.TreeMap.contains_insert, hfree q (by simp [hq]), Bool.or_false]
        simpa [Std.compare_eq_iff_eq] using hne
      obtain ⟨registered, hregistered⟩ := ih hrest hnodup.2
      refine ⟨registered, ?_⟩
      change (pages.register page >>= fun pages => PageMap.registerAll pages run) = _
      rw [hone]
      exact hregistered

end PageMap

theorem mapM_eq_ok {f : ℕ → Except Panic Page} {g : ℕ → Page} {list : List ℕ}
    (h : ∀ i ∈ list, f i = .ok (g i)) : list.mapM f = .ok (list.map g) := by
  induction list with
  | nil => rfl
  | cons i list ih =>
      rw [List.mapM_cons, h i (by simp), ih fun j hj => h j (by simp [hj])]
      rfl

namespace MachineM

variable {m : Machine} {s : SpaceId} {pins : List BackingId} {sound : Prop} {α : Type}

/-! ## Steps on the way -/

theorem require_of_true {sought : Bool} (h : sought = true) (m : Machine) :
    require sought m = .ok () m := by
  rw [h]
  rfl

theorem require_of_not {sought : Bool} (h : ¬sought = true) (m : Machine) :
    require sought m = .error (.failed .invalidArgument) m := by
  rw [Bool.eq_false_iff.mpr h]
  rfl

theorem require_ends {next : Unit → MachineM α} {sought : Bool} {ok : α → Machine → Prop}
    {failed : Errno → Machine → Prop} (hrefused : failed .invalidArgument m)
    (hnext : sought = true → Ends sound (next ()) m ok failed) :
    Ends sound (require sought >>= next) m ok failed := by
  by_cases h : sought = true
  · exact Ends.bind_ok (require_of_true h m) (hnext h)
  · exact Ends.bind_failed (require_of_not h m) hrefused

theorem requireUnoccupied_ends (hlive : sound → (m.view [] pins).Live s) (base : VirtPage)
    (count : ℕ) :
    Ends sound (requireUnoccupied s base count) m
      (fun _ m' => m' = m ∧ ∃ space, m.space? s = some space ∧
        space.pages.occupied base count = false)
      fun _ m' => m' = m := by
  unfold requireUnoccupied
  refine Ends.space hlive fun space hspace => ?_
  split
  · exact Ends.fail rfl
  · next hfree => exact Ends.pure ⟨rfl, space, hspace, by simpa using hfree⟩

theorem reopen_of_ok {file : FileId} {base : VirtPage} {pages : ℕ} {id : BackingId}
    {files : FileStore} (h : m.files.reopen file base pages = .ok (id, files)) :
    reopen file base pages m = .ok id { m with files } := by
  simp only [reopen, get, getThe, MonadStateOf.get, Bind.bind, EStateM.bind, EStateM.get, h]
  rfl

theorem reopen_of_error {file : FileId} {base : VirtPage} {pages : ℕ} {e : Errno}
    (h : m.files.reopen file base pages = .error e) :
    reopen file base pages m = .error (.failed e) m := by
  simp only [reopen, get, getThe, MonadStateOf.get, Bind.bind, EStateM.bind, EStateM.get, h]
  rfl

theorem reopen_ends (file : FileId) (base : VirtPage) (pages : ℕ) (m : Machine) :
    Ends sound (reopen file base pages) m
      (fun id m' => ∃ files, m.files.reopen file base pages = .ok (id, files) ∧
        m' = { m with files })
      fun _ m' => m' = m := by
  cases hopen : m.files.reopen file base pages with
  | error e => exact Ends.of_failed (reopen_of_error hopen) rfl
  | ok opened => exact Ends.of_ok (reopen_of_ok hopen) ⟨opened.2, rfl, rfl⟩

theorem ofExcept_of_ok {value : Except Panic α} {a : α} (h : value = .ok a) (m : Machine) :
    ofExcept value m = .ok a m := by
  rw [h]
  rfl

theorem checked_ok {a b : ℕ} (h : a * b < Word.bound) (m : Machine) :
    (liftM (checked (Word.mul? a b)) : MachineM ℕ) m = .ok (a * b) m := by
  rw [Word.mul?_of_lt h]
  rfl

/-- The pages of a run are registered if their places are free. -/
theorem registerRun_eq {space : Space} {base : VirtPage} {count : ℕ} {build : ℕ → Page}
    (hspace : m.space? s = some space) (hfree : space.pages.occupied base count = false)
    (hvpn : ∀ i < count, (build i).vpn = ⟨base.number + i⟩) :
    ∃ registered, space.pages.registerAll ((List.range count).map build) = .ok registered ∧
      registerAll s ((List.range count).map build) m = .ok () (({ m with
        files := ((List.range count).map build).foldl
          (fun files page => Page.retainedIn page files) m.files }).setSpace s
            { space with pages := registered }) := by
  have hcontains : ∀ page ∈ (List.range count).map build,
      space.pages.contains page.vpn = false := by
    intro page hpage
    obtain ⟨i, hi, rfl⟩ := List.mem_map.mp hpage
    rw [hvpn i (List.mem_range.mp hi)]
    exact PageMap.contains_of_not_occupied hfree (List.mem_range.mp hi)
  have hnodup : (((List.range count).map build).map Page.vpn).Nodup := by
    rw [List.map_map]
    refine List.Nodup.map_on (fun i hi j hj he => ?_) List.nodup_range
    simp only [Function.comp_apply, hvpn i (List.mem_range.mp hi), hvpn j (List.mem_range.mp hj),
      VirtPage.mk.injEq] at he
    exact Nat.add_left_cancel he
  obtain ⟨registered, hregistered⟩ := PageMap.registerAll_ok hcontains hnodup
  refine ⟨registered, hregistered, ?_⟩
  simp only [registerAll, Bind.bind, EStateM.bind, space_of_some hspace, hregistered, ofResult,
    pure, EStateM.pure, forM_retainPage]
  rfl

/-- Pages that a request has built are registered if their places are free. -/
theorem registerRun_ok {space : Space} {base : VirtPage} {count : ℕ} {build : ℕ → Page}
    (hspace : m.space? s = some space) (hfree : space.pages.occupied base count = false)
    (hvpn : ∀ i < count, (build i).vpn = ⟨base.number + i⟩)
    (hbuild : ∀ i < count, Registrable pins (build i)) :
    ∃ m', registerAll s ((List.range count).map build) m = .ok () m' ∧
      Steps (Deed.registeringRun s ((List.range count).map build)) (m.view [] pins)
        (m'.view [] pins) := by
  have hrun : ∀ page ∈ (List.range count).map build, Registrable pins page := by
    intro page hpage
    obtain ⟨i, hi, rfl⟩ := List.mem_map.mp hpage
    exact hbuild i (List.mem_range.mp hi)
  obtain ⟨registered, -, hok⟩ := registerRun_eq hspace hfree hvpn
  have hlive : (m.view [] pins).Live s := Machine.live_of_space? hspace
  have hends := registerAll_ends (fun _ : True => hlive) hrun
  exact ⟨_, hok, hends.ok_of_eq hok⟩

/-! ## Pages of a run -/

theorem bytesOfPage_le (total index : ℕ) : bytesOfPage total index ≤ pageSize :=
  min_le_right _ _

def segmentOf (backing : BackingId) (offset total index : ℕ) : Segment :=
  ⟨backing, offset + index * pageSize, bytesOfPage total index, bytesOfPage_le total index⟩

theorem runSegment_ok {offset index : ℕ} (h : offset + index * pageSize < Word.bound)
    (backing : BackingId) (total : ℕ) :
    runSegment backing offset (bytesOfPage total index) index =
      .ok (segmentOf backing offset total index) := by
  have hstart : index * pageSize < Word.bound := lt_of_le_of_lt (Nat.le_add_left _ _) h
  simp only [runSegment, Word.mul?_of_lt hstart, Word.add?_of_lt h, checked_some, Bind.bind,
    Except.bind, Segment.make, dif_pos (bytesOfPage_le total index)]
  rfl

theorem pageAfter_ok {base : VirtPage} {index : ℕ} (h : base.number + index < userPages) :
    checked (base.add? index) = .ok ⟨base.number + index⟩ := by
  have hlt : base.number + index < Word.bound := lt_of_lt_of_le h (by decide)
  simp only [VirtPage.add?, Word.add?_of_lt hlt, Option.map_some, checked_some]

def mappedAt (backing : BackingId) (base : VirtPage) (writable : Bool) (offset mapped index : ℕ) :
    Page :=
  .untouched ⟨base.number + index⟩ writable (.share (segmentOf backing offset mapped index))

theorem mappedPage_ok {base : VirtPage} {offset index : ℕ}
    (h : offset + index * pageSize < Word.bound) (hin : base.number + index < userPages)
    (backing : BackingId) (writable : Bool) (mapped : ℕ) :
    mappedPage backing base writable offset mapped index =
      .ok (mappedAt backing base writable offset mapped index) := by
  simp only [mappedPage, runSegment_ok h, pageAfter_ok hin, Bind.bind, Except.bind]
  rfl

/-- What the first touch of a page of a segment does. -/
def touchOf (backing : Option BackingId) (offset readBytes index : ℕ) : FirstTouch :=
  match backing with
  | none => .zero
  | some backing =>
    if bytesOfPage readBytes index = 0 then .zero
    else .copy (segmentOf backing offset readBytes index)

def segmentAt (backing : Option BackingId) (base : VirtPage) (writable : Bool)
    (offset readBytes index : ℕ) : Page :=
  .untouched ⟨base.number + index⟩ writable (touchOf backing offset readBytes index)

theorem segmentPage_ok {base : VirtPage} {offset index : ℕ}
    (h : offset + index * pageSize < Word.bound) (hin : base.number + index < userPages)
    (backing : Option BackingId) (writable : Bool) (readBytes : ℕ) :
    segmentPage backing base writable offset readBytes index =
      .ok (segmentAt backing base writable offset readBytes index) := by
  have htouch : segmentTouch backing offset readBytes index =
      .ok (touchOf backing offset readBytes index) := by
    cases backing with
    | none => rfl
    | some backing =>
        simp only [segmentTouch, touchOf]
        split
        · rfl
        · simp only [runSegment_ok h, Bind.bind, Except.bind]
          rfl
  simp only [segmentPage, htouch, pageAfter_ok hin, Bind.bind, Except.bind]
  rfl

/-! ## Mapping a file -/

theorem page_number_of_isAligned {va : VirtAddr} (h : va.isAligned = true) :
    va.page.number * pageSize = va.val := by
  have hoffset : va.offset = 0 := by simpa [VirtAddr.isAligned] using h
  have hsum := va.page_mul_add_offset
  rwa [hoffset, Nat.add_zero] at hsum

section

variable {va : VirtAddr} {length offset : ℕ}

theorem add_pagesFor_le (haligned : va.isAligned = true) (hend : va.val + length ≤ userEnd) :
    va.page.number + pagesFor length ≤ userPages := by
  have hbase := page_number_of_isAligned haligned
  simp only [pagesFor, userPages, userEnd, pageSize] at hbase hend ⊢
  omega

theorem pagesFor_mul_lt (hinside : va.page.number + pagesFor length ≤ userPages) :
    pagesFor length * pageSize < Word.bound := by
  simp only [userPages, userEnd, pageSize, Word.bound] at hinside ⊢
  omega

theorem mappedPages_ok (hinside : va.page.number + pagesFor length ≤ userPages)
    (hsum : offset + pagesFor length * pageSize < Word.bound) (backing : BackingId)
    (writable : Bool) (mapped : ℕ) :
    (List.range (pagesFor length)).mapM (mappedPage backing va.page writable offset mapped) =
      .ok ((List.range (pagesFor length)).map
        (mappedAt backing va.page writable offset mapped)) := by
  refine mapM_eq_ok fun i hi => ?_
  have hlt := List.mem_range.mp hi
  refine mappedPage_ok (lt_of_le_of_lt ?_ hsum) (lt_of_lt_of_le (Nat.add_lt_add_left hlt _) hinside)
    backing writable mapped
  exact Nat.add_le_add_left (Nat.mul_le_mul_right pageSize (Nat.le_of_lt hlt)) _

end

/-- What a mapping leads to: its file is open as the backing `id`, and its pages are registered. -/
structure MadeMapping (m m' : Machine) (s : SpaceId) (va : VirtAddr) (length : ℕ) (writable : Bool)
    (file : FileId) (offset : ℕ) (id : BackingId) (files : FileStore) : Prop where
  aligned : va.page.number * pageSize = va.val
  inside : va.page.number + pagesFor length ≤ userPages
  opened : m.files.reopen file va.page (pagesFor length) = .ok (id, files)
  registered : ∃ U, Steps (Deed.registeringRun s ((List.range (pagesFor length)).map
    (mappedAt id va.page writable offset (min length (files.backingLength id - offset)))))
    (Machine.view { m with files } [] [id]) U ∧ Step (.unpin id) U (m'.view [] [])

theorem MadeMapping.steps {m' : Machine} {va : VirtAddr} {length : ℕ} {writable : Bool}
    {file : FileId} {offset : ℕ} {id : BackingId} {files : FileStore}
    (h : MadeMapping m m' s va length writable file offset id files) :
    Steps (Deed.mapping s file) (m.view [] []) (m'.view [] []) := by
  obtain ⟨U, hsteps, hunpin⟩ := h.registered
  have hpin : Step (.pin file) (m.view [] []) (Machine.view { m with files } [] [id]) :=
    Step.pin h.inside h.opened
  have hfirst : Steps (Deed.mapping s file) (m.view [] [])
      (Machine.view { m with files } [] [id]) := Steps.single hpin (.inr (.inl rfl))
  refine (hfirst.trans (hsteps.mono fun d hd => ?_)).tail hunpin (.inr (.inr ⟨id, rfl⟩))
  exact .inl (Deed.registeringRun_subset s _ hd)

/-- A mapping registers its pages, or it is refused and nothing has changed. -/
theorem mapFile_made (hlive : sound → (m.view [] []).Live s) (va : VirtAddr) (length : ℕ)
    (writable : Bool) (file : FileId) (offset : ℕ) :
    Ends sound (mapFile s va length writable file offset) m
      (fun _ m' => (m.view [] []).Live s ∧
        ∃ id files, MadeMapping m m' s va length writable file offset id files)
      fun _ m' => m' = m := by
  unfold mapFile
  refine require_ends rfl fun hargs => require_ends rfl fun hend => ?_
  refine Ends.bind_ok rfl (require_ends rfl fun _ => ?_)
  simp only [Bool.and_eq_true, decide_eq_true_eq] at hargs hend
  have hin := add_pagesFor_le hargs.1.1.2 hend
  refine Ends.bind_ok (checked_ok (pagesFor_mul_lt hin) m) (require_ends rfl fun hsum => ?_)
  have hsum : offset + pagesFor length * pageSize < Word.bound := by
    by_contra hle
    rw [Word.add?_eq_none.mpr (Nat.le_of_not_lt hle)] at hsum
    cases hsum
  refine (requireUnoccupied_ends hlive va.page (pagesFor length)).bind ?_
  rintro - m₁ ⟨rfl, space, hspace, hfree⟩
  refine (reopen_ends file va.page (pagesFor length) m₁).bind ?_
  rintro id m₂ ⟨files, hopen, rfl⟩
  refine Ends.bind_ok rfl ?_
  refine Ends.bind_ok (ofExcept_of_ok (mappedPages_ok hin hsum id writable
    (min length (FileStore.backingLength files id - offset))) _) ?_
  have hpages : ∀ i < pagesFor length, Registrable [id] (mappedAt id va.page writable offset
      (min length (FileStore.backingLength files id - offset)) i) := by
    refine fun i hi => ⟨_, _, _, rfl, ?_, fun segment hs => ?_⟩
    · exact lt_of_lt_of_le (Nat.add_lt_add_left hi _) hin
    obtain rfl := Option.some.inj hs
    exact List.mem_cons_self
  obtain ⟨m₃, hregister, hsteps⟩ :=
    registerRun_ok (m := { m₁ with files }) hspace hfree (fun i _ => rfl) hpages
  refine Ends.bind_ok hregister (Ends.bind_ok rfl (Ends.bind_ok rfl (Ends.pure ?_)))
  exact ⟨Machine.live_of_space? hspace, id, files, page_number_of_isAligned hargs.1.1.2, hin, hopen,
    _, hsteps, Step.unpin rfl⟩

theorem mapFile_ends (hlive : sound → (m.view [] []).Live s) (va : VirtAddr) (length : ℕ)
    (writable : Bool) (file : FileId) (offset : ℕ) :
    Ends sound (mapFile s va length writable file offset) m
      (fun _ m' => Steps (Deed.mapping s file) (m.view [] []) (m'.view [] []))
      fun _ m' => m' = m := by
  refine (mapFile_made hlive va length writable file offset).mono ?_ fun _ _ he => he
  rintro - m' ⟨-, id, files, hmade⟩
  exact hmade.steps

/-! ## Loading a segment -/

/-- What a segment must be like to be loaded. -/
structure AcceptsSegment (va : VirtAddr) (offset readBytes zeroBytes : ℕ) : Prop where
  aligned : va.page.number * pageSize = va.val
  whole : (readBytes + zeroBytes) % pageSize = 0
  inside : va.page.number + (readBytes + zeroBytes) / pageSize ≤ userPages
  offset_lt : ∀ i < (readBytes + zeroBytes) / pageSize, offset + i * pageSize < Word.bound

theorem AcceptsSegment.page_lt {va : VirtAddr} {offset readBytes zeroBytes i : ℕ}
    (h : AcceptsSegment va offset readBytes zeroBytes)
    (hi : i < (readBytes + zeroBytes) / pageSize) : va.page.number + i < userPages :=
  lt_of_lt_of_le (Nat.add_lt_add_left hi _) h.inside

theorem acceptsSegment_of_checks {va : VirtAddr} {offset readBytes zeroBytes : ℕ}
    (haligned : va.isAligned = true) (hwhole : (readBytes + zeroBytes) % pageSize = 0)
    (hend : va.val + (readBytes + zeroBytes) ≤ userEnd)
    (hsum : (Word.add? offset (readBytes + zeroBytes)).isSome = true) :
    AcceptsSegment va offset readBytes zeroBytes := by
  have hbase := page_number_of_isAligned haligned
  have htotal : (readBytes + zeroBytes) / pageSize * pageSize = readBytes + zeroBytes :=
    Nat.div_mul_cancel (Nat.dvd_of_mod_eq_zero hwhole)
  have hlt : offset + (readBytes + zeroBytes) < Word.bound := by
    by_contra hle
    rw [Word.add?_eq_none.mpr (Nat.le_of_not_lt hle)] at hsum
    cases hsum
  refine ⟨hbase, hwhole, ?_, fun i hi => ?_⟩
  · simp only [userPages, userEnd, pageSize] at hbase hend ⊢
    omega
  · exact lt_of_le_of_lt (Nat.add_le_add_left
      ((Nat.mul_le_mul_right pageSize (Nat.le_of_lt hi)).trans_eq htotal) _) hlt

/-- How the loading of a segment ends follows from how the registration of its pages does, after the
file was opened if bytes come from it. -/
theorem loadExecutable_of_registration {ok : Unit → Machine → Prop}
    (hlive : sound → (m.view [] []).Live s) (va : VirtAddr) (file : FileId)
    (offset readBytes zeroBytes : ℕ) (writable : Bool)
    (hrest : ∀ space backing files, AcceptsSegment va offset readBytes zeroBytes →
      m.space? s = some space →
      space.pages.occupied va.page ((readBytes + zeroBytes) / pageSize) = false →
      (backing = none ↔ readBytes = 0) →
      (backing.elim (files = m.files) fun id =>
        m.files.reopen file va.page ((readBytes + zeroBytes) / pageSize) = .ok (id, files)) →
      Ends sound (do
        registerAll s ((List.range ((readBytes + zeroBytes) / pageSize)).map
          (segmentAt backing va.page writable offset readBytes))
        backing.elim (pure ()) releaseBacking : MachineM Unit) { m with files } ok
        fun _ m' => m' = m) :
    Ends sound (loadExecutable s va file offset readBytes zeroBytes writable) m ok
      fun _ m' => m' = m := by
  unfold loadExecutable
  refine require_ends rfl fun _ => require_ends rfl fun hargs => ?_
  refine require_ends rfl fun hend => require_ends rfl fun hsum => ?_
  simp only [Bool.and_eq_true, decide_eq_true_eq, beq_iff_eq] at hargs hend
  have haccepts := acceptsSegment_of_checks hargs.1.1 hargs.2 hend hsum
  refine (requireUnoccupied_ends hlive va.page ((readBytes + zeroBytes) / pageSize)).bind ?_
  rintro - m₁ ⟨rfl, space, hspace, hfree⟩
  have hafter : ∀ backing files, (backing = none ↔ readBytes = 0) →
      (backing.elim (files = m₁.files) fun id =>
        m₁.files.reopen file va.page ((readBytes + zeroBytes) / pageSize) = .ok (id, files)) →
      Ends sound (do
        let pages ← ofExcept <| (List.range ((readBytes + zeroBytes) / pageSize)).mapM
          (segmentPage backing va.page writable offset readBytes)
        registerAll s pages
        backing.elim (pure ()) releaseBacking : MachineM Unit) { m₁ with files } ok
        fun _ m' => m' = m₁ := by
    intro backing files hread hopened
    have hbuild := mapM_eq_ok fun i hi =>
      segmentPage_ok (haccepts.offset_lt i (List.mem_range.mp hi))
        (haccepts.page_lt (List.mem_range.mp hi)) backing writable readBytes
    refine Ends.bind_ok (ofExcept_of_ok hbuild _) ?_
    exact hrest space backing files haccepts hspace hfree hread hopened
  split
  · next hread => exact Ends.bind_ok rfl (hafter none m₁.files (iff_of_true rfl hread) rfl)
  · next hread =>
    have hopened : Ends sound
        (some <$> reopen file va.page ((readBytes + zeroBytes) / pageSize)) m₁
        (fun backing m₂ => ∃ files, m₂ = { m₁ with files } ∧ (backing = none ↔ readBytes = 0) ∧
          backing.elim (files = m₁.files) fun id =>
            m₁.files.reopen file va.page ((readBytes + zeroBytes) / pageSize) = .ok (id, files))
        fun _ m' => m' = m₁ := by
      refine Ends.map ((reopen_ends file va.page _ m₁).mono ?_ fun _ _ he => he)
      rintro id m₂ ⟨files, hopen, rfl⟩
      exact ⟨files, rfl, iff_of_false (Option.some_ne_none id) hread, hopen⟩
    refine hopened.bind ?_
    rintro backing - ⟨files, rfl, hnone, hopen⟩
    cases backing with
    | none => exact hafter none files hnone hopen
    | some id => exact hafter (some id) files hnone hopen

/-- A segment of an executable is registered, or it is refused and nothing has changed. -/
theorem loadExecutable_ends (hlive : sound → (m.view [] []).Live s) (va : VirtAddr) (file : FileId)
    (offset readBytes zeroBytes : ℕ) (writable : Bool) :
    Ends sound (loadExecutable s va file offset readBytes zeroBytes writable) m
      (fun _ m' => Steps (Deed.mapping s file) (m.view [] []) (m'.view [] []))
      fun _ m' => m' = m := by
  refine loadExecutable_of_registration hlive va file offset readBytes zeroBytes writable ?_
  rintro space backing files haccepts hspace hfree - hopened
  have hfirst : Steps (Deed.mapping s file) (m.view [] [])
      (Machine.view { m with files } [] backing.toList) := by
    cases backing with
    | none =>
        obtain rfl : files = m.files := hopened
        exact Steps.refl _
    | some id => exact Steps.single (Step.pin haccepts.inside hopened) (.inr (.inl rfl))
  have hpages : ∀ i < (readBytes + zeroBytes) / pageSize, Registrable backing.toList
      (segmentAt backing va.page writable offset readBytes i) := by
    refine fun i hi => ⟨_, _, _, rfl, haccepts.page_lt hi, fun segment hs => ?_⟩
    cases backing with
    | none => cases hs
    | some id =>
        simp only [touchOf] at hs
        split at hs
        · cases hs
        · obtain rfl := Option.some.inj hs
          exact List.mem_cons_self
  obtain ⟨m₂, hregister, hsteps⟩ :=
    registerRun_ok (m := { m with files }) hspace hfree (fun i _ => rfl) hpages
  refine Ends.bind_ok hregister ?_
  have hall := hfirst.trans (hsteps.mono fun d hd => .inl (Deed.registeringRun_subset s _ hd))
  cases backing with
  | none => exact Ends.pure hall
  | some id =>
      refine Ends.of_ok rfl (hall.tail (d := .unpin id) ?_ (.inr (.inr ⟨id, rfl⟩)))
      exact Step.unpin rfl

/-! ## Removing pages -/

theorem keepsSpaces_of_discarding {d : Deed} (hd : d ∈ Deed.discarding s) : d.KeepsSpaces := by
  obtain ⟨vpn, rfl⟩ := hd
  trivial

theorem remove_ends (h : Ready sound m s pins) (va : VirtAddr) :
    Ends sound (remove s va) m
      (fun _ m' => Steps {Deed.discard s va.page} (m.view [] pins) (m'.view [] pins))
      fun _ m' => m' = m := by
  unfold remove
  refine Ends.space h.live fun space hspace => ?_
  by_cases hmem : space.pages.contains va.page = true
  · simp only [hmem, if_true]
    obtain ⟨m', hdiscard, hsteps, -⟩ :=
      discard_ok h.consistent (Machine.live_of_space? hspace) va.page
    exact Ends.of_ok hdiscard hsteps
  · simp only [hmem]
    exact Ends.bind_failed (Ends.failed_eq _ m) rfl

/-- The backing of a mapped page is open, and its pages lie in user space. -/
def Backed (m : Machine) : Prop :=
  ∀ {s vpn page id}, m.page? s vpn = some page → page.mapping? = some id →
    ∃ backing, m.files.backing? id = some backing ∧
      backing.base.number + backing.pages ≤ userPages

/-- All pages of a mapping that are left in an address space are removed. -/
theorem unmap_ends (h : Ready sound m s pins) (hbacked : sound → Backed m) (va : VirtAddr) :
    Ends sound (unmap s va) m
      (fun _ m' => Steps (Deed.discarding s) (m.view [] pins) (m'.view [] pins))
      fun _ m' => Steps (Deed.discarding s) (m.view [] pins) (m'.view [] pins) := by
  unfold unmap
  refine Ends.space h.live fun space hspace => ?_
  cases hid : (space.pageAt? va).bind Page.mapping? with
  | none => exact Ends.fail (Steps.refl _)
  | some id =>
      obtain ⟨page, hpage, hmapping⟩ := Option.bind_eq_some_iff.mp hid
      have hp : m.page? s va.page = some page := (Machine.page?_of_space? hspace _).trans hpage
      refine Ends.bind_ok rfl ?_
      cases hbacking : m.files.backing? id with
      | none =>
          refine Ends.panic fun hs => ?_
          obtain ⟨backing, hopen, -⟩ := hbacked hs hp hmapping
          rw [hbacking] at hopen
          cases hopen
      | some backing =>
          have hloop : Ends sound (do
              emit (.unmapped backing.base (pagesOfMapping space id backing).length)
              (pagesOfMapping space id backing).forM fun vpn => remove s vpn.start) m
              (fun _ m' => Steps (Deed.discarding s) (m.view [] pins) (m'.view [] pins))
              fun _ m' => Steps (Deed.discarding s) (m.view [] pins) (m'.view [] pins) := by
            refine Ends.emit _ [] pins fun m₁ hview => ?_
            refine Ends.forM (fun vpn _ m₂ hsteps => ?_) (Steps.of_eq hview)
            have hready := h.steps hsteps fun d hd => keepsSpaces_of_discarding hd
            refine (remove_ends hready vpn.start).mono ?_ ?_
            · refine fun _ _ hmore => hsteps.trans (hmore.mono ?_)
              rintro d rfl
              exact ⟨_, rfl⟩
            · rintro e m' rfl
              exact hsteps
          by_cases hpos : 0 < backing.pages
          · simp only [hpos, if_true]
            cases hadd : backing.base.add? (backing.pages - 1) with
            | some last => exact Ends.bind_ok rfl hloop
            | none =>
                have hover : Ends sound (liftM (checked (none : Option VirtPage)) :
                    MachineM VirtPage) m (fun _ _ => False) fun _ _ => False := by
                  refine Ends.panic fun hs => ?_
                  obtain ⟨other, hopen, hin⟩ := hbacked hs hp hmapping
                  obtain rfl : backing = other := Option.some.inj (hbacking.symm.trans hopen)
                  have hlt : backing.base.number + (backing.pages - 1) < Word.bound :=
                    lt_of_le_of_lt (Nat.add_le_add_left (Nat.sub_le _ _) _)
                      (lt_of_le_of_lt hin (by decide))
                  simp [VirtPage.add?, Word.add?_of_lt hlt] at hadd
                exact hover.bind_total fun _ _ hf => hf.elim
          · simp only [hpos, if_false]
            exact hloop

end MachineM

end DemandPaging
