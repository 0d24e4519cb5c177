import DemandPaging.Proofs.FlatMemory.Basic
import DemandPaging.Proofs.Forking
import DemandPaging.Proofs.Mapping

/-! # Requests

Each request is a sequence of steps with labels that the request allows, whether it succeeds or
fails. What every step keeps is kept by every run of requests.
-/

namespace DemandPaging

theorem FirstTouch.segment?_make {segment : Segment} {target : PageType} {touch : FirstTouch}
    (h : FirstTouch.make (.file segment) target = .ok touch) : touch.segment? = some segment := by
  cases target with
  | anon => rw [← Except.ok.inj h, segment?]
  | file => rw [← Except.ok.inj h, segment?]

/-- The labels of the steps that a request may take; `child` is the number of the next address
space. -/
def Op.deeds (child : SpaceId) : Op → Set Deed
  | create => {.create child, .next}
  | drop s => Deed.dropping s
  | fork s => Deed.forking child s
  | copy dst src => Deed.copying dst src
  | alloc s va writable .zero _ => {.register s (.untouched va.page writable .zero)}
  | alloc s va writable (.file segment) _ =>
    {d | ∃ touch, touch.segment? = some segment ∧ d = .adopt s (.untouched va.page writable touch)}
  | claim s va => Deed.claiming s va.page
  | fault s _ => Deed.faulting s
  | setUserSp s _ => {.setUserSp s}
  | setupStack s => insert (.setUserSp s) (Deed.faulting s)
  | read s _ _ => Deed.accessing s
  | write s _ _ => Deed.writing s
  | remove s va => {.discard s va.page}
  | recycle s | unmap s _ | unmapCall s _ => Deed.discarding s
  | map s _ _ _ file _ | loadExecutable s _ file _ _ _ _ => Deed.mapping s file
  | mapCall s descriptors _ _ _ fd _ =>
    {d | ∃ file, descriptors.file? fd = some file ∧ d ∈ Deed.mapping s file}
  | access s va isWrite => {.touch s va.page isWrite}
  | setFlags s va _ _ => {.adjust s va.page}
  | reopen file _ _ => {.reopen file}
  | release id => {.release id}
  | truncate file _ | writeFile file _ _ => {.edit file}

/-- Whether a request opens a file as a backing. -/
def Op.Opens (op : Op) (file : FileId) : Prop :=
  match op with
  | map _ _ _ _ f _ | loadExecutable _ _ f _ _ _ _ | reopen f _ _ => f = file
  | mapCall _ descriptors _ _ _ fd _ => descriptors.file? fd = some file
  | _ => False

/-- Whether a request changes a file directly. -/
def Op.Edits (op : Op) (file : FileId) : Prop :=
  match op with
  | truncate f _ | writeFile f _ _ => f = file
  | _ => False

/-- A request that copies pages of an address space to another. -/
def Op.CopiesFrom (op : Op) (s : SpaceId) : Prop :=
  op = .fork s ∨ ∃ dst, op = .copy dst s

/-- What a step tells about the request that it is part of. -/
def Deed.BelongsTo (op : Op) (child : SpaceId) : Deed → Prop
  | .adopt s page => ∃ va writable segment target,
      op = .alloc s va writable (.file segment) target ∧ page.segment? = some segment
  | .inherit dst src _ | .copy dst src _ => op = .fork src ∧ dst = child ∨ op = .copy dst src
  | .discard s vpn => op.Removes s vpn ∨ s = child ∧ ∃ t, op = .fork t
  | .adjust s _ => ∃ va accessed dirty, op = .setFlags s va accessed dirty
  | .store s _ => ∃ va data, op = .write s va data
  | .create _ | .next => op = .create ∨ ∃ t, op = .fork t
  | .pin file => op.Opens file
  | .edit file => op.Edits file
  | .reopen file => ∃ base pages, op = .reopen file base pages
  | .release id => op = .release id
  | _ => True

section BelongsTo

variable {op : Op} {child s dst src : SpaceId} {d : Deed}

theorem Deed.belongsTo_of_room (hd : d ∈ Deed.room) : d.BelongsTo op child := by
  cases d <;> trivial

theorem Deed.belongsTo_of_faulting (hd : d ∈ Deed.faulting s) : d.BelongsTo op child := by
  rcases hd with hd | ⟨vpn, rfl⟩ | ⟨vpn, rfl⟩
  · exact belongsTo_of_room hd
  · trivial
  · trivial

theorem Deed.belongsTo_of_accessing (hd : d ∈ Deed.accessing s) : d.BelongsTo op child := by
  rcases hd with hd | ⟨vpn, write, rfl⟩
  · exact belongsTo_of_faulting hd
  · trivial

theorem Deed.belongsTo_of_copying (hd : d ∈ Deed.copying dst src)
    (hop : op = .fork src ∧ dst = child ∨ op = .copy dst src) : d.BelongsTo op child := by
  rcases hd with hd | ⟨vpn, rfl⟩ | ⟨vpn, rfl⟩
  · exact belongsTo_of_room hd
  · exact hop
  · exact hop

theorem Deed.belongsTo_of_mapping {file : FileId} (hd : d ∈ Deed.mapping s file)
    (hop : op.Opens file) : d.BelongsTo op child := by
  rcases hd with ⟨page, rfl⟩ | rfl | ⟨id, rfl⟩
  · trivial
  · exact hop
  · trivial

/-- Every step of a request belongs to it. -/
theorem Op.belongsTo_of_deeds (hd : d ∈ op.deeds child) : d.BelongsTo op child := by
  cases op with
  | create => rcases hd with rfl | rfl <;> exact .inl rfl
  | drop s =>
      rcases hd with rfl | ⟨vpn, rfl⟩
      · trivial
      · exact .inl rfl
  | fork s =>
      rcases hd with hd | (rfl | ⟨vpn, rfl⟩) | rfl | rfl
      · exact Deed.belongsTo_of_copying hd (.inl ⟨rfl, rfl⟩)
      · trivial
      · exact .inr ⟨rfl, s, rfl⟩
      · exact .inr ⟨s, rfl⟩
      · exact .inr ⟨s, rfl⟩
  | copy dst src => exact Deed.belongsTo_of_copying hd (.inr rfl)
  | alloc s va writable loader target =>
      cases loader with
      | zero => obtain rfl : d = _ := hd; trivial
      | file segment =>
          obtain ⟨touch, htouch, rfl⟩ := hd
          exact ⟨va, writable, segment, target, rfl, htouch⟩
  | claim s va =>
      rcases hd with rfl | hd
      · trivial
      · exact Deed.belongsTo_of_room hd
  | fault s f => exact Deed.belongsTo_of_faulting hd
  | setupStack s =>
      rcases hd with rfl | hd
      · trivial
      · exact Deed.belongsTo_of_faulting hd
  | read s va buffer => exact Deed.belongsTo_of_accessing hd
  | write s va data =>
      rcases hd with hd | ⟨vpn, rfl⟩
      · exact Deed.belongsTo_of_accessing hd
      · exact ⟨va, data, rfl⟩
  | remove s va =>
      obtain rfl : d = _ := hd
      exact .inl ⟨rfl, rfl⟩
  | recycle | unmap | unmapCall =>
      obtain ⟨vpn, rfl⟩ := hd
      exact .inl rfl
  | map | loadExecutable => exact Deed.belongsTo_of_mapping hd rfl
  | mapCall =>
      obtain ⟨file, hfile, hd⟩ := hd
      exact Deed.belongsTo_of_mapping hd hfile
  | setFlags s va accessed dirty =>
      obtain rfl : d = _ := hd
      exact ⟨va, accessed, dirty, rfl⟩
  | reopen file base pages =>
      obtain rfl : d = _ := hd
      exact ⟨base, pages, rfl⟩
  | setUserSp | access | release | truncate | writeFile =>
      obtain rfl : d = _ := hd
      trivial

end BelongsTo

/-- The address spaces that a request names. -/
def Op.spaces : Op → List SpaceId
  | drop s | fork s | alloc s _ _ _ _ | claim s _ | fault s _ | setUserSp s _ | setupStack s
  | read s _ _ | write s _ _ | remove s _ | recycle s | map s _ _ _ _ _ | unmap s _
  | loadExecutable s _ _ _ _ _ _ | mapCall s _ _ _ _ _ _ | unmapCall s _ | access s _ _
  | setFlags s _ _ _ => [s]
  | copy dst src => [dst, src]
  | create | reopen _ _ _ | release _ | truncate _ _ | writeFile _ _ _ => []

namespace Machine

/-- A machine between two requests: its records agree with its pages, and address spaces have only
numbers that were given out. -/
structure Sound (m : Machine) : Prop where
  consistent : (m.view [] []).Consistent
  fresh : (m.view [] []).Fresh

/-- What a request asks of the machine. -/
structure Serves (m : Machine) (op : Op) : Prop where
  total_pos : 0 < m.pool.total
  backed : MachineM.Backed m
  live : ∀ s ∈ op.spaces, (m.view [] []).Live s

end Machine

namespace MachineM

variable {m : Machine} {s : SpaceId} {sound : Prop}

/-! ## Small requests -/

theorem setUserSp_ends (hlive : sound → (m.view [] []).Live s) (userSp : ℕ) :
    Ends sound (setUserSp s userSp) m
      (fun _ m' => Step (.setUserSp s) (m.view [] []) (m'.view [] []))
      fun _ _ => False := by
  unfold setUserSp
  refine Ends.space hlive fun space hspace => Ends.of_ok rfl ?_
  change Step _ _ ((m.setSpace s { space with userSp }).view [] [])
  rw [Machine.view_putUserSp hspace]
  exact Step.setUserSp (Machine.live_of_space? hspace)

def stackPage : VirtPage :=
  VirtAddr.page ⟨userStackTop - pageSize⟩

/-- A stack is set up by its first page; the stack pointer is set then. -/
theorem setupStack_eq (s : SpaceId) :
    setupStack s = ((do
      alloc s ⟨userStackTop - pageSize⟩ true .zero .anon
      claimAt s ⟨userStackTop - pageSize⟩ : MachineM Unit) >>= fun _ => do
        setUserSp s userStackTop
        return ⟨userStackTop⟩) := by
  rw [bind_assoc]
  rfl

theorem setupStack_ends (h : Ready sound m s []) :
    Ends sound (setupStack s) m
      (fun _ m' => Steps (insert (.setUserSp s) (Deed.resolving s stackPage)) (m.view [] [])
        (m'.view [] []))
      fun _ m' => Steps (insert (.setUserSp s) (Deed.resolving s stackPage)) (m.view [] [])
        (m'.view [] []) := by
  have hzero := allocZero_ends h.consistent h.total_pos h.live ⟨userStackTop - pageSize⟩
  rw [setupStack_eq]
  refine (hzero.mono (fun _ _ ha => ha) fun _ _ hf => ?_).bind ?_
  · exact hf.2.mono (Set.subset_insert _ _)
  rintro - m₁ ⟨hsteps, -⟩
  have hready := h.steps hsteps fun d hd =>
    keepsSpaces_of_faulting (Deed.resolving_subset_faulting s _ hd)
  refine (setUserSp_ends hready.live userStackTop).bind_total fun _ m₂ hstep => Ends.pure ?_
  exact (hsteps.mono (Set.subset_insert _ _)).tail hstep (Set.mem_insert _ _)

theorem setupStack_of_registered (hp : m.page? s stackPage ≠ none) :
    Ends False (setupStack s) m (fun _ _ => False) fun _ m' => m' = m := by
  have hlive : False → (m.view [] []).Live s := False.elim
  have hrefused : Ends False (alloc s ⟨userStackTop - pageSize⟩ true .zero .anon) m
      (fun _ _ => False) fun _ m' => m' = m := by
    refine (alloc_ends hlive _ true .zero .anon).mono ?_ fun _ _ hf => hf.2
    rintro - m' ⟨touch, -, -, hfresh, -⟩
    exact hp hfresh
  exact hrefused.bind fun _ _ hf => hf.elim

theorem processorAccess_ends (h : Ready sound m s []) (va : VirtAddr) (write : Bool) :
    Ends sound (processorAccess s va write) m
      (fun _ m' => Steps {Deed.touch s va.page write} (m.view [] []) (m'.view [] []))
      fun _ _ => False := by
  unfold processorAccess
  refine Ends.space h.live fun space hspace => ?_
  have hlookup := Machine.entryAt?_of_space? hspace va.page
  cases hentry : m.entryAt? s va.page with
  | none =>
      rw [PageTable.access_of_none (hlookup.symm.trans hentry)]
      exact Ends.pure (Steps.refl _)
  | some entry =>
      have hvalid := isValid_of_entry h.consistent hentry
      rw [PageTable.access_of_some (hlookup.symm.trans hentry) hvalid]
      split
      · next fault hdenied => exact Ends.pure (Steps.refl _)
      · next frame table hpass =>
        by_cases hdenied : (write && !entry.isWritable) = true
        · rw [hdenied, if_pos rfl] at hpass
          cases hpass
        · rw [if_neg hdenied] at hpass
          obtain ⟨rfl, rfl⟩ := Prod.mk.inj (Except.ok.inj hpass)
          refine Ends.of_ok rfl (Steps.single (d := .touch s va.page write) ?_ rfl)
          change Step _ _ ((m.setSpace s _).view [] [])
          rw [Machine.view_putTable hspace fun u => space.table.lookup?_insert va.page u _]
          refine Step.touch hentry fun hw => ?_
          simpa [hw] using hdenied

theorem exists_put (table : PageTable) (vpn : VirtPage) (value : Option Bool)
    {flag : PageTable.Flag} (hflag : flag = .accessed ∨ flag = .dirty) :
    ∃ change : PageTable.Entry → PageTable.Entry, (∀ e, PageTable.Entry.SameMapping e (change e)) ∧
      ∀ u, PageTable.lookup? (value.elim table (table.put vpn flag)) u =
        if vpn = u then (table.lookup? vpn).map change else table.lookup? u := by
  cases value with
  | none =>
      refine ⟨id, PageTable.Entry.SameMapping.refl, fun u => ?_⟩
      split
      · next hu => simp [hu]
      · rfl
  | some on =>
      exact ⟨fun e => e.put flag on, fun e => e.sameMapping_put on hflag,
        fun u => table.lookup?_put vpn u flag on⟩

/-- Changes of the accessed and the dirty flag leave what an entry maps. -/
theorem setFlags_ends (hlive : sound → (m.view [] []).Live s) (va : VirtAddr)
    (accessed dirty : Option Bool) :
    Ends sound (setFlags s va accessed dirty) m
      (fun _ m' => Steps {Deed.adjust s va.page} (m.view [] []) (m'.view [] []))
      fun _ _ => False := by
  unfold setFlags
  refine Ends.space hlive fun space hspace => ?_
  obtain ⟨first, hfirst, hlookup⟩ := exists_put space.table va.page accessed (.inl rfl)
  obtain ⟨second, hsecond, hlookup'⟩ :=
    exists_put (accessed.elim space.table (space.table.setAccessed va.page)) va.page dirty
      (.inr rfl)
  have hboth : ∀ u,
      PageTable.lookup? (dirty.elim (accessed.elim space.table (space.table.setAccessed va.page))
        (PageTable.setDirty (accessed.elim space.table (space.table.setAccessed va.page))
          va.page)) u =
        if va.page = u then (m.entryAt? s va.page).map fun e => second (first e)
        else space.table.lookup? u := by
    intro u
    refine (hlookup' u).trans ?_
    split
    · rw [Machine.entryAt?_of_space? hspace]
      exact (congrArg (Option.map second) ((hlookup va.page).trans (if_pos rfl))).trans
        (Option.map_map second first _)
    · next hu => exact (hlookup u).trans (if_neg hu)
  refine Ends.of_ok rfl ?_
  change Steps _ _ ((m.setSpace s _).view [] [])
  rw [Machine.view_putTable hspace hboth]
  cases hentry : m.entryAt? s va.page with
  | none => exact Steps.of_eq (by rw [Option.map_none, setAt_eq_self hentry]; rfl)
  | some e =>
      refine Steps.single (d := .adjust s va.page) ?_ rfl
      exact Step.adjust hentry ((hfirst e).trans (hsecond (first e)))

/-! ## Requests about whole address spaces -/

theorem Ready.not_none (h : Ready sound m s []) (hs : sound) : m.space? s ≠ none := by
  obtain ⟨space, hspace⟩ := Machine.exists_space_of_live (h.live hs)
  simp [hspace]

theorem recycleBy_of_none (visit : Visit) (h : m.space? s = none) :
    recycleBy visit s m = .error (.panicked (.noSpace s)) m := by
  simp only [recycleBy, Bind.bind, EStateM.bind, space_of_none h]

theorem recycleBy_ends (visit : Visit) (h : Ready sound m s []) :
    Ends sound (recycleBy visit s) m
      (fun _ m' => Steps (Deed.discarding s) (m.view [] []) (m'.view [] []))
      fun _ _ => False := by
  cases hspace : m.space? s with
  | none =>
      exact Ends.of_panicked (recycleBy_of_none visit hspace) fun hs => (h.not_none hs hspace).elim
  | some space =>
      have hlive : (m.view [] []).Live s := Machine.live_of_space? hspace
      obtain ⟨m', hrun, hsteps, -⟩ := recycleBy_ok visit h.consistent hlive
      exact Ends.of_ok hrun hsteps

theorem dropSpaceBy_ends (visit : Visit) (h : Ready sound m s []) :
    Ends sound (dropSpaceBy visit s) m
      (fun _ m' => Steps (Deed.dropping s) (m.view [] []) (m'.view [] []))
      fun _ _ => False := by
  cases hspace : m.space? s with
  | none =>
      have hpanic : Ends sound (recycleBy visit s) m (fun _ _ => False) fun _ _ => False :=
        Ends.of_panicked (recycleBy_of_none visit hspace) fun hs => (h.not_none hs hspace).elim
      exact hpanic.bind_total fun _ _ hf => hf.elim
  | some space =>
      have hlive : (m.view [] []).Live s := Machine.live_of_space? hspace
      obtain ⟨m', hrun, hsteps, -⟩ := dropSpaceBy_ok visit h.consistent hlive
      exact Ends.of_ok hrun hsteps

theorem copySpaceBy_ends (visit : Visit) {dst src : SpaceId} (h : Ready sound m dst [])
    (hsrc : sound → (m.view [] []).Live src) :
    Ends sound (copySpaceBy visit dst src) m
      (fun _ m' => Steps (Deed.copying dst src) (m.view [] []) (m'.view [] []))
      fun _ m' => Steps (Deed.copying dst src) (m.view [] []) (m'.view [] []) := by
  unfold copySpaceBy
  refine Ends.space hsrc fun space hspace => ?_
  refine (copyInOrder_ends h hsrc fun vpn hvpn => ?_).mono ?_ ?_
  · exact (mem_order_iff hspace visit).mp hvpn
  · exact fun _ _ hsteps => hsteps.1
  · exact fun _ _ hsteps => hsteps.2

theorem createSpace_ends (h : m.Sound) :
    Ends sound createSpace m
      (fun s m' => s = m.nextSpace ∧
        Steps {Deed.create m.nextSpace, Deed.next} (m.view [] []) (m'.view [] []) ∧
        (m'.view [] []).Fresh)
      fun _ _ => False := by
  have hdead := space?_nextSpace h.fresh
  have hstep := step_create hdead userStackTop [] []
  have hview := view_putSpace_empty hdead userStackTop [] []
  refine Ends.of_ok rfl ⟨rfl, ?_, fun t ht hlive => ?_⟩
  · exact (Steps.single hstep (.inl rfl)).tail (d := .next) Step.next (.inr rfl)
  · change m.nextSpace + 1 ≤ t at ht
    change ((m.setSpace m.nextSpace Space.empty).view [] []).Live t at hlive
    change ((m.setSpace m.nextSpace { Space.empty with userSp := userStackTop }).view [] []).Live t
      at hlive
    rw [hview] at hlive
    have hne : t ≠ m.nextSpace := fun he => Nat.not_succ_le_self _ (he ▸ ht)
    refine h.fresh t (Nat.le_of_succ_le ht) ?_
    change Function.update m.userSp? m.nextSpace (some userStackTop) t ≠ none at hlive
    rw [Function.update_of_ne hne] at hlive
    exact hlive

/-! ## System calls -/

/-- The system call maps the file of the descriptor, or it is refused and has only been reported. -/
theorem mapCall_of_mapFile {descriptors : Descriptors} {addr length fd offset : ℕ} {writable : Bool}
    {done failed : Machine → Prop} (hrefused : ∀ m₁, m₁.view [] [] = m.view [] [] → failed m₁)
    (hmap : ∀ m₁ file, m₁.view [] [] = m.view [] [] → descriptors.file? fd = some file →
      Ends sound (mapFile s ⟨addr⟩ length writable file offset) m₁ (fun _ m' => done m')
        fun _ m' => failed m') :
    Ends sound (mapCall s descriptors addr length writable fd offset) m (fun _ m' => done m')
      fun _ m' => failed m' := by
  unfold mapCall
  refine Ends.emit _ [] [] fun m₁ hview => ?_
  by_cases hconsole : consoleDescriptors.contains fd = true
  · rw [if_pos hconsole]
    refine Ends.emit _ [] [] fun m₂ hview₂ => ?_
    exact Ends.bind_failed rfl (hrefused m₂ (hview₂.trans hview))
  · rw [if_neg hconsole]
    refine Ends.bind_ok rfl ?_
    cases hfile : descriptors.file? fd with
    | none => exact Ends.fail (hrefused m₁ hview)
    | some file => exact (hmap m₁ file hview hfile).bind fun _ _ hdone => Ends.pure hdone

theorem mapCall_ends (hlive : sound → (m.view [] []).Live s) (descriptors : Descriptors)
    (addr length : ℕ) (writable : Bool) (fd offset : ℕ) :
    Ends sound (mapCall s descriptors addr length writable fd offset) m
      (fun _ m' => ∃ file, descriptors.file? fd = some file ∧
        Steps (Deed.mapping s file) (m.view [] []) (m'.view [] []))
      fun _ m' => m'.view [] [] = m.view [] [] := by
  refine mapCall_of_mapFile (fun _ hview => hview) fun m₁ file hview hfile => ?_
  have hlive₁ : sound → (m₁.view [] []).Live s := fun hs => by
    rw [hview]
    exact hlive hs
  refine (mapFile_ends hlive₁ ⟨addr⟩ length writable file offset).mono ?_ ?_
  · intro _ _ hsteps
    rw [hview] at hsteps
    exact ⟨file, hfile, hsteps⟩
  · rintro - m' rfl
    exact hview

theorem unmapCall_ends (h : Ready sound m s []) (hbacked : sound → Backed m) (addr : ℕ) :
    Ends sound (unmapCall s addr) m
      (fun _ m' => Steps (Deed.discarding s) (m.view [] []) (m'.view [] []))
      fun _ m' => Steps (Deed.discarding s) (m.view [] []) (m'.view [] []) := by
  unfold unmapCall
  refine Ends.bind_ok rfl ?_
  have hready : Ready sound { m with events := m.events.push (.unmapCall addr) } s [] :=
    ⟨h.consistent, h.total_pos, h.live⟩
  have hopen : sound → Backed { m with events := m.events.push (.unmapCall addr) } := hbacked
  exact unmap_ends hready hopen ⟨addr⟩

end MachineM

end DemandPaging
