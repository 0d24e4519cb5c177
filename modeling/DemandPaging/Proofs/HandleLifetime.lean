import DemandPaging.Proofs.Isolation
import DemandPaging.Proofs.MappedFile.Acceptance
import DemandPaging.Proofs.MappedFile.Runs
import DemandPaging.Proofs.PanicFreedom

/-! # The life of a handle

A mapping opens its file once. The handle stays open as long as a page refers to the mapping, in
whatever address space: a page of the file, or one that is to be filled from it.
-/

namespace DemandPaging

/-! ## Pages that refer to a backing -/

/-- A page refers to a backing if it is a page of the file, or untouched and to be filled from the
file. -/
def Page.RefersTo (page : Page) (id : BackingId) : Prop :=
  ∃ segment : Segment, segment.backing = id ∧ (page.kind = .file segment ∨
    page.kind = .uninit (.share segment) ∨ page.kind = .uninit (.copy segment))

theorem Page.refersTo_iff {page : Page} {id : BackingId} :
    page.RefersTo id ↔ page.backing? = some id := by
  obtain ⟨vpn, writable, frame, kind⟩ := page
  simp only [RefersTo, backing?, segment?]
  cases kind with
  | uninit touch => cases touch <;> simp [FirstTouch.segment?, eq_comm]
  | anon slot => simp
  | file segment => simp [eq_comm]

/-! ## Requests that open nothing -/

namespace FileStore

variable {store changed : FileStore} {file : FileId} {outside : FileId → ℕ}

theorem Recounted.openOn_subset (h : store.Recounted changed) (file : FileId) :
    changed.openOn file ⊆ store.openOn file := by
  rintro id ⟨after, hafter, hfile⟩
  obtain ⟨before, hbefore, hsame, -⟩ := h.exists_before hafter
  exact ⟨before, hbefore, hsame.file_eq.symm.trans hfile⟩

theorem Balanced.handles_le (h : store.Balanced outside) (h' : changed.Balanced outside)
    (hsub : changed.openOn file ⊆ store.openOn file) :
    changed.handles file ≤ store.handles file := by
  have hle : (changed.handles file : ℕ∞) ≤ store.handles file := by
    rw [h file, h' file]
    exact add_le_add_right (Set.encard_le_encard hsub) _
  exact_mod_cast hle

end FileStore

/-- Steps that open no file. -/
def Deed.OpensNone : Deed → Prop
  | .pin _ | .reopen _ => False
  | _ => True

section

variable {deeds : Set Deed} {d : Deed} {V W : View} {id : BackingId}

theorem Steps.recounted (hsteps : Steps deeds V W) (hd : ∀ d ∈ deeds, d.OpensNone) :
    V.files.Recounted W.files := by
  refine hsteps.invariant (fun U => V.files.Recounted U.files) (fun d hmem _ _ hstep hU => ?_)
    (.refl _)
  rcases hstep.recounted with hsame | ⟨file, base, pages, own, -, ⟨rfl, -⟩ | rfl⟩
  · exact hU.trans hsame
  · exact (hd _ hmem).elim
  · exact (hd _ hmem).elim

theorem Steps.backing?_of_lt (hsteps : Steps deeds V W) (hlt : id < V.files.nextBacking)
    {after : Backing} (hafter : W.files.backing? id = some after) :
    ∃ before, V.files.backing? id = some before ∧ before.file = after.file := by
  obtain ⟨before, hbefore, hsame⟩ := hsteps.exists_sameMapping hlt hafter
  exact ⟨before, hbefore, hsame.file_eq.symm⟩

end

theorem Op.opensNone_of_deeds {op : Op} (hop : ∀ file, ¬op.Opens file) {child : SpaceId} {d : Deed}
    (hd : d ∈ op.deeds child) : d.OpensNone := by
  have hbelongs := Op.belongsTo_of_deeds hd
  cases d
  case pin file => exact hop file hbelongs
  case reopen file =>
    obtain ⟨base, pages, rfl⟩ := hbelongs
    exact hop file rfl
  all_goals trivial

namespace Machine

variable {m m' : Machine} {visit : Visit} {op : Op} {requests : List (Visit × Op)}
  {outside : FileId → ℕ} {id : BackingId}

/-- Some page of some address space refers to a backing. -/
def Refers (m : Machine) (id : BackingId) : Prop :=
  ∃ s vpn page, m.page? s vpn = some page ∧ page.RefersTo id

theorem refers_iff : m.Refers id ↔ ∃ s vpn, (m.view [] []).backing s vpn = some id := by
  simp only [Refers, Page.refersTo_iff, View.backing, Option.bind_eq_some_iff]
  rfl

theorem Counted.open_iff (h : m.Counted) (id : BackingId) :
    (∃ backing, m.files.backing? id = some backing) ↔ m.Refers id := by
  have hnumbered : m.files.Numbered := h.referenced.orderly.toNumbered
  rw [← FileStore.refs_pos_iff hnumbered, refers_iff]
  constructor
  · intro hpos
    by_contra hnone
    have hempty : {x : SpaceId × VirtPage | (m.view [] []).backing x.1 x.2 = some id} = ∅ :=
      Set.eq_empty_of_forall_notMem fun x hx => hnone ⟨x.1, x.2, hx⟩
    have hrefs := h.referenced.refs_eq id
    rw [View.references, hempty, Set.encard_empty] at hrefs
    exact hpos.ne' (Nat.cast_injective (R := ℕ∞) hrefs)
  · rintro ⟨s, vpn, hbacking⟩
    exact h.referenced.refs_pos hbacking

/-- The handles on every file are those that were opened from outside, and one for each backing of
the file that a page refers to. -/
structure HandlesCounted (m : Machine) (outside : FileId → ℕ) : Prop where
  open_iff : ∀ id, (∃ backing, m.files.backing? id = some backing) ↔ m.Refers id
  handles_eq : ∀ file, (m.files.handles file : ℕ∞) = outside file +
    {id | (∃ backing, m.files.backing? id = some backing ∧ backing.file = file) ∧
      m.Refers id}.encard

theorem Counted.handlesCounted (h : m.Counted) (hb : (m.view [] []).Balanced outside) :
    m.HandlesCounted outside := by
  refine ⟨h.open_iff, fun file => (hb.balanced file).trans ?_⟩
  have hset : m.files.openOn file = {id | (∃ backing, m.files.backing? id = some backing ∧
      backing.file = file) ∧ m.Refers id} := by
    ext id
    refine (and_iff_left_of_imp ?_).symm
    rintro ⟨backing, hopen, -⟩
    exact (h.open_iff id).mp ⟨backing, hopen⟩
  rw [← hset]
  rfl

/-! ## The next request -/

/-- What the next request does to the handles. -/
structure HandlesServed (m : Machine) : Prop where
  /-- A mapping opens its file once, however many pages it has. -/
  mapped : ∀ {visit s va length writable file offset reply m'},
    (Op.map s va length writable file offset).execBy visit m = .ok reply m' →
      ∀ other, m'.files.handles other = m.files.handles other + if file = other then 1 else 0
  /-- A child shares the handles of its parent. -/
  forked : ∀ {visit s m'}, m.step? visit (.fork s) = some m' →
    ∀ file, m'.files.handles file = m.files.handles file
  /-- A request that fails opens no file. -/
  failed : ∀ {visit m'} {op : Op} {e : Errno}, op.Plain →
    op.execBy visit m = .error (.failed e) m' →
      ∀ file, m'.files.handles file ≤ m.files.handles file
  /-- A request that was to open a file leaves all files as they were if it fails. -/
  refused : ∀ {visit m' file} {op : Op} {e : Errno}, op.Plain → op.Opens file →
    op.execBy visit m = .error (.failed e) m' → m'.files = m.files
  others : ∀ {visit m'} {op : Op}, op.Plain → (∀ file, ¬op.Opens file) →
    m.step? visit op = some m' → ∀ file, m'.files.handles file ≤ m.files.handles file
  /-- A backing stays open as long as a page refers to it, and no longer. -/
  kept : ∀ {visit m' id backing} {op : Op}, op.Plain → m.step? visit op = some m' →
    m.files.backing? id = some backing →
      ((∃ left, m'.files.backing? id = some left ∧ left.file = backing.file) ↔ m'.Refers id)

theorem step?_of_failed {e : Errno} (h : op.execBy visit m = .error (.failed e) m') :
    m.step? visit op = some m' := by
  simp only [step?, h]

theorem exists_failed_of_step? (hstep : m.step? visit op = some m')
    (hanswer : m.answer? visit op = none) : ∃ e, op.execBy visit m = .error (.failed e) m' := by
  unfold step? at hstep
  unfold answer? at hanswer
  split at hstep
  · next hexec => simp [hexec] at hanswer
  · next e after hexec =>
    obtain rfl := Option.some.inj hstep
    exact ⟨e, hexec⟩
  · cases hstep

theorem handles_of_mapped {s : SpaceId} {va : VirtAddr} {length offset : ℕ} {writable : Bool}
    {file : FileId} {reply : Reply}
    (hmap : (Op.map s va length writable file offset).execBy visit m = .ok reply m')
    (other : FileId) :
    m'.files.handles other = m.files.handles other + if file = other then 1 else 0 := by
  obtain ⟨space, hspace⟩ := exists_space_of_live (exists_madeMapping hmap).1
  by_cases haccepts : m.AcceptsMapping s va length file offset
  · obtain ⟨m₁, hok, hgains⟩ := MachineM.mapFile_of_accepts hspace haccepts writable
    have hexec : (Op.map s va length writable file offset).execBy visit m =
        .ok (.address va.val) m₁ := MachineM.bind_of_ok hok
    rw [hexec] at hmap
    cases hmap
    exact FileStore.handles_of_opened haccepts.reopens hgains.files other
  · obtain ⟨e, hfailed⟩ := MachineM.mapFile_of_not_accepts hspace haccepts writable
    have hexec : (Op.map s va length writable file offset).execBy visit m =
        .error (.failed e) m := MachineM.bind_of_error hfailed
    rw [hexec] at hmap
    cases hmap

/-- A request that was to open a file and failed has left all files as they were. -/
theorem files_of_failed {e : Errno} {file : FileId} (hop : op.Opens file) (hplain : op.Plain)
    (h : op.execBy visit m = .error (.failed e) m') : m'.files = m.files := by
  have hlive : ∀ s, False → (m.view [] []).Live s := fun _ => False.elim
  cases op with
  | map s va length writable f offset =>
      have hends := MachineM.mapFile_ends (hlive s) va length writable f offset
      have hreply := (hends.mono (fun _ _ _ => trivial) fun _ _ he => he).reply
        fun va => Reply.address va.val
      exact congrArg Machine.files (hreply.failed_of_eq h)
  | loadExecutable s va f offset readBytes zeroBytes writable =>
      have hends := MachineM.loadExecutable_ends (hlive s) va f offset readBytes zeroBytes writable
      have hreply := (hends.mono (fun _ _ _ => trivial) fun _ _ he => he).reply
        fun _ => Reply.done
      exact congrArg Machine.files (hreply.failed_of_eq h)
  | mapCall s descriptors addr length writable fd offset =>
      have hends := MachineM.mapCall_ends (hlive s) descriptors addr length writable fd offset
      have hreply : Ends False ((Op.mapCall s descriptors addr length writable fd offset).execBy
          visit) m (fun _ _ => True) fun _ after => after.view [] [] = m.view [] [] :=
        Ends.map (hends.mono (fun _ _ _ => trivial) fun _ _ he => he)
      exact congrArg View.files (hreply.failed_of_eq h)
  | reopen f base pages => exact hplain.elim
  | _ => exact hop.elim

/-- A request that opens no file leaves no more handles than there were. -/
theorem Sound.handles_le (h : m.Sound) (hb : (m.view [] []).Balanced outside)
    (hop : ∀ file, ¬op.Opens file) (hstep : m.step? visit op = some m') (file : FileId) :
    m'.files.handles file ≤ m.files.handles file := by
  have hsteps := (Op.finished h hstep).steps
  have hrecounted := hsteps.recounted fun _ hd => Op.opensNone_of_deeds hop hd
  exact hb.balanced.handles_le (hsteps.balanced hb).balanced (hrecounted.openOn_subset file)

theorem Counted.kept (h : m.Counted) (hplain : op.Plain) (hstep : m.step? visit op = some m')
    {backing : Backing} (hopen : m.files.backing? id = some backing) :
    (∃ left, m'.files.backing? id = some left ∧ left.file = backing.file) ↔ m'.Refers id := by
  rw [← (h.step hplain hstep).open_iff id]
  refine exists_congr fun left => and_iff_left_of_imp fun hleft => ?_
  have hlt : id < (m.view [] []).files.nextBacking := h.referenced.orderly.lt_next hopen
  obtain ⟨before, hbefore, hfile⟩ := (Op.finished h.sound hstep).steps.backing?_of_lt hlt hleft
  obtain rfl : backing = before := Option.some.inj (hopen.symm.trans hbefore)
  exact hfile.symm

/-- A fork neither opens nor closes a file, whether or not it succeeds. -/
theorem Counted.handles_of_fork (h : m.Counted) (hb : (m.view [] []).Balanced outside)
    {s : SpaceId} (hstep : m.step? visit (.fork s) = some m') (file : FileId) :
    m'.files.handles file = m.files.handles file := by
  have hfinished := Op.finished h.sound hstep
  have hplain : (Op.fork s).Plain := trivial
  have hopens : ∀ file, ¬(Op.fork s).Opens file := fun _ hop => hop
  refine hb.balanced.handles_eq (hfinished.steps.balanced hb).balanced (Set.Subset.antisymm ?_ ?_)
  · refine (hfinished.steps.recounted fun _ hd => ?_).openOn_subset file
    exact Op.opensNone_of_deeds hopens hd
  · rintro id ⟨backing, hopen, hfile⟩
    have hrefers : m'.Refers id := by
      obtain ⟨t, vpn, hbacking⟩ := refers_iff.mp ((h.open_iff id).mp ⟨backing, hopen⟩)
      obtain ⟨page, hpage, hown⟩ := Option.bind_eq_some_iff.mp hbacking
      have hne := h.sound.ne_nextSpace (live_of_page? hpage)
      obtain ⟨after, hafter, halike⟩ := exists_after_of_alikeRel
        (hfinished.steps.alike h.sound.consistent
          (fun _ hd => Op.spares_of_deeds hd (Option.some_ne_none t).symm hne) vpn) hpage
      exact ⟨t, vpn, after, hafter, Page.refersTo_iff.mpr (halike.backing?_eq.trans hown)⟩
    obtain ⟨left, hleft, hsame⟩ := (h.kept hplain hstep hopen).mpr hrefers
    exact ⟨left, hleft, hsame.trans hfile⟩

theorem Counted.handlesServed (h : m.Counted) (hb : (m.view [] []).Balanced outside) :
    m.HandlesServed := by
  refine ⟨fun hmap => handles_of_mapped hmap, fun hstep => h.handles_of_fork hb hstep,
    fun {visit m' op e} hplain hfailed file => ?_,
    fun hplain hop hfailed => files_of_failed hop hplain hfailed,
    fun _ hop hstep => h.sound.handles_le hb hop hstep,
    fun hplain hstep hopen => h.kept hplain hstep hopen⟩
  by_cases hop : ∃ file, op.Opens file
  · obtain ⟨opened, hop⟩ := hop
    rw [files_of_failed hop hplain hfailed]
  · exact h.sound.handles_le hb (not_exists.mp hop) (step?_of_failed hfailed) file

/-! ## Runs -/

theorem counted_of_run {frames : ℕ} {disk : Disk} {files : Array File}
    (hframes : frames ≤ PageTable.Entry.frameBound)
    (hplain : ∀ request ∈ requests, request.2.Plain)
    (hrun : (boot frames disk (.ofFiles files)).run? requests = some m) : m.Counted :=
  run_invariant Counted (fun request hr _ _ h hstep => h.step (hplain request hr) hstep)
    (counted_boot hframes disk files) hrun

/-- However mappings, executables and address spaces come and go, a file has the handles that were
opened from outside, and one for each of its backings that some page still refers to. -/
theorem handles_of_run {frames : ℕ} {disk : Disk} {files : Array File}
    (hframes : frames ≤ PageTable.Entry.frameBound)
    (hplain : ∀ request ∈ requests, request.2.Plain)
    (hrun : (boot frames disk (.ofFiles files)).run? requests = some m) :
    m.HandlesCounted (FileStore.ofFiles files).handles ∧ m.HandlesServed := by
  have hcounted := counted_of_run hframes hplain hrun
  have hbalanced := balanced_of_run hframes hrun
  exact ⟨hcounted.handlesCounted hbalanced, hcounted.handlesServed hbalanced⟩

/-- Two pages of a file are mapped and the process is forked. The handle that was opened for them is
left to the child when the parent unmaps the file, and is closed with the child. -/
theorem handles_of_orphan : ∃ m m' : Machine, ∃ outside : FileId → ℕ, outside 0 = 1 ∧
    m.HandlesCounted outside ∧ m.HandlesServed ∧ m.files.handles 0 = 2 ∧
      m.step? .ascending (.drop 1) = some m' ∧
      m'.HandlesCounted outside ∧ m'.HandlesServed ∧ m'.files.handles 0 = 1 := by
  generalize hcontent : File.mk #[0x41] 1 none none none none = content
  generalize hrequests : [Op.create, .map 0 ⟨pageSize⟩ (2 * pageSize) true 0 0, .fork 0,
    .unmap 0 ⟨pageSize⟩].map (Visit.ascending, ·) = requests
  have hserved : ((boot 1 (.zeroed 16) (.ofFiles #[content])).run? requests).any (fun m =>
      decide (m.files.handles 0 = 2) &&
        (m.step? .ascending (.drop 1)).any fun m' => decide (m'.files.handles 0 = 1)) = true := by
    rw [← hcontent, ← hrequests]
    decide +kernel
  have hplain : ∀ request ∈ requests, request.2.Plain := by
    rw [← hrequests]
    simp [Op.Plain]
  simp only [Option.any_eq_true, Bool.and_eq_true, decide_eq_true_eq] at hserved
  obtain ⟨m, hrun, hopened, m', hstep, hclosed⟩ := hserved
  have hrun' : (boot 1 (.zeroed 16) (.ofFiles #[content])).run?
      (requests ++ [(.ascending, .drop 1)]) = some m' := by
    rw [run?_append, hrun, Option.bind_some, run?_cons, hstep]
    rfl
  have hplain' : ∀ request ∈ requests ++ [(Visit.ascending, Op.drop 1)], request.2.Plain := by
    intro request hr
    rcases List.mem_append.mp hr with hr | hr
    · exact hplain request hr
    · obtain rfl := List.mem_singleton.mp hr
      trivial
  obtain ⟨hcounted, hserves⟩ := handles_of_run (by decide) hplain hrun
  obtain ⟨hcounted', hserves'⟩ := handles_of_run (by decide) hplain' hrun'
  refine ⟨m, m', (FileStore.ofFiles #[content]).handles, ?_, hcounted, hserves, hopened, hstep,
    hcounted', hserves', hclosed⟩
  rw [← hcontent]
  rfl

end Machine

end DemandPaging
