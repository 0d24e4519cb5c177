import DemandPaging.Proofs.References
import DemandPaging.Proofs.Runs
import DemandPaging.Proofs.Unwinding

/-! # The panics

A machine that served requests of processes ends a request with a panic only if it needs one more
swap slot than there are: every slot then holds an anonymous page of its own, and the page that has
to leave its frame is one more. A fork that ends so panics once more if that page belongs to the
child, which is removed while the first panic unwinds.
-/

namespace DemandPaging

/-- Requests that refer to backings only through the files that they map. -/
def Op.Plain : Op → Prop
  | alloc _ _ _ (.file _) _ | reopen _ _ _ | release _ => False
  | _ => True

/-- A request as far as it gets. The child of a fork that ends with a panic is left as it is, under
construction. -/
def Op.bodyBy (visit : Visit) : Op → MachineM Reply
  | fork s => do
    let parent ← MachineM.space s
    let child := (← get).nextSpace
    MachineM.putSpace child { Space.empty with userSp := parent.userSp }
    MachineM.copyInOrder child s (visit.order parent.pages.keys)
    return .space child
  | op => op.execBy visit

/-- What a request ends with that finds no slot for the page of an entry. A fork removes its child
before the panic goes on, and cannot if the page is one of the child's. -/
def Op.panicFor (child : SpaceId) (e : FrameEntry) : Op → Panic
  | fork _ =>
    if e.space = child then .whileUnwinding .outOfSwapSlots (.notMapped e.vpn)
    else .outOfSwapSlots
  | _ => .outOfSwapSlots

/-- The panic that a request ends with. -/
def Machine.panic? (m : Machine) (visit : Visit) (op : Op) : Option Panic :=
  match op.execBy visit m with
  | .error (.panicked p) _ => some p
  | _ => none

theorem Machine.panic?_eq_some {m : Machine} {visit : Visit} {op : Op} {p : Panic} :
    m.panic? visit op = some p ↔ ∃ m', op.execBy visit m = .error (.panicked p) m' := by
  unfold panic?
  constructor
  · intro h
    split at h
    · next q m' hpanic =>
      obtain rfl := Option.some.inj h
      exact ⟨m', hpanic⟩
    · cases h
  · rintro ⟨m', hpanic⟩
    rw [hpanic]

theorem Op.countsReferences_of_deeds {op : Op} (hop : op.Plain) {child : SpaceId} {d : Deed}
    (hd : d ∈ op.deeds child) : d.CountsReferences := by
  have hbelongs := Op.belongsTo_of_deeds hd
  cases d
  case adopt s page =>
    obtain ⟨va, writable, segment, target, rfl, -⟩ := hbelongs
    exact hop
  case reopen file =>
    obtain ⟨base, pages, rfl⟩ := hbelongs
    exact hop
  case release id =>
    obtain rfl : op = .release id := hbelongs
    exact hop
  all_goals trivial

namespace Machine

variable {m m' : Machine} {e : FrameEntry} {visit : Visit} {op : Op} {p : Panic}

/-! ## References -/

/-- A sound machine whose backings count the pages that refer to them. -/
structure Counted (m : Machine) : Prop where
  sound : m.Sound
  referenced : (m.view [] []).Referenced

theorem Counted.step (h : m.Counted) (hop : op.Plain) (hstep : m.step? visit op = some m') :
    m'.Counted := by
  have hfinished := Op.finished h.sound hstep
  refine ⟨hfinished.sound, hfinished.steps.referenced (fun d hd => ?_) h.sound.consistent
    h.referenced⟩
  exact Op.countsReferences_of_deeds hop hd

theorem counted_boot {frames : ℕ} (hframes : frames ≤ PageTable.Entry.frameBound) (disk : Disk)
    (files : Array File) : (boot frames disk (.ofFiles files)).Counted := by
  refine ⟨sound_boot hframes disk _, ⟨⟨?_, ?_⟩, ?_⟩, fun id => ?_⟩
  · intro id backing hid
    cases hid
  · intro id backing hid
    cases hid
  · intro id backing hid
    cases hid
  · have hnone : {x : SpaceId × VirtPage |
        ((boot frames disk (.ofFiles files)).view [] []).backing x.1 x.2 = some id} = ∅ := by
      refine Set.eq_empty_of_forall_notMem fun x hx => ?_
      have hpage : (boot frames disk (.ofFiles files)).page? x.1 x.2 = none := page?_eq_none rfl _
      cases (View.backing_of_none hpage).symm.trans hx
    rw [View.references, hnone, Set.encard_empty]
    rfl

/-- Every page of a mapping refers to a backing that is open and lies in user space. -/
theorem Counted.backed (h : m.Counted) : MachineM.Backed m := by
  intro s vpn page id hpage hmapping
  have hid : page.backing? = some id := by
    unfold Page.mapping? at hmapping
    split at hmapping
    · cases hmapping
    · exact hmapping
  have hown : (m.view [] []).backing s vpn = some id :=
    (View.backing_of_page (V := m.view [] []) hpage).trans hid
  obtain ⟨backing, hopen⟩ :=
    (FileStore.refs_pos_iff h.referenced.orderly.toNumbered).mp (h.referenced.refs_pos hown)
  exact ⟨backing, hopen, h.referenced.orderly.inside hopen⟩

/-! ## Counting anonymous pages -/

def anonPages (m : Machine) : Set (SpaceId × VirtPage) :=
  {x | ∃ page slot, m.page? x.1 x.2 = some page ∧ page.kind = .anon slot}

/-- If the slots are exhausted, there are more anonymous pages than slots. -/
theorem SwapExhausted.slotCount_lt (h : m.SwapExhausted e) :
    (m.swap.slotCount : ℕ∞) < m.anonPages.encard := by
  choose s vpn page hpage hout hkind using h.held
  obtain ⟨pending, hpending, -, hin, hanon⟩ := h.stranded.page
  let holder : Fin m.swap.slotCount → SpaceId × VirtPage := fun slot =>
    (s slot slot.isLt, vpn slot slot.isLt)
  have hinj : Function.Injective holder := by
    intro i j hij
    obtain ⟨hs, hv⟩ := Prod.mk.inj hij
    have hi := hpage i i.isLt
    rw [hs, hv, hpage j j.isLt] at hi
    have hslot := hkind i i.isLt
    rw [← Option.some.inj hi, hkind j j.isLt] at hslot
    exact Fin.ext (Option.some.inj (PageKind.anon.inj hslot)).symm
  have hsub : Set.range holder ⊆ m.anonPages \ {(e.space, e.vpn)} := by
    rintro x ⟨slot, rfl⟩
    refine ⟨⟨_, _, hpage slot slot.isLt, hkind slot slot.isLt⟩, fun heq => ?_⟩
    obtain ⟨hs, hv⟩ := Prod.mk.inj heq
    have hp := hpage slot slot.isLt
    rw [hs, hv, hpending] at hp
    cases hin.symm.trans (Option.some.inj hp ▸ hout slot slot.isLt)
  have hcount : (m.swap.slotCount : ℕ∞) ≤ (m.anonPages \ {(e.space, e.vpn)}).encard := by
    have hrange : (m.swap.slotCount : ℕ∞) ≤ (Set.range holder).encard := by
      simpa using hinj.encard_range
    exact hrange.trans (Set.encard_le_encard hsub)
  have hmem : (e.space, e.vpn) ∈ m.anonPages := ⟨pending, none, hpending, hanon⟩
  rw [← Set.encard_sdiff_singleton_add_one hmem]
  exact (ENat.lt_add_one_iff (ENat.natCast_ne_top _)).mpr le_rfl |>.trans_le
    (add_le_add_left hcount 1)

end Machine

/-! ## Requests that panic -/

section

variable {m m' : Machine} {visit : Visit} {op : Op} {p : Panic}

open MachineM

/-- A fork panics only if the copying does, and then the child is removed. -/
theorem Op.panicked_of_fork {s : SpaceId} (h : m.Sound) (hpos : 0 < m.pool.total)
    (hlive : m.space? s ≠ none) (hpanic : (Op.fork s).execBy visit m = .error (.panicked p) m') :
    ∃ stopped e, (Op.fork s).bodyBy visit m = .error (.panicked .outOfSwapSlots) stopped ∧
      stopped.SwapExhausted e ∧ p = (Op.fork s).panicFor m.nextSpace e := by
  obtain ⟨parent, hparent⟩ := Option.ne_none_iff_exists'.mp hlive
  have hfork : forkBy visit s m = .error (.panicked p) m' := by
    simp only [Op.execBy, map_eq_pure_bind] at hpanic
    rcases bind_eq_panicked hpanic with hfork | ⟨_, _, _, hdone⟩
    · exact hfork
    · cases hdone
  unfold forkBy at hfork
  have hfound := panicked_of_bind (space_of_some hparent) hfork
  have hnext := panicked_of_bind rfl hfound
  have hbegun := panicked_of_bind rfl hnext
  rcases bind_eq_panicked hbegun with hstop | ⟨_, _, _, hdone⟩
  · have horder : ∀ vpn ∈ visit.order parent.pages.keys, m.page? s vpn ≠ none := fun vpn hvpn =>
      (mem_order_iff hparent visit).mp hvpn
    obtain ⟨stopped, e, hcopy, hexhausted, hp⟩ := copyOrDrop_panicked visit h.consistent h.fresh
      hpos (Machine.live_of_space? hparent) horder hstop
    refine ⟨stopped, e, ?_, hexhausted, hp⟩
    exact (bind_of_ok (space_of_some hparent)).trans
      ((bind_of_ok rfl).trans ((bind_of_ok rfl).trans (bind_of_error hcopy)))
  · cases hdone

/-- If a request other than a fork panics, the slots are exhausted. -/
theorem Op.panicked_of_not_fork (h : m.Counted) (hpos : 0 < m.pool.total)
    (hlive : ∀ s ∈ op.spaces, m.space? s ≠ none) (hnot : ∀ s, op ≠ .fork s)
    (hpanic : op.execBy visit m = .error (.panicked p) m') :
    ∃ stopped e, op.bodyBy visit m = .error (.panicked .outOfSwapSlots) stopped ∧
      stopped.SwapExhausted e ∧ p = op.panicFor m.nextSpace e := by
  have hserves : m.Serves op := by
    refine ⟨hpos, h.backed, fun s hs => ?_⟩
    obtain ⟨space, hspace⟩ := Option.ne_none_iff_exists'.mp (hlive s hs)
    exact Machine.live_of_space? hspace
  have hends : Ends True (op.execBy visit) m (fun _ _ => True) fun _ _ => True := by
    by_cases hcreate : op = .create
    · obtain rfl := hcreate
      exact Ends.map ((createSpace_ends h.sound).mono (fun _ _ _ => trivial) fun _ _ _ => trivial)
    · exact (Op.execBy_steps visit h.sound (fun _ => hserves) hcreate hnot).mono
        (fun _ _ _ => trivial) fun _ _ _ => trivial
  obtain ⟨rfl, e, hexhausted⟩ := hends.panicked_of_eq hpanic trivial
  have hbody : op.bodyBy visit = op.execBy visit := by
    cases op with
    | fork s => exact absurd rfl (hnot s)
    | _ => rfl
  refine ⟨m', e, by rw [hbody, hpanic], hexhausted, ?_⟩
  cases op with
  | fork s => exact absurd rfl (hnot s)
  | _ => rfl

end

/-- Whatever requests a machine has served, the next one panics only if the machine has no swap slot
for a page that has to leave its frame. Where it stops, every slot holds an anonymous page of its
own that is not resident, and there are more anonymous pages than slots. It ends with that panic,
unless it is a fork and the page belongs to the child: the child is under construction and has to be
removed, which panics as well. The requests name address spaces that exist. -/
theorem Machine.panic_of_run {frames : ℕ} {disk : Disk} {files : Array File}
    {requests : List (Visit × Op)} {m m' : Machine} {visit : Visit} {op : Op} {p : Panic}
    (hpos : 0 < frames) (hframes : frames ≤ PageTable.Entry.frameBound)
    (hplain : ∀ request ∈ requests, request.2.Plain)
    (hrun : (boot frames disk (.ofFiles files)).run? requests = some m)
    (hlive : ∀ s ∈ op.spaces, m.space? s ≠ none)
    (hpanic : op.execBy visit m = .error (.panicked p) m') :
    ∃ stopped e, op.bodyBy visit m = .error (.panicked .outOfSwapSlots) stopped ∧
      stopped.SwapExhausted e ∧ (stopped.swap.slotCount : ℕ∞) < stopped.anonPages.encard ∧
      p = op.panicFor m.nextSpace e := by
  have hcounted : m.Counted :=
    run_invariant Counted (fun request hin _ _ h hstep => h.step (hplain request hin) hstep)
      (counted_boot hframes disk files) hrun
  have htotal : m.pool.total = frames :=
    (total_run (sound_boot hframes disk _) hrun).trans Array.size_replicate
  rw [← htotal] at hpos
  obtain ⟨stopped, e, hbody, hexhausted, hp⟩ : ∃ stopped e,
      op.bodyBy visit m = .error (.panicked .outOfSwapSlots) stopped ∧ stopped.SwapExhausted e ∧
        p = op.panicFor m.nextSpace e := by
    by_cases hfork : ∃ s, op = .fork s
    · obtain ⟨s, rfl⟩ := hfork
      exact Op.panicked_of_fork hcounted.sound hpos (hlive s (by simp [Op.spaces])) hpanic
    · exact Op.panicked_of_not_fork hcounted hpos hlive (fun s he => hfork ⟨s, he⟩) hpanic
  exact ⟨stopped, e, hbody, hexhausted, hexhausted.slotCount_lt, hp⟩

/-- The frame is taken by the stack and there is no swap slot, so that a second page cannot be
brought in. -/
theorem Machine.panic_of_second_page : ∃ m m' stopped : Machine, ∃ e,
    (boot 1 (.zeroed 0) (.ofFiles #[])).run? ([.create, .setupStack 0,
      .alloc 0 ⟨pageSize⟩ true .zero .anon].map (Visit.ascending, ·)) = some m ∧
      (Op.claim 0 ⟨pageSize⟩).exec m = .error (.panicked .outOfSwapSlots) m' ∧
      stopped.SwapExhausted e ∧ (stopped.swap.slotCount : ℕ∞) < stopped.anonPages.encard := by
  have hpanics : ((boot 1 (.zeroed 0) (.ofFiles #[])).run? ([.create, .setupStack 0,
      .alloc 0 ⟨pageSize⟩ true .zero .anon].map (Visit.ascending, ·))).any (fun m =>
        (m.panic? .ascending (.claim 0 ⟨pageSize⟩)).isSome && (m.space? 0).isSome) = true := by
    decide +kernel
  simp only [Option.any_eq_true, Bool.and_eq_true] at hpanics
  obtain ⟨m, hrun, hsome, hspace⟩ := hpanics
  obtain ⟨p, hp⟩ := Option.isSome_iff_exists.mp hsome
  obtain ⟨m', hpanic⟩ := panic?_eq_some.mp hp
  have hlive : ∀ s ∈ (Op.claim 0 ⟨pageSize⟩).spaces, m.space? s ≠ none := by
    rintro s hs
    obtain rfl := List.mem_singleton.mp hs
    exact Option.isSome_iff_ne_none.mp hspace
  obtain ⟨stopped, e, -, hexhausted, hcount, rfl⟩ := panic_of_run (by decide) (by decide)
    (by simp [Op.Plain]) hrun hlive hpanic
  exact ⟨m, m', stopped, e, hrun, hpanic, hexhausted, hcount⟩

/-- Two pages are claimed in one frame, and a fork copies them to a child. The first copy takes the
frame of the second page, and the second copy has to take the frame of the first. The two slots hold
the pages of the parent by then. -/
theorem Machine.unwinds_of_fork : ∃ m m',
    (boot 1 (.zeroed 16) (.ofFiles #[])).run? ([.create, .alloc 0 ⟨pageSize⟩ true .zero .anon,
      .claim 0 ⟨pageSize⟩, .alloc 0 ⟨2 * pageSize⟩ true .zero .anon, .claim 0 ⟨2 * pageSize⟩].map
        (Visit.ascending, ·)) = some m ∧
      (Op.fork 0).exec m =
        .error (.panicked (.whileUnwinding .outOfSwapSlots (.notMapped ⟨1⟩))) m' := by
  have hpanics : ((boot 1 (.zeroed 16) (.ofFiles #[])).run? ([.create,
      .alloc 0 ⟨pageSize⟩ true .zero .anon, .claim 0 ⟨pageSize⟩,
      .alloc 0 ⟨2 * pageSize⟩ true .zero .anon, .claim 0 ⟨2 * pageSize⟩].map
        (Visit.ascending, ·))).any (fun m => decide (m.panic? .ascending (.fork 0) =
          some (.whileUnwinding .outOfSwapSlots (.notMapped ⟨1⟩)))) = true := by
    decide +kernel
  simp only [Option.any_eq_true, decide_eq_true_eq] at hpanics
  obtain ⟨m, hrun, hp⟩ := hpanics
  obtain ⟨m', hpanic⟩ := panic?_eq_some.mp hp
  exact ⟨m, m', hrun, hpanic⟩

end DemandPaging
