import DemandPaging.Proofs.CopiedBytes
import DemandPaging.Proofs.FailedFork
import DemandPaging.Proofs.FreeFrames.Requests
import DemandPaging.Proofs.Teardown.Recycling

/-! # Loads that fail

A page cannot be brought in if its file is too short for it. Room was made for the page by then,
perhaps by moving another page out of its frame, and some bytes of the file are in the frame. The
frame is given back, the page stays as it was, and nobody ever sees those bytes.
-/

namespace DemandPaging

variable {d : Deed} {V W : View} {s : SpaceId} {vpn : VirtPage} {page : Page} {segment : Segment}
  {frame : Frame}

/-! ## Making room -/

theorem Step.backings_eq_of_room (hstep : Step d V W) (hd : d ∈ Deed.room) :
    W.files.backings = V.files.backings := by
  cases hstep with
  | evict full victim found mapped loaded spilled zeroed =>
      exact (PageKind.backings_savedIn _ _ _ V.files).1
  | take | sweep | spoil | giveBack => rfl
  | _ => exact hd.elim

/-- Making room does not change how many bytes a read delivers: no file gets longer or shorter. -/
theorem Steps.size_fetch_of_room (hsteps : Steps Deed.room V W) (h : V.Consistent)
    (segment : Segment) : (segment.fetch W.files).size = (segment.fetch V.files).size := by
  refine (hsteps.invariant (fun U => U.Consistent ∧
    (segment.fetch U.files).size = (segment.fetch V.files).size)
    (fun d hd U X hstep hU => ⟨hstep.consistent hU.1, Eq.trans ?_ hU.2⟩) ⟨h, rfl⟩).2
  have hedit : ∀ file, d ≠ .edit file := by
    rintro file rfl
    exact hd.elim
  have hbacking : X.files.backing? segment.backing = U.files.backing? segment.backing := by
    rw [FileStore.backing?, FileStore.backing?, hstep.backings_eq_of_room hd]
  rw [Segment.size_fetch, Segment.size_fetch, hbacking]
  cases U.files.backing? segment.backing with
  | none => rfl
  | some backing => exact hstep.size_readAt hU.1 (hedit backing.file) _ _

/-! ## The load itself -/

/-- A registered page that is not resident, and whose file is too short for it. -/
structure View.FallsShort (V : View) (s : SpaceId) (vpn : VirtPage) (page : Page)
    (segment : Segment) : Prop where
  found : V.page s vpn = some page
  absent : page.frame = none
  segment_eq : page.segment? = some segment
  short : (segment.fetch V.files).size < segment.readBytes

/-- Room was made for a page, and the frame that it was to have was given back with what came of
the file in it. -/
structure GivenUp (V : View) (segment : Segment) (frame : Frame) (m' : Machine) : Prop where
  steps : Steps Deed.room V (m'.view [] [])
  frame_lt : frame < m'.pool.total
  unused : ¬m'.InUse [] frame
  leftover : m'.pool.load frame = .ok (PageBytes.zero.overlay 0 (segment.fetch m'.files))

theorem Fill.complete {swap swap' : SwapArea} {files files' : FileStore} {kind kind' : PageKind}
    {bytes : PageBytes} (h : Fill swap files kind bytes kind' swap' files')
    (hpage : page.kind = kind) (hsegment : page.segment? = some segment) :
    (segment.fetch files).size = segment.readBytes := by
  unfold Page.segment? at hsegment
  rw [hpage] at hsegment
  cases h with
  | zero => cases hsegment
  | slot hread hfreed => cases hsegment
  | copy hread | share hread | file hread =>
      cases hsegment
      exact (Segment.eq_padded_of_loadInto hread).1

theorem Step.not_fallsShort (hstep : Step (.bring s vpn) V W) :
    ¬V.FallsShort s vpn page segment := by
  intro hshort
  cases hstep with
  | bring found absent first filled stored =>
      obtain rfl := Option.some.inj (hshort.found.symm.trans found)
      exact hshort.short.ne (filled.complete rfl hshort.segment_eq)

theorem View.FallsShort.room (hshort : V.FallsShort s vpn page segment)
    (hsteps : Steps Deed.room V W) (h : V.Consistent) : W.FallsShort s vpn page segment :=
  ⟨(hsteps.roomier h).absent hshort.found hshort.absent, hshort.absent, hshort.segment_eq,
    (hsteps.size_fetch_of_room h segment).trans_lt hshort.short⟩

namespace MachineM

variable {m : Machine} {sound : Prop} {write : Bool}

/-- A page whose file is too short is not filled, and its frame is given back. -/
theorem fill_of_short (h : (m.view [frame] []).Consistent)
    (hshort : (m.view [frame] []).FallsShort s vpn page segment)
    (hzero : m.pool.load frame = .ok PageBytes.zero) :
    Ends sound (do install s (← guardFrame frame (swapIn page frame)) frame : MachineM Unit) m
      (fun _ _ => False)
      fun e m' => e = .ioError ∧ GivenUp (m.view [frame] []) segment frame m' := by
  refine (fill_ends h hshort.found hshort.absent hzero).mono ?_ ?_
  · rintro - m' ⟨hbring, -⟩
    exact hbring.not_fallsShort hshort
  · rintro e m' ⟨rfl, other, bytes, spoiled, pool, hother, hread, hstore, hfreed, hview⟩
    obtain rfl := Option.some.inj (hshort.segment_eq.symm.trans hother)
    have hback : Steps {Deed.spoil frame, Deed.giveBack frame} (m.view [frame] [])
        (m'.view [] []) := by
      rw [hview]
      exact steps_giveBack rfl hstore hfreed
    have hpool : m'.pool = pool := congrArg View.pool hview
    have hframes : m'.frames = m.frames := congrArg View.frames hview
    have hfiles : m'.files = m.files := congrArg View.files hview
    have htotal := (FramePool.total_of_release hfreed).trans (FramePool.total_of_store hstore)
    have hbytes : bytes = PageBytes.zero.overlay 0 (segment.fetch m.files) := by
      have hne : (segment.fetch m.files).size ≠ segment.readBytes := hshort.short.ne
      rw [Segment.loadInto, if_neg hne] at hread
      exact (Prod.mk.inj hread).1.symm
    refine ⟨rfl, hback.mono ?_, ?_, ?_, ?_⟩
    · rintro d (rfl | rfl) <;> trivial
    · rw [hpool, htotal]
      exact h.held_lt List.mem_cons_self
    · rintro (hin | hin)
      · rw [hframes] at hin
        have hnodup := h.supplied.nodup
        exact List.disjoint_of_nodup_append hnodup hin List.mem_cons_self
      · cases hin
    · rw [hpool, hfiles, FramePool.load_of_memory_eq (FramePool.memory_of_release hfreed),
        FramePool.load_of_store hstore, if_pos rfl, hbytes]

/-- A claim of a page whose file is too short is given up. -/
theorem claim_of_short (h : (m.view [] []).Consistent)
    (hshort : (m.view [] []).FallsShort s vpn page segment) (hpos : sound → 0 < m.pool.total) :
    Ends sound (claim s vpn) m (fun _ _ => False)
      fun e m' => e = .ioError ∧ ∃ frame, GivenUp (m.view [] []) segment frame m' := by
  refine claim_of_absent h hshort.found hshort.absent hpos fun frame m₁ hacquired => ?_
  refine (fill_of_short hacquired.consistent (hshort.room hacquired.room h) hacquired.zeroed).mono
    (fun _ _ hf => hf) ?_
  rintro e m' ⟨rfl, hgiven⟩
  exact ⟨rfl, frame, { hgiven with steps := hacquired.room.trans hgiven.steps }⟩

/-! ## What asks for the page -/

theorem handleFault_of_short {fault : PageFault} (h : (m.view [] []).Consistent)
    (hshort : (m.view [] []).FallsShort s vpn page segment) (hpos : sound → 0 < m.pool.total)
    (hat : VirtAddr.page ⟨fault.addr⟩ = vpn) (hpresent : fault.notPresent = true)
    (hallowed : fault.write = true → page.writable = true) :
    Ends sound (handleFault s fault) m (fun _ _ => False)
      fun e m' => e = .ioError ∧ ∃ frame, GivenUp (m.view [] []) segment frame m' := by
  subst hat
  have huser : VirtAddr.isUser ⟨fault.addr⟩ = true :=
    VirtAddr.isUser_of_page_lt (h.settled hshort.found).in_user
  refine Ends.of_eq (handleFault_of_registered hshort.found huser hpresent hallowed) ?_
  exact claim_of_short (m := m.told fault) h hshort hpos

theorem userFrame_of_short (h : (m.view [] []).Consistent)
    (hshort : (m.view [] []).FallsShort s vpn page segment) (hpos : sound → 0 < m.pool.total)
    (hallowed : write = true → page.writable = true) :
    Ends sound (userFrame s vpn write) m (fun _ _ => False)
      fun e m' => e = .ioError ∧ ∃ frame, GivenUp (m.view [] []) segment frame m' := by
  have hsettled := h.settled hshort.found
  refine Ends.of_eq (userFrame_of_registered hshort.found (hsettled.of_none hshort.absent)
    hsettled.in_user hallowed) ?_
  refine Ends.bind (claim_of_short (m := m.told (accessFault vpn write)) h hshort hpos) ?_
  exact fun _ _ hf => hf.elim

variable {va : VirtAddr} {buffer data : Bytes} {length : ℕ}

/-- A range of addresses that lies in one page, and is not empty. -/
def Within (va : VirtAddr) (length : ℕ) (vpn : VirtPage) : Prop :=
  length ≠ 0 ∧ va.page = vpn ∧ VirtAddr.page ⟨va.val + length - 1⟩ = vpn

theorem Within.userChunks (h : Within va length vpn) (hin : vpn.number < userPages) (m : Machine) :
    MachineM.userChunks va length m =
      .ok [Chunk.ofPage va (va.val + length) vpn.number] m := by
  obtain ⟨hlength, rfl, hlast⟩ := h
  have hends : VirtAddr.isUser ⟨va.val + length - 1⟩ = true := by
    refine VirtAddr.isUser_of_page_lt ?_
    rwa [hlast]
  have hbound : va.val + length < Word.bound := by
    have hlt : va.val + length - 1 < userEnd := by simpa [VirtAddr.isUser] using hends
    simp only [userEnd, Word.bound] at hlt ⊢
    omega
  have hrange : isUserRange va length = true := by
    simp [isUserRange, hbound, hends, VirtAddr.isUser_of_page_lt hin]
  rw [MachineM.userChunks, if_pos hrange, Chunk.split_within hlength hlast]
  rfl

theorem readUser_of_short (h : (m.view [] []).Consistent)
    (hshort : (m.view [] []).FallsShort s vpn page segment) (hpos : sound → 0 < m.pool.total)
    (hwithin : Within va buffer.size vpn) :
    Ends sound (readUser s va buffer) m
      (fun result m' => result = (buffer, some .ioError) ∧
        ∃ frame, GivenUp (m.view [] []) segment frame m')
      fun _ _ => False := by
  have hchunks := hwithin.userChunks (h.settled hshort.found).in_user m
  have hread : attempt (MachineM.userChunks va buffer.size) m =
      .ok (.ok [Chunk.ofPage va (va.val + buffer.size) vpn.number]) m := by
    simp only [attempt, hchunks]
  unfold readUser
  refine Ends.bind_ok hread (readChunks_of_invariant [] (fun chunks filled m' =>
    chunks = [Chunk.ofPage va (va.val + buffer.size) vpn.number] ∧ filled = buffer ∧ m' = m)
    ⟨rfl, rfl, rfl⟩ (fun hdone => by cases hdone.1) ?_)
  rintro chunk chunks filled m' ⟨hpart, rfl, rfl⟩
  obtain ⟨rfl, -⟩ := List.cons.inj hpart
  refine (userFrame_of_short h hshort hpos Bool.noConfusion).mono (fun _ _ hf => hf.elim) ?_
  rintro e m' ⟨rfl, hgiven⟩
  exact ⟨rfl, hgiven⟩

theorem writeUser_of_short (h : (m.view [] []).Consistent)
    (hshort : (m.view [] []).FallsShort s vpn page segment) (hpos : sound → 0 < m.pool.total)
    (hwithin : Within va data.size vpn) (hallowed : page.writable = true) :
    Ends sound (writeUser s va data) m (fun _ _ => False)
      fun e m' => e = .ioError ∧ ∃ frame, GivenUp (m.view [] []) segment frame m' := by
  have hchunk : Ends sound (writeChunk s data (Chunk.ofPage va (va.val + data.size) vpn.number)) m
      (fun _ _ => False)
      fun e m' => e = .ioError ∧ ∃ frame, GivenUp (m.view [] []) segment frame m' :=
    (userFrame_of_short h hshort hpos fun _ => hallowed).bind fun _ _ hf => hf.elim
  unfold writeUser
  refine Ends.bind_ok (hwithin.userChunks (h.settled hshort.found).in_user m) ?_
  exact hchunk.bind fun _ _ hf => hf.elim

end MachineM

/-! ## Requests -/

/-- The requests that ask for the contents of one page alone, and are allowed to. -/
inductive Op.AsksFor (s : SpaceId) (vpn : VirtPage) (writable : Bool) : Op → Prop where
  | claim {va : VirtAddr} (at_page : va.page = vpn) : AsksFor s vpn writable (.claim s va)
  | fault {fault : PageFault} (at_page : VirtAddr.page ⟨fault.addr⟩ = vpn)
      (missing : fault.notPresent = true) (allowed : fault.write = true → writable = true) :
      AsksFor s vpn writable (.fault s fault)
  | read {va : VirtAddr} {buffer : Bytes} (within : MachineM.Within va buffer.size vpn) :
      AsksFor s vpn writable (.read s va buffer)
  | write {va : VirtAddr} {data : Bytes} (within : MachineM.Within va data.size vpn)
      (allowed : writable = true) : AsksFor s vpn writable (.write s va data)

/-- How a request ends that does nothing but report an error. A read hands its buffer back. -/
def Op.reporting (op : Op) (e : Errno) (m : Machine) : EStateM.Result Stop Machine Reply :=
  match op with
  | .read _ _ buffer => .ok (.buffer buffer (some e)) m
  | _ => .error (.failed e) m

namespace Machine

variable {m m' : Machine} {visit : Visit} {op : Op} {requests : List (Visit × Op)}

/-- What is left in a frame shows nowhere: with any other bytes in it, all that is asked of the
machine from then on is answered the same, and all pages in frames show the same. -/
def Hides (m : Machine) (frame : Frame) : Prop :=
  ∀ bytes pool, m.pool.store frame bytes = .ok pool →
    ∀ requests m₁, m.run? requests = some m₁ → ∃ n₁, (m.withPool pool).run? requests = some n₁ ∧
      (∀ other, m₁.InUse [] other → n₁.pool.load other = m₁.pool.load other) ∧
      ∀ (visit : Visit) (op : Op), Agree (fun _ => []) (op.execBy visit m₁) (op.execBy visit n₁)

theorem Sound.hides (h : m.Sound) (hfree : ¬m.InUse [] frame) : m.Hides frame := by
  intro bytes pool hstore requests m₁ hrun
  have hmatch : m.Matches [] (m.withPool pool) := by
    unfold FramePool.store at hstore
    split at hstore
    · obtain rfl := Except.ok.inj hstore
      refine .intro _ Array.size_setIfInBounds fun other hin => ?_
      have hne : frame ≠ other := by
        rintro rfl
        exact hfree hin
      rw [Array.getElem?_setIfInBounds, if_neg hne]
    · cases hstore
  obtain ⟨n₁, hrun₁, hmatch₁⟩ := hmatch.run h hrun
  refine ⟨n₁, hrun₁, fun other hin => hmatch₁.load_eq hin, fun visit op => ?_⟩
  exact Blind.execBy (h.run hrun) visit op n₁ hmatch₁

/-- A load of a page that failed has left nothing. -/
structure FailedLoad (m : Machine) (s : SpaceId) (vpn : VirtPage) (page : Page) (segment : Segment)
    (m' : Machine) : Prop where
  /-- The page stays as it was, with what its first touch is to do. -/
  page_eq : m'.page? s vpn = some page
  absent : page.frame = none
  unmapped : m'.entryAt? s vpn = none
  /-- The frame of the attempt has what came of the file in it. It is free again, and nobody sees
  what is in it. -/
  frame : ∃ frame, m'.pool.load frame = .ok (PageBytes.zero.overlay 0 (segment.fetch m'.files)) ∧
    frame ∉ m'.pool.handedOut ∧ m'.Hides frame
  /-- As many frames are handed out as there are resident pages. -/
  allocated_eq : m'.pool.allocated = m'.stats.resident
  /-- Anonymous pages keep their contents, wherever they are then. -/
  contents_eq : ∀ t u other, m.page? t u = some other → other.type = .anon →
    other.isUninit = false → ∃ bytes, m.contents? t u = some bytes ∧ m'.contents? t u = some bytes
  /-- Pages change at most in where their contents are. -/
  alike : ∀ t u, Option.Rel Page.Alike (m.page? t u) (m'.page? t u)

theorem Sound.failedLoad (h : m.Sound)
    (hshort : (m.view [] []).FallsShort s vpn page segment)
    (hgiven : GivenUp (m.view [] []) segment frame m') : m.FailedLoad s vpn page segment m' := by
  have hc := hgiven.steps.consistent h.consistent
  have hroomier := hgiven.steps.roomier h.consistent
  have hsound : m'.Sound := h.steps hgiven.steps fun d hd => by
    cases d <;> trivial
  have hpage : m'.page? s vpn = some page := hroomier.absent hshort.found hshort.absent
  refine ⟨hpage, hshort.absent, (hc.settled hpage).of_none hshort.absent,
    ⟨frame, hgiven.leftover, ?_, hsound.hides hgiven.unused⟩, hsound.residency.allocated_eq, ?_,
    hroomier.alike⟩
  · rw [show m'.pool.handedOut = _ from hc.supplied.handedOut_eq]
    intro hin
    exact hgiven.unused (List.mem_append.mp hin)
  · intro t u other hother htype htouched
    obtain ⟨bytes, hbytes⟩ := h.consistent.exists_contents hother htype htouched
    refine ⟨bytes, hbytes, hgiven.steps.contents_kept h.consistent (fun d hd => ⟨?_, ?_⟩) hbytes⟩
    · rintro rfl
      exact hd
    · rintro rfl
      exact hd

/-- A request for a page whose file is too short reports an input error, and leaves nothing of the
attempt, unless it finds no room in the swap area. -/
theorem Sound.execBy_of_short (h : m.Sound) (hpos : 0 < m.pool.total)
    (hshort : (m.view [] []).FallsShort s vpn page segment) (hasks : op.AsksFor s vpn page.writable)
    (hroom : ∀ m', op.execBy visit m ≠ .error (.panicked .outOfSwapSlots) m') :
    ∃ m', op.execBy visit m = op.reporting .ioError m' ∧ m.FailedLoad s vpn page segment m' := by
  have hlive : True → 0 < m.pool.total := fun _ => hpos
  have hends : Ends True (op.execBy visit) m
      (fun reply m' => .ok reply m' = op.reporting .ioError m' ∧
        ∃ frame, GivenUp (m.view [] []) segment frame m')
      fun e m' => .error (.failed e) m' = op.reporting .ioError m' ∧
        ∃ frame, GivenUp (m.view [] []) segment frame m' := by
    have hreports : ∀ {action : MachineM Unit}, op.reporting .ioError =
          (fun m' => EStateM.Result.error (.failed .ioError) m') →
        Ends True action m (fun _ _ => False)
          (fun e m' => e = .ioError ∧ ∃ frame, GivenUp (m.view [] []) segment frame m') →
        Ends True (action >>= fun _ => Pure.pure Reply.done) m
          (fun reply m' => .ok reply m' = op.reporting .ioError m' ∧
            ∃ frame, GivenUp (m.view [] []) segment frame m')
          fun e m' => .error (.failed e) m' = op.reporting .ioError m' ∧
            ∃ frame, GivenUp (m.view [] []) segment frame m' := by
      intro action hreport hfails
      refine (hfails.mono (fun _ _ hf => hf) ?_).bind fun _ _ hf => hf.elim
      rintro e m' ⟨rfl, hgiven⟩
      exact ⟨by rw [hreport], hgiven⟩
    cases hasks with
    | claim hat =>
        subst hat
        exact hreports rfl (Ends.of_eq (MachineM.claimAt_of_registered hshort.found)
          (MachineM.claim_of_short h.consistent hshort hlive))
    | fault hat hmissing hallowed =>
        exact hreports rfl
          (MachineM.handleFault_of_short h.consistent hshort hlive hat hmissing hallowed)
    | read hwithin =>
        refine (MachineM.readUser_of_short h.consistent hshort hlive hwithin).bind_total ?_
        rintro result m' ⟨rfl, hgiven⟩
        exact Ends.pure ⟨rfl, hgiven⟩
    | write hwithin hallowed =>
        exact hreports rfl
          (MachineM.writeUser_of_short h.consistent hshort hlive hwithin hallowed)
  cases hresult : op.execBy visit m with
  | ok reply m' =>
      obtain ⟨hreport, frame, hgiven⟩ := hends.ok_of_eq hresult
      exact ⟨m', hreport, h.failedLoad hshort hgiven⟩
  | error stop m' =>
      cases stop with
      | failed e =>
          obtain ⟨hreport, frame, hgiven⟩ := hends.failed_of_eq hresult
          exact ⟨m', hreport, h.failedLoad hshort hgiven⟩
      | panicked p =>
          obtain ⟨rfl, -⟩ := hends.panicked_of_eq hresult trivial
          exact (hroom m' hresult).elim

/-- In every machine that was booted with a frame and served requests, a load of a page fails with
an input error if the file is too short for the page, whichever request asks for it, and leaves
nothing. -/
theorem failedLoad_of_run {frames : ℕ} {disk : Disk} {files : FileStore}
    (hframes : frames ≤ PageTable.Entry.frameBound) (hpos : 0 < frames)
    (hrun : (boot frames disk files).run? requests = some m)
    (hshort : (m.view [] []).FallsShort s vpn page segment) (hasks : op.AsksFor s vpn page.writable)
    (hroom : ∀ m', op.execBy visit m ≠ .error (.panicked .outOfSwapSlots) m') :
    ∃ m', op.execBy visit m = op.reporting .ioError m' ∧ m.FailedLoad s vpn page segment m' := by
  refine (sound_of_run hframes hrun).execBy_of_short ?_ hshort hasks hroom
  rw [total_run (sound_boot hframes disk files) hrun]
  exact hpos.trans_eq Array.size_replicate.symm

/-- The file of a page is cut after it was mapped. The read of the page takes the only frame from an
anonymous page, and leaves the byte that is left of the file in it. -/
theorem failedLoad_of_truncated : ∃ (m : Machine) (page : Page) (segment : Segment) (m' : Machine),
    (boot 1 (.zeroed 8) (.ofFiles #[⟨#[0x41, 0x42], 1, none, none, none, none⟩])).run? ([.create,
      .alloc 0 ⟨pageSize⟩ true .zero .anon, .map 0 ⟨2 * pageSize⟩ 2 true 0 0,
      .claim 0 ⟨pageSize⟩, .truncate 0 1].map (Visit.ascending, ·)) = some m ∧
      (m.view [] []).FallsShort 0 ⟨2⟩ page segment ∧ (segment.fetch m.files).size = 1 ∧
      (Op.read 0 ⟨2 * pageSize⟩ #[7]).execBy .ascending m =
        .ok (.buffer #[7] (some .ioError)) m' ∧
      m.FailedLoad 0 ⟨2⟩ page segment m' := by
  have hserved : ((boot 1 (.zeroed 8)
      (.ofFiles #[⟨#[0x41, 0x42], 1, none, none, none, none⟩])).run? ([.create,
        .alloc 0 ⟨pageSize⟩ true .zero .anon, .map 0 ⟨2 * pageSize⟩ 2 true 0 0,
        .claim 0 ⟨pageSize⟩, .truncate 0 1].map (Visit.ascending, ·))).any (fun m =>
      ((m.page? 0 ⟨2⟩).any fun page => decide (page.frame = none) &&
        page.segment?.any fun segment => decide ((segment.fetch m.files).size = 1) &&
          decide (1 < segment.readBytes)) &&
        (m.step? .ascending (.read 0 ⟨2 * pageSize⟩ #[7])).isSome) = true := by
    decide +kernel
  simp only [Option.any_eq_true, Bool.and_eq_true, decide_eq_true_eq] at hserved
  obtain ⟨m, hrun, ⟨page, hpage, habsent, segment, hsegment, hsize, hless⟩, hstep⟩ := hserved
  have hshort : (m.view [] []).FallsShort 0 ⟨2⟩ page segment :=
    ⟨hpage, habsent, hsegment, hsize.trans_lt hless⟩
  have hwithin : MachineM.Within ⟨2 * pageSize⟩ (#[7] : Bytes).size ⟨2⟩ :=
    ⟨one_ne_zero, by decide, by decide⟩
  have hroom : ∀ m', (Op.read 0 ⟨2 * pageSize⟩ #[7]).execBy .ascending m ≠
      .error (.panicked .outOfSwapSlots) m' := fun m' hpanic => by
    rw [step?_eq_none.mpr ⟨_, m', hpanic⟩] at hstep
    cases hstep
  obtain ⟨m', hread, hfailed⟩ :=
    failedLoad_of_run (by decide) (by decide) hrun hshort (.read hwithin) hroom
  exact ⟨m, page, segment, m', hrun, hshort, hsize, hread, hfailed⟩

end Machine

end DemandPaging
