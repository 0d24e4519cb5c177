import DemandPaging.Proofs.FailedLoad
import DemandPaging.Proofs.KeptFrames
import DemandPaging.Proofs.Lineage
import DemandPaging.Proofs.RunningOut

/-! # What comes of a fault

A fault is refused for one of four reasons, and nothing changes then. Every other fault brings its
page in, after a new page of zeros was registered if the stack grows, unless the file of the page is
too short for it. So the pages that faults register lie in the stack region.
-/

namespace DemandPaging

/-! ## The stack region -/

/-- All addresses of a page lie in the region that the stack may grow to. -/
def VirtPage.InStack (vpn : VirtPage) : Prop :=
  userStackTop - stackLimit ≤ vpn.number * pageSize ∧ (vpn.number + 1) * pageSize ≤ userStackTop

/-- The region begins and ends where pages do, so a page that has an address of it lies in it. -/
theorem Space.inStack_of_isStackAccess {space : Space} {va : VirtAddr}
    (h : space.isStackAccess va = true) : va.page.InStack := by
  simp only [isStackAccess, Bool.and_eq_true, decide_eq_true_eq] at h
  rw [VirtPage.InStack, VirtAddr.page_number]
  simp only [userStackTop, stackLimit, pageSize] at h ⊢
  omega

/-! ## Reasons to refuse a fault -/

section

variable {m m' : Machine} {s : SpaceId} {space : Space} {vpn : VirtPage} {page : Page}
  {fault : PageFault}

/-- Why a fault of a process is refused, whose stack pointer is `userSp`. -/
inductive Machine.Refused (m : Machine) (s : SpaceId) (userSp : ℕ) (fault : PageFault) : Prop where
  | kernel (outside : userEnd ≤ fault.addr)
  | protection (present : fault.notPresent = false)
  | readOnly {page : Page} (found : m.page? s (VirtAddr.page ⟨fault.addr⟩) = some page)
      (readOnly : page.writable = false) (write : fault.write = true)
  | invalid (missing : m.page? s (VirtAddr.page ⟨fault.addr⟩) = none)
      (noStack : ¬(userStackTop - stackLimit ≤ fault.addr ∧ fault.addr < userStackTop ∧
        userSp ≤ fault.addr + stackSlack))

theorem Machine.refused_iff (hspace : m.space? s = some space) :
    m.Refused s space.userSp fault ↔ space.refuses fault = true := by
  have hpage := Machine.page?_of_space? hspace (VirtAddr.page ⟨fault.addr⟩)
  simp only [Space.refuses, Space.pageAt?, ← hpage, VirtAddr.isUser, Bool.or_eq_true,
    Bool.not_eq_true', decide_eq_false_iff_not]
  constructor
  · rintro (outside | present | ⟨found, readOnly, write⟩ | ⟨missing, noStack⟩)
    · exact .inl (.inl outside.not_gt)
    · exact .inl (.inr present)
    · exact .inr (by simp [found, readOnly, write])
    · refine .inr ?_
      simp only [missing, Space.isStackAccess, Bool.not_eq_true', Bool.and_eq_false_iff,
        decide_eq_false_iff_not]
      tauto
  · rintro ((outside | present) | hplace)
    · exact .kernel (not_lt.mp outside)
    · exact .protection present
    · cases hp : m.page? s (VirtAddr.page ⟨fault.addr⟩) with
      | some page =>
          simp only [hp, Bool.and_eq_true, Bool.not_eq_true'] at hplace
          exact .readOnly hp hplace.2 hplace.1
      | none =>
          simp only [hp, Space.isStackAccess, Bool.not_eq_true', Bool.and_eq_false_iff,
            decide_eq_false_iff_not] at hplace
          exact .invalid hp (by tauto)

namespace MachineM

/-! ## Growing the stack -/

theorem alloc_of_fresh (hspace : m.space? s = some space) (hfresh : m.page? s vpn = none)
    (hin : vpn.number < userPages) (writable : Bool) (pins : List BackingId) :
    ∃ m₁, alloc s vpn.start writable .zero .anon m = .ok () m₁ ∧
      m₁.view [] pins = (m.view [] pins).registered s (.untouched vpn writable .zero) := by
  have hpage := (VirtPage.start_of_lt hin).2
  have haligned : (vpn.start.isAligned && vpn.start.isUser) = true := by
    rw [VirtPage.isUser_start hin, Bool.and_true, VirtAddr.isAligned, VirtAddr.offset,
      (VirtPage.start_of_lt hin).1, Nat.mul_mod_left]
    rfl
  have hfresh' : m.page? s (Page.untouched vpn writable .zero).vpn = none := hfresh
  obtain ⟨m₁, hregister, hview⟩ := register_of_fresh hspace hfresh' [] pins
  refine ⟨m₁, ?_, hview⟩
  rw [alloc, haligned, hpage]
  exact hregister

/-- To grow the stack is to claim a page of zeros that was just registered. -/
theorem growStack_eq_claim (hspace : m.space? s = some space) (hfresh : m.page? s vpn = none)
    (hin : vpn.number < userPages) (pins : List BackingId) :
    ∃ m₁, growStack s vpn m = claim s vpn m₁ ∧
      m₁.view [] pins = (m.view [] pins).registered s (.untouched vpn true .zero) := by
  have hemit : emit (.stackGrown vpn) m = .ok ()
    { m with events := m.events.push (.stackGrown vpn) } := rfl
  obtain ⟨m₁, halloc, hview⟩ := alloc_of_fresh
    (m := { m with events := m.events.push (.stackGrown vpn) }) hspace hfresh hin true pins
  have hp : m₁.page? s vpn.start.page = some (.untouched vpn true .zero) := by
    rw [(VirtPage.start_of_lt hin).2]
    exact (congrFun (congrFun (congrArg View.page hview) s) vpn).trans setAt_same
  refine ⟨m₁, ?_, hview⟩
  rw [growStack, bind_of_ok hemit, bind_of_ok halloc, claimAt_of_registered hp,
    (VirtPage.start_of_lt hin).2]

/-! ## Claiming -/

theorem fallsShort_of_lacks {V : View} (h : V.Lacks page) (hc : V.Consistent)
    (hp : V.page s vpn = some page) (habsent : page.frame = none) :
    ∃ segment, V.FallsShort s vpn page segment := by
  obtain ⟨U, segment, bytes, hsteps, hsegment, hload⟩ := h
  refine ⟨segment, hp, habsent, hsegment, ?_⟩
  rw [← hsteps.size_fetch_of_room hc segment]
  exact Segment.size_fetch_lt_of_loadInto hload

theorem claim_failed {e : Errno} (h : (m.view [] []).Consistent) (hp : m.page? s vpn = some page)
    (hclaim : claim s vpn m = .error (.failed e) m') :
    e = .ioError ∧ ∃ segment, (m.view [] []).FallsShort s vpn page segment := by
  have habsent : page.frame = none := by
    by_contra hframe
    have hin : m.inFrame s vpn = true := inFrame_iff.mpr ⟨page, hp, hframe⟩
    cases (claim_of_inFrame hin).symm.trans hclaim
  obtain ⟨he, -, hlacks⟩ := (claim_ends h hp False.elim).failed_of_eq hclaim
  exact ⟨he, fallsShort_of_lacks hlacks h hp habsent⟩

/-- What a fault that is not refused claims: a page that is there, or a new page of the stack. -/
inductive Claimable (m : Machine) (s : SpaceId) (vpn : VirtPage) (m₁ : Machine) : Prop where
  | found {page : Page} (found : m.page? s vpn = some page)
      (view_eq : m₁.view [] [] = m.view [] [])
  | grown (missing : m.page? s vpn = none) (inStack : vpn.InStack) (inside : vpn.number < userPages)
      (view_eq : m₁.view [] [] = (m.view [] []).registered s (.untouched vpn true .zero))

theorem handleFault_eq_claim (hspace : m.space? s = some space)
    (haccepts : space.refuses fault = false) :
    ∃ m₁, handleFault s fault m = claim s (VirtAddr.page ⟨fault.addr⟩) m₁ ∧
      Claimable m s (VirtAddr.page ⟨fault.addr⟩) m₁ := by
  rcases handleFault_cases hspace fault with
    ⟨hrefuses, -⟩ | ⟨-, ⟨page, hp, -, hclaim⟩ | ⟨hmissing, hin, hstack, hgrow⟩⟩
  · cases haccepts.symm.trans hrefuses
  · exact ⟨m.told fault, hclaim, .found hp rfl⟩
  · obtain ⟨m₁, hclaim, hview⟩ := growStack_eq_claim (m := m.told fault) hspace hmissing hin []
    exact ⟨m₁, hgrow.trans hclaim,
      .grown hmissing (Space.inStack_of_isStackAccess hstack) hin hview⟩

section Claimable

variable {m₁ : Machine} (hspace : m.space? s = some space) (hclaimable : Claimable m s vpn m₁)

include hclaimable

theorem Claimable.pool_eq : m₁.pool = m.pool ∧ m₁.swap = m.swap := by
  cases hclaimable with
  | found found view_eq => exact ⟨congrArg View.pool view_eq, congrArg View.swap view_eq⟩
  | grown missing inStack inside view_eq =>
      exact ⟨congrArg View.pool view_eq, congrArg View.swap view_eq⟩

theorem Claimable.page_eq {t : SpaceId} {u : VirtPage} (hne : ¬(s = t ∧ vpn = u)) :
    m₁.page? t u = m.page? t u := by
  cases hclaimable with
  | found found view_eq => exact congrFun (congrFun (congrArg View.page view_eq) t) u
  | grown missing inStack inside view_eq =>
      exact (congrFun (congrFun (congrArg View.page view_eq) t) u).trans (setAt_of_ne hne)

theorem Claimable.exists_page : ∃ page, m₁.page? s vpn = some page := by
  cases hclaimable with
  | found found view_eq =>
      exact ⟨_, (congrFun (congrFun (congrArg View.page view_eq) s) vpn).trans found⟩
  | grown missing inStack inside view_eq =>
      exact ⟨_, (congrFun (congrFun (congrArg View.page view_eq) s) vpn).trans setAt_same⟩

include hspace

theorem Claimable.consistent (h : (m.view [] []).Consistent) : (m₁.view [] []).Consistent := by
  cases hclaimable with
  | found found view_eq => rwa [view_eq]
  | grown missing inStack inside view_eq =>
      rw [view_eq]
      refine Step.consistent (Step.register (Machine.live_of_space? hspace) missing inside ?_) h
      exact fun segment hsegment => by cases hsegment

end Claimable

/-- A page keeps what it shows and its permission while a page is brought in. -/
theorem becomes_of_claiming {V W : View} (hsteps : Steps (Deed.claiming s vpn) V W)
    (h : V.Consistent) (t : SpaceId) (u : VirtPage) :
    Option.Rel Page.Becomes (V.page t u) (W.page t u) := by
  refine (hsteps.invariant (fun U => U.Consistent ∧
    Option.Rel Page.Becomes (V.page t u) (U.page t u)) (fun d hd U X hstep hU => ?_) ⟨h, ?_⟩).2
  · refine ⟨hstep.consistent hU.1, ?_⟩
    have hnot : d ≠ .discard t u ∧ ∀ page, d ≠ .register t page ∧ d ≠ .adopt t page ∧
        ∀ src, d ≠ .inherit t src u ∧ d ≠ .copy t src u := by
      rcases hd with rfl | hd
      · simp
      · cases d <;> first | exact hd.elim | simp
    obtain ⟨hdiscard, hadds⟩ := hnot
    cases hstep.pageChange hU.1 t u with
    | same page_eq => rw [page_eq]; exact hU.2
    | moved found now becomes =>
        have hrel := hU.2
        rw [found] at hrel
        rw [now]
        generalize V.page t u = first at hrel
        cases hrel with
        | some hfirst => exact .some (hfirst.trans becomes)
    | gone now deed => exact (hdiscard deed).elim
    | registered fresh now vpn_eq deed =>
        rcases deed with deed | deed
        · exact ((hadds _).1 deed).elim
        · exact ((hadds _).2.1 deed).elim
    | inherited fresh now found becomes deed =>
        rename_i src other page
        rcases deed with deed | deed
        · exact (((hadds page).2.2 src).1 deed).elim
        · exact (((hadds page).2.2 src).2 deed).elim
  · cases V.page t u with
    | none => exact .none
    | some page => exact .some (.refl page)

end MachineM

/-- What a fault leaves that was resolved. -/
structure Machine.Resolved (m : Machine) (s : SpaceId) (vpn : VirtPage) (m' : Machine) : Prop where
  /-- The page is resident and mapped with its own permission. -/
  occupies : ∃ frame page entry, m'.Occupies ⟨frame, s, vpn⟩ page entry
  /-- A page that was there shows what it showed, and may be written as before. -/
  kept : ∀ before, m.page? s vpn = some before →
    ∃ after, m'.page? s vpn = some after ∧ before.Becomes after
  /-- A page that was not there is a writable page of zeros, and lies in the stack region. -/
  grown : m.page? s vpn = none → vpn.InStack ∧ ∃ page, m'.page? s vpn = some page ∧
    page.writable = true ∧ page.kind = .anon none ∧ m'.contents? s vpn = some PageBytes.zero
  /-- No other page was registered or removed. -/
  others : ∀ t u, ¬(s = t ∧ vpn = u) → Option.Rel Page.Becomes (m.page? t u) (m'.page? t u)

theorem View.Consistent.kind_of_contents {V : View} {bytes : PageBytes} (h : V.Consistent)
    (hp : V.page s vpn = some page) (hframe : page.frame ≠ none)
    (hbytes : V.contents s vpn = some bytes) : page.kind = .anon none := by
  have hplaced := (h.settled hp).placed
  rw [View.contents_of_page hp] at hbytes
  unfold Page.contents? at hbytes
  unfold Page.Placed at hplaced
  cases hkind : page.kind with
  | uninit touch =>
      rw [hkind] at hplaced
      exact (hframe hplaced).elim
  | file segment =>
      rw [hkind] at hbytes
      cases hbytes
  | anon slot =>
      rw [hkind] at hplaced
      cases slot with
      | none => rfl
      | some slot => exact (hframe (by simpa using hplaced)).elim

namespace MachineM

theorem resolved_of_claim {m₁ : Machine} (h : (m.view [] []).Consistent)
    (hspace : m.space? s = some space) (hclaimable : Claimable m s vpn m₁)
    (hclaim : claim s vpn m₁ = .ok () m') : m.Resolved s vpn m' := by
  obtain ⟨page, hp⟩ := hclaimable.exists_page
  have h₁ := hclaimable.consistent hspace h
  obtain ⟨hsteps, after, hafter, hframe, hwritable⟩ :=
    (claim_ends h₁ hp False.elim).ok_of_eq hclaim
  have hc := hsteps.consistent h₁
  have hbecomes := becomes_of_claiming hsteps h₁
  obtain ⟨frame, hframe'⟩ := Option.ne_none_iff_exists'.mp hframe
  obtain ⟨entry, hentry, hmapped, hvalid, hsame⟩ := hc.mapped hafter hframe'
  refine ⟨⟨frame, after, entry, hafter, hframe', (hc.settled hafter).vpn_eq, hentry, hmapped,
    hvalid, hsame⟩, fun before hbefore => ?_, fun hmissing => ?_, fun t u hne => ?_⟩
  · cases hclaimable with
    | found found view_eq =>
        have hrel := hbecomes s vpn
        rw [view_eq, show (m.view [] []).page s vpn = some before from hbefore,
          show (m'.view [] []).page s vpn = some after from hafter] at hrel
        cases hrel with
        | some halike => exact ⟨after, hafter, halike⟩
    | grown missing => cases missing.symm.trans hbefore
  · cases hclaimable with
    | found found => cases hmissing.symm.trans found
    | grown missing inStack inside view_eq =>
        have hfirst : m₁.page? s vpn = some (.untouched vpn true .zero) :=
          (congrFun (congrFun (congrArg View.page view_eq) s) vpn).trans setAt_same
        obtain rfl := Option.some.inj (hp.symm.trans hfirst)
        have hzero : (m'.view [] []).contents s vpn = some PageBytes.zero := by
          refine hsteps.contents_kept h₁ (fun d hd => ?_)
            (View.contents_untouched (V := m₁.view [] []) hfirst)
          rcases hd with rfl | hd
          · simp
          · cases d <;> first | exact hd.elim | simp
        exact ⟨inStack, after, hafter, hwritable, hc.kind_of_contents hafter hframe hzero, hzero⟩
  · have hrel := hbecomes t u
    rwa [show (m₁.view [] []).page t u = m.page? t u from hclaimable.page_eq hne] at hrel

/-- A claim after a fault fails only for a page that was there, and whose file is too short. -/
theorem fallsShort_of_claim {m₁ : Machine} {e : Errno} (h : (m.view [] []).Consistent)
    (hspace : m.space? s = some space) (hclaimable : Claimable m s vpn m₁)
    (hclaim : claim s vpn m₁ = .error (.failed e) m') :
    e = .ioError ∧ ∃ page segment, (m.view [] []).FallsShort s vpn page segment := by
  obtain ⟨page, hp⟩ := hclaimable.exists_page
  obtain ⟨rfl, segment, hfalls⟩ := claim_failed (hclaimable.consistent hspace h) hp hclaim
  refine ⟨rfl, page, segment, ?_⟩
  cases hclaimable with
  | found found view_eq => rwa [view_eq] at hfalls
  | grown missing inStack inside view_eq =>
      have hfirst : m₁.page? s vpn = some (.untouched vpn true .zero) :=
        (congrFun (congrFun (congrArg View.page view_eq) s) vpn).trans setAt_same
      obtain rfl := Option.some.inj (hp.symm.trans hfirst)
      cases hfalls.segment_eq

theorem claim_ne_panicked {m₁ : Machine} {p : Panic} (h : (m.view [] []).Consistent)
    (hpos : 0 < m.pool.total) (hspace : m.space? s = some space)
    (hroom : m.frames.size < m.pool.total ∨ m.swap.used < m.swap.slotCount)
    (hclaimable : Claimable m s vpn m₁) : claim s vpn m₁ ≠ .error (.panicked p) m' := by
  intro hclaim
  obtain ⟨page, hp⟩ := hclaimable.exists_page
  have hlacking := claim_panicked (hclaimable.consistent hspace h) hp hclaim
  cases hlacking.congr hclaimable.pool_eq.1.symm hclaimable.pool_eq.2.symm with
  | slot full exhausted =>
      rw [alloc?_eq_none_iff h] at full
      rw [slot_alloc?_eq_none_iff h] at exhausted
      omega
  | frame none => omega

end MachineM

/-- How a fault of an address space ends. -/
structure Machine.AnswersFault (m : Machine) (s : SpaceId) (space : Space) (fault : PageFault) :
    Prop where
  refused_iff : (∃ m', MachineM.handleFault s fault m = .error (.failed .badAddress) m') ↔
    m.Refused s space.userSp fault
  /-- A fault that is refused changes nothing but what was reported. -/
  unchanged : ∀ m', MachineM.handleFault s fault m = .error (.failed .badAddress) m' →
    ∃ events, m' = { m with events }
  /-- Any other fault is resolved, or fails for a page that is too long for its file. The machine
  has room for a page if a frame is free or the page that gives up its frame finds a slot. -/
  settled : ¬m.Refused s space.userSp fault →
    m.frames.size < m.pool.total ∨ m.swap.used < m.swap.slotCount →
    (∃ m', MachineM.handleFault s fault m = .ok () m') ∨
    ∃ page segment m', (m.view [] []).FallsShort s (VirtAddr.page ⟨fault.addr⟩) page segment ∧
      MachineM.handleFault s fault m = .error (.failed .ioError) m'
  /-- A fault fails for no other reason. -/
  failed : ∀ e m', MachineM.handleFault s fault m = .error (.failed e) m' → e ≠ .badAddress →
    e = .ioError ∧ ∃ page segment,
      (m.view [] []).FallsShort s (VirtAddr.page ⟨fault.addr⟩) page segment
  resolved : ∀ m', MachineM.handleFault s fault m = .ok () m' →
    m.Resolved s (VirtAddr.page ⟨fault.addr⟩) m'

theorem Machine.Sound.answersFault (h : m.Sound) (hpos : 0 < m.pool.total)
    (hspace : m.space? s = some space) (fault : PageFault) : m.AnswersFault s space fault := by
  have hlive : False → (m.view [] []).Live s := False.elim
  have hends := MachineM.handleFault_ends h.consistent False.elim hlive fault
  have hrefuses : MachineM.Refuses m s fault ↔ m.Refused s space.userSp fault :=
    (MachineM.refuses_iff hspace fault).trans (refused_iff hspace).symm
  have hclaims : ¬m.Refused s space.userSp fault → ∃ m₁,
      MachineM.handleFault s fault m = MachineM.claim s (VirtAddr.page ⟨fault.addr⟩) m₁ ∧
        MachineM.Claimable m s (VirtAddr.page ⟨fault.addr⟩) m₁ := fun hnot =>
    MachineM.handleFault_eq_claim hspace (by rwa [refused_iff hspace, Bool.not_eq_true] at hnot)
  refine ⟨⟨?_, fun hrefused => ?_⟩, fun m' hfailed => ?_, fun hnot hroom => ?_,
    fun e m' hfailed he => ?_, fun m' hok => ?_⟩
  · rintro ⟨m', hfailed⟩
    exact hrefuses.mp ((hends.failed_of_eq hfailed).1.mp rfl)
  · obtain ⟨events, hfailed⟩ :=
      MachineM.handleFault_of_refuses hspace ((refused_iff hspace).mp hrefused)
    exact ⟨_, hfailed⟩
  · have hrefused := hrefuses.mp ((hends.failed_of_eq hfailed).1.mp rfl)
    obtain ⟨events, hdown⟩ :=
      MachineM.handleFault_of_refuses hspace ((refused_iff hspace).mp hrefused)
    exact ⟨events, (EStateM.Result.error.inj (hfailed.symm.trans hdown)).2⟩
  · obtain ⟨m₁, heq, hclaimable⟩ := hclaims hnot
    cases hresult : MachineM.handleFault s fault m with
    | ok _ m' => exact .inl ⟨m', rfl⟩
    | error stop m' =>
        rw [heq] at hresult
        cases stop with
        | failed e =>
            obtain ⟨rfl, page, segment, hfalls⟩ :=
              MachineM.fallsShort_of_claim h.consistent hspace hclaimable hresult
            exact .inr ⟨page, segment, m', hfalls, rfl⟩
        | panicked p =>
            exact (MachineM.claim_ne_panicked h.consistent hpos hspace hroom hclaimable
              hresult).elim
  · have hnot : ¬m.Refused s space.userSp fault := fun hrefused =>
      he ((hends.failed_of_eq hfailed).1.mpr (hrefuses.mpr hrefused))
    obtain ⟨m₁, heq, hclaimable⟩ := hclaims hnot
    exact MachineM.fallsShort_of_claim h.consistent hspace hclaimable (heq.symm.trans hfailed)
  · have hnot : ¬m.Refused s space.userSp fault := fun hrefused =>
      (hends.ok_of_eq hok).1 (hrefuses.mpr hrefused)
    obtain ⟨m₁, heq, hclaimable⟩ := hclaims hnot
    exact MachineM.resolved_of_claim h.consistent hspace hclaimable (heq.symm.trans hok)

/-! ## Claims, one after another -/

/-- An action ends with a value or with an error, and leads to a machine. -/
def MachineM.Leads {α : Type} (action : MachineM α) (m m' : Machine) : Prop :=
  (∃ a, action m = .ok a m') ∨ ∃ e, action m = .error (.failed e) m'

/-- How many pages are evicted for the claim of a page: one if the page is not resident and no frame
is free. -/
def Machine.evictedFor (m : Machine) (s : SpaceId) (vpn : VirtPage) : ℕ :=
  if m.inFrame s vpn = false ∧ m.frames.size = m.pool.total then 1 else 0

theorem Machine.page?_putTable (hspace : m.space? s = some space) (table : PageTable) :
    (m.setSpace s { space with table }).page? = m.page? := by
  funext t u
  rw [Machine.page?, Machine.space?_setSpace]
  split
  · next hs => exact hs ▸ (Machine.page?_of_space? hspace u).symm
  · rfl

namespace MachineM

/-- From one machine to another by claims of pages of an address space, for which some number of
pages is evicted, and by changes that concern neither the registered pages nor the frames in use. -/
inductive ByClaims (s : SpaceId) (m : Machine) : ℕ → Machine → Prop where
  | refl : ByClaims s m 0 m
  | same {m₁ m' : Machine} {evicted : ℕ} (before : ByClaims s m evicted m₁)
      (page_eq : m'.page? = m₁.page?) (frames_eq : m'.frames = m₁.frames) : ByClaims s m evicted m'
  | claimed {m₁ m₂ m' : Machine} {evicted : ℕ} {vpn : VirtPage} (before : ByClaims s m evicted m₁)
      (consistent : (m₂.view [] []).Consistent) (claimable : Claimable m₁ s vpn m₂)
      (claims : Leads (claim s vpn) m₂ m') : ByClaims s m (evicted + m₂.evictedFor s vpn) m'

theorem ByClaims.trans {m₁ : Machine} {evicted more : ℕ} (h : ByClaims s m evicted m₁)
    (h' : ByClaims s m₁ more m') : ByClaims s m (evicted + more) m' := by
  induction h' with
  | refl => exact h
  | same before page_eq frames_eq ih => exact .same ih page_eq frames_eq
  | claimed before consistent claimable claims ih =>
      rw [← Nat.add_assoc]
      exact .claimed ih consistent claimable claims

/-- An address space is led from one machine to another by claims of its pages. -/
def ThroughClaims (s : SpaceId) (m m' : Machine) : Prop :=
  ∃ evicted, ByClaims s m evicted m'

theorem ThroughClaims.refl (s : SpaceId) (m : Machine) : ThroughClaims s m m :=
  ⟨0, .refl⟩

theorem ThroughClaims.same (page_eq : m'.page? = m.page?) (frames_eq : m'.frames = m.frames) :
    ThroughClaims s m m' :=
  ⟨0, .same .refl page_eq frames_eq⟩

theorem ThroughClaims.trans {m₁ : Machine} (h : ThroughClaims s m m₁)
    (h' : ThroughClaims s m₁ m') : ThroughClaims s m m' := by
  obtain ⟨evicted, h⟩ := h
  obtain ⟨more, h'⟩ := h'
  exact ⟨_, h.trans h'⟩

/-- A claim of a page that is there, or was just registered. -/
theorem claim_through {m₁ : Machine} (h : (m.view [] []).Consistent)
    (hspace : m.space? s = some space) (hclaimable : Claimable m s vpn m₁) :
    Ends False (claim s vpn) m₁
      (fun _ m' => ThroughClaims s m m' ∧ (m'.view [] []).Consistent)
      fun _ m' => ThroughClaims s m m' := by
  have h₁ := hclaimable.consistent hspace h
  obtain ⟨page, hp⟩ := hclaimable.exists_page
  refine ((claim_ends h₁ hp False.elim).with_eq).mono ?_ ?_
  · rintro done m' ⟨hclaim, hsteps, -⟩
    exact ⟨⟨_, .claimed .refl h₁ hclaimable (.inl ⟨done, hclaim⟩)⟩, hsteps.consistent h₁⟩
  · rintro e m' ⟨hclaim, -⟩
    exact ⟨_, .claimed .refl h₁ hclaimable (.inr ⟨e, hclaim⟩)⟩

theorem handleFault_through (h : (m.view [] []).Consistent) (fault : PageFault) :
    Ends False (handleFault s fault) m
      (fun _ m' => ThroughClaims s m m' ∧ (m'.view [] []).Consistent)
      fun _ m' => ThroughClaims s m m' := by
  cases hspace : m.space? s with
  | none => exact Ends.of_panicked (handleFault_of_no_space hspace fault) False.elim
  | some space =>
      by_cases hrefuses : space.refuses fault = true
      · obtain ⟨events, hfailed⟩ := handleFault_of_refuses hspace hrefuses
        exact Ends.of_failed hfailed (.same rfl rfl)
      · obtain ⟨m₁, heq, hclaimable⟩ :=
          handleFault_eq_claim hspace (Bool.eq_false_iff.mpr hrefuses)
        exact Ends.of_eq heq (claim_through h hspace hclaimable)

theorem accessPage_through (h : (m.view [] []).Consistent) (vpn : VirtPage) (write : Bool)
    (attempts : ℕ) :
    Ends False (accessPage s vpn write attempts) m (fun _ m' => ThroughClaims s m m')
      fun _ m' => ThroughClaims s m m' := by
  induction attempts generalizing m with
  | zero => exact Ends.panic id
  | succ attempts ih =>
      have hlive : False → (m.view [] []).Live s := False.elim
      rw [accessPage]
      refine Ends.space hlive fun space hspace => ?_
      cases haccess : space.table.access vpn write with
      | ok passed =>
          have hpage := Machine.page?_putTable hspace passed.2
          exact Ends.bind_ok rfl (Ends.pure (.same hpage rfl))
      | error fault =>
          cases fault with
          | protection => exact Ends.bind_ok rfl (Ends.fail (.same rfl rfl))
          | notPresent =>
              refine (handleFault_through h _).bind ?_
              rintro - m₁ ⟨hthrough, h₁⟩
              exact (ih h₁).mono (fun _ _ hmore => hthrough.trans hmore)
                fun _ _ hmore => hthrough.trans hmore

theorem userFrame_through (h : Ready False m s []) (hin : vpn.number < userPages) (write : Bool) :
    Ends False (userFrame s vpn write) m
      (fun frame m' => ThroughClaims s m m' ∧ Ready False m' s [] ∧ Accessed m' s vpn write frame)
      fun _ m' => ThroughClaims s m m' := by
  refine ((accessPage_through (s := s) h.consistent vpn write accessAttempts).and
    (userFrame_ends h.consistent h.total_pos h.live hin write)).mono ?_ fun _ _ hf => hf.1
  rintro frame m' ⟨hthrough, -, hsteps, haccessed⟩
  have hready := h.steps hsteps fun d hd =>
    keepsSpaces_of_accessing (Deed.reaching_subset_accessing s vpn hd)
  exact ⟨hthrough, hready, haccessed⟩

theorem readChunks_through {chunks : List Chunk} (h : Ready False m s [])
    (hin : ∀ chunk ∈ chunks, chunk.page.number < userPages) (buffer : Bytes) :
    Ends False (readChunks s chunks buffer) m (fun _ m' => ThroughClaims s m m')
      fun _ _ => False := by
  refine readChunks_of_invariant [] (fun rest _ m' => ThroughClaims s m m' ∧ Ready False m' s [] ∧
    ∀ chunk ∈ rest, chunk.page.number < userPages) ⟨.refl s m, h, hin⟩ And.left ?_
  rintro chunk rest buffer m₁ ⟨hthrough, h₁, hrest⟩
  obtain ⟨hfirst, hlater⟩ := List.forall_mem_cons.mp hrest
  refine (userFrame_through h₁ hfirst false).mono ?_ fun _ _ hmore => hthrough.trans hmore
  rintro frame m₂ ⟨hmore, h₂, haccessed⟩
  exact ⟨h₂.consistent, haccessed, fun _ _ => ⟨hthrough.trans hmore, h₂, hlater⟩⟩

theorem writeChunk_through (h : Ready False m s []) (data : Bytes) {chunk : Chunk}
    (hin : chunk.page.number < userPages) :
    Ends False (writeChunk s data chunk) m (fun _ m' => ThroughClaims s m m')
      fun _ m' => ThroughClaims s m m' := by
  unfold writeChunk
  refine (userFrame_through h hin true).bind ?_
  rintro frame m₁ ⟨hthrough, h₁, haccessed⟩
  obtain ⟨page, bytes, pool, -, -, hload, hstore, -⟩ :=
    exists_store_of_accessed h₁.consistent chunk haccessed data
  refine Ends.bind_ok (loadFrame_of_ok hload) (Ends.of_ok (storeFrame_of_ok hstore) ?_)
  exact hthrough.trans (.same rfl rfl)

theorem readUser_through (h : Ready False m s []) (va : VirtAddr) (buffer : Bytes) :
    Ends False (readUser s va buffer) m (fun _ m' => ThroughClaims s m m') fun _ _ => False := by
  unfold readUser
  refine (tryChunks_ends va buffer.size m).bind ?_
  rintro result m₁ ⟨rfl, hin⟩
  cases result with
  | error e => exact Ends.pure (.refl s m₁)
  | ok chunks => exact readChunks_through h (hin chunks rfl) buffer

theorem writeUser_through (h : Ready False m s []) (va : VirtAddr) (data : Bytes) :
    Ends False (writeUser s va data) m (fun _ m' => ThroughClaims s m m')
      fun _ m' => ThroughClaims s m m' := by
  unfold writeUser
  refine ((userChunks_ends va data.size m).mono (fun _ _ ha => ha) ?_).bind ?_
  · rintro e m' ⟨-, rfl⟩
    exact .refl s m'
  rintro chunks m₁ ⟨rfl, -, hin⟩
  have hend : ∀ (_ : PUnit) m', Ready False m' s [] ∧ ThroughClaims s m₁ m' →
      ThroughClaims s m₁ m' := fun _ _ hinv => hinv.2
  refine (Ends.forM (fun chunk hc m₂ hinv => ?_) ⟨h, .refl s m₁⟩).mono hend fun _ _ hf => hf
  have hready := hinv.1
  refine ((writeChunk_ends hready data (hin chunk hc)).and
    (writeChunk_through hready data (hin chunk hc))).mono ?_ ?_
  · rintro - m₃ ⟨hwritten, hmore⟩
    exact ⟨hready.steps hwritten.steps fun d hd => keepsSpaces_of_writing hd, hinv.2.trans hmore⟩
  · exact fun _ _ hf => hinv.2.trans hf.2

end MachineM

/-! ## Pages that come into being -/

/-- Whatever pages are registered after and were not before belong to one address space, and lie in
its stack region. -/
def Machine.GrowsStack (m : Machine) (s : SpaceId) (m' : Machine) : Prop :=
  ∀ t u, m.page? t u = none → m'.page? t u = none ∨ t = s ∧ u.InStack

theorem Machine.GrowsStack.trans {m₁ : Machine} (h : m.GrowsStack s m₁)
    (h' : m₁.GrowsStack s m') : m.GrowsStack s m' := by
  intro t u hnone
  rcases h t u hnone with hnone₁ | hstack
  · exact h' t u hnone₁
  · exact .inr hstack

namespace MachineM

theorem growsStack_of_claiming {m₁ : Machine} (h : (m₁.view [] []).Consistent)
    (hclaimable : Claimable m s vpn m₁)
    (hsteps : Steps (Deed.claiming s vpn) (m₁.view [] []) (m'.view [] [])) :
    m.GrowsStack s m' := by
  intro t u hnone
  by_cases hat : s = t ∧ vpn = u
  · obtain ⟨rfl, rfl⟩ := hat
    cases hclaimable with
    | found found => cases hnone.symm.trans found
    | grown missing inStack => exact .inr ⟨rfl, inStack⟩
  · have hrel := becomes_of_claiming hsteps h t u
    rw [show (m₁.view [] []).page t u = none from (hclaimable.page_eq hat).trans hnone] at hrel
    left
    change (m'.view [] []).page t u = none
    generalize (m'.view [] []).page t u = after at hrel
    cases hrel
    rfl

theorem steps_of_leads (h : (m.view [] []).Consistent) (hp : m.page? s vpn = some page)
    (hleads : Leads (claim s vpn) m m') :
    Steps (Deed.claiming s vpn) (m.view [] []) (m'.view [] []) := by
  have hends := claim_ends h hp False.elim
  rcases hleads with ⟨_, hok⟩ | ⟨e, hfailed⟩
  · exact (hends.ok_of_eq hok).1
  · exact (hends.failed_of_eq hfailed).2.1

theorem ThroughClaims.grows (h : ThroughClaims s m m') : m.GrowsStack s m' := by
  obtain ⟨evicted, h⟩ := h
  induction h with
  | refl => exact fun _ _ hnone => .inl hnone
  | same before page_eq frames_eq ih =>
      exact ih.trans fun _ _ hnone => .inl (by rw [page_eq, hnone])
  | claimed before consistent claimable claims ih =>
      obtain ⟨page, hp⟩ := claimable.exists_page
      exact ih.trans (growsStack_of_claiming consistent claimable
        (steps_of_leads consistent hp claims))

end MachineM

/-- Whether a request is a fault of a process or an access on its behalf. -/
def Op.Touches (s : SpaceId) : Op → Prop
  | .fault t _ | .read t _ _ | .write t _ _ => t = s
  | _ => False

/-- Faults and accesses of a process claim its pages, and do nothing else to the frames in use. -/
theorem Machine.Sound.throughClaims {op : Op} {visit : Visit} (h : m.Sound) (hop : op.Touches s)
    (hstep : m.step? visit op = some m') : MachineM.ThroughClaims s m m' := by
  have hready : MachineM.Ready False m s [] := ⟨h.consistent, False.elim, False.elim⟩
  have hends : Ends False (op.execBy visit) m (fun _ m' => MachineM.ThroughClaims s m m')
      fun _ m' => MachineM.ThroughClaims s m m' := by
    cases op with
    | fault t fault =>
        obtain rfl : t = s := hop
        exact ((MachineM.handleFault_through h.consistent fault).mono (fun _ _ hok => hok.1)
          fun _ _ hf => hf).reply fun _ => Reply.done
    | read t va buffer =>
        obtain rfl : t = s := hop
        exact (MachineM.readUser_through hready va buffer).bind_total
          fun _ _ hthrough => Ends.pure hthrough
    | write t va data =>
        obtain rfl : t = s := hop
        exact (MachineM.writeUser_through hready va data).reply fun _ => Reply.done
    | _ => exact hop.elim
  exact hends.of_step? hstep

/-! ## Runs -/

/-- In every machine that was booted with a frame and served requests, a fault of an address space
is refused for one of four reasons and changes nothing then, and is resolved otherwise if there is
room and the file of the page is long enough. Faults and accesses register pages in the stack region
alone. -/
theorem Machine.answersFault_of_run {frames : ℕ} {disk : Disk} {files : FileStore}
    {requests : List (Visit × Op)} (hframes : frames ≤ PageTable.Entry.frameBound)
    (hpos : 0 < frames) (hrun : (boot frames disk files).run? requests = some m) :
    (∀ s space fault, m.space? s = some space → m.AnswersFault s space fault) ∧
      ∀ visit op s m', Op.Touches s op → m.step? visit op = some m' → m.GrowsStack s m' := by
  have hsound := sound_of_run hframes hrun
  have htotal : m.pool.total = frames :=
    (total_run (sound_boot hframes disk files) hrun).trans Array.size_replicate
  refine ⟨fun s space fault hspace => ?_, fun visit op s m' hop hstep => ?_⟩
  · exact hsound.answersFault (htotal ▸ hpos) hspace fault
  · exact (hsound.throughClaims hop hstep).grows

/-- The stack grows into the only frame, and the page that had it moves to a slot. A fault far below
is refused. -/
theorem Machine.answersFault_of_push : ∃ (m m' : Machine) (space : Space),
    (boot 1 (.zeroed 8) (.ofFiles #[])).run?
      ([.create, .setupStack 0, .setUserSp 0 0x4747f000].map (Visit.ascending, ·)) = some m ∧
      m.space? 0 = some space ∧
      MachineM.handleFault 0 ⟨0x4747eff8, true, true, true⟩ m = .ok () m' ∧
      m.Resolved 0 ⟨0x4747e⟩ m' ∧ m'.page? 0 ⟨0x4747e⟩ ≠ none ∧ VirtPage.InStack ⟨0x4747e⟩ ∧
      m.GrowsStack 0 m' ∧ ∃ events, MachineM.handleFault 0 ⟨0x1000, true, true, true⟩ m =
        .error (.failed .badAddress) { m with events } := by
  have hserved : ((boot 1 (.zeroed 8) (.ofFiles #[])).run?
      ([.create, .setupStack 0, .setUserSp 0 0x4747f000].map (Visit.ascending, ·))).any (fun m =>
        (m.space? 0).isSome && decide (m.page? 0 ⟨0x4747e⟩ = none) &&
          decide (m.page? 0 ⟨1⟩ = none) &&
          (m.answer? .ascending (.fault 0 ⟨0x4747eff8, true, true, true⟩)).isSome) = true := by
    decide +kernel
  simp only [Option.any_eq_true, Bool.and_eq_true, decide_eq_true_eq, Option.isSome_iff_exists]
    at hserved
  obtain ⟨m, hrun, ⟨⟨⟨space, hspace⟩, hmissing⟩, hlow⟩, ⟨reply, m'⟩, hanswer⟩ := hserved
  have hexec := execBy_of_answer? hanswer
  obtain ⟨hanswers, hgrows⟩ := answersFault_of_run (by decide) (by decide) hrun
  have hhigh := hanswers 0 space ⟨0x4747eff8, true, true, true⟩ hspace
  have hfar := hanswers 0 space ⟨0x1000, true, true, true⟩ hspace
  have hgrow : m.GrowsStack 0 m' := by
    refine hgrows .ascending (.fault 0 ⟨0x4747eff8, true, true, true⟩) 0 m' rfl ?_
    rw [step?, hexec]
  have houtside : ¬userStackTop - stackLimit ≤ 0x1000 := by decide
  obtain ⟨m₂, hrefused⟩ := hfar.refused_iff.mpr (.invalid hlow fun hin => houtside hin.1)
  obtain ⟨events, rfl⟩ := hfar.unchanged m₂ hrefused
  cases hfault : MachineM.handleFault 0 ⟨0x4747eff8, true, true, true⟩ m with
  | error stop m₁ =>
      simp only [Op.execBy, MachineM.bind_of_error hfault] at hexec
      cases hexec
  | ok _ m₁ =>
      simp only [Op.execBy, MachineM.bind_of_ok hfault] at hexec
      obtain ⟨-, rfl⟩ := EStateM.Result.ok.inj hexec
      have hresolved := hhigh.resolved _ hfault
      obtain ⟨hstack, page, hpage, -⟩ := hresolved.grown hmissing
      have hthere : Machine.page? _ 0 ⟨0x4747e⟩ ≠ none :=
        Option.ne_none_iff_exists'.mpr ⟨page, hpage⟩
      exact ⟨m, _, space, hrun, hspace, hfault, hresolved, hthere, hstack, hgrow, events, hrefused⟩

end

end DemandPaging
