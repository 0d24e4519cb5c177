import DemandPaging.Machine.UserCopy
import DemandPaging.Proofs.Registering

/-! # Faults and accesses

A fault that is resolved leaves its page resident, with the permission that the access asks for. So
an access is settled by its second try at the latest. A fault is answered with a bad address exactly
if the address space refuses it; what else may go wrong has other names.
-/

namespace DemandPaging

theorem VirtAddr.page_lt_userPages {va : VirtAddr} (h : va.isUser = true) :
    va.page.number < userPages := by
  have hlt : va.val < userEnd := by simpa [VirtAddr.isUser] using h
  rw [VirtAddr.page_number]
  simp only [userPages, userEnd, pageSize] at hlt ⊢
  omega

theorem VirtAddr.isUser_of_page_lt {va : VirtAddr} (h : va.page.number < userPages) :
    va.isUser = true := by
  rw [VirtAddr.page_number] at h
  rw [VirtAddr.isUser, decide_eq_true_eq]
  simp only [userPages, userEnd, pageSize] at h ⊢
  omega

theorem VirtPage.start_of_lt {vpn : VirtPage} (h : vpn.number < userPages) :
    vpn.start.val = vpn.number * pageSize ∧ vpn.start.page = vpn := by
  have hlt : vpn.number * pageSize < Word.bound := by
    simp only [userPages, userEnd, pageSize, Word.bound] at h ⊢
    omega
  exact ⟨VirtPage.start_val hlt, VirtPage.page_start hlt⟩

theorem VirtPage.isUser_start {vpn : VirtPage} (h : vpn.number < userPages) :
    vpn.start.isUser = true := by
  rw [VirtAddr.isUser, (start_of_lt h).1, decide_eq_true_eq]
  simp only [userPages, userEnd, pageSize] at h ⊢
  omega

/-- Whether an address space refuses a fault: it is outside of user space, or of a kind that cannot
be resolved, or it asks to write where that is not allowed, or it finds no page and is no stack
access. -/
def Space.refuses (space : Space) (fault : PageFault) : Bool :=
  !VirtAddr.isUser ⟨fault.addr⟩ || !fault.notPresent ||
    match space.pageAt? ⟨fault.addr⟩ with
    | some page => fault.write && !page.writable
    | none => !space.isStackAccess ⟨fault.addr⟩

def Machine.told (m : Machine) (fault : PageFault) : Machine :=
  { m with events := m.events.push (.pageFault fault.addr fault.write fault.user) }

namespace Deed

variable {s : SpaceId} {vpn : VirtPage}

theorem claiming_subset_resolving (s : SpaceId) (vpn : VirtPage) :
    claiming s vpn ⊆ resolving s vpn :=
  Set.subset_insert _ _

theorem resolving_subset_faulting (s : SpaceId) (vpn : VirtPage) :
    resolving s vpn ⊆ faulting s := by
  rintro d (rfl | rfl | hd)
  · exact .inr (.inr ⟨vpn, rfl⟩)
  · exact .inr (.inl ⟨vpn, rfl⟩)
  · exact .inl hd

theorem resolving_subset_reaching (s : SpaceId) (vpn : VirtPage) :
    resolving s vpn ⊆ reaching s vpn :=
  fun _ hd => .inl hd

theorem reaching_subset_accessing (s : SpaceId) (vpn : VirtPage) :
    reaching s vpn ⊆ accessing s := by
  rintro d (hd | ⟨write, rfl⟩)
  · exact .inl (resolving_subset_faulting s vpn hd)
  · exact .inr ⟨vpn, write, rfl⟩

theorem eq_of_bring_mem_reaching {t : SpaceId} {u : VirtPage}
    (h : Deed.bring t u ∈ reaching s vpn) : t = s ∧ u = vpn := by
  rcases h with (h | h | h) | ⟨write, h⟩
  · cases h
  · injection h with hs hvpn
    exact ⟨hs, hvpn⟩
  · exact h.elim
  · cases h

end Deed

namespace MachineM

variable {m : Machine} {s : SpaceId} {vpn : VirtPage} {pins : List BackingId} {page : Page}
  {sound : Prop}

/-! ## Registering and claiming by address -/

theorem alloc_ends (hlive : sound → (m.view [] pins).Live s) (va : VirtAddr) (writable : Bool)
    (loader : Loader) (target : PageType) :
    Ends sound (alloc s va writable loader target) m
      (fun _ m' => ∃ touch, FirstTouch.make loader target = .ok touch ∧
        (m.view [] pins).Live s ∧ m.page? s va.page = none ∧ va.page.number < userPages ∧
        m'.view [] pins = (m.view [] pins).registered s (.untouched va.page writable touch))
      fun e m' => e ≠ .badAddress ∧ m' = m := by
  unfold alloc
  by_cases hva : (va.isAligned && va.isUser) = true
  · have huser : va.isUser = true := by simp_all
    simp only [hva, if_true]
    cases htouch : FirstTouch.make loader target with
    | error e =>
        have hrefused : ofResult (.error e : Except Errno FirstTouch) m = .error (.failed e) m :=
          rfl
        refine Ends.bind_failed hrefused ⟨?_, rfl⟩
        rintro rfl
        cases loader <;> cases target <;> cases htouch
    | ok touch =>
        have hok : ofResult (.ok touch : Except Errno FirstTouch) m = .ok touch m := rfl
        refine Ends.bind_ok hok ((register_ends hlive _).mono ?_ ?_)
        · rintro - m' ⟨hlive', hfresh, hview⟩
          exact ⟨touch, rfl, hlive', hfresh, VirtAddr.page_lt_userPages huser, hview⟩
        · rintro e m' ⟨rfl, rfl, -⟩
          exact ⟨by decide, rfl⟩
  · simp only [hva]
    exact Ends.bind_failed (Ends.failed_eq _ m) ⟨by decide, rfl⟩

theorem claimAt_of_registered {va : VirtAddr} (hp : m.page? s va.page = some page) :
    claimAt s va m = claim s va.page m := by
  obtain ⟨space, hspace, hat⟩ := Machine.exists_space_of_page? hp
  have hcontains : space.pages.contains va.page = true := by
    rw [Std.TreeMap.contains_eq_isSome_getElem?, hat]
    rfl
  rw [claimAt, bind_of_ok (space_of_some hspace)]
  simp only [hcontains, if_true]

theorem claimAt_ends (h : (m.view [] pins).Consistent) (hpos : sound → 0 < m.pool.total)
    (hlive : sound → (m.view [] pins).Live s) (va : VirtAddr) :
    Ends sound (claimAt s va) m
      (fun _ m' => Steps (Deed.claiming s va.page) (m.view [] pins) (m'.view [] pins) ∧
        ∃ page after, m.page? s va.page = some page ∧ m'.page? s va.page = some after ∧
          after.frame ≠ none ∧ after.writable = page.writable)
      fun e m' => (m.page? s va.page ≠ none → e = .ioError) ∧
        Steps (Deed.claiming s va.page) (m.view [] pins) (m'.view [] pins) := by
  unfold claimAt
  refine Ends.space hlive fun space hspace => ?_
  by_cases hmem : space.pages.contains va.page = true
  · simp only [hmem, if_true]
    rw [Std.TreeMap.contains_eq_isSome_getElem?, ← Machine.page?_of_space? hspace] at hmem
    obtain ⟨page, hp⟩ := Option.isSome_iff_exists.mp hmem
    refine (claim_ends h hp hpos).mono ?_ fun _ _ he => ⟨fun _ => he.1, he.2.1⟩
    rintro - m' ⟨hsteps, after, hafter⟩
    exact ⟨hsteps, page, after, hp, hafter⟩
  · simp only [hmem]
    refine Ends.bind_failed (Ends.failed_eq _ m) ⟨fun hp => ?_, Steps.refl _⟩
    rw [Machine.page?_of_space? hspace] at hp
    exact absurd (PageMap.getElem?_of_not_contains (Bool.eq_false_iff.mpr hmem)) hp

/-! ## Faults -/

/-- A page that an access may use as it asks. -/
def Accessible (m : Machine) (s : SpaceId) (vpn : VirtPage) (write : Bool) : Prop :=
  ∃ page, m.page? s vpn = some page ∧ page.frame ≠ none ∧ (write = true → page.writable = true)

/-- A new page of zeros at an aligned address is registered and made resident. -/
theorem allocZero_ends (h : (m.view [] pins).Consistent) (hpos : sound → 0 < m.pool.total)
    (hlive : sound → (m.view [] pins).Live s) (va : VirtAddr) :
    Ends sound (do alloc s va true .zero .anon; claimAt s va : MachineM Unit) m
      (fun _ m' => Steps (Deed.resolving s va.page) (m.view [] pins) (m'.view [] pins) ∧
        Accessible m' s va.page true)
      fun e m' => e ≠ .badAddress ∧
        Steps (Deed.resolving s va.page) (m.view [] pins) (m'.view [] pins) := by
  refine ((alloc_ends hlive va true .zero .anon).mono (fun _ _ ha => ha) ?_).bind ?_
  · rintro e m' ⟨he, rfl⟩
    exact ⟨he, Steps.refl _⟩
  · rintro - m₁ ⟨touch, htouch, hlive', hfresh, hin, hview⟩
    obtain rfl : touch = .zero := (Except.ok.inj htouch).symm
    have hstep : Step (.register s (.untouched va.page true .zero)) (m.view [] pins)
        (m₁.view [] pins) := by
      rw [hview]
      exact Step.register hlive' hfresh hin fun segment hs => by cases hs
    have hregistered : Steps (Deed.resolving s va.page) (m.view [] pins) (m₁.view [] pins) :=
      Steps.single hstep (.inl rfl)
    have hpos₁ : sound → 0 < m₁.pool.total := fun hs => by
      have htotal : m₁.pool.total = m.pool.total := hregistered.total_eq
      rw [htotal]
      exact hpos hs
    have hlive₁ : sound → (m₁.view [] pins).Live s := fun _ => by
      rw [hview]
      exact hlive'
    have hp' : m₁.page? s va.page = some (.untouched va.page true .zero) := by
      rw [show m₁.page? = _ from congrArg View.page hview]
      exact setAt_same
    refine (claimAt_ends (hstep.consistent h) hpos₁ hlive₁ va).mono ?_ ?_
    · rintro - m' ⟨hsteps, page, after, hp, hafter, hframe, hwritable⟩
      refine ⟨hregistered.trans (hsteps.mono (Deed.claiming_subset_resolving s va.page)), after,
        hafter, hframe, fun _ => ?_⟩
      obtain rfl := Option.some.inj (hp'.symm.trans hp)
      exact hwritable
    · rintro e m' ⟨he, hsteps⟩
      refine ⟨?_, hregistered.trans (hsteps.mono (Deed.claiming_subset_resolving s va.page))⟩
      rw [he (by simp [hp'])]
      decide

theorem growStack_ends (h : (m.view [] pins).Consistent) (hpos : sound → 0 < m.pool.total)
    (hlive : sound → (m.view [] pins).Live s) (hin : vpn.number < userPages) :
    Ends sound (growStack s vpn) m
      (fun _ m' => Steps (Deed.resolving s vpn) (m.view [] pins) (m'.view [] pins) ∧
        Accessible m' s vpn true)
      fun e m' => e ≠ .badAddress ∧
        Steps (Deed.resolving s vpn) (m.view [] pins) (m'.view [] pins) := by
  have hpage := (VirtPage.start_of_lt hin).2
  unfold growStack
  refine Ends.emit _ [] pins fun m₁ hview => ?_
  have hpool : m₁.pool = m.pool := congrArg View.pool hview
  rw [← hview] at h hlive ⊢
  rw [← hpool] at hpos
  have hzero := allocZero_ends h hpos hlive vpn.start
  rwa [hpage] at hzero

def Refuses (m : Machine) (s : SpaceId) (fault : PageFault) : Prop :=
  ∃ space, m.space? s = some space ∧ space.refuses fault = true

theorem refuses_iff {space : Space} (hspace : m.space? s = some space) (fault : PageFault) :
    Refuses m s fault ↔ space.refuses fault = true := by
  constructor
  · rintro ⟨other, hother, hrefuses⟩
    rwa [Option.some.inj (hspace.symm.trans hother)]
  · exact fun hrefuses => ⟨space, hspace, hrefuses⟩

theorem emit_fault (fault : PageFault) (m : Machine) :
    emit (.pageFault fault.addr fault.write fault.user) m = .ok () (m.told fault) :=
  rfl

theorem handleFault_of_no_space (hspace : m.space? s = none) (fault : PageFault) :
    handleFault s fault m = .error (.panicked (.noSpace s)) (m.told fault) := by
  rw [handleFault, bind_of_ok (emit_fault fault m)]
  exact bind_of_error (space_of_none hspace)

/-- What comes of a fault: it is refused, or claims the page that it finds, or grows the stack by
the page that it misses. -/
theorem handleFault_cases {space : Space} (hspace : m.space? s = some space) (fault : PageFault) :
    (space.refuses fault = true ∧
      ∃ events, handleFault s fault m = .error (.failed .badAddress) { m with events }) ∨
    space.refuses fault = false ∧
      ((∃ page, m.page? s (VirtAddr.page ⟨fault.addr⟩) = some page ∧
          (fault.write = true → page.writable = true) ∧
          handleFault s fault m = claim s (VirtAddr.page ⟨fault.addr⟩) (m.told fault)) ∨
        m.page? s (VirtAddr.page ⟨fault.addr⟩) = none ∧
          (VirtAddr.page ⟨fault.addr⟩).number < userPages ∧
          space.isStackAccess ⟨fault.addr⟩ = true ∧
          handleFault s fault m = growStack s (VirtAddr.page ⟨fault.addr⟩) (m.told fault)) := by
  have hspace' : MachineM.space s (m.told fault) = .ok space (m.told fault) := space_of_some hspace
  have hpage := Machine.page?_of_space? hspace (VirtAddr.page ⟨fault.addr⟩)
  simp only [handleFault, Bind.bind, EStateM.bind, emit_fault, hspace']
  by_cases huser : VirtAddr.isUser ⟨fault.addr⟩ = true
  case neg =>
    rw [if_pos (by simpa using huser)]
    exact .inl ⟨by simp [Space.refuses, huser], _, rfl⟩
  by_cases hpresent : fault.notPresent = true
  case neg =>
    rw [if_neg (by simpa using huser), if_pos (by simpa using hpresent)]
    exact .inl ⟨by simp [Space.refuses, hpresent], _, rfl⟩
  rw [if_neg (by simpa using huser), if_neg (by simpa using hpresent)]
  cases hat : space.pageAt? ⟨fault.addr⟩ with
  | some page =>
      by_cases hdenied : (fault.write && !page.writable) = true
      · simp only [hdenied, if_true]
        exact .inl ⟨by simp [Space.refuses, hat, hdenied], _, rfl⟩
      · simp only [hdenied]
        refine .inr ⟨by simp [Space.refuses, huser, hpresent, hat, hdenied],
          .inl ⟨page, ?_, ?_, rfl⟩⟩
        · exact hpage.trans hat
        · simpa using hdenied
  | none =>
      by_cases hstack : space.isStackAccess ⟨fault.addr⟩ = true
      · refine .inr ⟨by simp [Space.refuses, huser, hpresent, hat, hstack],
          .inr ⟨hpage.trans hat, VirtAddr.page_lt_userPages huser, hstack, ?_⟩⟩
        simp only [hstack, if_true]
      · simp only [hstack]
        exact .inl ⟨by simp [Space.refuses, hat, hstack], _, rfl⟩

/-- A fault of a registered page is resolved by claiming it, if the access is permitted. -/
theorem handleFault_of_registered {fault : PageFault}
    (hp : m.page? s (VirtAddr.page ⟨fault.addr⟩) = some page)
    (huser : VirtAddr.isUser ⟨fault.addr⟩ = true) (hpresent : fault.notPresent = true)
    (hallowed : fault.write = true → page.writable = true) :
    handleFault s fault m = claim s (VirtAddr.page ⟨fault.addr⟩) (m.told fault) := by
  obtain ⟨space, hspace, hat⟩ := Machine.exists_space_of_page? hp
  have hpass : (fault.write && !page.writable) = false := by simpa using hallowed
  have haccepts : space.refuses fault = false := by
    simp [Space.refuses, Space.pageAt?, hat, huser, hpresent, hpass]
  rcases handleFault_cases hspace fault with
    ⟨hrefuses, -⟩ | ⟨-, ⟨other, -, -, hclaim⟩ | ⟨hmissing, -⟩⟩
  · cases haccepts.symm.trans hrefuses
  · exact hclaim
  · cases hp.symm.trans hmissing

/-- A fault that is resolved leaves its page as the access needs it. -/
theorem handleFault_ends (h : (m.view [] pins).Consistent) (hpos : sound → 0 < m.pool.total)
    (hlive : sound → (m.view [] pins).Live s) (fault : PageFault) :
    Ends sound (handleFault s fault) m
      (fun _ m' => ¬Refuses m s fault ∧
        Steps (Deed.resolving s (VirtAddr.page ⟨fault.addr⟩)) (m.view [] pins) (m'.view [] pins) ∧
        Accessible m' s (VirtAddr.page ⟨fault.addr⟩) fault.write)
      fun e m' => (e = .badAddress ↔ Refuses m s fault) ∧
        Steps (Deed.resolving s (VirtAddr.page ⟨fault.addr⟩)) (m.view [] pins)
          (m'.view [] pins) := by
  cases hspace : m.space? s with
  | none =>
      refine Ends.of_panicked (handleFault_of_no_space hspace fault) fun hs => ?_
      obtain ⟨space, hsome⟩ := Machine.exists_space_of_live (hlive hs)
      cases hspace.symm.trans hsome
  | some space =>
      rw [refuses_iff hspace]
      rcases handleFault_cases hspace fault with
        ⟨hrefuses, events, hfailed⟩ | ⟨haccepts, ⟨page, hp, hallowed, hclaim⟩ | ⟨-, hin, -, hgrow⟩⟩
      · exact Ends.of_failed hfailed ⟨by simp [hrefuses], Steps.refl _⟩
      · refine Ends.of_eq hclaim ((claim_ends (m := m.told fault) h hp hpos).mono ?_ ?_)
        · rintro - m' ⟨hsteps, after, hafter, hframe, hwritable⟩
          exact ⟨by simp [haccepts], hsteps.mono (Deed.claiming_subset_resolving s _), after,
            hafter, hframe, fun hw => hwritable.trans (hallowed hw)⟩
        · rintro e m' ⟨rfl, hsteps, -⟩
          exact ⟨by simp [haccepts], hsteps.mono (Deed.claiming_subset_resolving s _)⟩
      · have hlive' : sound → ((m.told fault).view [] pins).Live s := hlive
        refine Ends.of_eq hgrow ((growStack_ends (m := m.told fault) h hpos hlive' hin).mono ?_ ?_)
        · rintro - m' ⟨hsteps, after, hafter, hframe, hwritable⟩
          exact ⟨by simp [haccepts], hsteps, after, hafter, hframe, fun _ => hwritable rfl⟩
        · rintro e m' ⟨he, hsteps⟩
          exact ⟨by simp [haccepts, he], hsteps⟩

end MachineM

end DemandPaging
