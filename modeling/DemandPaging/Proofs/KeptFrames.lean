import DemandPaging.Proofs.AddressChecks

/-! # Pages that keep their frames

A page that is in a frame stays there until an eviction takes the frame. A request that moves other
pages may take it, but does not bring the page back; what concerns the page itself finds it there
and moves nothing. A copy gets to its pages one by one, so that a page may be gone when its turn
comes.
-/

namespace DemandPaging

def Machine.inFrame (m : Machine) (s : SpaceId) (vpn : VirtPage) : Bool :=
  ((m.page? s vpn).bind Page.frame).isSome

/-- The machine when a copy gets to the part on a page, or where the copy ends without it. -/
def MachineM.turn {α : Type} (move : Chunk → MachineM α) (vpn : VirtPage) :
    List Chunk → Machine → Machine
  | [], m => m
  | chunk :: chunks, m =>
    if chunk.page = vpn then m
    else match move chunk m with
      | .ok _ m' => turn move vpn chunks m'
      | .error _ m' => m'

/-- The machine when a request gets to a page. A copy gets to its pages one by one. -/
def Op.turn (op : Op) (m : Machine) (s : SpaceId) (vpn : VirtPage) : Machine :=
  match op with
  | read t va buffer =>
    if t = s ∧ isUserRange va buffer.size then
      MachineM.turn (fun chunk => MachineM.userFrame t chunk.page false) vpn
        (Chunk.split va buffer.size) m
    else m
  | write t va data =>
    if t = s ∧ isUserRange va data.size then
      MachineM.turn (MachineM.writeChunk t data) vpn (Chunk.split va data.size) m
    else m
  | _ => m

/-- Whether a page stays in its frame while requests are served: it is there whenever a request gets
to it, and at the end. -/
def Machine.keepsFrame (s : SpaceId) (vpn : VirtPage) : Machine → List (Visit × Op) → Bool
  | m, [] => m.inFrame s vpn
  | m, (visit, op) :: requests =>
    (op.turn m s vpn).inFrame s vpn &&
      (m.step? visit op).any fun m' => m'.keepsFrame s vpn requests

/-! ## Pages that are in a frame -/

namespace MachineM

variable {m : Machine} {s : SpaceId} {vpn : VirtPage} {page : Page}

theorem inFrame_iff : m.inFrame s vpn = true ↔
    ∃ page, m.page? s vpn = some page ∧ page.frame ≠ none := by
  simp only [Machine.inFrame, Option.isSome_iff_ne_none, ne_eq, Option.bind_eq_none_iff, not_forall,
    exists_prop]

theorem claim_of_inFrame (h : m.inFrame s vpn = true) : claim s vpn m = .ok () m := by
  obtain ⟨page, hp, hframe⟩ := inFrame_iff.mp h
  exact claim_of_resident hp hframe

theorem claimAt_of_inFrame {va : VirtAddr} (h : m.inFrame s va.page = true) :
    claimAt s va m = .ok () m := by
  obtain ⟨page, hp, -⟩ := inFrame_iff.mp h
  exact (claimAt_of_registered hp).trans (claim_of_inFrame h)

theorem handleFault_of_inFrame {fault : PageFault}
    (h : m.inFrame s (VirtAddr.page ⟨fault.addr⟩) = true) :
    Ends False (handleFault s fault) m (fun _ m' => m'.view [] [] = m.view [] [])
      fun _ m' => m'.view [] [] = m.view [] [] := by
  obtain ⟨page, hp, -⟩ := inFrame_iff.mp h
  obtain ⟨space, hspace, -⟩ := Machine.exists_space_of_page? hp
  rcases handleFault_cases hspace fault with
    ⟨-, events, hfailed⟩ | ⟨-, ⟨other, -, -, hclaim⟩ | ⟨hmissing, -⟩⟩
  · exact Ends.of_failed hfailed rfl
  · exact Ends.of_ok (hclaim.trans (claim_of_inFrame (m := m.told fault) h)) rfl
  · cases hp.symm.trans hmissing

end MachineM

/-! ## Requests -/

section

variable {m m' : Machine} {op : Op} {visit : Visit} {child s : SpaceId} {vpn : VirtPage}

open MachineM

def Op.isCopy : Op → Bool
  | .read _ _ _ | .write _ _ _ => true
  | _ => false

/-- Requests other than copies bring in a page for one of three reasons. -/
theorem Op.bring_of_deeds (hcopy : op.isCopy = false) (hd : Deed.bring s vpn ∈ op.deeds child) :
    (∃ va, op = .claim s va ∧ va.page = vpn) ∨ (∃ fault, op = .fault s fault) ∨
      op = .setupStack s := by
  cases op with
  | create => rcases hd with hd | hd <;> cases hd
  | drop => rcases hd with hd | ⟨_, hd⟩ <;> cases hd
  | fork =>
      rcases hd with (hd | ⟨_, hd⟩ | ⟨_, hd⟩) | (hd | ⟨_, hd⟩) | hd | hd
      · exact hd.elim
      all_goals cases hd
  | copy =>
      rcases hd with hd | ⟨_, hd⟩ | ⟨_, hd⟩
      · exact hd.elim
      all_goals cases hd
  | alloc s va writable loader target =>
      cases loader with
      | zero => cases hd
      | file segment =>
          obtain ⟨_, -, hd⟩ := hd
          cases hd
  | claim t va =>
      rcases hd with hd | hd
      · obtain ⟨rfl, rfl⟩ := Deed.bring.inj hd
        exact .inl ⟨va, rfl, rfl⟩
      · exact hd.elim
  | fault t f =>
      rcases hd with hd | ⟨_, hd⟩ | ⟨_, hd⟩
      · exact hd.elim
      · obtain ⟨rfl, -⟩ := Deed.bring.inj hd
        exact .inr (.inl ⟨f, rfl⟩)
      · cases hd
  | setupStack t =>
      rcases hd with hd | hd | ⟨_, hd⟩ | ⟨_, hd⟩
      · cases hd
      · exact hd.elim
      · obtain ⟨rfl, -⟩ := Deed.bring.inj hd
        exact .inr (.inr rfl)
      · cases hd
  | read | write => cases hcopy
  | recycle | unmap | unmapCall =>
      obtain ⟨_, hd⟩ := hd
      cases hd
  | map | loadExecutable =>
      rcases hd with ⟨_, hd⟩ | hd | ⟨_, hd⟩ <;> cases hd
  | mapCall =>
      obtain ⟨_, -, ⟨_, hd⟩ | hd | ⟨_, hd⟩⟩ := hd <;> cases hd
  | setUserSp | remove | access | setFlags | reopen | release | truncate | writeFile => cases hd

/-- A request that is no copy does not bring in a page that is in its frame. -/
theorem Op.steps_of_inFrame (h : m.Sound) (hcopy : op.isCopy = false)
    (hframe : m.inFrame s vpn = true) (hstep : m.step? visit op = some m') :
    Steps {d | d ∈ op.deeds m.nextSpace ∧ d ≠ .bring s vpn} (m.view [] []) (m'.view [] []) := by
  by_cases hbring : Deed.bring s vpn ∈ op.deeds m.nextSpace
  · rcases Op.bring_of_deeds hcopy hbring with ⟨va, rfl, rfl⟩ | ⟨fault, rfl⟩ | rfl
    · have hends : Ends False ((Op.claim s va).execBy visit) m
          (fun _ m' => m'.view [] [] = m.view [] []) fun _ m' => m'.view [] [] = m.view [] [] :=
        Ends.bind_ok (claimAt_of_inFrame hframe) (Ends.pure rfl)
      exact Steps.of_eq (hends.of_step? hstep)
    · by_cases hat : VirtAddr.page ⟨fault.addr⟩ = vpn
      · subst hat
        exact Steps.of_eq (((handleFault_of_inFrame hframe).reply fun _ => Reply.done).of_step?
          hstep)
      · have hlive : False → (m.view [] []).Live s := False.elim
        have hfault := handleFault_ends h.consistent False.elim hlive fault
        have hends := (hfault.mono (fun _ _ hok => hok.2.1) fun _ _ hf => hf.2).reply
          fun _ => Reply.done
        refine Steps.mono (fun d hd => ⟨Deed.resolving_subset_faulting s _ hd, ?_⟩)
          (hends.of_step? hstep)
        rintro rfl
        exact hat (Deed.eq_of_bring_mem_reaching (.inl hd)).2.symm
    · by_cases hat : stackPage = vpn
      · subst hat
        obtain ⟨page, hp, -⟩ := inFrame_iff.mp hframe
        have hpage : m.page? s stackPage ≠ none := by
          rw [hp]
          exact Option.some_ne_none page
        have hends : Ends False ((Op.setupStack s).execBy visit) m (fun _ m' => m' = m)
            fun _ m' => m' = m :=
          ((setupStack_of_registered hpage).mono (fun _ _ hf => hf.elim)
            fun _ _ he => he).reply fun va => Reply.address va.val
        exact Steps.of_eq (congrArg (fun m => Machine.view m [] []) (hends.of_step? hstep))
      · have hready : Ready False m s [] := ⟨h.consistent, False.elim, False.elim⟩
        have hends := (setupStack_ends hready).reply fun va => Reply.address va.val
        refine Steps.mono (fun d hd => ⟨?_, ?_⟩) (hends.of_step? hstep)
        · exact Set.insert_subset_insert (Deed.resolving_subset_faulting s _) hd
        · rintro rfl
          rcases hd with hd | hd
          · cases hd
          · exact hat (Deed.eq_of_bring_mem_reaching (.inl hd)).2.symm
  · refine (Op.finished h hstep).steps.mono fun d hd => ⟨hd, ?_⟩
    rintro rfl
    exact hbring hd

theorem Op.turn_of_not_copy (hcopy : op.isCopy = false) : op.turn m s vpn = m := by
  cases op <;> first | rfl | cases hcopy

theorem Op.stored?_of_not_copy (hcopy : op.isCopy = false) (addr : ℕ) :
    op.stored? m s addr = none := by
  cases op <;> first | rfl | cases hcopy

end

end DemandPaging
