import DemandPaging.Proofs.FaultOutcomes

/-! # Evictions for claims

A page that is claimed takes a free frame if there is one, and another page is evicted for it
otherwise, whether or not it can be filled then. Nothing but claims and copies evicts pages.
-/

namespace DemandPaging

variable {m m' : Machine} {s : SpaceId} {vpn : VirtPage} {pins : List BackingId} {page : Page}
  {frame : Frame} {V W : View} {d : Deed}

/-! ## Frame tables -/

theorem FrameTable.evictions_removeFrame (table : FrameTable) (frame : Frame) :
    (table.removeFrame frame).evictions = table.evictions := by
  unfold removeFrame
  split <;> rfl

theorem Step.evictions_eq (hstep : Step d V W) (hd : ∀ t u, d ≠ .evict t u) :
    W.frames.evictions = V.frames.evictions := by
  cases hstep with
  | evict => exact (hd _ _ rfl).elim
  | discardResident => exact FrameTable.evictions_removeFrame _ _
  | _ => rfl

theorem Steps.evictions_eq {deeds : Set Deed} (hsteps : Steps deeds V W)
    (hd : ∀ d ∈ deeds, ∀ t u, d ≠ .evict t u) : W.frames.evictions = V.frames.evictions :=
  hsteps.invariant (fun U => U.frames.evictions = V.frames.evictions)
    (fun d hmem _ _ hstep heq => (hstep.evictions_eq (hd d hmem)).trans heq) rfl

theorem Step.frame_of_evict (hstep : Step (.evict s vpn) V W) (h : V.Consistent) :
    V.frame s vpn ≠ none ∧ W.frame = setAt V.frame s vpn none := by
  cases hstep with
  | evict full victim found mapped loaded spilled zeroed =>
      have hown := (h.listed _).mp (List.mem_of_getElem? victim)
      refine ⟨by simp [hown], ?_⟩
      exact comp_setAt (Option.bind · Page.frame)

theorem Step.frames_of_bring (hstep : Step (.bring s vpn) V W) (h : V.Consistent) :
    ∃ entry, W.frames = V.frames.push entry ∧
      ∀ t u, ¬(s = t ∧ vpn = u) → W.page t u = V.page t u := by
  cases hstep with
  | bring found absent first filled stored =>
      have hvpn := (h.settled found).vpn_eq
      subst hvpn
      exact ⟨_, rfl, fun t u hne => setAt_of_ne hne⟩

/-! ## Pages that come into frames -/

namespace Machine

/-- So many pages come into frames: none is evicted for those that find a free frame, and one for
each of the others. -/
structure BringsIn (m : Machine) (count : ℕ) (m' : Machine) : Prop where
  evictions_eq : m'.frames.evictions =
    m.frames.evictions + (count - (m.pool.total - m.frames.size))
  size_eq : m'.frames.size = min m.pool.total (m.frames.size + count)
  total_eq : m'.pool.total = m.pool.total

theorem BringsIn.none (h : m.frames.size ≤ m.pool.total) (frames_eq : m'.frames = m.frames)
    (total_eq : m'.pool.total = m.pool.total) : m.BringsIn 0 m' := by
  refine ⟨?_, ?_, total_eq⟩
  · rw [frames_eq, Nat.zero_sub, Nat.add_zero]
  · rw [frames_eq, Nat.add_zero, Nat.min_eq_right h]

theorem BringsIn.trans {m₁ : Machine} {count more : ℕ} (hle : m.frames.size ≤ m.pool.total)
    (h : m.BringsIn count m₁) (h' : m₁.BringsIn more m') : m.BringsIn (count + more) m' := by
  obtain ⟨hevictions, hsize, htotal⟩ := h
  obtain ⟨hevictions', hsize', htotal'⟩ := h'
  refine ⟨?_, ?_, htotal'.trans htotal⟩
  · rw [hevictions', hevictions, htotal, hsize]
    omega
  · rw [hsize', htotal, hsize]
    omega

/-- The pages that lose their frames from one machine to another. -/
def lost (m m' : Machine) : Set (SpaceId × VirtPage) :=
  {at_ | m.inFrame at_.1 at_.2 = true ∧ m'.inFrame at_.1 at_.2 = false}

end Machine

theorem View.Consistent.size_le {held : List Frame} (h : (m.view held pins).Consistent) :
    m.frames.size ≤ m.pool.total := by
  have hle := h.supplied.length_le
  rw [List.length_append, List.length_map] at hle
  exact (Nat.le_add_right _ _).trans hle

namespace MachineM

/-- What is counted when a frame is acquired: the pages that are listed, with the one that the frame
is for, and the pages that lose their frames. -/
structure Counted (m m' : Machine) : Prop where
  evictions_eq : m'.frames.evictions =
    m.frames.evictions + (1 - (m.pool.total - m.frames.size))
  size_eq : m'.frames.size + 1 = min m.pool.total (m.frames.size + 1)
  total_eq : m'.pool.total = m.pool.total
  lost_eq : (m.lost m').encard = (1 - (m.pool.total - m.frames.size) : ℕ)

theorem lost_eq_empty (page_eq : m'.page? = m.page?) : m.lost m' = ∅ := by
  refine Set.eq_empty_of_forall_notMem fun at_ hat => ?_
  obtain ⟨hbefore, hafter⟩ := hat
  rw [Machine.inFrame, page_eq] at hafter
  exact Bool.false_ne_true (hafter.symm.trans hbefore)

theorem Evicts.lost_eq {e : FrameEntry} (h : (m.view [] pins).Consistent)
    (hevicts : Evicts m pins e frame m') : m.lost m' = {(e.space, e.vpn)} := by
  have hne : m.frames.entries ≠ [] := fun hnil => by simpa [hnil] using hevicts.victim
  have hc := (step_swept hne [] pins).consistent h
  obtain ⟨hbefore, hafter⟩ := hevicts.step.frame_of_evict hc
  have hframe : (m.swept.view [] pins).frame = (m.view [] pins).frame := by
    funext t u
    exact congrArg (Option.bind · Page.frame) (congrFun (congrFun (page?_swept m) t) u)
  rw [hframe] at hbefore hafter
  ext ⟨t, u⟩
  change ((m.view [] pins).frame t u).isSome = true ∧
    ((m'.view [frame] pins).frame t u).isSome = false ↔ _
  rw [hafter, Set.mem_singleton_iff, Prod.mk.injEq]
  by_cases hat : e.space = t ∧ e.vpn = u
  · obtain ⟨rfl, rfl⟩ := hat
    simp [Option.isSome_iff_ne_none, hbefore]
  · rw [setAt_of_ne hat]
    constructor
    · rintro ⟨hsome, hnone⟩
      cases hsome.symm.trans hnone
    · rintro ⟨rfl, rfl⟩
      exact (hat ⟨rfl, rfl⟩).elim

theorem Acquires.counted (h : (m.view [] pins).Consistent) (hacquires : Acquires m pins frame m') :
    Counted m m' := by
  have hle := h.size_le
  cases hacquires with
  | @free pool free same =>
      have hlt : m.frames.size < m.pool.total := by
        refine hle.lt_of_ne fun hfull => ?_
        cases free.symm.trans ((alloc?_eq_none_iff h).mpr hfull)
      have hnone : 1 - (m.pool.total - m.frames.size) = 0 := by omega
      have hempty : m.lost { m with pool } = ∅ := lost_eq_empty rfl
      subst same
      refine ⟨?_, ?_, FramePool.total_of_alloc? free, ?_⟩
      · rw [hnone, Nat.add_zero]
      · exact (Nat.min_eq_right hlt).symm
      · rw [hempty, hnone, Set.encard_empty, Nat.cast_zero]
  | @evicted e full evicts =>
      have hfull := (alloc?_eq_none_iff h).mp full
      have hone : 1 - (m.pool.total - m.frames.size) = 1 := by omega
      obtain ⟨hindex, -⟩ := List.getElem?_eq_some_iff.mp evicts.victim
      refine ⟨?_, ?_, Steps.total_eq evicts.steps, ?_⟩
      · rw [evicts.frames_eq, hone]
      · rw [evicts.frames_eq]
        have hswept : m.victimIndex < m.swept.frames.size := hindex
        refine (FrameTable.size_removeAt hswept).trans ?_
        rw [← hfull, Nat.min_eq_left (Nat.le_succ _)]
        rfl
      · rw [evicts.lost_eq h, hone, Set.encard_singleton, Nat.cast_one]

theorem Counted.bringsIn {m₁ : Machine} (h : Counted m m₁)
    (hevictions : m'.frames.evictions = m₁.frames.evictions)
    (hsize : m'.frames.size = m₁.frames.size + 1) (htotal : m'.pool.total = m₁.pool.total) :
    m.BringsIn 1 m' :=
  ⟨hevictions.trans h.evictions_eq, hsize.trans h.size_eq, htotal.trans h.total_eq⟩

/-! ## Claims -/

/-- The claim of a page that is not resident evicts what its frame costs, whatever comes of it. A
page that was brought in is listed. -/
theorem claim_counts (h : (m.view [] []).Consistent) (hp : m.page? s vpn = some page)
    (habsent : page.frame = none) :
    Ends False (claim s vpn) m
      (fun _ m' => m.BringsIn 1 m' ∧ ∃ m₁, Counted m m₁ ∧
        m'.frames.evictions = m₁.frames.evictions ∧
        ∀ t u, ¬(s = t ∧ vpn = u) → m'.page? t u = m₁.page? t u)
      fun _ m' => ∃ m₁, Counted m m₁ ∧ m'.frames.evictions = m₁.frames.evictions ∧
        ∀ t u, ¬(s = t ∧ vpn = u) → m'.page? t u = m₁.page? t u := by
  refine claim_of_absent h hp habsent False.elim fun frame m₁ hacquired => ?_
  have h₁ := hacquired.consistent
  have hcounted := hacquired.acquires.counted h
  refine (fill_ends h₁ hacquired.found habsent hacquired.zeroed).mono ?_ ?_
  · rintro - m' ⟨hbring, -⟩
    obtain ⟨entry, hframes, hpage⟩ := hbring.frames_of_bring h₁
    have hframes' : m'.frames = m₁.frames.push entry := hframes
    have hevictions : m'.frames.evictions = m₁.frames.evictions := by
      rw [hframes']
      rfl
    refine ⟨hcounted.bringsIn hevictions ?_ hbring.total_eq, m₁, hcounted, hevictions, hpage⟩
    rw [hframes', FrameTable.size_push]
  · rintro e m' ⟨-, segment, bytes, spoiled, pool, -, -, -, -, hview⟩
    have hframes : m'.frames = m₁.frames := congrArg View.frames hview
    refine ⟨m₁, hcounted, by rw [hframes], fun t u _ => ?_⟩
    exact congrFun (congrFun (congrArg View.page hview) t) u

end MachineM

namespace Machine

/-- What a claim counts: one more eviction if the page is not resident and no frame is free, even if
it cannot be filled then. As many pages lose their frames. -/
structure CountsClaim (m : Machine) (s : SpaceId) (vpn : VirtPage) (m' : Machine) : Prop where
  evictions_eq : m'.frames.evictions = m.frames.evictions + m.evictedFor s vpn
  lost_eq : (m.lost m').encard = m.evictedFor s vpn

theorem evictedFor_of_inFrame (h : m.inFrame s vpn = true) : m.evictedFor s vpn = 0 :=
  if_neg fun hboth => Bool.false_ne_true (hboth.1.symm.trans h)

theorem evictedFor_of_absent (hle : m.frames.size ≤ m.pool.total)
    (h : m.inFrame s vpn = false) :
    m.evictedFor s vpn = 1 - (m.pool.total - m.frames.size) := by
  rw [evictedFor]
  split
  · next hboth => omega
  · next hnot =>
    have hne : m.frames.size ≠ m.pool.total := fun hfull => hnot ⟨h, hfull⟩
    omega

theorem lost_congr {m₁ : Machine} (habsent : m.inFrame s vpn = false)
    (h : ∀ t u, ¬(s = t ∧ vpn = u) → m'.page? t u = m₁.page? t u) : m.lost m' = m.lost m₁ := by
  ext ⟨t, u⟩
  by_cases hat : s = t ∧ vpn = u
  · obtain ⟨rfl, rfl⟩ := hat
    simp [lost, habsent]
  · simp [lost, inFrame, h t u hat]

end Machine

namespace MachineM

theorem exists_page_of_leads (hleads : Leads (claim s vpn) m m') :
    ∃ page, m.page? s vpn = some page := by
  cases hp : m.page? s vpn with
  | some page => exact ⟨page, rfl⟩
  | none =>
      obtain ⟨p, hpanic⟩ := page_of_none hp
      have hclaim : claim s vpn m = .error (.panicked p) m := bind_of_error hpanic
      rcases hleads with ⟨_, hok⟩ | ⟨e, hfailed⟩
      · cases hclaim.symm.trans hok
      · cases hclaim.symm.trans hfailed

theorem countsClaim_of_leads (h : (m.view [] []).Consistent) (hleads : Leads (claim s vpn) m m') :
    m.CountsClaim s vpn m' := by
  obtain ⟨page, hp⟩ := exists_page_of_leads hleads
  cases hin : m.inFrame s vpn with
  | true =>
      have hclaim := claim_of_inFrame hin
      obtain rfl : m' = m := by
        rcases hleads with ⟨_, hok⟩ | ⟨e, hfailed⟩
        · exact (EStateM.Result.ok.inj (hclaim.symm.trans hok)).2.symm
        · cases hclaim.symm.trans hfailed
      refine ⟨?_, ?_⟩
      · rw [Machine.evictedFor_of_inFrame hin, Nat.add_zero]
      · rw [Machine.evictedFor_of_inFrame hin, lost_eq_empty rfl, Set.encard_empty, Nat.cast_zero]
  | false =>
      have habsent : page.frame = none := by
        by_contra hframe
        cases hin.symm.trans (inFrame_iff.mpr ⟨page, hp, hframe⟩)
      have hends := claim_counts h hp habsent
      obtain ⟨m₁, hcounted, hevictions, hpage⟩ : ∃ m₁, Counted m m₁ ∧
          m'.frames.evictions = m₁.frames.evictions ∧
          ∀ t u, ¬(s = t ∧ vpn = u) → m'.page? t u = m₁.page? t u := by
        rcases hleads with ⟨_, hok⟩ | ⟨e, hfailed⟩
        · exact (hends.ok_of_eq hok).2
        · exact hends.failed_of_eq hfailed
      refine ⟨?_, ?_⟩
      · rw [hevictions, hcounted.evictions_eq, Machine.evictedFor_of_absent h.size_le hin]
      · rw [Machine.lost_congr hin hpage, hcounted.lost_eq,
          Machine.evictedFor_of_absent h.size_le hin]

theorem ByClaims.evictions_eq {evicted : ℕ} (h : ByClaims s m evicted m') :
    m'.frames.evictions = m.frames.evictions + evicted := by
  induction h with
  | refl => rfl
  | same before page_eq frames_eq ih => rw [frames_eq, ih]
  | @claimed m₁ m₂ m' evicted vpn before consistent claimable claims ih =>
      have hframes : m₂.frames = m₁.frames := by
        cases claimable with
        | found found view_eq => exact congrArg View.frames view_eq
        | grown missing inStack inside view_eq => exact congrArg View.frames view_eq
      rw [(countsClaim_of_leads consistent claims).evictions_eq, hframes, ih, Nat.add_assoc]

end MachineM

/-! ## Requests -/

/-- Whether a request claims pages of an address space. -/
def Op.Claims (s : SpaceId) : Op → Prop
  | .claim t _ | .setupStack t => t = s
  | op => op.Touches s

section

variable {op : Op} {visit : Visit}

theorem Deed.ne_evict_of_mapping {file : FileId} (hd : d ∈ Deed.mapping s file) (t : SpaceId)
    (u : VirtPage) : d ≠ .evict t u := by
  rintro rfl
  rcases hd with ⟨page, hd⟩ | hd | ⟨id, hd⟩
  · cases hd
  · cases hd
  · cases hd

/-- No other request has a step that evicts a page. -/
theorem Op.ne_evict_of_deeds {child : SpaceId} (hclaims : ∀ s, ¬op.Claims s)
    (hcopies : ∀ s, ¬op.CopiesFrom s) (hd : d ∈ op.deeds child) (t : SpaceId) (u : VirtPage) :
    d ≠ .evict t u := by
  rintro rfl
  cases op
  case claim s va => exact hclaims s rfl
  case setupStack s => exact hclaims s rfl
  case fault s f => exact hclaims s rfl
  case read s va buffer => exact hclaims s rfl
  case write s va data => exact hclaims s rfl
  case fork s => exact hcopies s (.inl rfl)
  case copy dst src => exact hcopies src (.inr ⟨dst, rfl⟩)
  case create => rcases hd with hd | hd <;> cases hd
  case drop => rcases hd with hd | ⟨v, hd⟩ <;> cases hd
  case alloc s va writable loader target =>
      cases loader with
      | zero => cases hd
      | file segment =>
          obtain ⟨touch, -, hd⟩ := hd
          cases hd
  case recycle | unmap | unmapCall =>
      obtain ⟨v, hd⟩ := hd
      cases hd
  case map | loadExecutable => exact Deed.ne_evict_of_mapping hd t u rfl
  case mapCall =>
      obtain ⟨file, -, hd⟩ := hd
      exact Deed.ne_evict_of_mapping hd t u rfl
  all_goals cases hd

namespace Machine

theorem Sound.evictions_eq (h : m.Sound) (hclaims : ∀ s, ¬op.Claims s)
    (hcopies : ∀ s, ¬op.CopiesFrom s) (hstep : m.step? visit op = some m') :
    m'.frames.evictions = m.frames.evictions :=
  Steps.evictions_eq (Op.finished h hstep).steps fun _ hd =>
    Op.ne_evict_of_deeds hclaims hcopies hd

end Machine

namespace MachineM

/-- A page is registered at an address and claimed, if there is none. -/
theorem allocZero_through (h : (m.view [] []).Consistent) {va : VirtAddr}
    (hstack : va.page.InStack) :
    Ends False (do alloc s va true .zero .anon; claimAt s va : MachineM Unit) m
      (fun _ m' => ThroughClaims s m m')
      fun _ m' => ThroughClaims s m m' := by
  have hlive : False → (m.view [] []).Live s := False.elim
  refine ((alloc_ends hlive va true .zero .anon).mono (fun _ _ ha => ha) ?_).bind ?_
  · rintro e m' ⟨-, rfl⟩
    exact .refl s m'
  · rintro - m₁ ⟨touch, htouch, hlive', hfresh, hin, hview⟩
    obtain rfl : touch = .zero := (Except.ok.inj htouch).symm
    obtain ⟨space, hspace⟩ := Machine.exists_space_of_live hlive'
    have hclaimable : Claimable m s va.page m₁ := .grown hfresh hstack hin hview
    obtain ⟨page, hp⟩ := hclaimable.exists_page
    refine Ends.of_eq (claimAt_of_registered hp) ((claim_through h hspace hclaimable).mono ?_ ?_)
    · exact fun _ _ hok => hok.1
    · exact fun _ _ hf => hf

theorem setupStack_through (h : (m.view [] []).Consistent) :
    Ends False (setupStack s) m (fun _ m' => ThroughClaims s m m')
      fun _ m' => ThroughClaims s m m' := by
  have hstack : (VirtAddr.page ⟨userStackTop - pageSize⟩).InStack := by
    unfold VirtPage.InStack
    decide
  rw [setupStack_eq]
  refine (allocZero_through h hstack).bind ?_
  rintro - m₁ hthrough
  unfold setUserSp
  rw [bind_assoc]
  refine Ends.space (False.elim : False → (m₁.view [] []).Live s) fun space hspace => ?_
  have hview : (m₁.setSpace s { space with userSp := userStackTop }).view [] [] = _ :=
    Machine.view_putUserSp hspace userStackTop
  have hpage : (m₁.setSpace s { space with userSp := userStackTop }).page? = m₁.page? :=
    congrArg View.page hview
  exact Ends.bind_ok rfl (Ends.pure (hthrough.trans (.same hpage rfl)))

theorem claimAt_through (h : (m.view [] []).Consistent) (va : VirtAddr) :
    Ends False (claimAt s va) m (fun _ m' => ThroughClaims s m m')
      fun _ m' => ThroughClaims s m m' := by
  cases hp : m.page? s va.page with
  | some page =>
      obtain ⟨space, hspace, -⟩ := Machine.exists_space_of_page? hp
      refine Ends.of_eq (claimAt_of_registered hp) ?_
      exact (claim_through h hspace (.found hp rfl)).mono (fun _ _ hok => hok.1) fun _ _ hf => hf
  | none =>
      unfold claimAt
      refine Ends.space (False.elim : False → (m.view [] []).Live s) fun space hspace => ?_
      have hmissing : space.pages.contains va.page = false := by
        refine Bool.eq_false_iff.mpr fun hcontains => PageMap.getElem?_of_contains hcontains ?_
        rw [← Machine.page?_of_space? hspace, hp]
      rw [hmissing]
      exact Ends.bind_failed rfl (.refl s m)

end MachineM

theorem Machine.Sound.claims_through (h : m.Sound) (hclaims : op.Claims s)
    (hstep : m.step? visit op = some m') : MachineM.ThroughClaims s m m' := by
  cases op with
  | claim t va =>
      obtain rfl : t = s := hclaims
      exact Ends.of_step? ((MachineM.claimAt_through h.consistent va).reply fun _ => .done) hstep
  | setupStack t =>
      obtain rfl : t = s := hclaims
      exact Ends.of_step? ((MachineM.setupStack_through h.consistent).reply
        fun va => .address va.val) hstep
  | fault t f => exact h.throughClaims (show Op.Touches s (.fault t f) from hclaims) hstep
  | read t va buffer =>
      exact h.throughClaims (show Op.Touches s (.read t va buffer) from hclaims) hstep
  | write t va data =>
      exact h.throughClaims (show Op.Touches s (.write t va data) from hclaims) hstep
  | _ => exact hclaims.elim

end

end DemandPaging
