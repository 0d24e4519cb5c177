import DemandPaging.Proofs.Forking

/-! # Unwinding

A fork that panics removes its child with the pages that the child got so far, and only then does
the panic go on. It comes from an eviction that found no slot. The page of that eviction is out of
the page table already, so if it belongs to the child, to remove it panics in turn.
-/

namespace DemandPaging

namespace MachineM

variable {m m' : Machine} {s dst src : SpaceId} {vpn : VirtPage} {pins : List BackingId}
  {e : FrameEntry} {order : List VirtPage} {p : Panic}

/-! ## Where a copy panics -/

/-- A page is copied without a panic, once there is a frame for the copy. -/
theorem copyPage_panicked (h : (m.view [] pins).Consistent) (hlive : (m.view [] pins).Live dst)
    (hp : m.page? src vpn ≠ none) (hpanic : copyPage dst src vpn m = .error (.panicked p) m') :
    m.pool.alloc? = none ∧ evict m = .error (.panicked p) m' := by
  obtain ⟨page, hp⟩ := Option.ne_none_iff_exists'.mp hp
  obtain ⟨space, hspace⟩ := Machine.exists_space_of_live hlive
  unfold copyPage at hpanic
  have hfound := panicked_of_bind (page_of_some hp) hpanic
  have hrest := panicked_of_bind (space_of_some hspace) hfound
  by_cases hcontains : space.pages.contains vpn = true
  · simp only [hcontains, if_true] at hrest
    cases hrest
  have hfresh : m.page? dst vpn = none := by
    rw [Machine.page?_of_space? hspace]
    exact PageMap.getElem?_of_not_contains (Bool.eq_false_iff.mpr hcontains)
  simp only [hcontains, Bool.false_eq_true, if_false] at hrest
  split at hrest
  · have hfree : m.page? dst page.vpn = none := by rwa [(h.settled hp).vpn_eq]
    obtain ⟨m₁, hregister, -⟩ := register_of_fresh hspace hfree [] pins
    cases hregister.symm.trans hrest
  · next htouched =>
    rcases bind_eq_panicked hrest with hacquire | ⟨frame, m₁, hacquire, hcopy⟩
    · exact acquireFrame_stopped hacquire
    · obtain ⟨hroom, hzero⟩ := ((acquireFrame_ends h False.elim).ok_of_eq hacquire).room h
      have hroomier := hroom.roomier h
      obtain ⟨parent, hp₁, halike⟩ := hroomier.exists_page hp
      have htouched₁ : parent.isUninit = false :=
        halike.isUninit_eq.trans (Bool.eq_false_iff.mpr htouched)
      have huser : m₁.userSp? = m.userSp? := hroomier.userSp_eq
      have hlive₁ : (m₁.view [frame] pins).Live dst := by
        change m₁.userSp? dst ≠ none
        rw [huser]
        exact hlive
      have hends := panicked_of_bind (page_of_some hp₁) hcopy
      rcases copyTouched_cases (hroom.consistent h) hp₁ htouched₁ hlive₁
          (hroomier.page_eq_none_iff.mpr hfresh) hzero with ⟨m₂, hok, -⟩ | ⟨m₂, hfailed, -⟩
      · cases hok.symm.trans hends
      · cases hfailed.symm.trans hends

theorem copyInOrder_panicked (h : (m.view [] pins).Consistent) (hsrc : (m.view [] pins).Live src)
    (hdst : (m.view [] pins).Live dst) (horder : ∀ vpn ∈ order, m.page? src vpn ≠ none)
    (hpanic : copyInOrder dst src order m = .error (.panicked p) m') :
    ∃ m₁, Steps (Deed.copying dst src) (m.view [] pins) (m₁.view [] pins) ∧
      m₁.pool.alloc? = none ∧ evict m₁ = .error (.panicked p) m' := by
  obtain ⟨space, hspace⟩ := Machine.exists_space_of_live hsrc
  unfold copyInOrder at hpanic
  have hready : Ready False m dst pins := ⟨h, False.elim, False.elim⟩
  have hcopying := panicked_of_bind (space_of_some hspace) hpanic
  obtain ⟨m₀, hview₀, hloop⟩ : ∃ m₀, m₀.view [] pins = m.view [] pins ∧
      order.forM (copyPage dst src) m₀ = .error (.panicked p) m' :=
    ⟨_, rfl, panicked_of_bind rfl hcopying⟩
  obtain ⟨vpn, rest, m₁, hrest, hcopy⟩ := Ends.forM_panicked (Remaining m dst src pins order)
    (fun _ _ _ hrest => hrest.copyPage_ends hready horder) (Remaining.of_view hview₀) hloop
  have hvpn := horder vpn (hrest.rest_subset List.mem_cons_self)
  have hlive : (m₁.view [] pins).Live dst := by
    obtain ⟨huser, -⟩ := hrest.steps.spaces_eq fun d hd => keepsSpaces_of_copying hd
    change (m₁.view [] pins).userSp dst ≠ none
    rw [huser]
    exact hdst
  exact ⟨m₁, hrest.steps, copyPage_panicked (hrest.steps.consistent h) hlive
    (page_ne_none_of_copying hrest.steps hvpn) hcopy⟩

/-- Where the copying panics, the machine is as it was, or an eviction stopped at one of its
pages. -/
theorem copyInOrder_stopped (h : (m.view [] pins).Consistent) (hsrc : (m.view [] pins).Live src)
    (hdst : (m.view [] pins).Live dst) (horder : ∀ vpn ∈ order, m.page? src vpn ≠ none)
    (hpanic : copyInOrder dst src order m = .error (.panicked p) m') :
    (m.pool.total = 0 ∧ (m'.view [] pins).Consistent) ∨
      (p = .outOfSwapSlots ∧ ∃ e, m'.SwapExhausted e ∧ (m'.view [] []).Live dst) := by
  obtain ⟨m₁, hsteps, hfull, hevict⟩ := copyInOrder_panicked h hsrc hdst horder hpanic
  have h₁ := hsteps.consistent h
  rcases evict_stopped h₁ hfull hevict with ⟨-, htotal, rfl⟩ | ⟨rfl, -, e, hexhausted, huser⟩
  · have hsame : m'.pool.total = m.pool.total := hsteps.total_eq
    exact .inl ⟨hsame ▸ htotal, h₁⟩
  · have huser₁ : m₁.userSp? = m.userSp? :=
      (hsteps.spaces_eq fun d hd => keepsSpaces_of_copying hd).1
    refine .inr ⟨rfl, e, hexhausted, ?_⟩
    change m'.userSp? dst ≠ none
    rw [huser, huser₁]
    exact hdst

/-! ## Removing pages after an eviction that stopped -/

theorem live_of_stranded (h : m.Stranded e) : (m.view [] pins).Live e.space :=
  let ⟨⟨_, hp, _⟩, _⟩ := h
  Machine.live_of_page? hp

/-- A page that the eviction did not stop at is removed like any other. -/
theorem discard_beside (h : m.Stranded e) (hlive : (m.view [] []).Live s)
    (hne : ¬(e.space = s ∧ e.vpn = vpn)) :
    ∃ m', discard s vpn m = .ok () m' ∧ m'.Stranded e ∧ m'.userSp? = m.userSp? ∧
      m'.page? = setAt m.page? s vpn none := by
  obtain ⟨⟨victim, hvictim, hrest⟩, pins, hc⟩ := h
  obtain ⟨space, hspace⟩ := Machine.exists_space_of_live hlive
  have hpage := Machine.page?_of_space? hspace vpn
  cases hp : m.page? s vpn with
  | none =>
      refine ⟨m, ?_, ⟨⟨victim, hvictim, hrest⟩, pins, hc⟩, rfl, (setAt_eq_self hp).symm⟩
      rw [hp] at hpage
      simp only [discard, Bind.bind, EStateM.bind, space_of_some hspace, ← hpage]
      rfl
  | some page =>
      have hother : (m.without e pins).page s vpn = some page := (setAt_of_ne hne).trans hp
      obtain rfl : page.vpn = vpn := (hc.settled hother).vpn_eq
      have hlive' : (m.view [e.frame] pins).Live s := hlive
      obtain ⟨m₁, herase, hview₁⟩ := erasePage_ok hlive' page.vpn
      obtain ⟨m', hdestroy, hpages, hstep⟩ := destroy_of_view (m := m₁) hc hother
        (congrArg (fun W : View => { W with page := (m.without e pins).page }) hview₁)
      have hpages' : m'.page? = setAt m.page? s page.vpn none :=
        hpages.trans (congrArg View.page hview₁)
      have hwithout : m'.without e pins = { m'.view [e.frame] pins with
          page := setAt (m.without e pins).page s page.vpn none } := by
        rw [Machine.without, hpages', setAt_comm]
        rfl
      rw [hpage] at hp
      refine ⟨m', ?_, ⟨⟨victim, ?_, hrest⟩, pins, ?_⟩, (hstep.spaces_eq trivial).1, hpages'⟩
      · simp only [discard, Bind.bind, EStateM.bind, space_of_some hspace, hp, herase]
        exact hdestroy
      · rw [hpages', setAt_of_ne fun heq => hne ⟨heq.1.symm, heq.2.symm⟩, hvictim]
      · rw [hwithout]
        exact hstep.consistent hc

theorem discard_victim (h : m.Stranded e) :
    ∃ m', discard e.space e.vpn m = .error (.panicked (.notMapped e.vpn)) m' := by
  have hlive : (m.view [] []).Live e.space := live_of_stranded h
  obtain ⟨⟨page, hp, hvpn, hframe, -⟩, pins, hc⟩ := h
  obtain ⟨space, hspace, hpage⟩ := Machine.exists_space_of_page? hp
  obtain ⟨m₁, herase, hview₁⟩ := erasePage_ok hlive e.vpn
  have hentry : m₁.entryAt? e.space e.vpn = none :=
    (congrFun (congrFun (congrArg View.entry hview₁) e.space) e.vpn).trans (hc.unmapped setAt_same)
  have hlive₁ : (m₁.view [] []).Live e.space := by
    rw [hview₁]
    exact hlive
  have hunmap := unmapPage_of_none hlive₁ hentry
  refine ⟨m₁, ?_⟩
  simp only [discard, Bind.bind, EStateM.bind, space_of_some hspace, hpage, herase, destroy,
    vacateFrame, hframe, hvpn, hunmap]

theorem forM_discard_beside (order : List VirtPage) (h : m.Stranded e)
    (hlive : (m.view [] []).Live s) (hne : ¬(e.space = s ∧ e.vpn ∈ order)) :
    ∃ m', order.forM (discard s) m = .ok () m' ∧ m'.Stranded e ∧ m'.userSp? = m.userSp? ∧
      ∀ t u, m'.page? t u = if s = t ∧ u ∈ order then none else m.page? t u := by
  induction order generalizing m with
  | nil => exact ⟨m, rfl, h, rfl, by simp⟩
  | cons vpn order ih =>
      have hfirst : ¬(e.space = s ∧ e.vpn = vpn) := fun heq =>
        hne ⟨heq.1, heq.2 ▸ List.mem_cons_self⟩
      obtain ⟨m₁, hdiscard, h₁, huser₁, hpages₁⟩ := discard_beside h hlive hfirst
      have hlive₁ : (m₁.view [] []).Live s := by
        change m₁.userSp? s ≠ none
        rw [huser₁]
        exact hlive
      obtain ⟨m₂, hrest, h₂, huser₂, hpages₂⟩ := ih h₁ hlive₁ fun heq =>
        hne ⟨heq.1, List.mem_cons_of_mem _ heq.2⟩
      exact ⟨m₂, (bind_of_ok hdiscard).trans hrest, h₂, huser₂.trans huser₁,
        setAt_none_cons (by rwa [← hpages₁])⟩

theorem forM_discard_victim (h : m.Stranded e) (hmem : e.vpn ∈ order) :
    ∃ m', order.forM (discard e.space) m = .error (.panicked (.notMapped e.vpn)) m' := by
  induction order generalizing m with
  | nil => cases hmem
  | cons vpn order ih =>
      by_cases hvpn : e.vpn = vpn
      · subst hvpn
        obtain ⟨m', hdiscard⟩ := discard_victim h
        exact ⟨m', bind_of_error hdiscard⟩
      · have hne : ¬(e.space = e.space ∧ e.vpn = vpn) := fun heq => hvpn heq.2
        obtain ⟨m₁, hdiscard, h₁, -⟩ := discard_beside h (live_of_stranded h) hne
        obtain ⟨m', hrest⟩ := ih h₁ ((List.mem_cons.mp hmem).resolve_left hvpn)
        exact ⟨m', (bind_of_ok hdiscard).trans hrest⟩

/-! ## Removing an address space -/

theorem stranded_of_view (h : m.Stranded e)
    (hview : ∀ held pins, m'.view held pins = m.view held pins) : m'.Stranded e := by
  have hpages : m'.page? = m.page? := congrArg View.page (hview [] [])
  refine ⟨by rw [hpages]; exact h.page, ?_⟩
  obtain ⟨pins, hc⟩ := h.others
  refine ⟨pins, ?_⟩
  rwa [Machine.without, hview, hpages]

/-- An address space is removed, if the eviction did not stop at one of its pages. -/
theorem dropSpaceBy_beside (visit : Visit) (h : m.Stranded e) (hlive : (m.view [] []).Live s)
    (hne : e.space ≠ s) : ∃ m', dropSpaceBy visit s m = .ok () m' := by
  obtain ⟨space, hspace⟩ := Machine.exists_space_of_live hlive
  obtain ⟨m₁, hrun, hview₁⟩ := recycleInOrder_eq hspace (visit.order space.pages.keys)
  obtain ⟨m₂, hloop, h₂, huser₂, hpages₂⟩ := forM_discard_beside (visit.order space.pages.keys)
    (stranded_of_view h hview₁) (by rw [hview₁]; exact hlive) fun heq => hne heq.1
  have hpages₁ : m₁.page? = m.page? := congrArg View.page (hview₁ [] [])
  have huser₁ : m₁.userSp? = m.userSp? := congrArg View.userSp (hview₁ [] [])
  have hlive₂ : (m₂.view [] []).Live s := by
    change m₂.userSp? s ≠ none
    rw [huser₂, huser₁]
    exact hlive
  obtain ⟨space₂, hspace₂⟩ := Machine.exists_space_of_live hlive₂
  have hnone : ∀ vpn, m₂.page? s vpn = none := by
    intro vpn
    rw [hpages₂, hpages₁]
    by_cases hmem : vpn ∈ visit.order space.pages.keys
    · simp [hmem]
    · simpa [hmem] using fun hp => hmem ((mem_order_iff hspace visit).mpr hp)
  obtain ⟨pins, hc⟩ := h₂.others
  have hempty := table_isEmpty hspace₂ fun vpn =>
    hc.unmapped ((setAt_of_ne fun heq => hne heq.1).trans (hnone vpn))
  refine ⟨{ m₂ with spaces := m₂.spaces.erase s }, ?_⟩
  simp only [dropSpaceBy, recycleBy, Bind.bind, EStateM.bind, space_of_some hspace, hrun, hloop,
    space_of_some hspace₂, hempty, if_true]
  rfl

/-- An address space with the page that the eviction stopped at cannot be removed. -/
theorem dropSpaceBy_victim (visit : Visit) (h : m.Stranded e) :
    ∃ m', dropSpaceBy visit e.space m = .error (.panicked (.notMapped e.vpn)) m' := by
  obtain ⟨⟨page, hp, -⟩, -⟩ := id h
  obtain ⟨space, hspace, -⟩ := Machine.exists_space_of_page? hp
  obtain ⟨m₁, hrun, hview₁⟩ := recycleInOrder_eq hspace (visit.order space.pages.keys)
  have hmem : e.vpn ∈ visit.order space.pages.keys :=
    (mem_order_iff hspace visit).mpr (by simp [hp])
  obtain ⟨m', hloop⟩ := forM_discard_victim (stranded_of_view h hview₁) hmem
  refine ⟨m', ?_⟩
  simp only [dropSpaceBy, recycleBy, Bind.bind, EStateM.bind, space_of_some hspace, hrun, hloop]

/-- A panic goes on after an address space was removed, unless the removal panics too. -/
theorem onStop_of_stranded {α : Type} {action : MachineM α} {m₁ : Machine} (visit : Visit)
    (hstop : action m = .error (.panicked p) m₁) (h : m₁.Stranded e)
    (hlive : (m₁.view [] []).Live s) :
    ∃ m', onStop action (dropSpaceBy visit s) m = .error (.panicked
      (if e.space = s then .whileUnwinding p (.notMapped e.vpn) else p)) m' := by
  by_cases hspace : e.space = s
  · subst hspace
    obtain ⟨m', hdrop⟩ := dropSpaceBy_victim visit h
    rw [if_pos rfl]
    exact ⟨m', onStop_of_unwinding hstop hdrop⟩
  · obtain ⟨m', hdrop⟩ := dropSpaceBy_beside visit h hlive hspace
    rw [if_neg hspace]
    exact ⟨m', onStop_of_cleaned hstop hdrop⟩

/-! ## Children -/

/-- The copying of pages to a child panics like any other. -/
theorem copyToChild_panicked {userSp : ℕ} (hc : (m.view [] []).Consistent)
    (hfresh : (m.view [] []).Fresh) (hlive : (m.view [] []).Live s)
    (horder : ∀ vpn ∈ order, m.page? s vpn ≠ none)
    (hpanic : copyInOrder m.nextSpace s order
      (m.setSpace m.nextSpace { Space.empty with userSp }) = .error (.panicked p) m') :
    (m.pool.total = 0 ∧ (m'.view [] []).Consistent) ∨
      (p = .outOfSwapSlots ∧ ∃ e, m'.SwapExhausted e ∧ (m'.view [] []).Live m.nextSpace) := by
  have hview := view_putSpace_empty (space?_nextSpace hfresh) userSp [] []
  have hc₁ := (step_create (space?_nextSpace hfresh) userSp [] []).consistent hc
  generalize m.setSpace m.nextSpace { Space.empty with userSp } = m₁ at hview hc₁ hpanic
  have hpages : m₁.page? = m.page? := congrArg View.page hview
  have htotal : m₁.pool = m.pool := congrArg View.pool hview
  have huser : m₁.userSp? = Function.update m.userSp? m.nextSpace (some userSp) :=
    congrArg View.userSp hview
  have hchild : (m₁.view [] []).Live m.nextSpace := by
    change m₁.userSp? m.nextSpace ≠ none
    simp [huser]
  have hsrc : (m₁.view [] []).Live s := by
    change m₁.userSp? s ≠ none
    rw [huser, Function.update_apply]
    split
    · simp
    · exact hlive
  rw [← htotal]
  exact copyInOrder_stopped hc₁ hsrc hchild (by rwa [hpages]) hpanic

/-- Where the copying of pages to a child stops, the records agree, or an eviction stopped at a
page. -/
theorem copyToChild_stopped {userSp : ℕ} {stop : Stop} (hc : (m.view [] []).Consistent)
    (hfresh : (m.view [] []).Fresh) (hlive : (m.view [] []).Live s)
    (horder : ∀ vpn ∈ order, m.page? s vpn ≠ none)
    (hstop : copyInOrder m.nextSpace s order
      (m.setSpace m.nextSpace { Space.empty with userSp }) = .error stop m') :
    (m'.view [] []).Consistent ∨ ∃ e, m'.Stranded e := by
  cases stop with
  | failed error =>
      have hready : Ready False m s [] := ⟨hc, False.elim, False.elim⟩
      have hbegun := ((copyToChild_ends hready hfresh horder userSp).failed_of_eq hstop).2
      exact .inl (hbegun.steps.consistent hc)
  | panicked p =>
      rcases copyToChild_panicked hc hfresh hlive horder hstop with ⟨-, hc'⟩ | ⟨-, e, hexhausted, -⟩
      · exact .inl hc'
      · exact .inr ⟨e, hexhausted.stranded⟩

/-- A child is removed if the copying of its pages panics. -/
theorem copyOrDrop_panicked {userSp : ℕ} (visit : Visit) (hc : (m.view [] []).Consistent)
    (hfresh : (m.view [] []).Fresh) (hpos : 0 < m.pool.total) (hlive : (m.view [] []).Live s)
    (horder : ∀ vpn ∈ order, m.page? s vpn ≠ none)
    (hpanic : onStop (copyInOrder m.nextSpace s order) (dropSpaceBy visit m.nextSpace)
      (m.setSpace m.nextSpace { Space.empty with userSp }) = .error (.panicked p) m') :
    ∃ stopped e, copyInOrder m.nextSpace s order
        (m.setSpace m.nextSpace { Space.empty with userSp }) =
          .error (.panicked .outOfSwapSlots) stopped ∧ stopped.SwapExhausted e ∧
      p = if e.space = m.nextSpace then .whileUnwinding .outOfSwapSlots (.notMapped e.vpn)
        else .outOfSwapSlots := by
  cases hcopy : copyInOrder m.nextSpace s order
      (m.setSpace m.nextSpace { Space.empty with userSp }) with
  | ok a m₁ => cases (onStop_of_ok hcopy _).symm.trans hpanic
  | error stop m₁ =>
      cases stop with
      | failed error =>
          have hready : Ready False m s [] := ⟨hc, False.elim, False.elim⟩
          have hbegun := ((copyToChild_ends hready hfresh horder userSp).failed_of_eq hcopy).2
          obtain ⟨m₂, hdrop, -⟩ := hbegun.abandoned visit hc hfresh
          rw [onStop_of_failed hcopy, bind_of_ok hdrop] at hpanic
          cases hpanic
      | panicked q =>
          rcases copyToChild_panicked hc hfresh hlive horder hcopy with
            ⟨hnone, -⟩ | ⟨rfl, e, hexhausted, hchild⟩
          · exact absurd hnone hpos.ne'
          · obtain ⟨m₂, hunwound⟩ := onStop_of_stranded visit hcopy hexhausted.stranded hchild
            refine ⟨m₁, e, rfl, hexhausted, ?_⟩
            exact (Stop.panicked.inj (EStateM.Result.error.inj (hunwound.symm.trans hpanic)).1).symm

end MachineM

end DemandPaging
