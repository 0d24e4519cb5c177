import DemandPaging.Proofs.EvictionCount.Claims

/-! # Evictions for copies

Each page that was touched is copied into a frame of its own, and pages that were never touched take
none. So a copy of an address space evicts as many pages as there are too few free frames for its
touched pages, in whatever order they are visited.
-/

namespace DemandPaging

/-- What an action that is cleaned up after leaves, if the cleanup goes well. -/
theorem Ends.onStop {α : Type} {action : MachineM α} {cleanup : MachineM Unit} {m : Machine}
    {ok : α → Machine → Prop} {stopped failed : Errno → Machine → Prop}
    (h : Ends False action m ok stopped)
    (hcleanup : ∀ e m₁, stopped e m₁ → ∃ m', cleanup m₁ = .ok () m' ∧ failed e m') :
    Ends False (MachineM.onStop action cleanup) m ok failed := by
  cases hresult : action m with
  | ok a m₁ => exact Ends.of_ok (MachineM.onStop_of_ok hresult _) (h.ok_of_eq hresult)
  | error stop m₁ =>
      cases stop with
      | failed e =>
          obtain ⟨m', hclean, hfailed⟩ := hcleanup e m₁ (h.failed_of_eq hresult)
          refine Ends.of_failed ?_ hfailed
          rw [MachineM.onStop_of_failed hresult, MachineM.bind_of_ok hclean]
          rfl
      | panicked p =>
          obtain ⟨_, m', hpanic⟩ := MachineM.onStop_of_panicked hresult cleanup
          exact Ends.of_panicked hpanic False.elim

variable {m m' : Machine} {s dst src : SpaceId} {vpn : VirtPage} {page : Page} {V W : View}

/-- How many frames a copy of a page takes. -/
def Page.copyCost (page : Page) : ℕ :=
  if page.isUninit then 0 else 1

namespace Machine

def copyCost (m : Machine) (s : SpaceId) (vpn : VirtPage) : ℕ :=
  (m.page? s vpn).elim 0 Page.copyCost

/-- The pages of an address space that were touched. -/
def touchedPages (m : Machine) (s : SpaceId) : Set VirtPage :=
  {vpn | ∃ page, m.page? s vpn = some page ∧ page.isUninit = false}

/-- Pages were evicted as if so many pages came into frames. -/
def EvictsFor (m : Machine) (count : ℕ) (m' : Machine) : Prop :=
  m'.frames.evictions = m.frames.evictions + (count - (m.pool.total - m.frames.size))

theorem BringsIn.evictsFor {m₁ : Machine} {count more : ℕ} (h : m.BringsIn count m₁)
    (hle : m.frames.size ≤ m.pool.total) (h' : m₁.EvictsFor more m') :
    m.EvictsFor (count + more) m' := by
  obtain ⟨hevictions, hsize, htotal⟩ := h
  unfold EvictsFor at h' ⊢
  rw [h', hevictions, hsize, htotal]
  omega

end Machine

namespace MachineM

/-! ## Single pages -/

theorem frames_of_copy (hstep : Step (.copy dst src vpn) V W) :
    ∃ entry, W.frames = V.frames.push entry := by
  cases hstep with
  | copy => exact ⟨_, rfl⟩

/-- A copy of a page takes a frame if the page was touched. -/
theorem copyPage_counts (h : (m.view [] []).Consistent) (hp : m.page? src vpn = some page) :
    Ends False (copyPage dst src vpn) m (fun _ m' => m.BringsIn page.copyCost m')
      fun _ m' => ∃ count ≤ page.copyCost, m.EvictsFor count m' := by
  have hlive : False → (m.view [] []).Live dst := False.elim
  have hnothing : ∃ count ≤ page.copyCost, m.EvictsFor count m :=
    ⟨0, Nat.zero_le _, by rw [Machine.EvictsFor, Nat.zero_sub, Nat.add_zero]⟩
  refine copyPage_of_parts hlive hp (fun _ => hnothing) ?inherited ?copied
  case inherited =>
    intro huninit _
    have hcost : page.copyCost = 0 := if_pos huninit
    refine (register_ends hlive page).mono ?_ ?_
    · rintro - m' ⟨-, -, hview⟩
      rw [hcost]
      exact .none h.size_le (congrArg View.frames hview) (congrArg (·.pool.total) hview)
    · rintro e m' ⟨-, rfl, -⟩
      exact hnothing
  case copied =>
    intro htouched hfresh hlive'
    have hcost : page.copyCost = 1 := if_neg (Bool.eq_false_iff.mp htouched)
    rw [hcost]
    refine (acquireCopy_ends h False.elim hp htouched hlive' hfresh).mono ?_ ?_
    · rintro - m' ⟨frame, m₁, hacquires, hstep⟩
      have hcounted := hacquires.counted h
      obtain ⟨entry, hframes⟩ := frames_of_copy hstep
      have hframes' : m'.frames = m₁.frames.push entry := hframes
      refine hcounted.bringsIn ?_ ?_ hstep.total_eq
      · rw [hframes']
        rfl
      · rw [hframes', FrameTable.size_push]
    · rintro e m' ⟨-, -, frame, m₁, hacquires, hsteps⟩
      refine ⟨1, le_rfl, Eq.trans (hsteps.evictions_eq ?_) (hacquires.counted h).evictions_eq⟩
      rintro d (rfl | rfl) t u hd <;> cases hd

/-! ## Whole address spaces -/

theorem alike_of_copying (hsteps : Steps (Deed.copying dst src) V W) (h : V.Consistent)
    (hp : V.page src vpn = some page) :
    ∃ after, W.page src vpn = some after ∧ page.Alike after := by
  refine (hsteps.invariant (fun U => U.Consistent ∧
    ∃ after, U.page src vpn = some after ∧ page.Alike after)
    (fun d hd U X hstep hU => ⟨hstep.consistent hU.1, ?_⟩) ⟨h, page, hp, .refl page⟩).2
  obtain ⟨hc, before, hbefore, halike⟩ := hU
  rcases hstep.alike_of_making (.inl hd) hc src vpn with hrel | ⟨-, hnone, -⟩
  · obtain ⟨after, hafter, hmore⟩ := exists_after_of_alikeRel hrel hbefore
    exact ⟨after, hafter, halike.trans hmore⟩
  · cases hnone.symm.trans hbefore

/-- What was counted when some pages were copied and others are left. -/
structure CountedCopies (m : Machine) (dst src : SpaceId) (order rest : List VirtPage)
    (m' : Machine) : Prop where
  steps : Steps (Deed.copying dst src) (m.view [] []) (m'.view [] [])
  rest_subset : rest ⊆ order
  counted : ∃ count, m.BringsIn count m' ∧
    count + (rest.map (m.copyCost src)).sum = (order.map (m.copyCost src)).sum

theorem copyInOrder_counts {order : List VirtPage} (h : (m.view [] []).Consistent)
    (horder : ∀ vpn ∈ order, m.page? src vpn ≠ none) :
    Ends False (copyInOrder dst src order) m
      (fun _ m' => m.BringsIn (order.map (m.copyCost src)).sum m')
      fun _ m' => ∃ count ≤ (order.map (m.copyCost src)).sum, m.EvictsFor count m' := by
  unfold copyInOrder
  refine Ends.space (False.elim : False → (m.view [] []).Live src) fun space hspace => ?_
  refine Ends.bind_ok rfl ?_
  have hstart : CountedCopies m dst src order order
      { m with events := m.events.push (.copying space.pages.size) } :=
    ⟨Steps.refl _, List.Subset.refl order, 0, .none h.size_le rfl rfl, Nat.zero_add _⟩
  refine (Ends.forM_rest (CountedCopies m dst src order) (fun vpn rest m₁ hrest => ?_)
    hstart).mono ?_ fun _ _ hfailed => hfailed
  · have hvpn : vpn ∈ order := hrest.rest_subset List.mem_cons_self
    obtain ⟨page, hp⟩ := Option.ne_none_iff_exists'.mp (horder vpn hvpn)
    obtain ⟨after, hafter, halike⟩ := alike_of_copying hrest.steps h hp
    have h₁ := hrest.steps.consistent h
    have hcost : after.copyCost = m.copyCost src vpn := by
      rw [Machine.copyCost, hp, Option.elim_some, Page.copyCost, Page.copyCost, halike.isUninit_eq]
    obtain ⟨count, hbrings, hsum⟩ := hrest.counted
    rw [List.map_cons, List.sum_cons] at hsum
    have hends : Ends False (copyPage dst src vpn) m₁
        (fun _ m' => Steps (Deed.copying dst src) (m₁.view [] []) (m'.view [] []))
        fun _ _ => True := by
      have hready : Ready False m₁ dst [] := ⟨h₁, False.elim, False.elim⟩
      refine (copyPage_ends hready ?_).mono (fun _ _ hok => hok.1) fun _ _ _ => trivial
      exact Option.ne_none_iff_exists'.mpr ⟨after, hafter⟩
    refine (hends.and (copyPage_counts h₁ hafter)).mono ?_ ?_
    · rintro - m₂ ⟨hmore, hbrings₁⟩
      rw [hcost] at hbrings₁
      refine ⟨hrest.steps.trans hmore, fun u hu => hrest.rest_subset (List.mem_cons_of_mem _ hu),
        _, hbrings.trans h.size_le hbrings₁, ?_⟩
      rw [Nat.add_assoc]
      exact hsum
    · rintro e m₂ ⟨-, more, hmore, hevicts⟩
      rw [hcost] at hmore
      exact ⟨count + more, by omega, hbrings.evictsFor h.size_le hevicts⟩
  · rintro - m' hdone
    obtain ⟨count, hbrings, hsum⟩ := hdone.counted
    rw [List.map_nil, List.sum_nil, Nat.add_zero] at hsum
    rwa [← hsum]

/-- The touched pages are those that a copy in any order takes frames for. -/
theorem encard_touchedPages {order : List VirtPage} (hnodup : order.Nodup)
    (hmem : ∀ vpn, vpn ∈ order ↔ m.page? s vpn ≠ none) :
    (m.touchedPages s).encard = ((order.map (m.copyCost s)).sum : ℕ) := by
  have hsum : ∀ pages : List VirtPage, (pages.map (m.copyCost s)).sum =
      (pages.filter fun vpn => m.copyCost s vpn = 1).length := by
    intro pages
    induction pages with
    | nil => rfl
    | cons vpn pages ih =>
        have hcost : m.copyCost s vpn = 0 ∨ m.copyCost s vpn = 1 := by
          unfold Machine.copyCost
          cases m.page? s vpn with
          | none => exact .inl rfl
          | some page => exact ite_eq_or_eq _ _ _
        rw [List.map_cons, List.sum_cons, ih, List.filter_cons]
        rcases hcost with hzero | hone
        · simp [hzero]
        · simp [hone, Nat.add_comm]
  have hset : m.touchedPages s =
      ((order.filter fun vpn => m.copyCost s vpn = 1).toFinset : Set VirtPage) := by
    ext vpn
    rw [Machine.touchedPages, List.coe_toFinset]
    simp only [Set.mem_ofPred_eq, List.mem_filter, hmem, decide_eq_true_eq]
    cases hp : m.page? s vpn with
    | none => simp
    | some page => simp [Machine.copyCost, hp, Page.copyCost]
  rw [hset, Set.encard_coe_eq_coe_finsetCard, List.toFinset_card_of_nodup (hnodup.filter _), hsum]

end MachineM

/-- What a copy of an address space counts: the touched pages come into frames. -/
structure Machine.CountsCopy (m : Machine) (s : SpaceId) (m' : Machine) : Prop where
  bringsIn : ∃ count : ℕ, (m.touchedPages s).encard = count ∧ m.BringsIn count m'

/-- What a copy counts that fails: it comes to an end at some of the touched pages. -/
structure Machine.CountsFailedCopy (m : Machine) (s : SpaceId) (m' : Machine) : Prop where
  evictsFor : ∃ count : ℕ, count ≤ (m.touchedPages s).encard ∧ m.EvictsFor count m'

namespace MachineM

theorem copySpaceBy_counts (visit : Visit) (h : (m.view [] []).Consistent) :
    Ends False (copySpaceBy visit dst src) m (fun _ m' => m.CountsCopy src m')
      fun _ m' => m.CountsFailedCopy src m' := by
  unfold copySpaceBy
  refine Ends.space (False.elim : False → (m.view [] []).Live src) fun space hspace => ?_
  have hmem : ∀ vpn, vpn ∈ visit.order space.pages.keys ↔ m.page? src vpn ≠ none := fun vpn =>
    mem_order_iff hspace visit
  have hencard := encard_touchedPages (nodup_order visit space) hmem
  refine (copyInOrder_counts h fun vpn hvpn => (hmem vpn).mp hvpn).mono ?_ ?_
  · exact fun _ m' hbrings => ⟨_, hencard, hbrings⟩
  · rintro - m' ⟨count, hle, hevicts⟩
    refine ⟨count, ?_, hevicts⟩
    rw [hencard]
    exact_mod_cast hle

theorem forkBy_counts (visit : Visit) (h : m.Sound) :
    Ends False (forkBy visit s) m (fun _ m' => m.CountsCopy s m')
      fun _ m' => m.CountsFailedCopy s m' := by
  unfold forkBy
  refine Ends.space (False.elim : False → (m.view [] []).Live s) fun parent hparent => ?_
  refine Ends.bind_ok rfl (Ends.bind_ok rfl ?_)
  have hmem : ∀ vpn, vpn ∈ visit.order parent.pages.keys ↔ m.page? s vpn ≠ none := fun vpn =>
    mem_order_iff hparent visit
  have hencard := encard_touchedPages (nodup_order visit parent) hmem
  have hdead := space?_nextSpace h.fresh
  have hview := view_putSpace_empty hdead parent.userSp [] []
  have hstart := (step_create hdead parent.userSp [] []).consistent h.consistent
  have hbegun := copyToChild_ends (s := s) ⟨h.consistent, False.elim, False.elim⟩ h.fresh
    (fun vpn hvpn => (hmem vpn).mp hvpn) parent.userSp
  have hpages : (m.setSpace m.nextSpace { Space.empty with userSp := parent.userSp }).page? =
      m.page? := congrArg View.page hview
  have hcost : (m.setSpace m.nextSpace { Space.empty with userSp := parent.userSp }).copyCost s =
      m.copyCost s := by
    funext vpn
    rw [Machine.copyCost, hpages, Machine.copyCost]
  have hcopies : Ends False (copyInOrder m.nextSpace s (visit.order parent.pages.keys))
      (m.setSpace m.nextSpace { Space.empty with userSp := parent.userSp }) _ _ :=
    copyInOrder_counts hstart fun vpn hvpn => by
      rw [hpages]
      exact (hmem vpn).mp hvpn
  rw [hcost] at hcopies
  refine Ends.bind (Ends.onStop (hbegun.and hcopies) ?_) ?_
  · rintro e m₁ ⟨⟨-, hchild⟩, count, hle, hevicts⟩
    obtain ⟨m', hdrop, habandoned⟩ := hchild.abandoned visit h.consistent h.fresh
    refine ⟨m', hdrop, count, ?_, Eq.trans (habandoned.dropping.evictions_eq ?_) hevicts⟩
    · rw [hencard]
      exact_mod_cast hle
    · rintro d (rfl | ⟨u, rfl⟩) t v hd <;> cases hd
  · rintro - m₁ ⟨-, hbrings⟩
    have hcounted : m.CountsCopy s { m₁ with nextSpace := m.nextSpace + 1 } :=
      ⟨_, hencard, hbrings.evictions_eq, hbrings.size_eq, hbrings.total_eq⟩
    exact Ends.bind_ok rfl (Ends.pure hcounted)

end MachineM

/-- Requests that copy an address space evict pages for the touched ones. -/
theorem Machine.Sound.copies_count {op : Op} {visit : Visit} (h : m.Sound)
    (hcopies : op.CopiesFrom s) :
    Ends False (op.execBy visit) m (fun _ m' => m.CountsCopy s m')
      fun _ m' => m.CountsFailedCopy s m' := by
  rcases hcopies with rfl | ⟨dst, rfl⟩
  · exact Ends.map (MachineM.forkBy_counts visit h)
  · exact (MachineM.copySpaceBy_counts visit h.consistent).reply fun _ => .done

end DemandPaging
