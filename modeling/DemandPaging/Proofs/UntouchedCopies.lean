import DemandPaging.Proofs.Runs

/-! # Copies without frames

A page that was never touched is handed on to a copy as it is registered. An address space without
touched pages is copied, or forked, without a frame; a copy ends at the first place that is taken,
so only the pages before it count.
-/

namespace DemandPaging

def Machine.isTouched (m : Machine) (s : SpaceId) (vpn : VirtPage) : Bool :=
  (m.page? s vpn).any (!·.isUninit)

/-- Whether a request copies pages that were touched, and takes frames for the copies. A copy ends
at the first page whose place is taken. -/
def Op.copies (m : Machine) (visit : Visit) : Op → Bool
  | fork s => (m.space? s).any fun space => space.pages.keys.any (m.isTouched s)
  | copy dst s => (m.space? s).any fun space =>
    ((visit.order space.pages.keys).takeWhile fun vpn => (m.page? dst vpn).isNone).any
      (m.isTouched s)
  | _ => false

def View.Untouched (V : View) (s : SpaceId) (vpn : VirtPage) : Prop :=
  ∃ page, V.page s vpn = some page ∧ page.isUninit = true

def Deed.inheriting (dst src : SpaceId) : Set Deed :=
  {d | ∃ vpn, d = .inherit dst src vpn}

theorem View.Untouched.inherit {V W : View} {dst src s : SpaceId} {vpn u : VirtPage}
    (h : V.Untouched s u) (hstep : Step (.inherit dst src vpn) V W) : W.Untouched s u := by
  generalize hd : Deed.inherit dst src vpn = d at hstep
  cases hstep with
  | @inherit _ dst src vpn page live found untouched fresh =>
      by_cases hat : dst = s ∧ page.vpn = u
      · obtain ⟨rfl, rfl⟩ := hat
        exact ⟨page, setAt_same, untouched⟩
      · obtain ⟨other, hp, huninit⟩ := h
        exact ⟨other, (setAt_of_ne hat).trans hp, huninit⟩
  | _ => cases hd

theorem Step.page_of_inherit {V W : View} {dst src s : SpaceId} {vpn u : VirtPage}
    (hstep : Step (.inherit dst src vpn) V W) (h : V.Consistent) (hne : vpn ≠ u) :
    W.page s u = V.page s u := by
  generalize hd : Deed.inherit dst src vpn = d at hstep
  cases hstep with
  | @inherit _ dst src vpn page live found untouched fresh =>
      obtain ⟨rfl, rfl, rfl⟩ := Deed.inherit.inj hd
      have hvpn := (h.settled found).vpn_eq
      exact setAt_of_ne fun hat => hne (hvpn.symm.trans hat.2)
  | _ => cases hd

/-- What a copy has yet to come to: pages that are registered, of which those up to the first place
that is taken were never touched. Which places are free was settled when the copy began. -/
structure View.Uncopied (V : View) (dst src : SpaceId) (free : VirtPage → Bool)
    (rest : List VirtPage) : Prop where
  nodup : rest.Nodup
  registered : ∀ vpn ∈ rest, V.page src vpn ≠ none
  free_iff : ∀ vpn ∈ rest, free vpn = true ↔ V.page dst vpn = none
  untouched : ∀ vpn ∈ rest.takeWhile free, V.Untouched src vpn

namespace View.Uncopied

variable {V W : View} {dst src : SpaceId} {free : VirtPage → Bool} {vpn : VirtPage}
  {rest : List VirtPage}

theorem untouched_cons (h : V.Uncopied dst src free (vpn :: rest)) (hnone : V.page dst vpn = none) :
    ∀ u ∈ vpn :: rest.takeWhile free, V.Untouched src u := by
  have hfree := (h.free_iff vpn List.mem_cons_self).mpr hnone
  have huntouched := h.untouched
  rwa [List.takeWhile_cons, if_pos hfree] at huntouched

theorem isUninit (h : V.Uncopied dst src free (vpn :: rest)) (hnone : V.page dst vpn = none)
    {page : Page} (hp : V.page src vpn = some page) : page.isUninit = true := by
  obtain ⟨other, hother, huninit⟩ := h.untouched_cons hnone vpn List.mem_cons_self
  obtain rfl := Option.some.inj (hp.symm.trans hother)
  exact huninit

theorem inherit (h : V.Uncopied dst src free (vpn :: rest)) (hc : V.Consistent)
    (hnone : V.page dst vpn = none) (hstep : Step (.inherit dst src vpn) V W) :
    W.Uncopied dst src free rest := by
  obtain ⟨hnot, hnodup⟩ := List.nodup_cons.mp h.nodup
  have hsame : ∀ {s : SpaceId}, ∀ u ∈ rest, W.page s u = V.page s u := fun {s} u hu =>
    hstep.page_of_inherit hc fun heq => hnot (heq ▸ hu)
  refine ⟨hnodup, fun u hu => ?_, fun u hu => ?_, fun u hu => ?_⟩
  · rw [hsame u hu]
    exact h.registered u (List.mem_cons_of_mem _ hu)
  · rw [hsame u hu]
    exact h.free_iff u (List.mem_cons_of_mem _ hu)
  · exact (h.untouched_cons hnone u (List.mem_cons_of_mem _ hu)).inherit hstep

end View.Uncopied

theorem Ends.onStop_of_total {α : Type} {action : MachineM α} {m : Machine}
    {ok : α → Machine → Prop} (h : Ends False action m ok fun _ _ => False)
    (cleanup : MachineM Unit) :
    Ends False (MachineM.onStop action cleanup) m ok fun _ _ => False := by
  cases hresult : action m with
  | ok a m' => exact Ends.of_ok (MachineM.onStop_of_ok hresult cleanup) (h.ok_of_eq hresult)
  | error stop m' =>
      cases stop with
      | failed e => exact (h.failed_of_eq hresult).elim
      | panicked p =>
          obtain ⟨_, m'', hstop⟩ := MachineM.onStop_of_panicked hresult cleanup
          exact Ends.of_panicked hstop False.elim

namespace MachineM

variable {m m' : Machine} {dst src s : SpaceId} {vpn : VirtPage} {sound : Prop}

theorem copyPage_of_untouched {page : Page} (hlive : sound → (m.view [] []).Live dst)
    (hp : m.page? src vpn = some page) (huninit : m.page? dst vpn = none → page.isUninit = true) :
    Ends sound (copyPage dst src vpn) m
      (fun _ m' => m.page? dst vpn = none ∧
        Step (.inherit dst src vpn) (m.view [] []) (m'.view [] []))
      fun e m' => e = .alreadyExists ∧ m' = m := by
  refine copyPage_of_parts hlive hp (fun _ => ⟨rfl, rfl⟩) (fun huninit hfresh => ?_)
    fun htouched hfresh _ => ?_
  · refine (register_ends hlive page).mono ?_ fun _ _ hf => ⟨hf.1, hf.2.1⟩
    rintro - m' ⟨hto, -, hview⟩
    rw [hview]
    exact ⟨hfresh, Step.inherit hto hp huninit hfresh⟩
  · cases htouched.symm.trans (huninit hfresh)

/-- Pages that were never touched are handed on, up to a place that is taken. -/
theorem copyInOrder_of_untouched {free : VirtPage → Bool} {order : List VirtPage}
    (h : (m.view [] []).Consistent) (hrest : (m.view [] []).Uncopied dst src free order) :
    Ends False (copyInOrder dst src order) m
      (fun _ m' => Steps (Deed.inheriting dst src) (m.view [] []) (m'.view [] []))
      fun e m' => e = .alreadyExists ∧
        Steps (Deed.inheriting dst src) (m.view [] []) (m'.view [] []) := by
  have hlive : ∀ (m : Machine) (s : SpaceId), False → (m.view [] []).Live s := fun _ _ => False.elim
  unfold copyInOrder
  refine Ends.space (hlive m src) fun space hspace => ?_
  refine Ends.emit _ [] [] fun m₁ hview => ?_
  refine (Ends.forM_rest (fun rest m' =>
    Steps (Deed.inheriting dst src) (m.view [] []) (m'.view [] []) ∧
      (m'.view [] []).Uncopied dst src free rest)
    ?_ ⟨Steps.of_eq hview, ?_⟩).mono (fun _ _ hdone => hdone.1) fun _ _ hf => hf
  · rintro vpn rest m₂ ⟨hsteps, hrest⟩
    obtain ⟨page, hp⟩ := Option.ne_none_iff_exists'.mp (hrest.registered vpn List.mem_cons_self)
    refine (copyPage_of_untouched (hlive m₂ dst) hp fun hnone => hrest.isUninit hnone hp).mono ?_ ?_
    · rintro - m₃ ⟨hnone, hstep⟩
      exact ⟨hsteps.tail hstep ⟨vpn, rfl⟩, hrest.inherit (hsteps.consistent h) hnone hstep⟩
    · rintro e m₃ ⟨rfl, rfl⟩
      exact ⟨rfl, hsteps⟩
  · rwa [hview]

theorem untouched_of_not_isTouched (h : m.isTouched s vpn = false) (hp : m.page? s vpn ≠ none) :
    (m.view [] []).Untouched s vpn := by
  obtain ⟨page, hp⟩ := Option.ne_none_iff_exists'.mp hp
  refine ⟨page, hp, ?_⟩
  simpa [Machine.isTouched, hp] using h

/-- An address space is copied without frames if no page is touched up to a place that is taken. -/
theorem copySpaceBy_of_copies {visit : Visit} (h : (m.view [] []).Consistent)
    (hcopies : (Op.copy dst src).copies m visit = false) :
    Ends False (copySpaceBy visit dst src) m
      (fun _ m' => Steps (Deed.inheriting dst src) (m.view [] []) (m'.view [] []))
      fun _ m' => Steps (Deed.inheriting dst src) (m.view [] []) (m'.view [] []) := by
  have hlive : False → (m.view [] []).Live src := False.elim
  unfold copySpaceBy
  refine Ends.space hlive fun space hspace => ?_
  have hregistered : ∀ vpn ∈ visit.order space.pages.keys, m.page? src vpn ≠ none :=
    fun vpn hvpn => (mem_order_iff hspace visit).mp hvpn
  refine (copyInOrder_of_untouched h ⟨nodup_order visit space, hregistered,
    fun _ _ => Option.isNone_iff_eq_none, fun vpn hvpn => ?_⟩).mono (fun _ _ hsteps => hsteps)
      fun _ _ hf => hf.2
  refine untouched_of_not_isTouched ?_ (hregistered vpn ((List.takeWhile_prefix _).subset hvpn))
  rw [Op.copies, hspace, Option.any_some, List.any_eq_false] at hcopies
  exact Bool.eq_false_iff.mpr (hcopies vpn hvpn)

/-- An address space of pages that were never touched is forked without frames. -/
theorem forkBy_of_copies {visit : Visit} (h : m.Sound)
    (hcopies : (Op.fork s).copies m visit = false) :
    Ends False (forkBy visit s) m
      (fun _ m' => Steps (Deed.inheriting m.nextSpace s ∪ {Deed.create m.nextSpace, Deed.next})
        (m.view [] []) (m'.view [] []))
      fun _ _ => False := by
  have hready : Ready False m s [] := ⟨h.consistent, False.elim, False.elim⟩
  unfold forkBy
  refine Ends.space hready.live fun parent hparent => ?_
  refine Ends.bind_ok rfl (Ends.bind_ok rfl ?_)
  have horder : ∀ vpn ∈ visit.order parent.pages.keys, m.page? s vpn ≠ none := fun vpn hvpn =>
    (mem_order_iff hparent visit).mp hvpn
  have hview := view_putSpace_empty (space?_nextSpace h.fresh) parent.userSp [] []
  have hcreate := step_create (space?_nextSpace h.fresh) parent.userSp [] []
  have hcopy := copyToChild_ends hready h.fresh horder parent.userSp
  change Ends False _ (m.setSpace m.nextSpace { Space.empty with userSp := parent.userSp }) _ _
  generalize m.setSpace m.nextSpace { Space.empty with userSp := parent.userSp } = m₁
    at hview hcreate hcopy ⊢
  have huntouched : ∀ vpn ∈ visit.order parent.pages.keys, (m.view [] []).Untouched s vpn := by
    intro vpn hvpn
    refine untouched_of_not_isTouched ?_ (horder vpn hvpn)
    rw [Op.copies, hparent, Option.any_some, List.any_eq_false] at hcopies
    exact Bool.eq_false_iff.mpr (hcopies vpn ((visit.perm _).subset hvpn))
  have hfree : ∀ vpn, m.page? m.nextSpace vpn = none := fun vpn => by
    rw [Machine.page?, space?_nextSpace h.fresh]
    rfl
  -- nothing stands in the way of the child, so no page is refused
  have hall : Ends False (copyInOrder m.nextSpace s (visit.order parent.pages.keys)) m₁
      (fun _ m' => Steps (Deed.inheriting m.nextSpace s) (m₁.view [] []) (m'.view [] []) ∧
        m'.nextSpace = m.nextSpace)
      fun _ _ => False := by
    have hrest : (m₁.view [] []).Uncopied m.nextSpace s (fun _ => true)
        (visit.order parent.pages.keys) := by
      rw [hview]
      exact ⟨nodup_order visit parent, horder, fun vpn _ => ⟨fun _ => hfree vpn, fun _ => rfl⟩,
        fun vpn hvpn => huntouched vpn ((List.takeWhile_prefix _).subset hvpn)⟩
    refine ((copyInOrder_of_untouched (hcreate.consistent h.consistent) hrest).and hcopy).mono ?_ ?_
    · exact fun _ _ hdone => ⟨hdone.1, hdone.2.1.nextSpace_eq⟩
    · rintro e m' ⟨⟨rfl, -⟩, hfails, -⟩
      cases hfails with
      | taken hnot => exact hnot (nodup_order visit parent)
  refine (hall.onStop_of_total _).bind_total ?_
  rintro - m₂ ⟨hsteps, hnext⟩
  refine Ends.bind_ok rfl (Ends.pure ?_)
  have hmove := Step.next (V := m₂.view [] [])
  rw [show (m₂.view [] []).nextSpace = m.nextSpace from hnext] at hmove
  refine Steps.tail (d := .next) ?_ hmove (.inr (.inr rfl))
  exact (Steps.single hcreate (.inr (.inl rfl))).trans (hsteps.mono Set.subset_union_left)

end MachineM

end DemandPaging
