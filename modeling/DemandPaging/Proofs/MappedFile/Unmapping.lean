import DemandPaging.Proofs.Isolation
import DemandPaging.Proofs.Lineage

/-! # Unmapping

To unmap any page of a mapping removes all pages that are left of it in the address space, and no
other page. Two pages belong to one mapping exactly if one request registered both, or the pages
that they were copied from.
-/

namespace DemandPaging

/-! ## Numbers of backings -/

/-- The backings that are referred to have numbers that were given out. -/
structure View.Known (V : View) : Prop where
  pages : ∀ {s vpn id}, V.backing s vpn = some id → id < V.files.nextBacking
  pins : ∀ id ∈ V.pins, id < V.files.nextBacking

section

variable {deeds : Set Deed} {d : Deed} {V W : View} {s t : SpaceId} {vpn u : VirtPage}
  {id : BackingId}

theorem Step.known (hstep : Step d V W) (hc : V.Consistent)
    (hadopt : ∀ t page id, d = .adopt t page → page.backing? = some id → id < V.files.nextBacking)
    (h : V.Known) : W.Known := by
  constructor
  · intro s vpn id hid
    refine lt_of_lt_of_le ?_ hstep.nextBacking_le
    obtain ⟨page, hpage, hown⟩ := Option.bind_eq_some_iff.mp hid
    have hbefore : ∀ {t other}, V.page t vpn = some other → other.backing? = some id →
        id < V.files.nextBacking := fun hother hback =>
      h.pages ((View.backing_of_page hother).trans hback)
    cases hstep.pageChange hc s vpn with
    | same hsame => exact hbefore (hsame.symm.trans hpage) hown
    | moved hfound hnow hbecomes =>
        obtain rfl := Option.some.inj (hnow.symm.trans hpage)
        exact hbefore hfound (hbecomes.backing?_of hown)
    | gone hnow => cases hnow.symm.trans hpage
    | registered hfresh hnow hvpn hdeed =>
        obtain rfl := Option.some.inj (hnow.symm.trans hpage)
        rcases hdeed with rfl | rfl
        · exact h.pins id (hstep.mem_pins_of_register hown)
        · exact hadopt _ _ id rfl hown
    | inherited hfresh hnow hfound hbecomes =>
        obtain rfl := Option.some.inj (hnow.symm.trans hpage)
        exact hbefore hfound (hbecomes.backing?_of hown)
  · intro id hid
    by_cases hold : id ∈ V.pins
    · exact lt_of_lt_of_le (h.pins id hold) hstep.nextBacking_le
    · cases hstep with
      | pin inside opened =>
          obtain ⟨rfl, hnext, -⟩ := FileStore.backing?_reopen opened
          obtain rfl := (List.mem_cons.mp hid).resolve_right hold
          rw [hnext]
          exact Nat.lt_succ_self _
      | unpin first => exact (hold (first ▸ List.mem_cons_of_mem _ hid)).elim
      | _ => exact (hold hid).elim

theorem View.Known.tallies_next (h : V.Known) (hn : V.files.Numbered) :
    V.Tallies V.files.nextBacking := by
  have hpages : {x : SpaceId × VirtPage | V.backing x.1 x.2 = some V.files.nextBacking} = ∅ :=
    Set.eq_empty_of_forall_notMem fun x hx => lt_irrefl _ (h.pages hx)
  have hpins : V.pins.count V.files.nextBacking = 0 :=
    List.count_eq_zero.mpr fun hmem => lt_irrefl _ (h.pins _ hmem)
  have hrefs : V.files.refs V.files.nextBacking = 0 := by
    by_contra hne
    obtain ⟨backing, hopen⟩ := (FileStore.refs_pos_iff hn).mp (Nat.pos_of_ne_zero hne)
    exact lt_irrefl _ (hn.lt_next hopen)
  rw [View.Tallies, View.references, hpages, hpins, hrefs, Set.encard_empty]
  rfl

/-! ## Pages that stay when others are removed -/

theorem Step.stays_of_discard (hstep : Step (.discard s u) V W) (h : V.Consistent)
    (hne : ¬(s = t ∧ u = vpn)) : V.Stays W t vpn ∧ W.entry t vpn = V.entry t vpn := by
  have hplace : W.page t vpn = V.page t vpn ∧ W.entry t vpn = V.entry t vpn := by
    cases hstep with
    | discardResident => exact ⟨setAt_of_ne hne, setAt_of_ne hne⟩
    | discardSlot | discardBare => exact ⟨setAt_of_ne hne, rfl⟩
  refine ⟨⟨hplace.1, hplace.2 ▸ agedRel_refl _, fun frame hframe => ?_, fun slot hslot => ?_⟩,
    hplace.2⟩
  · refine hstep.load_eq h (by simp) hframe ?_
    rwa [View.frame, hplace.1]
  · refine hstep.read_eq h hslot ?_
    rwa [View.slot, hplace.1]

/-- A page that is still there after pages were removed has lost nothing. -/
theorem Steps.stays_of_discarding (hsteps : Steps (Deed.discarding s) V W) (h : V.Consistent)
    (hkept : W.page t vpn = V.page t vpn) :
    V.Stays W t vpn ∧ W.entry t vpn = V.entry t vpn := by
  cases hpage : V.page t vpn with
  | none =>
      have hentry : W.entry t vpn = V.entry t vpn :=
        ((hsteps.consistent h).unmapped (hkept.trans hpage)).trans (h.unmapped hpage).symm
      refine ⟨⟨hkept, hentry ▸ agedRel_refl _, fun frame hframe => ?_, fun slot hslot => ?_⟩,
        hentry⟩
      · cases (View.frame_of_none hpage).symm.trans hframe
      · cases (View.slot_of_none hpage).symm.trans hslot
  | some page =>
      have hthere : W.page t vpn ≠ none := by simp [hkept, hpage]
      refine (hsteps.invariant (fun U => U.Consistent ∧ (U.page t vpn ≠ none →
        V.Stays U t vpn ∧ U.entry t vpn = V.entry t vpn)) (fun d hd U U' hstep hU => ?_)
        ⟨h, fun _ => ⟨.refl V t vpn, rfl⟩⟩).2 hthere
      obtain ⟨u, rfl⟩ := hd
      refine ⟨hstep.consistent hU.1, fun hleft => ?_⟩
      have hne : ¬(s = t ∧ u = vpn) := by
        rintro ⟨rfl, rfl⟩
        exact hleft hstep.page_eq_none
      obtain ⟨hstays, hentry⟩ := hstep.stays_of_discard hU.1 hne
      obtain ⟨hfirst, hentry'⟩ := hU.2 (hstays.page_eq ▸ hleft)
      exact ⟨hfirst.trans hstays, hentry.trans hentry'⟩

end

/-! ## Machines whose mappings are open -/

/-- A machine in which the backing of every mapped page is open, counts the references to it and
spans the page. -/
structure Machine.Hosting (m : Machine) : Prop where
  sound : m.Sound
  numbered : m.files.Numbered
  known : (m.view [] []).Known
  tallies : ∀ {s vpn page id}, m.page? s vpn = some page → page.mapping? = some id →
    (m.view [] []).Tallies id
  hosts : ∀ {s vpn page id}, m.page? s vpn = some page → page.mapping? = some id →
    m.files.Hosts id vpn

theorem Op.newMapping?_eq {op : Op} {next id : BackingId} (h : op.newMapping? next = some id) :
    id = next := by
  cases op with
  | map | mapCall => exact (Option.some.inj h).symm
  | _ => cases h

section

variable {m m' : Machine} {op : Op} {visit : Visit} {s : SpaceId} {vpn : VirtPage} {page : Page}
  {id : BackingId} {requests : List (Visit × Op)}

/-- A page belongs to a mapping that had a page of the same number, or to the mapping that the
request makes. -/
theorem Machine.Descends.mapping?_cases (h : m.Descends op s vpn page) :
    (∃ t before, m.page? t vpn = some before ∧ page.mapping? = before.mapping?) ∨
      page.mapping? = op.newMapping? m.files.nextBacking := by
  cases h with
  | kept hfound hbecomes => exact .inl ⟨s, _, hfound, hbecomes.mapping?_eq⟩
  | inherited hfresh hsource hfound hbecomes => exact .inl ⟨_, _, hfound, hbecomes.mapping?_eq⟩
  | registered hfresh halone hmapping => exact .inr hmapping

namespace Machine.Hosting

theorem id_lt (h : m.Hosting) (hpage : m.page? s vpn = some page)
    (hid : page.mapping? = some id) : id < m.files.nextBacking :=
  h.known.pages ((View.backing_of_page (V := m.view [] []) hpage).trans
    (Page.backing?_of_mapping? hid))

/-- Nobody but its pages and the request that maps it refers to the backing of a mapping. -/
theorem tallies_step (h : m.Hosting) (hop : m.RespectsMappings op)
    (hstep : m.step? visit op = some m')
    (hid : (∃ t u before, m.page? t u = some before ∧ before.mapping? = some id) ∨
      op.newMapping? m.files.nextBacking = some id) : (m'.view [] []).Tallies id := by
  have hbefore : (m.view [] []).Tallies id ∧ id ≤ m.files.nextBacking := by
    rcases hid with ⟨t, u, before, hfound, hmapping⟩ | hnew
    · exact ⟨h.tallies hfound hmapping, (h.id_lt hfound hmapping).le⟩
    · obtain rfl := Op.newMapping?_eq hnew
      exact ⟨h.known.tallies_next h.numbered, le_rfl⟩
  refine ((Op.finished h.sound hstep).steps.invariant (fun U => U.Consistent ∧ U.files.Numbered ∧
    m.files.nextBacking ≤ U.files.nextBacking ∧ U.Tallies id) (fun d hd U U' hstep' hU => ?_)
    ⟨h.sound.consistent, h.numbered, le_rfl, hbefore.1⟩).2.2.2
  obtain ⟨hc, hn, hnext, htallies⟩ := hU
  have hbelongs := Op.belongsTo_of_deeds hd
  refine ⟨hstep'.consistent hc, hstep'.numbered hn, hnext.trans hstep'.nextBacking_le,
    hstep'.tallies hc hn ?_ ?_ htallies⟩
  · cases d
    case adopt t other =>
      obtain ⟨va, writable, segment, target, rfl, hsegment⟩ := hbelongs
      intro hback
      rw [Page.backing?, hsegment] at hback
      rcases hid with ⟨t, u, before, hfound, hmapping⟩ | hnew
      · exact hop.2.2 t u before hfound (hmapping.trans hback.symm)
      · cases hnew
    case release own =>
      obtain rfl : op = .release own := hbelongs
      rintro rfl
      rcases hid with ⟨t, u, before, hfound, hmapping⟩ | hnew
      · exact hop t u before hfound hmapping
      · cases hnew
    all_goals trivial
  · rintro file rfl
    obtain ⟨base, pages, rfl⟩ := hbelongs
    rcases hid with ⟨t, u, before, hfound, hmapping⟩ | hnew
    · exact (h.id_lt hfound hmapping).trans_le hnext
    · cases hnew

theorem known_step (h : m.Hosting) (hop : m.RespectsMappings op)
    (hstep : m.step? visit op = some m') : (m'.view [] []).Known := by
  refine ((Op.finished h.sound hstep).steps.invariant (fun U => U.Consistent ∧
    m.files.nextBacking ≤ U.files.nextBacking ∧ U.Known) (fun d hd U U' hstep' hU => ?_)
    ⟨h.sound.consistent, le_rfl, h.known⟩).2.2
  refine ⟨hstep'.consistent hU.1, hU.2.1.trans hstep'.nextBacking_le,
    hstep'.known hU.1 (fun t page id hdeed hid => ?_) hU.2.2⟩
  subst hdeed
  obtain ⟨va, writable, segment, target, rfl, hsegment⟩ := Op.belongsTo_of_deeds hd
  rw [Page.backing?, hsegment] at hid
  obtain rfl := Option.some.inj hid
  exact hop.2.1.trans_le hU.2.1

/-- A backing that still counts a page spans the pages that it spanned before. -/
theorem hosts_step (h : m.Hosting) (hstep : m.step? visit op = some m')
    (hlt : id < m.files.nextBacking) (hhosts : m.files.Hosts id vpn) {backing : Backing}
    (hopen : m'.files.backing? id = some backing) : m'.files.Hosts id vpn := by
  obtain ⟨before, hbefore, hsame⟩ :=
    (Op.finished h.sound hstep).steps.exists_sameMapping hlt hopen
  obtain ⟨other, hother, hin⟩ := hhosts
  obtain rfl : before = other := Option.some.inj (hbefore.symm.trans hother)
  refine ⟨backing, hopen, ?_⟩
  rw [hsame.base_eq, hsame.pages_eq]
  exact hin

theorem step (h : m.Hosting) (hop : m.RespectsMappings op) (hstep : m.step? visit op = some m') :
    m'.Hosting := by
  have hfinished := Op.finished h.sound hstep
  have hnumbered : m'.files.Numbered :=
    hfinished.steps.invariant (fun U => U.files.Numbered)
      (fun _ _ _ _ hstep' hU => hstep'.numbered hU) h.numbered
  have htallies : ∀ {s vpn page id}, m'.page? s vpn = some page → page.mapping? = some id →
      (m'.view [] []).Tallies id := by
    intro s vpn page id hpage hid
    refine h.tallies_step hop hstep ?_
    rcases (Op.descends h.sound hop hstep hpage).mapping?_cases with
      ⟨t, before, hfound, hsame⟩ | hnew
    · exact .inl ⟨t, vpn, before, hfound, hsame.symm.trans hid⟩
    · exact .inr (hnew.symm.trans hid)
  refine ⟨hfinished.sound, hnumbered, h.known_step hop hstep, htallies, ?_⟩
  intro s vpn page id hpage hid
  have hown := (View.backing_of_page (V := m'.view [] []) hpage).trans
    (Page.backing?_of_mapping? hid)
  obtain ⟨backing, hopen⟩ :=
    (FileStore.refs_pos_iff hnumbered).mp ((htallies hpage hid).refs_pos hown)
  rcases (Op.descends h.sound hop hstep hpage).mapping?_cases with ⟨t, before, hfound, hsame⟩ | hnew
  · have hmapping := hsame.symm.trans hid
    exact h.hosts_step hstep (h.id_lt hfound hmapping) (h.hosts hfound hmapping) hopen
  · rw [hid] at hnew
    obtain rfl := Op.newMapping?_eq hnew.symm
    rcases (Op.mayGain hnew.symm hstep).page_cases hpage with hbefore | ⟨-, -, hhosts⟩
    · exact (lt_irrefl _ (h.id_lt hbefore hid)).elim
    · exact hhosts

theorem boot {frames : ℕ} (hframes : frames ≤ PageTable.Entry.frameBound) (disk : Disk)
    (files : Array File) : (Machine.boot frames disk (.ofFiles files)).Hosting := by
  have hnone : ∀ s vpn, (Machine.boot frames disk (.ofFiles files)).page? s vpn = none :=
    fun s vpn => page?_eq_none rfl vpn
  constructor
  · exact sound_boot hframes disk _
  · constructor
    · intro id backing hid
      cases hid
    · intro id backing hid
      cases hid
  · constructor
    · intro s vpn id hid
      cases (View.backing_of_none (hnone s vpn)).symm.trans hid
    · intro id hid
      cases hid
  · intro s vpn page id hpage
    cases (hnone s vpn).symm.trans hpage
  · intro s vpn page id hpage
    cases (hnone s vpn).symm.trans hpage

end Machine.Hosting

/-! ## Origins -/

/-- The number of the request that registered a page, or the page that it was copied from. -/
abbrev Origins := SpaceId → VirtPage → Option ℕ

/-- The origins of the pages after request number `now`. -/
def Origins.after (origins : Origins) (op : Op) (m m' : Machine) (now : ℕ) : Origins :=
  fun s vpn =>
    if m'.page? s vpn = none then none
    else if m.page? s vpn = none then
      match op.source? m s with
      | none => some now
      | some src => origins src vpn
    else origins s vpn

/-- The origins of the pages after a sequence of requests that are numbered from `now` on. -/
def Machine.originsAfter (m : Machine) (origins : Origins) (now : ℕ) :
    List (Visit × Op) → Origins
  | [] => origins
  | (visit, op) :: requests =>
    match m.step? visit op with
    | none => origins
    | some m' => m'.originsAfter (origins.after op m m' now) (now + 1) requests

/-- The origins of the pages when a machine that was booted has served some requests. -/
def Machine.origins (m : Machine) (requests : List (Visit × Op)) : Origins :=
  m.originsAfter (fun _ _ => none) 0 requests

/-- Before request number `now` pages have one origin exactly if they belong to one mapping, or are
one page. -/
structure Machine.Traced (m : Machine) (origins : Origins) (now : ℕ) : Prop where
  known : ∀ {s vpn page}, m.page? s vpn = some page → ∃ first < now, origins s vpn = some first
  same : ∀ {s t vpn u page other}, m.page? s vpn = some page → m.page? t u = some other →
    origins s vpn = origins t u → page.mapping? = other.mapping?
  apart : ∀ {s t vpn u page other id}, m.page? s vpn = some page → m.page? t u = some other →
    page.mapping? = some id → other.mapping? = some id → origins s vpn = origins t u

/-- A page has the origin and the mapping of a page before, or those of the request. -/
theorem Origins.after_cases {origins : Origins} {now : ℕ} (h : m.Descends op s vpn page)
    (hpage : m'.page? s vpn = some page) :
    (∃ t before, m.page? t vpn = some before ∧ page.mapping? = before.mapping? ∧
      origins.after op m m' now s vpn = origins t vpn) ∨
    page.mapping? = op.newMapping? m.files.nextBacking ∧
      origins.after op m m' now s vpn = some now := by
  simp only [after, hpage, reduceCtorEq, if_false]
  cases h with
  | kept hfound hbecomes =>
      refine .inl ⟨s, _, hfound, hbecomes.mapping?_eq, ?_⟩
      rw [hfound, if_neg (by simp)]
  | inherited hfresh hsource hfound hbecomes =>
      refine .inl ⟨_, _, hfound, hbecomes.mapping?_eq, ?_⟩
      rw [if_pos hfresh, hsource]
  | registered hfresh halone hmapping =>
      refine .inr ⟨hmapping, ?_⟩
      rw [if_pos hfresh, halone s]

theorem Machine.Traced.step {origins : Origins} {now : ℕ} (h : m.Traced origins now)
    (hhosting : m.Hosting) (hop : m.RespectsMappings op) (hstep : m.step? visit op = some m') :
    m'.Traced (origins.after op m m' now) (now + 1) := by
  have hcases : ∀ {s vpn page}, m'.page? s vpn = some page →
      (∃ t before, m.page? t vpn = some before ∧ page.mapping? = before.mapping? ∧
        origins.after op m m' now s vpn = origins t vpn) ∨
      page.mapping? = op.newMapping? m.files.nextBacking ∧
        origins.after op m m' now s vpn = some now := fun hpage =>
    Origins.after_cases (Op.descends hhosting.sound hop hstep hpage) hpage
  have hold : ∀ {t u before}, m.page? t u = some before → origins t u ≠ some now := by
    intro t u before hfound hnow
    obtain ⟨first, hlt, hfirst⟩ := h.known hfound
    exact hlt.ne (Option.some.inj (hfirst.symm.trans hnow))
  have hid : ∀ {t u before id}, m.page? t u = some before → before.mapping? = some id →
      op.newMapping? m.files.nextBacking ≠ some id := by
    intro t u before id hfound hmapping hnew
    exact (hhosting.id_lt hfound hmapping).ne (Op.newMapping?_eq hnew)
  refine ⟨fun {s vpn page} hpage => ?_, fun {s t vpn u page other} hpage hother hsame => ?_,
    fun {s t vpn u page other id} hpage hother hmapping hmapping' => ?_⟩
  · rcases hcases hpage with ⟨t, before, hfound, -, horigin⟩ | ⟨-, horigin⟩
    · obtain ⟨first, hlt, hfirst⟩ := h.known hfound
      exact ⟨first, Nat.lt_succ_of_lt hlt, horigin.trans hfirst⟩
    · exact ⟨now, Nat.lt_succ_self now, horigin⟩
  · rcases hcases hpage with ⟨_, _, hfound, hmapping, horigin⟩ | ⟨hmapping, horigin⟩ <;>
      rcases hcases hother with ⟨_, _, hfound', hmapping', horigin'⟩ | ⟨hmapping', horigin'⟩ <;>
      rw [horigin, horigin'] at hsame
    · exact hmapping.trans ((h.same hfound hfound' hsame).trans hmapping'.symm)
    · exact (hold hfound hsame).elim
    · exact (hold hfound' hsame.symm).elim
    · exact hmapping.trans hmapping'.symm
  · rcases hcases hpage with ⟨_, _, hfound, hown, horigin⟩ | ⟨hown, horigin⟩ <;>
      rcases hcases hother with ⟨_, _, hfound', hown', horigin'⟩ | ⟨hown', horigin'⟩ <;>
      rw [horigin, horigin'] <;> rw [hown] at hmapping <;> rw [hown'] at hmapping'
    · exact h.apart hfound hfound' hmapping hmapping'
    · exact (hid hfound hmapping hmapping').elim
    · exact (hid hfound' hmapping' hmapping).elim

theorem Machine.Traced.boot (frames : ℕ) (disk : Disk) (files : Array File) :
    (Machine.boot frames disk (.ofFiles files)).Traced (fun _ _ => none) 0 := by
  have hnone : ∀ s vpn, (Machine.boot frames disk (.ofFiles files)).page? s vpn = none :=
    fun s vpn => page?_eq_none rfl vpn
  constructor
  · intro s vpn page hpage
    cases (hnone s vpn).symm.trans hpage
  · intro s t vpn u page other hpage
    cases (hnone s vpn).symm.trans hpage
  · intro s t vpn u page other id hpage
    cases (hnone s vpn).symm.trans hpage

theorem Machine.traced_originsAfter {origins : Origins} {now : ℕ} (h : m.Traced origins now)
    (hhosting : m.Hosting) (halong : m.Along RespectsMappings requests)
    (hrun : m.run? requests = some m') :
    m'.Hosting ∧ ∃ later, m'.Traced (m.originsAfter origins now requests) later := by
  induction requests generalizing m origins now with
  | nil =>
      obtain rfl := Option.some.inj hrun
      exact ⟨hhosting, now, h⟩
  | cons request requests ih =>
      rw [run?_cons] at hrun
      obtain ⟨m₁, hfirst, hrest⟩ := Option.bind_eq_some_iff.mp hrun
      obtain ⟨hop, hlater⟩ := halong
      simp only [originsAfter, hfirst]
      exact ih (h.step hhosting hop hfirst) (hhosting.step hop hfirst) (hlater m₁ hfirst) hrest

end

/-! ## Removing a mapping -/

/-- A machine before and after an address space has lost some pages; nothing else has changed for
any page. -/
structure Machine.Loses (m m' : Machine) (s : SpaceId) (lost : Set VirtPage) : Prop where
  gone : ∀ vpn ∈ lost, m'.page? s vpn = none ∧ m'.entryAt? s vpn = none
  stays : ∀ t vpn, (t = s → vpn ∉ lost) → (m.view [] []).Stays (m'.view [] []) t vpn
  entry_eq : ∀ t vpn, (t = s → vpn ∉ lost) → m'.entryAt? t vpn = m.entryAt? t vpn
  userSp_eq : m'.userSp? = m.userSp?

namespace MachineM

variable {m : Machine} {s : SpaceId} {space : Space} {va : VirtAddr} {id : BackingId}

/-- Registered pages are removed one by one. -/
theorem forM_remove_eq {order : List VirtPage} (h : (m.view [] []).Consistent)
    (hnodup : order.Nodup) (horder : ∀ vpn ∈ order, m.page? s vpn ≠ none) :
    order.forM (fun vpn => remove s vpn.start) m = order.forM (discard s) m := by
  induction order generalizing m with
  | nil => rfl
  | cons vpn order ih =>
      rw [List.nodup_cons] at hnodup
      obtain ⟨page, hpage⟩ := Option.ne_none_iff_exists'.mp (horder vpn List.mem_cons_self)
      obtain ⟨space, hspace, hfound⟩ := Machine.exists_space_of_page? hpage
      have hstart := (VirtPage.start_of_lt (h.settled hpage).in_user).2
      have hcontains : space.pages.contains vpn = true := by
        rw [Std.TreeMap.contains_eq_isSome_getElem?, hfound, Option.isSome_some]
      have hone : remove s vpn.start m = discard s vpn m := by
        unfold remove
        rw [bind_of_ok (space_of_some hspace), hstart, hcontains]
        rfl
      obtain ⟨m₁, hdiscard, hsteps, hpages⟩ := discard_ok h (Machine.live_of_space? hspace) vpn
      change (remove s vpn.start >>= fun _ => order.forM fun vpn => remove s vpn.start) m =
        (discard s vpn >>= fun _ => order.forM (discard s)) m
      rw [bind_of_ok (hone.trans hdiscard), bind_of_ok hdiscard]
      refine ih (hsteps.consistent h) hnodup.2 fun u hu => ?_
      rw [hpages, setAt_of_ne]
      · exact horder u (List.mem_cons_of_mem _ hu)
      · rintro ⟨-, rfl⟩
        exact hnodup.1 hu

theorem mem_pagesOfMapping {backing : Backing} {vpn : VirtPage} :
    vpn ∈ pagesOfMapping space id backing ↔ backing.base.number ≤ vpn.number ∧
      vpn.number < backing.base.number + backing.pages ∧
        ∃ page, space.pages[vpn]? = some page ∧ page.mapping? = some id := by
  unfold pagesOfMapping
  rw [List.mem_filter, Std.TreeMap.mem_keys]
  simp only [Bool.and_eq_true, decide_eq_true_eq, Option.any_eq_true, beq_iff_eq, and_assoc]
  refine ⟨fun h => h.2, fun h => ⟨?_, h⟩⟩
  obtain ⟨-, -, page, hpage, -⟩ := h
  rw [Std.TreeMap.mem_iff_isSome_getElem?, hpage, Option.isSome_some]

theorem unmap_of_not_mapped (hspace : m.space? s = some space)
    (h : (m.page? s va.page).bind Page.mapping? = none) :
    unmap s va m = .error (.failed .invalidArgument) m := by
  have hnone : (space.pageAt? va).bind Page.mapping? = none := by
    rw [← h, Machine.page?_of_space? hspace]
    rfl
  unfold unmap
  rw [bind_of_ok (space_of_some hspace), hnone]
  rfl

/-- The pages of a mapping are removed, and no other page. -/
theorem unmap_of_mapped (h : m.Hosting) {page : Page} (hpage : m.page? s va.page = some page)
    (hid : page.mapping? = some id) :
    ∃ m', unmap s va m = .ok () m' ∧ m.Loses m' s
      {vpn | ∃ other, m.page? s vpn = some other ∧ other.mapping? = some id} := by
  obtain ⟨space, hspace, hfound⟩ := Machine.exists_space_of_page? hpage
  obtain ⟨backing, hopen, -, hlt, hinside⟩ := h.hosts hpage hid
  have hmapping : (space.pageAt? va).bind Page.mapping? = some id := by
    change (space.pages[va.page]?).bind Page.mapping? = some id
    rw [hfound, Option.bind_some, hid]
  have hmem : ∀ vpn, vpn ∈ pagesOfMapping space id backing ↔
      ∃ other, m.page? s vpn = some other ∧ other.mapping? = some id := by
    intro vpn
    rw [mem_pagesOfMapping, Machine.page?_of_space? hspace]
    refine ⟨fun hin => hin.2.2, fun hin => ?_⟩
    obtain ⟨other, hother, hid'⟩ := hin
    obtain ⟨own, hown, hfrom, hto, -⟩ :=
      h.hosts ((Machine.page?_of_space? hspace vpn).trans hother) hid'
    obtain rfl : backing = own := Option.some.inj (hopen.symm.trans hown)
    exact ⟨hfrom, hto, other, hother, hid'⟩
  have hnodup : (pagesOfMapping space id backing).Nodup := space.pages.nodup_keys.filter _
  have hlast : Option.isSome (backing.base.add? (backing.pages - 1)) = true := by
    have hword : backing.base.number + (backing.pages - 1) < Word.bound :=
      lt_of_le_of_lt (Nat.add_le_add_left (Nat.sub_le _ _) _)
        (lt_of_le_of_lt hinside (by decide))
    rw [VirtPage.add?, Word.add?_of_lt hword]
    rfl
  obtain ⟨last, hlast⟩ := Option.isSome_iff_exists.mp hlast
  generalize hevents : m.events.push
    (.unmapped backing.base (pagesOfMapping space id backing).length) = events
  obtain ⟨m', hloop, hsteps, huser, hpages⟩ := forM_discard_ok (m := { m with events })
    (pagesOfMapping space id backing) h.sound.consistent (Machine.live_of_space? hspace)
  have hrest : (do
      emit (.unmapped backing.base (pagesOfMapping space id backing).length)
      (pagesOfMapping space id backing).forM fun vpn => remove s vpn.start : MachineM Unit) m =
        .ok () m' := by
    have hemit : emit (.unmapped backing.base (pagesOfMapping space id backing).length) m =
        .ok () { m with events } := by rw [← hevents]; rfl
    refine (bind_of_ok hemit).trans (Eq.trans ?_ hloop)
    refine forM_remove_eq h.sound.consistent hnodup fun vpn hvpn => ?_
    obtain ⟨other, hother, -⟩ := (hmem vpn).mp hvpn
    exact Option.ne_none_iff_exists'.mpr ⟨other, hother⟩
  refine ⟨m', ?_, ⟨fun vpn hvpn => ?_, fun t vpn hout => ?_, fun t vpn hout => ?_, huser⟩⟩
  · unfold unmap
    rw [bind_of_ok (space_of_some hspace), hmapping]
    simp only
    rw [bind_of_ok (get_ok m), hopen]
    simp only [hlast]
    split
    · exact (bind_of_ok rfl).trans hrest
    · exact hrest
  · have hgone : m'.page? s vpn = none :=
      (hpages s vpn).trans (if_pos ⟨rfl, (hmem vpn).mpr hvpn⟩)
    exact ⟨hgone, (hsteps.consistent h.sound.consistent).unmapped hgone⟩
  all_goals
    have hkept : m'.page? t vpn = m.page? t vpn :=
      (hpages t vpn).trans (if_neg fun hin => hout hin.1.symm ((hmem vpn).mp hin.2))
    have hboth := hsteps.stays_of_discarding h.sound.consistent hkept
  · exact hboth.1
  · exact hboth.2

end MachineM

namespace Machine

/-- A machine that was booted and served requests that map files, and that register other pages.
An address is refused exactly if no page of a mapping is there, and the machine is left as it was
then. Otherwise the address space loses every page that it still has of the same origin, wherever
these are and whatever has taken the places of others, and no other page of any address space
changes. -/
theorem unmapped_of_run {frames : ℕ} {disk : Disk} {files : Array File}
    {requests : List (Visit × Op)} {m : Machine} {s : SpaceId} {space : Space}
    (hframes : frames ≤ PageTable.Entry.frameBound)
    (halong : (boot frames disk (.ofFiles files)).Along RespectsMappings requests)
    (hrun : (boot frames disk (.ofFiles files)).run? requests = some m)
    (hspace : m.space? s = some space) (visit : Visit) (va : VirtAddr) :
    ((Op.unmap s va).execBy visit m = .error (.failed .invalidArgument) m ↔
      ∀ page, m.page? s va.page = some page → page.type ≠ .file) ∧
    ∀ page, m.page? s va.page = some page → page.type = .file →
      ∃ m', (Op.unmap s va).execBy visit m = .ok .done m' ∧ m.Loses m' s
        {vpn | m.page? s vpn ≠ none ∧
          (boot frames disk (.ofFiles files)).origins requests s vpn =
            (boot frames disk (.ofFiles files)).origins requests s va.page} := by
  obtain ⟨hhosting, now, htraced⟩ :=
    traced_originsAfter (Traced.boot frames disk files) (Hosting.boot hframes disk files) halong
      hrun
  have hmapped : ∀ page, m.page? s va.page = some page → page.type = .file →
      ∃ m', (Op.unmap s va).execBy visit m = .ok .done m' ∧ m.Loses m' s
        {vpn | m.page? s vpn ≠ none ∧
          (boot frames disk (.ofFiles files)).origins requests s vpn =
            (boot frames disk (.ofFiles files)).origins requests s va.page} := by
    intro page hpage htype
    obtain ⟨id, hid⟩ := Page.exists_mapping?_of_file htype
    obtain ⟨m', hok, hloses⟩ := MachineM.unmap_of_mapped hhosting hpage hid
    have hsame : {vpn | ∃ other, m.page? s vpn = some other ∧ other.mapping? = some id} =
        {vpn | m.page? s vpn ≠ none ∧
          (boot frames disk (.ofFiles files)).origins requests s vpn =
            (boot frames disk (.ofFiles files)).origins requests s va.page} := by
      ext vpn
      refine ⟨fun h => ?_, fun h => ?_⟩
      · obtain ⟨other, hother, hid'⟩ := h
        exact ⟨by simp [hother], htraced.apart hother hpage hid' hid⟩
      · obtain ⟨other, hother⟩ := Option.ne_none_iff_exists'.mp h.1
        exact ⟨other, hother, (htraced.same hother hpage h.2).trans hid⟩
    exact ⟨m', MachineM.bind_of_ok hok, hsame ▸ hloses⟩
  refine ⟨⟨fun hrefused page hpage htype => ?_, fun hother => ?_⟩, hmapped⟩
  · obtain ⟨m', hok, -⟩ := hmapped page hpage htype
    cases hok.symm.trans hrefused
  · refine MachineM.bind_of_error (MachineM.unmap_of_not_mapped hspace ?_)
    refine Option.bind_eq_none_iff.mpr fun page hpage => ?_
    by_contra hne
    obtain ⟨id, hid⟩ := Option.ne_none_iff_exists'.mp hne
    exact hother page hpage (Page.type_of_mapping? hid)

/-- The first of two pages of a mapping was removed, and the file was mapped again in its place. The
second page is unmapped without the new mapping, and without the copy of the page in the child. -/
theorem unmapped_of_replaced : ∃ m m' : Machine,
    (boot 2 (.zeroed 16) (.ofFiles #[⟨#[0x41], 1, none, none, none, none⟩])).run?
      ([.create, .map 0 ⟨pageSize⟩ (pageSize + 1) true 0 0, .remove 0 ⟨pageSize⟩,
        .map 0 ⟨pageSize⟩ 1 true 0 0, .claim 0 ⟨2 * pageSize⟩, .fork 0].map
          (Visit.ascending, ·)) = some m ∧
      (Op.unmap 0 ⟨2 * pageSize⟩).execBy .ascending m = .ok .done m' ∧
      m.page? 0 ⟨2⟩ ≠ none ∧ m'.page? 0 ⟨2⟩ = none ∧
      m'.page? 0 ⟨1⟩ = m.page? 0 ⟨1⟩ ∧ m'.page? 1 ⟨2⟩ = m.page? 1 ⟨2⟩ := by
  generalize hcontent : File.mk #[0x41] 1 none none none none = content
  generalize hrequests : [Op.create, .map 0 ⟨pageSize⟩ (pageSize + 1) true 0 0,
    .remove 0 ⟨pageSize⟩, .map 0 ⟨pageSize⟩ 1 true 0 0, .claim 0 ⟨2 * pageSize⟩, .fork 0].map
      (Visit.ascending, ·) = requests
  have hserved : ((boot 2 (.zeroed 16) (.ofFiles #[content])).run? requests).any (fun m =>
      (m.space? 0).isSome &&
        (m.page? 0 ⟨2⟩).any fun page => decide (page.type = .file)) = true := by
    rw [← hrequests, ← hcontent]
    decide +kernel
  have horigins : (boot 2 (.zeroed 16) (.ofFiles #[content])).origins requests 0 ⟨1⟩ ≠
      (boot 2 (.zeroed 16) (.ofFiles #[content])).origins requests 0 ⟨2⟩ := by
    rw [← hrequests, ← hcontent]
    decide +kernel
  have halong : (boot 2 (.zeroed 16) (.ofFiles #[content])).Along RespectsMappings requests := by
    refine along_of_forall (fun request hin m => ?_) _
    rw [← hrequests] at hin
    simp only [List.map_cons, List.map_nil, List.mem_cons, List.not_mem_nil, or_false] at hin
    rcases hin with rfl | rfl | rfl | rfl | rfl | rfl <;> trivial
  simp only [Option.any_eq_true, Bool.and_eq_true, decide_eq_true_eq,
    Option.isSome_iff_exists] at hserved
  obtain ⟨m, hrun, ⟨space, hspace⟩, page, hpage, htype⟩ := hserved
  have htwo : VirtAddr.page ⟨2 * pageSize⟩ = ⟨2⟩ := by decide
  obtain ⟨m', hok, hloses⟩ := (unmapped_of_run (by decide) halong hrun hspace .ascending
    ⟨2 * pageSize⟩).2 page (htwo ▸ hpage) htype
  rw [htwo] at hloses
  have hthere : m.page? 0 ⟨2⟩ ≠ none := by simp [hpage]
  exact ⟨m, m', hrun, hok, hthere, (hloses.gone ⟨2⟩ ⟨hthere, rfl⟩).1,
    (hloses.stays 0 ⟨1⟩ fun _ hin => horigins hin.2).page_eq,
    (hloses.stays 1 ⟨2⟩ fun hne => by cases hne).page_eq⟩

end Machine

end DemandPaging
