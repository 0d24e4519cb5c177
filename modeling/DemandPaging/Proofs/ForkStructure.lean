import DemandPaging.Proofs.Contents
import DemandPaging.Proofs.Runs

/-! # The structure of a forked address space

A child has a page wherever its parent has one, of the same kind and with the same rights. A page
that was never touched stays so, and an anonymous page has its parent's bytes in storage of its own,
in whatever order pages are copied and whichever pages lose their frames to the copies.
-/

namespace DemandPaging

/-! ## Pages that are alike -/

namespace Page.Alike

variable {before after : Page}

theorem mapping?_eq (h : before.Alike after) : after.mapping? = before.mapping? := by
  simp only [mapping?, backing?, h.type_eq, h.segment?_eq]

/-- A page that was never touched is determined by what alike pages agree on. -/
theorem eq_of_isUninit (h : before.Alike after) (huninit : before.isUninit = true)
    (hbefore : before.Placed) (hafter : after.Placed) : after = before ∧ before.frame = none := by
  obtain ⟨vpn, writable, frame, kind⟩ := before
  obtain ⟨vpn', writable', frame', kind'⟩ := after
  obtain ⟨hvpn, hwritable, hisUninit, htype, hsegment⟩ := h
  cases kind with
  | anon | file => cases huninit
  | uninit touch =>
      cases kind' with
      | anon | file => cases hisUninit
      | uninit touch' =>
          obtain rfl : frame = none := hbefore
          obtain rfl : frame' = none := hafter
          have htouch : touch' = touch := by
            cases touch <;> cases touch' <;> simp_all [type, segment?, FirstTouch.target,
              FirstTouch.segment?]
          simp only at hvpn hwritable
          simp [hvpn, hwritable, htouch]

end Page.Alike

/-! ## Copying step by step -/

/-- Pages that were copied so far are like the pages of the parent, and all pages that existed
before are as they were, but for the place of their contents. -/
structure View.Copied (V U : View) (child s : SpaceId) : Prop where
  kept : ∀ t vpn, t ≠ child → Option.Rel Page.Alike (V.page t vpn) (U.page t vpn)
  copied : ∀ vpn copy, U.page child vpn = some copy →
    ∃ page, V.page s vpn = some page ∧ page.Alike copy
  contents_kept : ∀ t vpn bytes, t ≠ child → V.contents t vpn = some bytes →
    U.contents t vpn = some bytes
  contents_copied : ∀ vpn bytes, U.page child vpn ≠ none → V.contents s vpn = some bytes →
    U.contents child vpn = some bytes

section

variable {V U W : View} {child s : SpaceId} {d : Deed}

/-- New pages are copies of one address space in another, and pages keep their contents. -/
def Deed.OnlyCopies (child s : SpaceId) : Deed → Prop
  | .inherit dst src _ | .copy dst src _ => dst = child ∧ src = s
  | .register _ _ | .adopt _ _ | .store _ _ | .discard _ _ => False
  | _ => True

theorem Deed.onlyCopies_of_making (hd : d ∈ Deed.making child s) : d.OnlyCopies child s := by
  rcases hd with (hd | ⟨u, rfl⟩ | ⟨u, rfl⟩) | rfl | rfl
  · cases d <;> trivial
  · exact ⟨rfl, rfl⟩
  · exact ⟨rfl, rfl⟩
  · trivial
  · trivial

theorem View.alike_of_put {page copy : Page} {vpn : VirtPage}
    (hpage : W.page = setAt U.page child vpn (some copy)) (hfresh : U.page child vpn = none)
    (hfound : U.page s vpn = some page) (halike : page.Alike copy) (t : SpaceId) (u : VirtPage) :
    Option.Rel Page.Alike (U.page t u) (W.page t u) ∨
      t = child ∧ U.page t u = none ∧ Option.Rel Page.Alike (U.page s u) (W.page t u) := by
  rw [hpage]
  by_cases hat : child = t ∧ vpn = u
  · obtain ⟨rfl, rfl⟩ := hat
    rw [setAt_same, hfound]
    exact .inr ⟨rfl, hfresh, .some halike⟩
  · rw [setAt_of_ne hat]
    exact .inl (alikeRel_refl _)

/-- A step of a fork leaves a page as it is, but for the place of its contents, or makes a copy
where no page was. -/
theorem Step.alike_of_making (hstep : Step d U W) (hd : d ∈ Deed.making child s)
    (h : U.Consistent) (t : SpaceId) (u : VirtPage) :
    Option.Rel Page.Alike (U.page t u) (W.page t u) ∨
      t = child ∧ U.page t u = none ∧ Option.Rel Page.Alike (U.page s u) (W.page t u) := by
  have hsame := alikeRel_refl (U.page t u)
  rcases hd with (hd | ⟨vpn, rfl⟩ | ⟨vpn, rfl⟩) | rfl | rfl
  · exact .inl ((hstep.roomier hd h).alike t u)
  · cases hstep with
    | inherit live found untouched fresh =>
        have hvpn := (h.settled found).vpn_eq
        subst hvpn
        exact View.alike_of_put rfl fresh found (Page.Alike.refl _) t u
  · cases hstep with
    | copy live found touched fresh =>
        have hvpn := (h.settled found).vpn_eq
        subst hvpn
        exact View.alike_of_put rfl fresh found (Page.alike_child touched _) t u
  · cases hstep
    exact .inl hsame
  · cases hstep
    exact .inl hsame

theorem Step.contents_of_making (hstep : Step d U W) (hd : d ∈ Deed.making child s)
    (h : U.Consistent) {vpn : VirtPage} {bytes : PageBytes} (hnone : U.page child vpn = none)
    (hsome : W.page child vpn ≠ none) (hbytes : U.contents s vpn = some bytes) :
    W.contents child vpn = some bytes := by
  have hcopies := Deed.onlyCopies_of_making hd
  obtain ⟨copy, hcopy⟩ := Option.ne_none_iff_exists'.mp hsome
  rcases hstep.page_new h hnone hcopy with ⟨writable, touch, -, rfl | rfl⟩ |
    ⟨src, rfl | rfl, -, hcontents⟩
  · exact hcopies.elim
  · exact hcopies.elim
  · exact hcontents bytes (hcopies.2 ▸ hbytes)
  · exact hcontents bytes (hcopies.2 ▸ hbytes)

theorem Step.copied (hstep : Step d U W) (hd : d ∈ Deed.making child s) (hne : s ≠ child)
    (h : U.Consistent) (hcopied : V.Copied U child s) : V.Copied W child s := by
  have hcopies := Deed.onlyCopies_of_making hd
  have hcontents : ∀ {t vpn bytes}, U.contents t vpn = some bytes →
      W.contents t vpn = some bytes := by
    intro t vpn bytes hbytes
    apply hstep.contents_eq h _ _ hbytes
    · rintro rfl
      exact hcopies
    · rintro rfl
      exact hcopies
  refine ⟨fun t vpn ht => ?_, fun vpn copy hcopy => ?_, fun t vpn bytes ht hbytes => ?_,
    fun vpn bytes hp hbytes => ?_⟩
  · rcases hstep.alike_of_making hd h t vpn with halike | ⟨rfl, -⟩
    · exact alikeRel_trans (hcopied.kept t vpn ht) halike
    · exact absurd rfl ht
  · rcases hstep.alike_of_making hd h child vpn with halike | ⟨-, -, halike⟩
    · obtain ⟨old, hold, hlike⟩ := exists_before_of_alikeRel halike hcopy
      obtain ⟨page, hpage, hlike'⟩ := hcopied.copied vpn old hold
      exact ⟨page, hpage, hlike'.trans hlike⟩
    · exact exists_before_of_alikeRel (alikeRel_trans (hcopied.kept s vpn hne) halike) hcopy
  · exact hcontents (hcopied.contents_kept t vpn bytes ht hbytes)
  · by_cases hold : U.page child vpn = none
    · exact hstep.contents_of_making hd h hold hp (hcopied.contents_kept s vpn bytes hne hbytes)
    · exact hcontents (hcopied.contents_copied vpn bytes hold hbytes)

theorem Steps.copied (hsteps : Steps (Deed.making child s) V W) (hne : s ≠ child)
    (h : V.Consistent) (hempty : ∀ vpn, V.page child vpn = none) : V.Copied W child s := by
  have hstart : V.Copied V child s := by
    refine ⟨fun t vpn _ => alikeRel_refl _, fun vpn copy hcopy => ?_, fun _ _ _ _ hb => hb,
      fun vpn _ hp => absurd (hempty vpn) hp⟩
    cases (hempty vpn).symm.trans hcopy
  refine (hsteps.invariant (fun U => U.Consistent ∧ V.Copied U child s) ?_ ⟨h, hstart⟩).2
  exact fun d hd U U' hstep hU => ⟨hstep.consistent hU.1, hstep.copied hd hne hU.1 hU.2⟩

end

/-! ## Whole forks -/

/-- An anonymous page that was touched shows some bytes. -/
theorem View.Consistent.exists_contents {V : View} {s : SpaceId} {vpn : VirtPage} {page : Page}
    (h : V.Consistent) (hp : V.page s vpn = some page) (htype : page.type = .anon)
    (htouched : page.isUninit = false) : ∃ bytes, V.contents s vpn = some bytes := by
  have hplaced := (h.settled hp).placed
  have hslot := View.slot_of_page hp
  rw [View.contents_of_page hp]
  unfold Page.contents?
  unfold Page.Placed at hplaced
  unfold Page.type at htype
  unfold Page.isUninit at htouched
  unfold Page.slot? at hslot
  cases hkind : page.kind with
  | uninit => simp [hkind] at htouched
  | file => simp [hkind] at htype
  | anon slot =>
      rw [hkind] at hplaced hslot
      cases slot with
      | some slot =>
          obtain ⟨slots, hsupplies, howners⟩ := h.slotted
          obtain ⟨bytes, hread⟩ := hsupplies.read (howners.mem hslot)
          exact ⟨bytes, by simp [hread, Except.toOption]⟩
      | none =>
          have hresident : page.frame ≠ none := by simpa using hplaced
          obtain ⟨frame, hframe⟩ := Option.ne_none_iff_exists'.mp hresident
          obtain ⟨bytes, hload⟩ := FramePool.load_of_lt (h.frame_lt hp hframe)
          exact ⟨bytes, by simp [hframe, hload, Except.toOption]⟩

namespace Machine

def contents? (m : Machine) (s : SpaceId) (vpn : VirtPage) : Option PageBytes :=
  (m.page? s vpn).bind (Page.contents? m.pool m.swap)

/-- An anonymous page is stored in a frame or in a slot, and nothing else is stored there. -/
def Stored (m : Machine) (s : SpaceId) (vpn : VirtPage) (page : Page) : Prop :=
  (∃ frame, page.frame = some frame ∧ page.kind = .anon none ∧
    ∀ t u other, m.page? t u = some other → other.frame = some frame → t = s ∧ u = vpn) ∨
  ∃ slot, page.frame = none ∧ page.kind = .anon (some slot) ∧
    ∀ t u other, m.page? t u = some other → other.slot? = some slot → t = s ∧ u = vpn

/-- What a fork of an address space leads to. -/
structure Forked (m m' : Machine) (s child : SpaceId) : Prop where
  /-- The child did not exist before. -/
  unused : m.userSp? child = none
  userSp_eq : m'.userSp? child = m.userSp? s
  /-- The child has a page exactly where its parent has one, with the same rights and of the same
  type, and with the same segment of the same backing. -/
  copied : ∀ vpn, Option.Rel Page.Alike (m.page? s vpn) (m'.page? child vpn)
  mapping_eq : ∀ vpn, (m'.page? child vpn).bind Page.mapping? = (m.page? s vpn).bind Page.mapping?
  /-- A page that was never touched is the same in the child, and takes no frame. -/
  untouched : ∀ vpn page, m.page? s vpn = some page → page.isUninit = true →
    m'.page? child vpn = some page ∧ page.frame = none
  stored : ∀ vpn page, m'.page? child vpn = some page → page.type = .anon →
    page.isUninit = false → m'.Stored child vpn page
  /-- The anonymous pages of parent and child have the bytes that the parent had. -/
  contents_eq : ∀ vpn page, m.page? s vpn = some page → page.type = .anon →
    page.isUninit = false → ∃ bytes, m.contents? s vpn = some bytes ∧
      m'.contents? child vpn = some bytes ∧ m'.contents? s vpn = some bytes
  /-- All that existed before is as it was, but for the place of its contents. -/
  kept : ∀ t ≠ child, ∀ vpn, Option.Rel Page.Alike (m.page? t vpn) (m'.page? t vpn)
  userSp_kept : ∀ t ≠ child, m'.userSp? t = m.userSp? t
  contents_kept : ∀ t ≠ child, ∀ vpn bytes, m.contents? t vpn = some bytes →
    m'.contents? t vpn = some bytes

variable {m m' : Machine} {s child : SpaceId} {vpn : VirtPage} {page : Page}

theorem Sound.stored (h : m.Sound) (hp : m.page? s vpn = some page) (htype : page.type = .anon)
    (htouched : page.isUninit = false) : m.Stored s vpn page := by
  have hc := h.consistent
  have hplaced := (hc.settled hp).placed
  unfold Page.Placed at hplaced
  cases hkind : page.kind with
  | uninit => simp [Page.isUninit, hkind] at htouched
  | file => simp [Page.type, hkind] at htype
  | anon slot =>
      rw [hkind] at hplaced
      cases slot with
      | none =>
          have hresident : page.frame ≠ none := by simpa using hplaced
          obtain ⟨frame, hframe⟩ := Option.ne_none_iff_exists'.mp hresident
          refine .inl ⟨frame, hframe, hkind, fun t u other ht hown => ?_⟩
          have hs : (m.view [] []).frame s vpn = some frame := (View.frame_of_page hp).trans hframe
          exact hc.listed.inj hc.frames_nodup ((View.frame_of_page ht).trans hown) hs
      | some slot =>
          obtain ⟨slots, -, howners⟩ := hc.slotted
          have hs : (m.view [] []).slot s vpn = some slot := by
            rw [View.slot_of_page hp, Page.slot?, hkind]
          refine .inr ⟨slot, by simpa using hplaced, hkind, fun t u other ht hown => ?_⟩
          exact howners.inj ((View.slot_of_page ht).trans hown) hs

theorem forked_of_completed (h : m.Sound) (hdone : MachineM.Completed m m' s) :
    m.Forked m' s m.nextSpace := by
  have hspace := MachineM.space?_nextSpace h.fresh
  have hunused : m.userSp? m.nextSpace = none := by
    rw [userSp?, hspace]
    rfl
  have hne : s ≠ m.nextSpace := by
    rintro rfl
    exact hdone.parent hunused
  have hempty : ∀ vpn, (m.view [] []).page m.nextSpace vpn = none := page?_eq_none hspace
  have hcopied := hdone.steps.copied hne h.consistent hempty
  have hsound : m'.Sound := ⟨hdone.steps.consistent h.consistent, hdone.fresh⟩
  have halike : ∀ vpn, Option.Rel Page.Alike (m.page? s vpn) (m'.page? m.nextSpace vpn) := by
    intro vpn
    cases hp : m.page? s vpn with
    | none =>
        cases hcopy : m'.page? m.nextSpace vpn with
        | none => exact .none
        | some copy =>
            obtain ⟨page, hpage, -⟩ := hcopied.copied vpn copy hcopy
            cases hp.symm.trans hpage
    | some page =>
        have hsome := hdone.page_ne_none vpn (by simp [hp])
        obtain ⟨copy, hcopy⟩ := Option.ne_none_iff_exists'.mp hsome
        obtain ⟨original, horiginal, hlike⟩ := hcopied.copied vpn copy hcopy
        obtain rfl : page = original := Option.some.inj (hp.symm.trans horiginal)
        rw [hcopy]
        exact .some hlike
  refine ⟨hunused, ?_, halike, fun vpn => ?_, fun vpn page hp huninit => ?_,
    fun vpn page hp => hsound.stored hp, fun vpn page hp htype htouched => ?_,
    fun t ht vpn => hcopied.kept t vpn ht, fun t ht => ?_,
    fun t ht vpn bytes => hcopied.contents_kept t vpn bytes ht⟩
  · rw [hdone.userSp_eq, Function.update_self]
  · have hlike := halike vpn
    generalize m.page? s vpn = page at hlike ⊢
    generalize m'.page? m.nextSpace vpn = copy at hlike ⊢
    cases hlike with
    | none => rfl
    | some hlike => exact hlike.mapping?_eq
  · obtain ⟨copy, hcopy, hlike⟩ := exists_after_of_alikeRel (halike vpn) hp
    obtain ⟨rfl, hframe⟩ := hlike.eq_of_isUninit huninit (h.consistent.settled hp).placed
      (hsound.consistent.settled hcopy).placed
    exact ⟨hcopy, hframe⟩
  · obtain ⟨bytes, hbytes⟩ := h.consistent.exists_contents hp htype htouched
    exact ⟨bytes, hbytes, hcopied.contents_copied vpn bytes (hdone.page_ne_none vpn (by simp [hp]))
      hbytes, hcopied.contents_kept s vpn bytes hne hbytes⟩
  · rw [hdone.userSp_eq, Function.update_of_ne ht]

/-- A fork that succeeds, in whatever order it visits the pages, makes a child of the parent's
structure and bytes, and leaves the parent's structure and bytes alone. -/
theorem forked_of_run {frames : ℕ} {disk : Disk} {files : FileStore}
    {requests : List (Visit × Op)} {visit : Visit} {reply : Reply}
    (hframes : frames ≤ PageTable.Entry.frameBound)
    (hrun : (boot frames disk files).run? requests = some m)
    (hfork : (Op.fork s).execBy visit m = .ok reply m') :
    reply = .space m.nextSpace ∧ m.Forked m' s m.nextSpace := by
  have hsound := sound_of_run hframes hrun
  have hready : MachineM.Ready False m s [] := ⟨hsound.consistent, False.elim, False.elim⟩
  have hends : Ends False ((Op.fork s).execBy visit) m
      (fun reply m' => reply = .space m.nextSpace ∧ MachineM.Completed m m' s)
      fun _ _ => True := by
    refine Ends.map ((MachineM.forkBy_ends visit hready hsound.fresh).mono ?_ fun _ _ _ => trivial)
    rintro child m₁ ⟨rfl, hdone⟩
    exact ⟨rfl, hdone⟩
  obtain ⟨hreply, hdone⟩ := hends.ok_of_eq hfork
  exact ⟨hreply, forked_of_completed hsound hdone⟩

/-- Three pages share one frame, and the fork visits them in descending order: one page of the
parent was never touched, one is in a slot and one in the frame. -/
theorem forked_of_evicted : ∃ m m' : Machine, ∃ reply,
    (boot 1 (.zeroed 32) (.ofFiles #[])).run? ([.create, .alloc 0 ⟨pageSize⟩ true .zero .anon,
      .alloc 0 ⟨2 * pageSize⟩ true .zero .anon, .alloc 0 ⟨3 * pageSize⟩ false .zero .anon,
      .write 0 ⟨pageSize⟩ #[7], .write 0 ⟨2 * pageSize⟩ #[8]].map (Visit.ascending, ·)) = some m ∧
      (Op.fork 0).execBy ⟨List.reverse, List.reverse_perm⟩ m = .ok reply m' ∧
      m.Forked m' 0 m.nextSpace := by
  generalize hrequests : [Op.create, .alloc 0 ⟨pageSize⟩ true .zero .anon,
      .alloc 0 ⟨2 * pageSize⟩ true .zero .anon, .alloc 0 ⟨3 * pageSize⟩ false .zero .anon,
      .write 0 ⟨pageSize⟩ #[7], .write 0 ⟨2 * pageSize⟩ #[8]].map (Visit.ascending, ·) = requests
  have hserved : (((boot 1 (.zeroed 32) (.ofFiles #[])).run? requests).bind fun m =>
      m.answer? ⟨List.reverse, List.reverse_perm⟩ (.fork 0)).isSome = true := by
    rw [← hrequests]
    decide +kernel
  obtain ⟨⟨reply, m'⟩, hserved⟩ := Option.isSome_iff_exists.mp hserved
  obtain ⟨m, hrun, hanswer⟩ := Option.bind_eq_some_iff.mp hserved
  have hfork := execBy_of_answer? hanswer
  exact ⟨m, m', reply, hrun, hfork, (forked_of_run (by decide) hrun hfork).2⟩

end Machine

end DemandPaging
