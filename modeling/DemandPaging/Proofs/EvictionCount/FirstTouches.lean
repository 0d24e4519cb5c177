import DemandPaging.Proofs.EvictionCount.Copies
import DemandPaging.Proofs.Retrying

/-! # First touches

Every page of zeros that is touched for the first time comes into a frame. So as many pages are in
slots then as were touched beyond the number of frames, and as many were evicted.
-/

namespace DemandPaging

variable {m m' : Machine} {s : SpaceId} {vpn : VirtPage} {page : Page} {write : Bool} {V W : View}
  {d : Deed} {op : Op}

/-! ## Slots -/

namespace SwapArea.Supplies

variable {area freed : SwapArea} {slots : List Slot} {slot : Slot}

theorem slotCount_of_release (h : area.Supplies slots) (hfreed : area.release slot = .ok freed) :
    freed.slotCount = area.slotCount := by
  have hmem := h.mem_of_release hfreed
  obtain ⟨left, hleft, -, hdisk, -⟩ := (h.perm (List.perm_cons_erase hmem)).release
  obtain rfl := Except.ok.inj (hfreed.symm.trans hleft)
  rw [slotCount, slotCount, hdisk]

theorem slotCount_of_write {taken written : SwapArea} {bytes : PageBytes} (h : area.Supplies slots)
    (halloc : area.alloc? = some (slot, taken)) (hwrite : taken.write slot bytes = .ok written) :
    written.slotCount = area.slotCount := by
  obtain ⟨-, -, -, htaken, hdisk, -⟩ := h.alloc? halloc
  obtain ⟨stored, hstored, -, hcount, -⟩ := htaken.write List.mem_cons_self bytes
  obtain rfl := Except.ok.inj (hwrite.symm.trans hstored)
  exact hcount.trans (by rw [slotCount, slotCount, hdisk])

end SwapArea.Supplies

theorem Step.slotCount_eq (hstep : Step d V W) (h : V.Consistent) :
    W.swap.slotCount = V.swap.slotCount := by
  obtain ⟨slots, hslots, -⟩ := h.slotted
  cases hstep with
  | evict full victim found mapped loaded spilled zeroed =>
      generalize Page.kind _ = kind at spilled
      cases spilled with
      | file segment => rfl
      | anon halloc hwrite => exact hslots.slotCount_of_write halloc hwrite
  | bring found absent first filled stored =>
      generalize Page.kind _ = kind at filled
      cases filled with
      | slot hread hfreed => exact hslots.slotCount_of_release hfreed
      | _ => rfl
  | discardSlot found absent inSlot freed => exact hslots.slotCount_of_release freed
  | _ => rfl

theorem Steps.slotCount_eq {deeds : Set Deed} (hsteps : Steps deeds V W) (h : V.Consistent) :
    W.swap.slotCount = V.swap.slotCount :=
  (hsteps.invariant (fun U => U.Consistent ∧ U.swap.slotCount = V.swap.slotCount)
    (fun _ _ _ _ hstep hU =>
      ⟨hstep.consistent hU.1, (hstep.slotCount_eq hU.1).trans hU.2⟩) ⟨h, rfl⟩).2

/-! ## Pages that are brought in -/

theorem Page.exists_slot (htype : page.type = .anon) (htouched : page.isUninit = false) :
    ∃ slot, page.kind = .anon slot := by
  unfold Page.type at htype
  unfold Page.isUninit at htouched
  cases hkind : page.kind with
  | uninit touch => simp [hkind] at htouched
  | anon slot => exact ⟨slot, rfl⟩
  | file segment => simp [hkind] at htype

theorem type_of_becomes {after : Page} (h : Page.Becomes (.untouched vpn write .zero) after)
    (htouched : after.isUninit = false) : after.type = .anon := by
  cases hkind : after.kind with
  | uninit touch => simp [Page.isUninit, hkind] at htouched
  | anon slot => simp [Page.type, hkind]
  | file segment =>
      have hshared := h.shared?_eq
      rw [Page.shared?_of_kind hkind] at hshared
      cases hshared

theorem Steps.alike_of_claiming (hsteps : Steps (Deed.claiming s vpn) V W) (h : V.Consistent)
    {t : SpaceId} {u : VirtPage} (hne : ¬(s = t ∧ vpn = u)) :
    Option.Rel Page.Alike (V.page t u) (W.page t u) := by
  refine (hsteps.invariant (fun U => U.Consistent ∧
    Option.Rel Page.Alike (V.page t u) (U.page t u)) (fun d hd U X hstep hU => ?_)
    ⟨h, alikeRel_refl _⟩).2
  refine ⟨hstep.consistent hU.1, alikeRel_trans hU.2 ?_⟩
  rcases hd with rfl | hd
  · obtain ⟨-, -, hpage⟩ := hstep.frames_of_bring hU.1
    rw [hpage t u hne]
    exact alikeRel_refl _
  · exact (hstep.roomier hd hU.1).alike t u

namespace MachineM

/-- There is room for a page: a frame is free, or the page that gives up its own finds a slot. -/
def HasRoom (m : Machine) : Prop :=
  0 < m.pool.total ∧ (m.frames.size < m.pool.total ∨ m.swap.used < m.swap.slotCount)

/-- A page that is not filled from a file is brought in if there is room for it. -/
theorem claim_of_room (h : (m.view [] []).Consistent) (hp : m.page? s vpn = some page)
    (hsegment : page.segment? = none) (hroom : HasRoom m) : ∃ m', claim s vpn m = .ok () m' := by
  cases hclaim : claim s vpn m with
  | ok _ m' => exact ⟨m', rfl⟩
  | error stop m' =>
      cases stop with
      | failed e =>
          obtain ⟨-, segment, hfalls⟩ := claim_failed h hp hclaim
          cases hsegment.symm.trans hfalls.segment_eq
      | panicked p =>
          obtain ⟨hpos, hroom⟩ := hroom
          cases claim_panicked h hp hclaim with
          | slot full exhausted =>
              rw [alloc?_eq_none_iff h] at full
              rw [slot_alloc?_eq_none_iff h] at exhausted
              omega
          | frame none => omega

/-- Two machines have the same pages in the same places. -/
structure SamePlaces (m m' : Machine) : Prop where
  page_eq : m'.page? = m.page?
  frames_eq : m'.frames = m.frames
  total_eq : m'.pool.total = m.pool.total
  swap_eq : m'.swap = m.swap

theorem SamePlaces.refl (m : Machine) : SamePlaces m m :=
  ⟨rfl, rfl, rfl, rfl⟩

theorem SamePlaces.trans {m₁ : Machine} (h : SamePlaces m m₁) (h' : SamePlaces m₁ m') :
    SamePlaces m m' :=
  ⟨h'.page_eq.trans h.page_eq, h'.frames_eq.trans h.frames_eq, h'.total_eq.trans h.total_eq,
    h'.swap_eq.trans h.swap_eq⟩

/-- An access of a page that was just claimed passes. -/
theorem userFrame_of_claim {m₁ : Machine} (h : (m.view [] []).Consistent)
    (hp : m.page? s vpn = some page) (habsent : page.frame = none)
    (hallowed : write = true → page.writable = true)
    (hclaim : claim s vpn (m.told (accessFault vpn write)) = .ok () m₁) :
    ∃ frame m', userFrame s vpn write m = .ok frame m' ∧ SamePlaces m₁ m' ∧
      (m'.view [] []).Consistent ∧ Accessed m' s vpn write frame := by
  have hsettled := h.settled hp
  have hframe := userFrame_of_registered hp (hsettled.of_none habsent) hsettled.in_user hallowed
  have htold : ((m.told (accessFault vpn write)).view [] []).Consistent := h
  obtain ⟨hsteps, after, hafter, hresident, hsame⟩ :=
    (claim_ends htold hp False.elim).ok_of_eq hclaim
  have h₁ := hsteps.consistent htold
  have haccessible : Accessible m₁ s vpn write :=
    ⟨after, hafter, hresident, fun hw => hsame.trans (hallowed hw)⟩
  obtain ⟨space, frame, table, hspace, haccess⟩ := passes_of_accessible h₁ haccessible
  have hsettles : accessPage s vpn write 1 m₁ = .ok frame (m₁.setSpace s { space with table }) := by
    rw [accessPage, bind_of_ok (space_of_some hspace), haccess]
    rfl
  obtain ⟨own, hown⟩ := Option.ne_none_iff_exists'.mp hresident
  obtain ⟨entry, hentry, -, -, hmapped⟩ := h₁.mapped hafter hown
  have hends : Ends False (accessPage s vpn write 1) m₁ _ _ :=
    access_ends h₁ hentry (fun hw => hmapped.trans (hsame.trans (hallowed hw))) 0
  obtain ⟨hstep, haccessed⟩ := hends.ok_of_eq hsettles
  refine ⟨frame, _, ?_, ⟨Machine.page?_putTable hspace table, rfl, rfl, rfl⟩,
    hstep.consistent h₁, haccessed⟩
  rw [hframe, bind_of_ok hclaim, hsettles]

variable {va : VirtAddr} {buffer data : Bytes}

theorem readUser_of_claim {m₁ : Machine} (h : (m.view [] []).Consistent)
    (hp : m.page? s vpn = some page) (habsent : page.frame = none)
    (hwithin : Within va buffer.size vpn)
    (hclaim : claim s vpn (m.told (accessFault vpn false)) = .ok () m₁) :
    ∃ bytes m', readUser s va buffer m = .ok (bytes, none) m' ∧ SamePlaces m₁ m' := by
  obtain ⟨frame, m', hframe, hsame, hc, haccessed⟩ :=
    userFrame_of_claim h hp habsent Bool.noConfusion hclaim
  obtain ⟨-, loaded, hload⟩ := accessed_load hc haccessed
  have hchunks := hwithin.userChunks (h.settled hp).in_user m
  let chunk := Chunk.ofPage va (va.val + buffer.size) vpn.number
  have hread : attempt (userChunks va buffer.size) m = .ok (.ok [chunk]) m := by
    simp only [attempt, hchunks, chunk]
  have haccess : userFrame s chunk.page false m = .ok frame m' := hframe
  refine ⟨buffer.overlay chunk.position (loaded.slice chunk.offset chunk.length), m', ?_, hsame⟩
  rw [readUser, bind_of_ok hread]
  exact readChunks_of_ok haccess hload

theorem writeUser_of_claim {m₁ : Machine} (h : (m.view [] []).Consistent)
    (hp : m.page? s vpn = some page) (habsent : page.frame = none)
    (hwithin : Within va data.size vpn) (hallowed : page.writable = true)
    (hclaim : claim s vpn (m.told (accessFault vpn true)) = .ok () m₁) :
    ∃ m', writeUser s va data m = .ok () m' ∧ SamePlaces m₁ m' := by
  obtain ⟨frame, m₂, hframe, hsame, hc, haccessed⟩ :=
    userFrame_of_claim h hp habsent (fun _ => hallowed) hclaim
  let chunk := Chunk.ofPage va (va.val + data.size) vpn.number
  obtain ⟨page, bytes, pool, -, -, hload, hstore, -⟩ :=
    exists_store_of_accessed hc chunk haccessed data
  have hchunk : writeChunk s data chunk m = .ok () { m₂ with pool } := by
    have hframe' : userFrame s chunk.page true m = .ok frame m₂ := hframe
    rw [writeChunk, bind_of_ok hframe', bind_of_ok (loadFrame_of_ok hload)]
    exact storeFrame_of_ok hstore
  refine ⟨{ m₂ with pool }, ?_, hsame.trans ⟨rfl, rfl, FramePool.total_of_store hstore, rfl⟩⟩
  rw [writeUser, bind_of_ok (hwithin.userChunks (h.settled hp).in_user m)]
  exact bind_of_ok hchunk

/-- The first touch of a page for which there is room succeeds, and moves pages as a claim does. -/
theorem execBy_of_room (visit : Visit) (h : (m.view [] []).Consistent)
    (hp : m.page? s vpn = some page) (habsent : page.frame = none)
    (hsegment : page.segment? = none) (hroom : HasRoom m)
    (hasks : op.AsksFor s vpn page.writable) :
    ∃ events m₁ reply m', claim s vpn { m with events } = .ok () m₁ ∧
      op.execBy visit m = .ok reply m' ∧ SamePlaces m₁ m' := by
  have hclaims : ∀ events, ∃ m₁, claim s vpn { m with events } = .ok () m₁ := fun events =>
    claim_of_room (m := { m with events }) h hp hsegment hroom
  cases hasks with
  | claim at_page =>
      obtain ⟨m₁, hclaim⟩ := hclaims m.events
      have hat := claimAt_of_registered (by rwa [at_page])
      rw [at_page] at hat
      exact ⟨m.events, m₁, _, m₁, hclaim, bind_of_ok (hat.trans hclaim), .refl m₁⟩
  | fault at_page missing allowed =>
      rename_i fault
      obtain ⟨m₁, hclaim⟩ :=
        hclaims (m.events.push (.pageFault fault.addr fault.write fault.user))
      have huser : VirtAddr.isUser ⟨fault.addr⟩ = true :=
        VirtAddr.isUser_of_page_lt (at_page ▸ (h.settled hp).in_user)
      have hfault := handleFault_of_registered (by rwa [at_page]) huser missing allowed
      rw [at_page] at hfault
      exact ⟨_, m₁, _, m₁, hclaim, bind_of_ok (hfault.trans hclaim), .refl m₁⟩
  | read within =>
      obtain ⟨m₁, hclaim⟩ := hclaims (m.events.push (.pageFault vpn.start.val false false))
      obtain ⟨bytes, m', hread, hsame⟩ := readUser_of_claim h hp habsent within hclaim
      exact ⟨_, m₁, _, m', hclaim, bind_of_ok hread, hsame⟩
  | write within allowed =>
      obtain ⟨m₁, hclaim⟩ := hclaims (m.events.push (.pageFault vpn.start.val true false))
      obtain ⟨m', hwrite, hsame⟩ := writeUser_of_claim h hp habsent within allowed hclaim
      exact ⟨_, m₁, _, m', hclaim, bind_of_ok hwrite, hsame⟩

end MachineM

/-! ## Runs of first touches -/

/-- Requests that register pages of zeros in the first address space and touch some of them, each of
them once: the pages that are still fresh, those that were touched, the requests that are left, and
how many of them touch a page. -/
inductive Op.FirstTouches (writable : VirtPage → Bool) :
    List VirtPage → List VirtPage → List Op → ℕ → Prop where
  | done {fresh touched : List VirtPage} : FirstTouches writable fresh touched [] 0
  | register {fresh touched : List VirtPage} {ops : List Op} {count : ℕ} {vpn : VirtPage}
      (inside : vpn.number < userPages) (unused : vpn ∉ fresh) (untouched : vpn ∉ touched)
      (rest : FirstTouches writable (vpn :: fresh) touched ops count) :
      FirstTouches writable fresh touched
        (.alloc 0 vpn.start (writable vpn) .zero .anon :: ops) count
  | touch {fresh touched : List VirtPage} {op : Op} {ops : List Op} {count : ℕ} {vpn : VirtPage}
      (mem : vpn ∈ fresh) (asks : op.AsksFor 0 vpn (writable vpn))
      (rest : FirstTouches writable (fresh.erase vpn) (vpn :: touched) ops count) :
      FirstTouches writable fresh touched (op :: ops) (count + 1)

namespace Machine

/-- A machine whose only pages are pages of zeros of the first address space and anonymous pages
that were touched. -/
structure Populated (m : Machine) (writable : VirtPage → Bool) (fresh touched : List VirtPage) :
    Prop where
  sound : m.Sound
  live : (m.view [] []).Live 0
  fresh_nodup : fresh.Nodup
  touched_nodup : touched.Nodup
  page_of_fresh : ∀ vpn ∈ fresh, m.page? 0 vpn = some (.untouched vpn (writable vpn) .zero)
  page_of_touched : ∀ vpn ∈ touched, ∃ page, m.page? 0 vpn = some page ∧ page.isUninit = false
  only : ∀ t vpn page, m.page? t vpn = some page →
    t = 0 ∧ page.type = .anon ∧ (vpn ∈ fresh ∨ vpn ∈ touched)

/-- If all pages are anonymous, those that were touched are in frames and in slots. -/
theorem Sound.encard_anonPages (h : m.Sound)
    (hanon : ∀ t u page, m.page? t u = some page → page.type = .anon) :
    m.anonPages.encard = (m.frames.size + m.swap.used : ℕ) := by
  have hsplit : m.anonPages =
      {x | ∃ page, m.page? x.1 x.2 = some page ∧ page.isResident = true} ∪
        {x | ∃ page slot, m.page? x.1 x.2 = some page ∧ page.kind = .anon slot ∧
          page.isResident = false} := by
    ext ⟨t, u⟩
    constructor
    · rintro ⟨page, slot, hpage, hkind⟩
      cases hresident : page.isResident with
      | true => exact .inl ⟨page, hpage, hresident⟩
      | false => exact .inr ⟨page, slot, hpage, hkind, hresident⟩
    · rintro (⟨page, hpage, hresident⟩ | ⟨page, slot, hpage, hkind, -⟩)
      · obtain ⟨slot, hkind⟩ := Page.exists_slot (hanon t u page hpage)
          ((h.residency.registered t u page hpage).2.2 hresident)
        exact ⟨page, slot, hpage, hkind⟩
      · exact ⟨page, slot, hpage, hkind⟩
  have hdisjoint : Disjoint
      {x : SpaceId × VirtPage | ∃ page, m.page? x.1 x.2 = some page ∧ page.isResident = true}
      {x | ∃ page slot, m.page? x.1 x.2 = some page ∧ page.kind = .anon slot ∧
        page.isResident = false} := by
    refine Set.disjoint_left.mpr ?_
    rintro x ⟨page, hpage, hresident⟩ ⟨other, slot, hother, -, habsent⟩
    obtain rfl := Option.some.inj (hpage.symm.trans hother)
    cases hresident.symm.trans habsent
  rw [hsplit, Set.encard_union_eq hdisjoint, h.residency.encard_resident, h.slotOwnership.used_eq,
    Nat.cast_add]
  rfl

namespace Populated

variable {writable : VirtPage → Bool} {fresh touched : List VirtPage}

theorem size_add_used (h : m.Populated writable fresh touched) :
    m.frames.size + m.swap.used = touched.length := by
  have hset : m.anonPages = (Prod.mk 0) '' (touched.toFinset : Set VirtPage) := by
    ext ⟨t, u⟩
    rw [List.coe_toFinset]
    constructor
    · rintro ⟨page, slot, hpage, hkind⟩
      obtain ⟨rfl, -, hfresh | htouched⟩ := h.only t u page hpage
      · obtain rfl := Option.some.inj ((h.page_of_fresh u hfresh).symm.trans hpage)
        cases hkind
      · exact ⟨u, htouched, rfl⟩
    · rintro ⟨vpn, hvpn, heq⟩
      obtain ⟨rfl, rfl⟩ := Prod.mk.inj heq
      obtain ⟨page, hpage, htouched⟩ := h.page_of_touched vpn hvpn
      obtain ⟨slot, hkind⟩ := Page.exists_slot (h.only 0 vpn page hpage).2.1 htouched
      exact ⟨page, slot, hpage, hkind⟩
  have hencard := h.sound.encard_anonPages fun t u page hpage => (h.only t u page hpage).2.1
  rw [hset, (Prod.mk_right_injective 0).injOn.encard_image, Set.encard_coe_eq_coe_finsetCard,
    List.toFinset_card_of_nodup h.touched_nodup] at hencard
  exact_mod_cast hencard.symm

/-- A new page of zeros takes neither a frame nor a slot. -/
theorem register (h : m.Populated writable fresh touched) (visit : Visit)
    (hin : vpn.number < userPages) (hfresh : vpn ∉ fresh) (htouched : vpn ∉ touched) :
    ∃ m', m.step? visit (.alloc 0 vpn.start (writable vpn) .zero .anon) = some m' ∧
      m'.Populated writable (vpn :: fresh) touched ∧ m'.frames = m.frames ∧ m'.pool = m.pool ∧
      m'.swap = m.swap := by
  have hnone : m.page? 0 vpn = none := by
    cases hp : m.page? 0 vpn with
    | none => rfl
    | some page =>
        obtain ⟨-, -, hmem | hmem⟩ := h.only 0 vpn page hp
        · exact (hfresh hmem).elim
        · exact (htouched hmem).elim
  obtain ⟨space, hspace⟩ := exists_space_of_live h.live
  obtain ⟨m', halloc, hview⟩ :=
    MachineM.alloc_of_fresh hspace hnone hin (writable vpn) []
  have hstep : m.step? visit (.alloc 0 vpn.start (writable vpn) .zero .anon) = some m' := by
    have hexec : (Op.alloc 0 vpn.start (writable vpn) .zero .anon).execBy visit m =
        .ok .done m' := MachineM.bind_of_ok halloc
    rw [step?, hexec]
  have hpage : m'.page? = setAt m.page? 0 vpn (some (.untouched vpn (writable vpn) .zero)) :=
    congrArg View.page hview
  have hlive : (m'.view [] []).Live 0 := by
    rw [hview]
    exact h.live
  refine ⟨m', hstep, ⟨(Op.finished h.sound hstep).sound, hlive,
    List.nodup_cons.mpr ⟨hfresh, h.fresh_nodup⟩, h.touched_nodup, fun u hu => ?_, fun u hu => ?_,
    fun t u page hp => ?_⟩, congrArg View.frames hview, congrArg View.pool hview,
    congrArg View.swap hview⟩
  · rw [hpage]
    by_cases hat : vpn = u
    · subst hat
      exact setAt_same
    · rw [setAt_of_ne fun hboth => hat hboth.2]
      exact h.page_of_fresh u ((List.mem_cons.mp hu).resolve_left (Ne.symm hat))
  · have hne : ¬((0 : SpaceId) = 0 ∧ vpn = u) := by
      rintro ⟨-, rfl⟩
      exact htouched hu
    rw [hpage, setAt_of_ne hne]
    exact h.page_of_touched u hu
  · rw [hpage] at hp
    by_cases hat : 0 = t ∧ vpn = u
    · obtain ⟨rfl, rfl⟩ := hat
      obtain rfl := Option.some.inj (setAt_same.symm.trans hp)
      exact ⟨rfl, rfl, .inl List.mem_cons_self⟩
    · rw [setAt_of_ne hat] at hp
      obtain ⟨ht, htype, hmem⟩ := h.only t u page hp
      exact ⟨ht, htype, hmem.imp_left (List.mem_cons_of_mem _)⟩

/-- When a page came in and the others kept what they show, it counts as touched. -/
theorem bring {after : Page} (h : m.Populated writable fresh touched) (hsound : m'.Sound)
    (hfresh : vpn ∈ fresh) (hthere : m'.page? 0 vpn = some after)
    (htype : after.type = .anon) (htouched : after.isUninit = false)
    (hother : ∀ t u, ¬((0 : SpaceId) = t ∧ vpn = u) →
      Option.Rel Page.Alike (m.page? t u) (m'.page? t u)) :
    m'.Populated writable (fresh.erase vpn) (vpn :: touched) := by
  refine ⟨hsound, ?_, h.fresh_nodup.erase vpn, ?_, fun u hu => ?_, fun u hu => ?_,
    fun t u page hpage => ?_⟩
  · obtain ⟨space, hspace, -⟩ := exists_space_of_page? hthere
    exact live_of_space? hspace
  · refine List.nodup_cons.mpr ⟨fun hmem => ?_, h.touched_nodup⟩
    obtain ⟨page, hpage, hinit⟩ := h.page_of_touched vpn hmem
    obtain rfl := Option.some.inj ((h.page_of_fresh vpn hfresh).symm.trans hpage)
    cases hinit
  · obtain ⟨hne, hmem⟩ := h.fresh_nodup.mem_erase_iff.mp hu
    have hbefore := h.page_of_fresh u hmem
    obtain ⟨later, hlater, halike⟩ :=
      exists_after_of_alikeRel (hother 0 u fun hboth => hne hboth.2.symm) hbefore
    obtain ⟨rfl, -⟩ := halike.eq_of_isUninit rfl (h.sound.consistent.settled hbefore).placed
      (hsound.consistent.settled hlater).placed
    exact hlater
  · by_cases hat : vpn = u
    · subst hat
      exact ⟨after, hthere, htouched⟩
    · obtain ⟨page, hpage, hinit⟩ :=
        h.page_of_touched u ((List.mem_cons.mp hu).resolve_left (Ne.symm hat))
      obtain ⟨later, hlater, halike⟩ :=
        exists_after_of_alikeRel (hother 0 u fun hboth => hat hboth.2) hpage
      exact ⟨later, hlater, halike.isUninit_eq.trans hinit⟩
  · by_cases hat : (0 : SpaceId) = t ∧ vpn = u
    · obtain ⟨rfl, rfl⟩ := hat
      obtain rfl := Option.some.inj (hthere.symm.trans hpage)
      exact ⟨rfl, htype, .inr List.mem_cons_self⟩
    · obtain ⟨before, hbefore, halike⟩ := exists_before_of_alikeRel (hother t u hat) hpage
      obtain ⟨rfl, hsame, hmem⟩ := h.only t u before hbefore
      refine ⟨rfl, halike.type_eq.trans hsame, hmem.imp (fun hmem => ?_) (List.mem_cons_of_mem _)⟩
      exact h.fresh_nodup.mem_erase_iff.mpr ⟨fun heq => hat ⟨rfl, heq.symm⟩, hmem⟩

/-- The first touch of a page brings it in, if there is room for it. -/
theorem touch (h : m.Populated writable fresh touched) (visit : Visit) (hroom : MachineM.HasRoom m)
    (hfresh : vpn ∈ fresh) (hasks : op.AsksFor 0 vpn (writable vpn)) :
    ∃ m', m.step? visit op = some m' ∧
      m'.Populated writable (fresh.erase vpn) (vpn :: touched) ∧ m.BringsIn 1 m' ∧
      m'.swap.slotCount = m.swap.slotCount := by
  have hc := h.sound.consistent
  have hp := h.page_of_fresh vpn hfresh
  obtain ⟨events, m₁, reply, m', hclaim, hexec, hsame⟩ :=
    MachineM.execBy_of_room visit hc hp rfl rfl hroom hasks
  have hnoted : (Machine.view { m with events } [] []).Consistent := hc
  obtain ⟨hsteps, after, hafter, hframe, -⟩ :=
    (MachineM.claim_ends hnoted hp False.elim).ok_of_eq hclaim
  have h₁ := hsteps.consistent hnoted
  have hstep : m.step? visit op = some m' := by rw [step?, hexec]
  have hsound := (Op.finished h.sound hstep).sound
  have hbrings : ({ m with events } : Machine).BringsIn 1 m₁ :=
    ((MachineM.claim_counts hnoted hp rfl).ok_of_eq hclaim).1
  have hother : ∀ t u, ¬((0 : SpaceId) = t ∧ vpn = u) →
      Option.Rel Page.Alike (m.page? t u) (m'.page? t u) := fun t u hne => by
    rw [hsame.page_eq]
    exact hsteps.alike_of_claiming hnoted hne
  have hthere : m'.page? 0 vpn = some after := by rw [hsame.page_eq, hafter]
  have htouched := (hsound.residency.registered 0 vpn after hthere).2.2
    (Option.isSome_iff_ne_none.mpr hframe)
  have hbecomes : Page.Becomes (.untouched vpn (writable vpn) .zero) after := by
    have hrel : Option.Rel Page.Becomes (m.page? 0 vpn) (m₁.page? 0 vpn) :=
      MachineM.becomes_of_claiming hsteps hnoted 0 vpn
    rw [hp, hafter] at hrel
    cases hrel with
    | some hbecomes => exact hbecomes
  refine ⟨m', hstep, h.bring hsound hfresh hthere (type_of_becomes hbecomes htouched) htouched
    hother, ⟨?_, ?_, ?_⟩, ?_⟩
  · rw [hsame.frames_eq, hbrings.evictions_eq]
  · rw [hsame.frames_eq, hbrings.size_eq]
  · rw [hsame.total_eq, hbrings.total_eq]
  · rw [hsame.swap_eq]
    exact hsteps.slotCount_eq hnoted

/-- In a run of first touches every page that is touched comes into a frame, if there are slots
enough for those that lose their own. -/
theorem run {ops : List Op} {count : ℕ} (hops : Op.FirstTouches writable fresh touched ops count)
    (visit : Visit) (h : m.Populated writable fresh touched) (hpos : 0 < m.pool.total)
    (hslots : touched.length + count ≤ m.pool.total + m.swap.slotCount) :
    ∃ m', m.run? (ops.map (visit, ·)) = some m' ∧ m.BringsIn count m' ∧
      m'.frames.size + m'.swap.used = touched.length + count := by
  induction hops generalizing m with
  | done => exact ⟨m, rfl, .none h.sound.consistent.size_le rfl rfl, h.size_add_used⟩
  | register inside unused untouched rest ih =>
      obtain ⟨m₁, hstep, h₁, hframes, hpool, hswap⟩ := h.register visit inside unused untouched
      obtain ⟨m', hrun, ⟨hevictions, hsize, htotal⟩, hused⟩ :=
        ih h₁ (hpool ▸ hpos) (by rwa [hpool, hswap])
      rw [hframes, hpool] at hevictions
      rw [hframes, hpool] at hsize
      refine ⟨m', ?_, ⟨hevictions, hsize, htotal.trans (by rw [hpool])⟩, hused⟩
      rw [List.map_cons, run?_cons, hstep, Option.bind_some, hrun]
  | @touch fresh touched op ops count vpn mem asks rest ih =>
      have hroom : MachineM.HasRoom m := by
        have hin := h.size_add_used
        have hle := h.sound.consistent.size_le
        exact ⟨hpos, by omega⟩
      obtain ⟨m₁, hstep, h₁, hbrings, hcount⟩ := h.touch visit hroom mem asks
      have hslots₁ : (vpn :: touched).length + count ≤ m₁.pool.total + m₁.swap.slotCount := by
        rw [List.length_cons, hbrings.total_eq, hcount]
        omega
      obtain ⟨m', hrun, hmore, hused⟩ := ih h₁ (hbrings.total_eq ▸ hpos) hslots₁
      refine ⟨m', ?_, ?_, ?_⟩
      · rw [List.map_cons, run?_cons, hstep, Option.bind_some, hrun]
      · rw [Nat.add_comm count 1]
        exact hbrings.trans h.sound.consistent.size_le hmore
      · rw [hused, List.length_cons]
        omega

end Populated

/-- A machine that was just booted and has an address space has no page. -/
theorem populated_create {frames : ℕ} (hframes : frames ≤ PageTable.Entry.frameBound) (disk : Disk)
    (files : FileStore) (visit : Visit) (writable : VirtPage → Bool) :
    ∃ m, (boot frames disk files).step? visit .create = some m ∧ m.Populated writable [] [] ∧
      m.frames = .empty ∧ m.pool = .fresh (FramePool.classesFor frames) frames ∧
      m.swap = .onDisk disk := by
  have hsound := sound_boot hframes disk files
  have hdead : (boot frames disk files).space? 0 = none := rfl
  have hview := MachineM.view_putSpace_empty hdead userStackTop [] []
  have hstep : (boot frames disk files).step? visit .create =
      some { (boot frames disk files).setSpace 0 { Space.empty with userSp := userStackTop } with
        nextSpace := 1 } := rfl
  refine ⟨_, hstep, ⟨(Op.finished hsound hstep).sound, ?_, List.nodup_nil, List.nodup_nil,
    fun vpn hvpn => ?_, fun vpn hvpn => ?_, fun t vpn page hpage => ?_⟩, rfl, rfl, rfl⟩
  · intro hnone
    cases hnone
  · cases hvpn
  · cases hvpn
  · have hpages : ((boot frames disk files).setSpace 0
        { Space.empty with userSp := userStackTop }).page? = (boot frames disk files).page? :=
      congrArg View.page hview
    have hnone : (boot frames disk files).page? t vpn = none := page?_eq_none rfl vpn
    cases hnone.symm.trans ((congrFun (congrFun hpages t) vpn).symm.trans hpage)

end Machine

end DemandPaging
