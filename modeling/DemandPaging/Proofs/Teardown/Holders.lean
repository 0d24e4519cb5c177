import DemandPaging.Proofs.PanicFreedom

/-! # References from outside

A backing may be referred to from outside the machine, by whoever opened the file to set up pages of
it. As long as such a caller drops no references but its own, every page that refers to a backing
holds a reference, and the backing is open.
-/

namespace DemandPaging

/-- A backing counts the references of pages and of the request, and some that are held outside. -/
def View.Accounted (V : View) (id : BackingId) : Prop :=
  ∃ outside : List BackingId, View.Tallies { V with pins := V.pins ++ outside } id

variable {d : Deed} {V W : View} {id : BackingId} {deeds : Set Deed}

/-- References that are held besides those of the request change nothing. -/
theorem Step.append_pins (hstep : Step d V W) (more : List BackingId) :
    Step d { V with pins := V.pins ++ more } { W with pins := W.pins ++ more } := by
  cases hstep with
  | take free => exact Step.take free
  | sweep hand passed inside => exact Step.sweep hand passed inside
  | evict full victim found mapped loaded spilled zeroed =>
      exact Step.evict (V := { V with pins := V.pins ++ more }) full victim found mapped loaded
        spilled zeroed
  | spoil mem stored => exact Step.spoil mem stored
  | giveBack first freed => exact Step.giveBack first freed
  | bring found absent first filled stored => exact Step.bring found absent first filled stored
  | register live fresh inside pinned =>
      exact Step.register live fresh inside fun segment hs =>
        List.mem_append_left more (pinned segment hs)
  | adopt live fresh inside => exact Step.adopt live fresh inside
  | inherit live found untouched fresh => exact Step.inherit live found untouched fresh
  | copy live found touched fresh first copied stored =>
      exact Step.copy live found touched fresh first copied stored
  | discardResident found resident mapped loaded freed =>
      exact Step.discardResident found resident mapped loaded freed
  | discardSlot found absent inSlot freed => exact Step.discardSlot found absent inSlot freed
  | discardBare found absent bare => exact Step.discardBare found absent bare
  | touch mapped allowed => exact Step.touch mapped allowed
  | adjust mapped same => exact Step.adjust mapped same
  | store found resident mapped allowed dirty stored =>
      exact Step.store found resident mapped allowed dirty stored
  | create dead empty => exact Step.create dead empty
  | next => exact Step.next
  | drop empty => exact Step.drop empty
  | setUserSp live => exact Step.setUserSp live
  | pin inside opened => exact Step.pin inside opened
  | unpin first => exact Step.unpin (congrArg (· ++ more) first)
  | edit change kept => exact Step.edit change kept
  | reopen opened => exact Step.reopen opened
  | release id => exact Step.release id

theorem View.Consistent.append_pins (h : V.Consistent) (more : List BackingId) :
    View.Consistent { V with pins := V.pins ++ more } :=
  ⟨h.settled, h.unmapped, h.listed, h.supplied, h.bounded, h.slotted⟩

theorem View.Accounted.refs_pos {s : SpaceId} {vpn : VirtPage} (h : V.Accounted id)
    (hpage : V.backing s vpn = some id) : 0 < V.files.refs id := by
  obtain ⟨outside, htallies⟩ := h
  exact htallies.refs_pos hpage

/-- A reference that is held outside can be dropped. -/
theorem View.Accounted.release (h : V.Accounted id) (hn : V.files.Numbered)
    (hheld : V.references id < V.files.refs id) :
    View.Accounted { V with files := V.files.release id } id := by
  obtain ⟨outside, htallies⟩ := h
  have hmem : id ∈ outside := by
    by_contra hnot
    have hcount : (V.pins ++ outside).count id = V.pins.count id := by
      rw [List.count_append, List.count_eq_zero_of_not_mem hnot, Nat.add_zero]
    unfold View.Tallies View.references at htallies
    rw [hcount] at htallies
    exact absurd htallies.symm (ne_of_lt hheld)
  have hrefs := FileStore.refs_release hn id fun _ => htallies.refs_pos_of_pin
    (List.mem_append_right _ hmem)
  have hpos : 0 < outside.count id := List.count_pos_iff.mpr hmem
  refine ⟨outside.erase id, ?_⟩
  change ((V.files.release id).refs id : ℕ∞) =
    {x : SpaceId × VirtPage | V.backing x.1 x.2 = some id}.encard +
      ((V.pins ++ outside.erase id).count id : ℕ∞)
  change (V.files.refs id : ℕ∞) = {x : SpaceId × VirtPage | V.backing x.1 x.2 = some id}.encard +
    ((V.pins ++ outside).count id : ℕ∞) at htallies
  obtain ⟨pages, hpages⟩ := exists_nat_of_add_eq htallies.symm
  rw [hpages, List.count_append] at htallies ⊢
  rw [List.count_erase_self]
  rw [if_pos rfl] at hrefs
  norm_cast at htallies ⊢
  omega

theorem View.Accounted.reopen {file : FileId} {base : VirtPage} {pages : ℕ} {own : BackingId}
    {files : FileStore} (h : V.Accounted id) (hn : V.files.Numbered)
    (hopened : V.files.reopen file base pages = .ok (own, files)) :
    View.Accounted { V with files } id := by
  obtain ⟨outside, htallies⟩ := h
  have hrefs := FileStore.refs_reopen hn hopened id
  have hcount : (V.pins ++ (outside ++ [own])).count id =
      (V.pins ++ outside).count id + if own = id then 1 else 0 := by
    rw [← List.append_assoc, List.count_append, List.count_singleton]
    simp only [beq_iff_eq]
  refine ⟨outside ++ [own], ?_⟩
  change (files.refs id : ℕ∞) = {x : SpaceId × VirtPage | V.backing x.1 x.2 = some id}.encard +
    ((V.pins ++ (outside ++ [own])).count id : ℕ∞)
  change (V.files.refs id : ℕ∞) = {x : SpaceId × VirtPage | V.backing x.1 x.2 = some id}.encard +
    ((V.pins ++ outside).count id : ℕ∞) at htallies
  rw [hrefs, hcount, Nat.cast_add, Nat.cast_add, htallies]
  exact add_assoc _ _ _

/-- References are accounted for by every step but those that take references which nobody holds. -/
theorem Step.accounted (hstep : Step d V W) (hc : V.Consistent) (hn : V.files.Numbered)
    (hadopt : ∀ s page, d = .adopt s page → page.backing? = some id → 0 < V.files.refs id)
    (hrelease : ∀ own, d = .release own → V.references own < V.files.refs own)
    (h : V.Accounted id) : W.Accounted id := by
  by_cases haccounts : d.Accounts id ∧ ∀ file, d ≠ .reopen file
  · obtain ⟨outside, htallies⟩ := h
    exact ⟨outside, (hstep.append_pins outside).tallies (hc.append_pins outside) hn haccounts.1
      (fun file hd => (haccounts.2 file hd).elim) htallies⟩
  cases hstep with
  | adopt live fresh inside =>
      obtain ⟨outside, htallies⟩ := h
      exact ⟨outside, View.Tallies.registered htallies fresh (hadopt _ _ rfl)⟩
  | reopen opened => exact h.reopen hn opened
  | release own =>
      obtain rfl : own = id := by
        by_contra hne
        exact haccounts ⟨hne, fun file hd => by cases hd⟩
      exact h.release hn (hrelease own rfl)
  | _ => exact (haccounts ⟨trivial, fun file hd => by cases hd⟩).elim

theorem Steps.accounted (hsteps : Steps deeds V W) (hc : V.Consistent) (hn : V.files.Numbered)
    (hd : ∀ d ∈ deeds, (∀ s page, d ≠ .adopt s page) ∧ ∀ own, d ≠ .release own)
    (h : V.Accounted id) : W.Accounted id := by
  refine (hsteps.invariant (fun U => U.Consistent ∧ U.files.Numbered ∧ U.Accounted id)
    (fun d hmem _ _ hstep hU => ?_) ⟨hc, hn, h⟩).2.2
  refine ⟨hstep.consistent hU.1, hstep.numbered hU.2.1, hstep.accounted hU.1 hU.2.1 ?_ ?_ hU.2.2⟩
  · rintro s page rfl
    exact ((hd _ hmem).1 s page rfl).elim
  · rintro own rfl
    exact ((hd _ hmem).2 own rfl).elim

/-! ## Requests -/

/-- Whether a request names only backings that its caller holds a reference to: pages are set up
with backings that are open, and a reference that is dropped is not one of those that pages hold. -/
def Op.Entitled (m : Machine) : Op → Prop
  | alloc _ _ _ (.file segment) _ => 0 < m.files.refs segment.backing
  | release id => (m.view [] []).references id < m.files.refs id
  | _ => True

namespace Machine

variable {m m' : Machine} {visit : Visit} {op : Op} {requests : List (Visit × Op)}

open MachineM

/-- A sound machine whose backings count all references to them. -/
structure Accounted (m : Machine) : Prop where
  sound : m.Sound
  numbered : m.files.Numbered
  accounted : ∀ id, (m.view [] []).Accounted id

theorem Counted.accounted (h : m.Counted) : m.Accounted :=
  ⟨h.sound, h.referenced.orderly.toNumbered, fun id => ⟨[], h.referenced.refs_eq id⟩⟩

theorem Accounted.steps {deeds : Set Deed} (h : m.Accounted) (hsound : m'.Sound)
    (hsteps : Steps deeds (m.view [] []) (m'.view [] []))
    (hd : ∀ d ∈ deeds, (∀ s page, d ≠ .adopt s page) ∧ ∀ own, d ≠ .release own) :
    m'.Accounted :=
  ⟨hsound, hsteps.invariant (fun V => V.files.Numbered)
    (fun _ _ _ _ hstep hn => hstep.numbered hn) h.numbered,
    fun id => hsteps.accounted h.sound.consistent h.numbered hd (h.accounted id)⟩

theorem Accounted.step (h : m.Accounted) (hentitled : op.Entitled m)
    (hstep : m.step? visit op = some m') : m'.Accounted := by
  have hfinished := Op.finished h.sound hstep
  have hplain : (∀ s va writable segment target, op ≠ .alloc s va writable (.file segment) target) →
      (∀ id, op ≠ .release id) → m'.Accounted := by
    intro halloc hrelease
    refine h.steps hfinished.sound hfinished.steps fun d hd => ⟨?_, ?_⟩
    · rintro s page rfl
      obtain ⟨va, writable, segment, target, rfl, -⟩ := Op.belongsTo_of_deeds hd
      exact halloc _ _ _ _ _ rfl
    · rintro own rfl
      exact hrelease own (Op.belongsTo_of_deeds hd)
  cases op with
  | alloc s va writable loader target =>
      cases loader with
      | zero => exact hplain (by simp) (by simp)
      | file segment =>
          have hlive : False → (m.view [] []).Live s := False.elim
          have hends : Ends False ((Op.alloc s va writable (.file segment) target).execBy visit) m
              (fun _ m' => m'.Sound → m'.Accounted) fun _ m' => m'.Sound → m'.Accounted := by
            refine Ends.reply ((alloc_ends hlive va writable (.file segment) target).mono ?_ ?_)
              fun _ => Reply.done
            · rintro - m₁ ⟨touch, htouch, hto, hfresh, hin, hview⟩ hsound
              have hadopt : Step (.adopt s (.untouched va.page writable touch)) (m.view [] [])
                  (m₁.view [] []) := by
                rw [hview]
                exact Step.adopt hto hfresh hin
              refine ⟨hsound, hadopt.numbered h.numbered, fun id => hadopt.accounted
                h.sound.consistent h.numbered ?_ (fun own hd => by cases hd) (h.accounted id)⟩
              rintro t page hd hbacking
              obtain ⟨-, rfl⟩ := Deed.adopt.inj hd
              obtain ⟨other, hsegment, rfl⟩ := Option.map_eq_some_iff.mp hbacking
              change touch.segment? = some other at hsegment
              obtain rfl : segment = other :=
                Option.some.inj ((FirstTouch.segment?_make htouch).symm.trans hsegment)
              exact hentitled
            · rintro e m₁ ⟨-, rfl⟩ -
              exact h
          exact hends.of_step? hstep hfinished.sound
  | release id =>
      obtain rfl : { m with files := m.files.release id } = m' := Option.some.inj hstep
      have hrelease := Step.release (V := m.view [] []) id
      exact ⟨hfinished.sound, hrelease.numbered h.numbered, fun other => hrelease.accounted
        h.sound.consistent h.numbered (fun s page hd => by cases hd)
        (fun own hd => Deed.release.inj hd ▸ hentitled) (h.accounted other)⟩
  | _ => exact hplain (by simp) (by simp)

end Machine

end DemandPaging
