import DemandPaging.Proofs.View
import DemandPaging.Proofs.FramePool.Supply
import DemandPaging.Proofs.Swap.Supply
import DemandPaging.Proofs.PageTable.Mapping

/-! # Consistent views

The records of a machine agree with its pages: the frame table lists exactly the resident pages, a
page is mapped exactly to the frame that it occupies, the swap area has marked exactly the slots
that pages hold, and the pool has handed out exactly the frames that are occupied or held.
-/

namespace DemandPaging

namespace Page

/-- A page that was never touched has no frame, and an anonymous page has either a frame or a
slot. -/
def Placed (page : Page) : Prop :=
  match page.kind with
  | .uninit _ => page.frame = none
  | .anon slot => page.frame = none ↔ slot ≠ none
  | .file _ => True

/-- A page is registered under its own number and mapped to the frame that it occupies. -/
structure Settled (page : Page) (vpn : VirtPage) (entry : Option PageTable.Entry) : Prop where
  vpn_eq : page.vpn = vpn
  in_user : vpn.number < userPages
  frame_eq : page.frame = entry.map PageTable.Entry.frame
  mapped : ∀ e, entry = some e → e.isValid = true ∧ e.isWritable = page.writable
  placed : page.Placed

theorem Settled.of_none {page : Page} {vpn : VirtPage} {entry : Option PageTable.Entry}
    (h : page.Settled vpn entry) (hf : page.frame = none) : entry = none := by
  simpa [hf] using h.frame_eq.symm

theorem Settled.of_some {page : Page} {vpn : VirtPage} {entry : Option PageTable.Entry}
    {frame : Frame} (h : page.Settled vpn entry) (hf : page.frame = some frame) :
    ∃ e, entry = some e ∧ e.frame = frame := by
  have := h.frame_eq
  rw [hf] at this
  exact Option.map_eq_some_iff.mp this.symm

theorem Settled.same {page : Page} {vpn : VirtPage} {entry other : PageTable.Entry}
    (h : page.Settled vpn (some entry)) (hs : entry.SameMapping other) :
    page.Settled vpn (some other) := by
  obtain ⟨hvalid, hwritable⟩ := h.mapped entry rfl
  refine ⟨h.vpn_eq, h.in_user, ?_, ?_, h.placed⟩
  · rw [h.frame_eq, Option.map_some, Option.map_some, hs.frame_eq]
  · rintro e he
    obtain rfl := Option.some.inj he
    exact ⟨hs.valid_eq.trans hvalid, hs.writable_eq.trans hwritable⟩

end Page

/-! ## Owners -/

/-- Every item in a list has one owner, and nobody owns an item that is not listed. -/
structure Owners (own : SpaceId → VirtPage → Option ℕ) (items : List ℕ) : Prop where
  mem_iff : ∀ item, item ∈ items ↔ ∃ s vpn, own s vpn = some item
  inj : ∀ {item s vpn t u}, own s vpn = some item → own t u = some item → s = t ∧ vpn = u

namespace Owners

variable {own : SpaceId → VirtPage → Option ℕ} {items : List ℕ} {s : SpaceId} {vpn : VirtPage}
  {item : ℕ}

theorem perm {other : List ℕ} (h : Owners own items) (hp : items.Perm other) : Owners own other :=
  ⟨fun i => by rw [← h.mem_iff, hp.mem_iff], h.inj⟩

theorem mem (h : Owners own items) (hown : own s vpn = some item) : item ∈ items :=
  (h.mem_iff item).mpr ⟨s, vpn, hown⟩

theorem insert (h : Owners own items) (hfree : own s vpn = none) (hnew : item ∉ items) :
    Owners (setAt own s vpn (some item)) (item :: items) := by
  refine ⟨fun i => ?_, fun {i t u t' u'} ht ht' => ?_⟩
  · rw [List.mem_cons, h.mem_iff]
    constructor
    · rintro (rfl | ⟨t, u, ht⟩)
      · exact ⟨s, vpn, setAt_same⟩
      · refine ⟨t, u, ?_⟩
        rw [setAt_of_ne, ht]
        rintro ⟨rfl, rfl⟩
        simp [hfree] at ht
    · rintro ⟨t, u, ht⟩
      by_cases htu : s = t ∧ vpn = u
      · obtain ⟨rfl, rfl⟩ := htu
        rw [setAt_same] at ht
        exact .inl (Option.some.inj ht).symm
      · rw [setAt_of_ne htu] at ht
        exact .inr ⟨t, u, ht⟩
  · by_cases htu : s = t ∧ vpn = u
    · by_cases htu' : s = t' ∧ vpn = u'
      · exact ⟨htu.1.symm.trans htu'.1, htu.2.symm.trans htu'.2⟩
      · obtain ⟨rfl, rfl⟩ := htu
        rw [setAt_same] at ht
        rw [setAt_of_ne htu', ← ht] at ht'
        exact absurd (h.mem ht') hnew
    · rw [setAt_of_ne htu] at ht
      by_cases htu' : s = t' ∧ vpn = u'
      · obtain ⟨rfl, rfl⟩ := htu'
        rw [setAt_same] at ht'
        rw [← ht'] at ht
        exact absurd (h.mem ht) hnew
      · rw [setAt_of_ne htu'] at ht'
        exact h.inj ht ht'

theorem erase (h : Owners own (item :: items)) (hnodup : (item :: items).Nodup)
    (hown : own s vpn = some item) : Owners (setAt own s vpn none) items := by
  have hnot : item ∉ items := (List.nodup_cons.mp hnodup).1
  refine ⟨fun i => ?_, fun {i t u t' u'} ht ht' => ?_⟩
  · constructor
    · intro hi
      obtain ⟨t, u, ht⟩ := (h.mem_iff i).mp (by simp [hi])
      refine ⟨t, u, ?_⟩
      rw [setAt_of_ne, ht]
      rintro ⟨rfl, rfl⟩
      rw [hown] at ht
      exact hnot (Option.some.inj ht ▸ hi)
    · rintro ⟨t, u, ht⟩
      by_cases htu : s = t ∧ vpn = u
      · obtain ⟨rfl, rfl⟩ := htu
        simp at ht
      · rw [setAt_of_ne htu] at ht
        rcases List.mem_cons.mp (h.mem ht) with rfl | hi
        · exact absurd (h.inj hown ht) htu
        · exact hi
  · by_cases htu : s = t ∧ vpn = u
    · obtain ⟨rfl, rfl⟩ := htu
      simp at ht
    · by_cases htu' : s = t' ∧ vpn = u'
      · obtain ⟨rfl, rfl⟩ := htu'
        simp at ht'
      · rw [setAt_of_ne htu] at ht
        rw [setAt_of_ne htu'] at ht'
        exact h.inj ht ht'

/-- There are as many owners as items. -/
theorem encard_eq (h : Owners own items) (hnodup : items.Nodup) :
    {x : SpaceId × VirtPage | own x.1 x.2 ≠ none}.encard = items.length := by
  classical
  have himage : (fun x : SpaceId × VirtPage => (own x.1 x.2).getD 0) ''
      {x | own x.1 x.2 ≠ none} = ↑items.toFinset := by
    ext item
    simp only [Set.mem_image, Set.mem_ofPred_eq, List.coe_toFinset, h.mem_iff, Prod.exists]
    constructor
    · rintro ⟨s, vpn, hne, rfl⟩
      obtain ⟨i, hi⟩ := Option.ne_none_iff_exists'.mp hne
      exact ⟨s, vpn, by simp [hi]⟩
    · rintro ⟨s, vpn, hown⟩
      exact ⟨s, vpn, by simp [hown], by simp [hown]⟩
  have hinj : Set.InjOn (fun x : SpaceId × VirtPage => (own x.1 x.2).getD 0)
      {x | own x.1 x.2 ≠ none} := by
    rintro ⟨s, vpn⟩ hx ⟨t, u⟩ hy he
    obtain ⟨i, hi⟩ := Option.ne_none_iff_exists'.mp hx
    obtain ⟨j, hj⟩ := Option.ne_none_iff_exists'.mp hy
    simp only at hi hj he
    rw [hi, hj] at he
    obtain rfl : i = j := he
    obtain ⟨rfl, rfl⟩ := h.inj hi hj
    rfl
  rw [← Set.InjOn.encard_image hinj, himage, Set.encard_coe_eq_coe_finsetCard,
    List.toFinset_card_of_nodup hnodup]

end Owners

/-! ## Listings -/

/-- A frame table lists exactly the pages that occupy frames. -/
def Listing (entries : List FrameEntry) (own : SpaceId → VirtPage → Option Frame) : Prop :=
  ∀ e, e ∈ entries ↔ own e.space e.vpn = some e.frame

namespace Listing

variable {entries rest : List FrameEntry} {own : SpaceId → VirtPage → Option Frame} {e : FrameEntry}
  {s : SpaceId} {vpn : VirtPage} {frame : Frame}

theorem inj (h : Listing entries own) (hnodup : (entries.map FrameEntry.frame).Nodup)
    {t : SpaceId} {u : VirtPage} (hs : own s vpn = some frame) (ht : own t u = some frame) :
    s = t ∧ vpn = u := by
  have hms : ⟨frame, s, vpn⟩ ∈ entries := (h ⟨frame, s, vpn⟩).mpr hs
  have hmt : ⟨frame, t, u⟩ ∈ entries := (h ⟨frame, t, u⟩).mpr ht
  have he := List.inj_on_of_nodup_map hnodup hms hmt rfl
  simp only [FrameEntry.mk.injEq, true_and] at he
  exact he

theorem mem_frames (h : Listing entries own) (hs : own s vpn = some frame) :
    frame ∈ entries.map FrameEntry.frame :=
  List.mem_map.mpr ⟨⟨frame, s, vpn⟩, (h ⟨frame, s, vpn⟩).mpr hs, rfl⟩

theorem push (h : Listing entries own) (hfree : own s vpn = none) :
    Listing (entries ++ [⟨frame, s, vpn⟩]) (setAt own s vpn (some frame)) := by
  rintro ⟨f, t, u⟩
  simp only [List.mem_append, List.mem_singleton, FrameEntry.mk.injEq]
  rw [h ⟨f, t, u⟩]
  by_cases htu : s = t ∧ vpn = u
  · obtain ⟨rfl, rfl⟩ := htu
    simp [hfree, eq_comm]
  · rw [setAt_of_ne htu]
    constructor
    · rintro (hown | ⟨-, rfl, rfl⟩)
      · exact hown
      · exact absurd ⟨rfl, rfl⟩ htu
    · exact .inl

theorem erase (h : Listing entries own) (hp : entries.Perm (e :: rest)) (hnodup : entries.Nodup) :
    Listing rest (setAt own e.space e.vpn none) := by
  have hcons := hp.nodup_iff.mp hnodup
  have hown : own e.space e.vpn = some e.frame := (h e).mp (hp.mem_iff.mpr (by simp))
  rintro ⟨f, t, u⟩
  by_cases htu : e.space = t ∧ e.vpn = u
  · obtain ⟨rfl, rfl⟩ := htu
    simp only [setAt_same, reduceCtorEq, iff_false]
    intro hm
    have hf := (h ⟨f, e.space, e.vpn⟩).mp (hp.mem_iff.mpr (by simp [hm]))
    simp only [hown, Option.some.injEq] at hf
    subst hf
    exact (List.nodup_cons.mp hcons).1 hm
  · simp only [setAt_of_ne htu]
    rw [← h ⟨f, t, u⟩, hp.mem_iff, List.mem_cons]
    constructor
    · exact .inr
    · rintro (rfl | hm)
      · exact absurd ⟨rfl, rfl⟩ htu
      · exact hm

end Listing

/-- The records of a machine agree with its pages. -/
structure View.Consistent (V : View) : Prop where
  settled : ∀ {s vpn page}, V.page s vpn = some page → page.Settled vpn (V.entry s vpn)
  unmapped : ∀ {s vpn}, V.page s vpn = none → V.entry s vpn = none
  listed : Listing V.frames.entries V.frame
  supplied : V.pool.Supplies (V.frames.entries.map FrameEntry.frame ++ V.held)
  bounded : V.pool.total ≤ PageTable.Entry.frameBound
  slotted : ∃ slots, V.swap.Supplies slots ∧ Owners V.slot slots

namespace View.Consistent

variable {V : View} {s : SpaceId} {vpn : VirtPage} {page : Page} {frame : Frame} {slot : Slot}

theorem frames_nodup (h : V.Consistent) : (V.frames.entries.map FrameEntry.frame).Nodup :=
  (List.nodup_append.mp h.supplied.nodup).1

theorem entries_nodup (h : V.Consistent) : V.frames.entries.Nodup :=
  h.frames_nodup.of_map

theorem frame_lt (h : V.Consistent) (hp : V.page s vpn = some page)
    (hf : page.frame = some frame) : frame < V.pool.total := by
  have hown : V.frame s vpn = some frame := by simp [View.frame, hp, hf]
  exact h.supplied.lt_total frame (List.mem_append_left _ (h.listed.mem_frames hown))

theorem held_lt (h : V.Consistent) (hf : frame ∈ V.held) : frame < V.pool.total :=
  h.supplied.lt_total frame (List.mem_append_right _ hf)

theorem ne_held (h : V.Consistent) (hp : V.page s vpn = some page)
    (hf : page.frame = some frame) {other : Frame} (ho : other ∈ V.held) : frame ≠ other := by
  have hown : V.frame s vpn = some frame := by simp [View.frame, hp, hf]
  exact fun he => (List.nodup_append.mp h.supplied.nodup).2.2 frame (h.listed.mem_frames hown)
    other ho he

theorem mapped (h : V.Consistent) (hp : V.page s vpn = some page)
    (hf : page.frame = some frame) :
    ∃ e, V.entry s vpn = some e ∧ e.frame = frame ∧ e.isValid = true ∧
      e.isWritable = page.writable := by
  obtain ⟨e, he, hframe⟩ := (h.settled hp).of_some hf
  obtain ⟨hvalid, hwritable⟩ := (h.settled hp).mapped e he
  exact ⟨e, he, hframe, hvalid, hwritable⟩

theorem exists_page (h : V.Consistent) {e : PageTable.Entry} (he : V.entry s vpn = some e) :
    ∃ page, V.page s vpn = some page ∧ page.frame = some e.frame := by
  cases hp : V.page s vpn with
  | none => simp [h.unmapped hp] at he
  | some page =>
      have := (h.settled hp).frame_eq
      rw [he] at this
      exact ⟨page, rfl, this⟩

end View.Consistent

end DemandPaging
