import DemandPaging.Proofs.Sessions
import DemandPaging.Proofs.Swap.Supply

/-! # Slots by first fit

A swap area is a store of pages by slot. A request for a slot takes the lowest one that is free and
is refused only when none is; a live slot shows the page that it was given last, whatever happens
to the others.
-/

namespace DemandPaging

open SwapArea (sectorOf)

namespace SwapArea

/-! ## Requests -/

/-- A request to a swap area. -/
inductive Request where
  | alloc
  | release (slot : Slot)
  | write (slot : Slot) (page : PageBytes)
  | read (slot : Slot)

/-- The answer to a request. -/
inductive Answer where
  | done
  | slot (found : Option Slot)
  | page (page : PageBytes)

def serve (area : SwapArea) : Request → Except Panic (Answer × SwapArea)
  | .alloc =>
    match area.alloc? with
    | none => .ok (.slot none, area)
    | some (slot, area) => .ok (.slot (some slot), area)
  | .release slot => (area.release slot).map fun area => (.done, area)
  | .write slot page => (area.write slot page).map fun area => (.done, area)
  | .read slot => (area.read slot).map fun page => (.page page, area)

end SwapArea

/-! ## Slots without a disk -/

/-- Some numbered slots: those that are live, and the page that each was given last. -/
structure SlotStore where
  count : ℕ
  live : List Slot
  page : Slot → PageBytes

namespace SlotStore

/-- The store on a disk: no slot is live, and a slot that was given no page shows the disk. -/
def onDisk (disk : Disk) : SlotStore where
  count := disk.size / sectorsPerPage
  live := []
  page slot := .ofSectors <| Vector.ofFn fun i =>
    (disk.sectors[sectorOf slot i]?).getD (Vector.replicate sectorSize 0)

/-- The lowest slot that is not live. -/
def lowest? (store : SlotStore) : Option Slot :=
  (List.range store.count).find? (· ∉ store.live)

/-- The panic of a request for a slot that is not live. Slots are recorded in words of 64, and a
slot beyond the last word is out of bounds. -/
def refusal (store : SlotStore) (slot : Slot) (panic : Panic) : Panic :=
  if slot / 64 < (store.count + 63) / 64 then panic else .outOfBounds

def serve (store : SlotStore) : SwapArea.Request → Except Panic (SwapArea.Answer × SlotStore)
  | .alloc =>
    match store.lowest? with
    | none => .ok (.slot none, store)
    | some slot => .ok (.slot (some slot), { store with live := slot :: store.live })
  | .release slot =>
    if slot ∈ store.live then .ok (.done, { store with live := store.live.erase slot })
    else .error (store.refusal slot (.doubleFree slot))
  | .write slot page =>
    if slot ∈ store.live then
      .ok (.done, { store with page := Function.update store.page slot page })
    else .error (store.refusal slot .assertionFailed)
  | .read slot =>
    if slot ∈ store.live then .ok (.page (store.page slot), store)
    else .error (store.refusal slot .assertionFailed)

theorem lowest?_eq_some_iff {store : SlotStore} {slot : Slot} :
    store.lowest? = some slot ↔
      slot < store.count ∧ slot ∉ store.live ∧ ∀ i < slot, i ∈ store.live := by
  simp [lowest?, List.find?_range_eq_some, and_left_comm]

theorem lowest?_eq_none_iff {store : SlotStore} :
    store.lowest? = none ↔ ∀ slot < store.count, slot ∈ store.live := by
  simp [lowest?]

end SlotStore

/-! ## The area shows the store -/

namespace SwapArea

/-- The area records the live slots of the store, and every slot has the store's page. -/
structure Shows (sectors : ℕ) (area : SwapArea) (store : SlotStore) : Prop where
  supplies : area.Supplies store.live
  size_eq : area.disk.size = sectors
  count_eq : store.count = sectors / sectorsPerPage
  words_eq : area.bitmap.words.size = (store.count + 63) / 64
  page_eq : ∀ slot < store.count, ∀ i,
    area.disk.read (sectorOf slot i) = .ok ((store.page slot).sector i)

variable {sectors : ℕ} {area changed : SwapArea} {store : SlotStore} {slot : Slot}

theorem shows_onDisk (disk : Disk) : (onDisk disk).Shows disk.size (.onDisk disk) := by
  refine ⟨supplies_onDisk disk, rfl, rfl, Array.size_replicate, fun slot hlt i => ?_⟩
  have hcount : slot < (onDisk disk).slotCount := hlt
  have hsector : sectorOf slot i < disk.sectors.size := sectorOf_lt hcount i
  have hget := Array.getElem?_eq_getElem hsector
  simp only [SlotStore.onDisk, PageBytes.sector_ofSectors, Fin.getElem_fin, Vector.getElem_ofFn]
  change disk.read (sectorOf slot i) = _
  simp only [Disk.read, hget, Fin.eta, Option.getD_some]

theorem words_of_alloc? (h : area.alloc? = some (slot, changed)) :
    changed.bitmap.words.size = area.bitmap.words.size := by
  unfold alloc? at h
  split at h
  · cases h
  · split at h
    · cases h
    · obtain ⟨rfl, rfl⟩ := Prod.mk.inj (Option.some.inj h)
      exact Array.size_modify

theorem words_of_release (h : area.release slot = .ok changed) :
    changed.bitmap.words.size = area.bitmap.words.size := by
  simp only [release, Bind.bind, Except.bind] at h
  split at h
  · cases h
  · split at h
    · split at h
      · cases h
      · cases h
        exact Array.size_modify
    · cases h

namespace Shows

variable (h : area.Shows sectors store)

include h

theorem slotCount_eq : area.slotCount = store.count := by
  rw [slotCount, h.size_eq, h.count_eq]

theorem live_lt (hs : slot ∈ store.live) : slot < store.count :=
  h.slotCount_eq ▸ h.supplies.lt_count slot hs

theorem alloc?_fst : area.alloc?.map Prod.fst = store.lowest? := by
  cases halloc : area.alloc? with
  | none =>
      refine (SlotStore.lowest?_eq_none_iff.mpr fun slot hlt => ?_).symm
      exact h.supplies.mem_of_alloc?_eq_none halloc (h.slotCount_eq ▸ hlt)
  | some pair =>
      obtain ⟨slot, changed⟩ := pair
      obtain ⟨hlt, hnot, hbelow, -⟩ := h.supplies.alloc? halloc
      exact (SlotStore.lowest?_eq_some_iff.mpr ⟨h.slotCount_eq ▸ hlt, hnot, hbelow⟩).symm

theorem alloc (halloc : area.alloc? = some (slot, changed)) :
    changed.Shows sectors { store with live := slot :: store.live } := by
  obtain ⟨-, -, -, hsupplies, hdisk, -⟩ := h.supplies.alloc? halloc
  exact ⟨hsupplies, hdisk ▸ h.size_eq, h.count_eq, (words_of_alloc? halloc).trans h.words_eq,
    by simpa only [hdisk] using h.page_eq⟩

theorem release (hs : slot ∈ store.live) :
    ∃ changed, area.release slot = .ok changed ∧
      changed.Shows sectors { store with live := store.live.erase slot } := by
  obtain ⟨changed, hrelease, hsupplies, hdisk, -⟩ :=
    (h.supplies.perm (List.perm_cons_erase hs)).release
  exact ⟨changed, hrelease, hsupplies, hdisk ▸ h.size_eq, h.count_eq,
    (words_of_release hrelease).trans h.words_eq, by simpa only [hdisk] using h.page_eq⟩

theorem write (hs : slot ∈ store.live) (page : PageBytes) :
    ∃ changed, area.write slot page = .ok changed ∧
      changed.Shows sectors { store with page := Function.update store.page slot page } := by
  have hset := (h.supplies.test_iff slot).mpr hs
  have hlt := h.supplies.lt_count slot hs
  obtain ⟨disk, hwrite, hsize, hin, hout⟩ := write_sectors hset hlt page
  have hcount : SwapArea.slotCount { area with disk } = area.slotCount := by
    simp only [slotCount, hsize]
  refine ⟨{ area with disk }, hwrite, ?_, hsize.trans h.size_eq, h.count_eq, h.words_eq,
    fun other hother i => ?_⟩
  · exact ⟨h.supplies.nodup, by simpa only [hcount] using h.supplies.lt_count, h.supplies.used,
      h.supplies.test_iff, by simpa only [hcount] using h.supplies.recorded⟩
  · by_cases ho : other = slot
    · simp only [ho, Function.update_self]
      exact hin i
    · simp only [Function.update_of_ne ho]
      exact (hout other ho i).trans (h.page_eq other hother i)

theorem read (hs : slot ∈ store.live) : area.read slot = .ok (store.page slot) :=
  read_of_sectors ((h.supplies.test_iff slot).mpr hs) (h.page_eq slot (h.live_lt hs))

theorem test?_of_not_live (hs : slot ∉ store.live) :
    area.bitmap.test? slot = if slot / 64 < (store.count + 63) / 64 then some false else none := by
  have hclear : area.bitmap.test? slot ≠ some true := fun hset =>
    hs ((h.supplies.test_iff slot).mp hset)
  rw [← h.words_eq]
  split
  · next hlt =>
      have hget := Array.getElem?_eq_getElem hlt
      simp only [Swap.Bitmap.test?, hget, Option.map_some, ne_eq, Option.some.injEq,
        Bool.not_eq_true] at hclear ⊢
      exact hclear
  · next hge =>
      rw [Swap.Bitmap.test?, Array.getElem?_eq_none (Nat.le_of_not_lt hge)]
      rfl

theorem isUsed_of_not_live (hs : slot ∉ store.live) : area.isUsed slot =
    if slot / 64 < (store.count + 63) / 64 then .ok false else .error .outOfBounds := by
  by_cases hlt : slot / 64 < (store.count + 63) / 64
  · rw [isUsed, h.test?_of_not_live hs, if_pos hlt, if_pos hlt]
  · rw [isUsed, h.test?_of_not_live hs, if_neg hlt, if_neg hlt]

theorem release_of_not_live (hs : slot ∉ store.live) :
    area.release slot = .error (store.refusal slot (.doubleFree slot)) := by
  rw [SwapArea.release, h.isUsed_of_not_live hs, SlotStore.refusal]
  split <;> rfl

theorem requireUsed_of_not_live (hs : slot ∉ store.live) :
    area.requireUsed slot = .error (store.refusal slot .assertionFailed) := by
  rw [requireUsed, h.isUsed_of_not_live hs, SlotStore.refusal]
  split <;> rfl

/-- The area and the store end every request alike. -/
theorem serve (request : Request) :
    Session.Alike (Shows sectors) (area.serve request) (store.serve request) := by
  cases request with
  | alloc =>
      have hfirst := h.alloc?_fst
      simp only [SwapArea.serve, SlotStore.serve]
      cases halloc : area.alloc? with
      | none =>
          rw [halloc] at hfirst
          rw [← hfirst]
          exact .answered _ h
      | some pair =>
          obtain ⟨slot, changed⟩ := pair
          rw [halloc] at hfirst
          rw [← hfirst]
          exact .answered _ (h.alloc halloc)
  | release slot =>
      simp only [SwapArea.serve, SlotStore.serve]
      by_cases hs : slot ∈ store.live
      · obtain ⟨changed, hrelease, hshows⟩ := h.release hs
        rw [hrelease, if_pos hs]
        exact .answered _ hshows
      · rw [h.release_of_not_live hs, if_neg hs]
        exact .panicked _
  | write slot page =>
      simp only [SwapArea.serve, SlotStore.serve]
      by_cases hs : slot ∈ store.live
      · obtain ⟨changed, hwrite, hshows⟩ := h.write hs page
        rw [hwrite, if_pos hs]
        exact .answered _ hshows
      · rw [SwapArea.write, h.requireUsed_of_not_live hs, if_neg hs]
        exact .panicked _
  | read slot =>
      simp only [SwapArea.serve, SlotStore.serve]
      by_cases hs : slot ∈ store.live
      · rw [h.read hs, if_pos hs]
        exact .answered _ h
      · rw [SwapArea.read, h.requireUsed_of_not_live hs, if_neg hs]
        exact .panicked _

end Shows

/-! ## What the area keeps -/

/-- The area of a disk after some requests, told by the slots that are live and their pages. -/
structure Keeps (sectors : ℕ) (area : SwapArea) (store : SlotStore) : Prop where
  size_eq : area.disk.size = sectors
  count_eq : store.count = sectors / sectorsPerPage
  slotCount_eq : area.slotCount = store.count
  nodup : store.live.Nodup
  live_lt : ∀ slot ∈ store.live, slot < store.count
  used_eq : area.used = store.live.length
  used_le : area.used ≤ store.count
  /-- The record marks the live slots, and so nothing beyond the last slot. -/
  marked_iff : ∀ slot, area.bitmap.test? slot = some true ↔ slot ∈ store.live
  /-- The next slot that is taken is the lowest one that is not live. -/
  lowest : ∀ slot changed, area.alloc? = some (slot, changed) →
    slot < store.count ∧ slot ∉ store.live ∧ ∀ i < slot, i ∈ store.live
  full_iff : area.alloc? = none ↔ ∀ slot < store.count, slot ∈ store.live
  release_panics_iff : ∀ slot, (∃ panic, area.release slot = .error panic) ↔ slot ∉ store.live
  read_eq : ∀ slot ∈ store.live, area.read slot = .ok (store.page slot)
  /-- What is written to a live slot is written to the disk, and shows in no other slot. -/
  write_eq : ∀ slot ∈ store.live, ∀ page, ∃ written, area.write slot page = .ok written ∧
    ∀ other, written.read other = if other = slot then .ok page else area.read other
  sector_lt : ∀ slot ∈ store.live, ∀ i, sectorOf slot i < sectors

theorem Shows.keeps (h : area.Shows sectors store) : area.Keeps sectors store where
  size_eq := h.size_eq
  count_eq := h.count_eq
  slotCount_eq := h.slotCount_eq
  nodup := h.supplies.nodup
  live_lt slot hs := h.live_lt hs
  used_eq := h.supplies.used
  used_le := by
    have hsub : store.live ⊆ List.range store.count := fun slot hs =>
      List.mem_range.mpr (h.live_lt hs)
    have hle := (List.subperm_of_subset h.supplies.nodup hsub).length_le
    rwa [List.length_range, ← h.supplies.used] at hle
  marked_iff := h.supplies.test_iff
  lowest slot changed halloc := by
    have hfirst := h.alloc?_fst
    rw [halloc] at hfirst
    exact SlotStore.lowest?_eq_some_iff.mp hfirst.symm
  full_iff := by
    rw [← SlotStore.lowest?_eq_none_iff, ← h.alloc?_fst, Option.map_eq_none_iff]
  release_panics_iff slot := by
    refine ⟨?_, fun hs => ⟨_, h.release_of_not_live hs⟩⟩
    rintro ⟨panic, hpanic⟩ hs
    obtain ⟨changed, hrelease, -⟩ := h.release hs
    cases hpanic.symm.trans hrelease
  read_eq slot hs := h.read hs
  write_eq slot hs page := by
    obtain ⟨written, hwrite, -, -, hread⟩ := h.supplies.write hs page
    exact ⟨written, hwrite, hread⟩
  sector_lt slot hs i := h.size_eq ▸ sectorOf_lt (h.supplies.lt_count slot hs) i

/-- Whatever is requested of the area of a disk, it answers as slots by first fit do, and a request
that panics is one for a slot that is not live. -/
theorem firstFit_of_requests (disk : Disk) (requests : List Request) :
    let session := Session.run serve (onDisk disk) requests
    let slots := Session.run SlotStore.serve (.onDisk disk) requests
    session.answers = slots.answers ∧ session.state.Keeps disk.size slots.state := by
  intro session slots
  obtain ⟨hanswers, hshows⟩ :=
    Session.answers_eq_of_alike (fun h => h.serve) requests (shows_onDisk disk)
  exact ⟨hanswers, hshows.keeps⟩

end SwapArea

end DemandPaging
