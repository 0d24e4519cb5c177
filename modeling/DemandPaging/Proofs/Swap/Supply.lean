import DemandPaging.Swap.Area
import Mathlib

/-! # What a swap area has handed out

The record of a swap area marks exactly the slots that were handed out. A request takes the first
slot that is free, and a slot keeps the page that was written to it whatever happens to others.
-/

namespace DemandPaging

/-! ## Sectors of a slot -/

namespace Disk

theorem write_of_lt {disk : Disk} {sector : ℕ} (h : sector < disk.size) (contents : Sector) :
    ∃ written, disk.write sector contents = .ok written ∧ written.size = disk.size :=
  ⟨⟨disk.sectors.setIfInBounds sector contents⟩, if_pos h, by simp [size]⟩

theorem read_of_lt {disk : Disk} {sector : ℕ} (h : sector < disk.size) :
    ∃ contents, disk.read sector = .ok contents := by
  have hlt : sector < disk.sectors.size := h
  have hget : disk.sectors[sector]? = some disk.sectors[sector] := Array.getElem?_eq_getElem hlt
  exact ⟨disk.sectors[sector], by simp only [read, hget]⟩

end Disk

namespace SwapArea

variable {area changed : SwapArea} {out : List Slot} {slot : Slot}

theorem sectorOf_inj {slot other : Slot} {i j : Fin sectorsPerPage}
    (h : sectorOf slot i = sectorOf other j) : slot = other ∧ i = j := by
  have hi := i.isLt
  have hj := j.isLt
  simp only [sectorOf, sectorsPerPage] at h hi hj
  exact ⟨by lia, Fin.ext (by lia)⟩

theorem sectorOf_lt (h : slot < area.slotCount) (i : Fin sectorsPerPage) :
    sectorOf slot i < area.disk.size := by
  have hi := i.isLt
  simp only [slotCount, sectorOf, sectorsPerPage] at h hi ⊢
  lia

/-- Writing the listed sectors of a page to a slot changes those sectors alone. -/
theorem foldlM_write (slot : Slot) (page : PageBytes) (indices : List (Fin sectorsPerPage))
    (disk : Disk) (h : ∀ i, sectorOf slot i < disk.size) :
    ∃ written, indices.foldlM
        (fun disk i => Disk.write disk (sectorOf slot i) (page.sector i)) disk = .ok written ∧
      written.size = disk.size ∧
      (∀ i ∈ indices, written.read (sectorOf slot i) = .ok (page.sector i)) ∧
      ∀ sector, (∀ i ∈ indices, sector ≠ sectorOf slot i) →
        written.read sector = disk.read sector := by
  induction indices generalizing disk with
  | nil => exact ⟨disk, rfl, rfl, by simp, by simp⟩
  | cons i indices ih =>
      obtain ⟨first, hfirst, hsize⟩ := Disk.write_of_lt (h i) (page.sector i)
      obtain ⟨written, hwritten, hsize', hin, hout⟩ := ih first (by simpa only [hsize] using h)
      have hread := Disk.read_of_write hfirst
      refine ⟨written, ?_, hsize'.trans hsize, ?_, ?_⟩
      · rw [List.foldlM_cons, hfirst]
        exact hwritten
      · intro j hj
        by_cases hm : j ∈ indices
        · exact hin j hm
        · have hji : j = i := by simpa [hm] using hj
          have hother : ∀ k ∈ indices, sectorOf slot j ≠ sectorOf slot k := by
            rintro k hk he
            obtain ⟨-, rfl⟩ := sectorOf_inj he
            exact hm hk
          rw [hout _ hother, hread, hji, if_pos rfl]
      · intro sector hs
        rw [hout sector fun j hj => hs j (by simp [hj]), hread, if_neg (hs i (by simp))]

theorem read_congr (hused : changed.bitmap.test? slot = area.bitmap.test? slot)
    (hdisk : ∀ i, changed.disk.read (sectorOf slot i) = area.disk.read (sectorOf slot i)) :
    changed.read slot = area.read slot := by
  have hreads : (fun i => changed.disk.read (sectorOf slot i)) =
      fun i => area.disk.read (sectorOf slot i) := funext hdisk
  simp only [read, requireUsed, isUsed, hused, hreads]

theorem read_of_sectors {page : PageBytes} (hused : area.bitmap.test? slot = some true)
    (hdisk : ∀ i, area.disk.read (sectorOf slot i) = .ok (page.sector i)) :
    area.read slot = .ok page := by
  have hreads : (fun i => area.disk.read (sectorOf slot i)) =
      fun i => (pure (page.sector i) : Except Panic Sector) := funext hdisk
  have hsectors : (Vector.finRange sectorsPerPage).map page.sector = Vector.ofFn page.sector := by
    ext i hi
    simp
  simp only [read, requireUsed, isUsed, hused, hreads, Vector.mapM_pure, hsectors]
  exact congrArg Except.ok (PageBytes.ofSectors_sector page)

theorem write_sectors (hused : area.bitmap.test? slot = some true) (hlt : slot < area.slotCount)
    (page : PageBytes) :
    ∃ disk, area.write slot page = .ok { area with disk } ∧ disk.size = area.disk.size ∧
      (∀ i, disk.read (sectorOf slot i) = .ok (page.sector i)) ∧
      ∀ other ≠ slot, ∀ i, disk.read (sectorOf other i) = area.disk.read (sectorOf other i) := by
  obtain ⟨disk, hdisk, hsize, hin, hout⟩ :=
    foldlM_write slot page (List.finRange sectorsPerPage) area.disk fun i => sectorOf_lt hlt i
  refine ⟨disk, ?_, hsize, fun i => hin i (List.mem_finRange i), fun other ho i =>
    hout _ fun j _ he => ho (sectorOf_inj he).1⟩
  simp only [write, requireUsed, isUsed, hused, hdisk]
  rfl

/-! ## Slots -/

/-- The area has handed out the listed slots, each once, and no other slot is in use. -/
structure Supplies (area : SwapArea) (out : List Slot) : Prop where
  nodup : out.Nodup
  lt_count : ∀ slot ∈ out, slot < area.slotCount
  used : area.used = out.length
  test_iff : ∀ slot, area.bitmap.test? slot = some true ↔ slot ∈ out
  recorded : ∀ slot < area.slotCount, area.bitmap.test? slot ≠ none

theorem supplies_onDisk (disk : Disk) : (onDisk disk).Supplies [] := by
  refine ⟨List.nodup_nil, by simp, rfl, ?_, ?_⟩
  · intro slot
    simp [onDisk, Swap.Bitmap.clear, Swap.Bitmap.test?, Array.getElem?_replicate]
  · intro slot hlt
    have hword : slot / 64 < (disk.size / sectorsPerPage + 63) / 64 := by
      simp only [slotCount, onDisk] at hlt
      lia
    simp [onDisk, Swap.Bitmap.clear, Swap.Bitmap.test?, hword]

namespace Supplies

theorem perm {other : List Slot} (h : area.Supplies out) (hp : out.Perm other) :
    area.Supplies other := by
  refine ⟨hp.nodup_iff.mp h.nodup, fun slot hs => h.lt_count slot (hp.mem_iff.mpr hs), ?_, ?_,
    h.recorded⟩
  · rw [h.used, hp.length_eq]
  · simpa only [hp.mem_iff] using h.test_iff

theorem test_eq (h : area.Supplies out) (hlt : slot < area.slotCount) :
    area.bitmap.test? slot = some (decide (slot ∈ out)) := by
  have hiff := h.test_iff slot
  have hrec := h.recorded slot hlt
  cases ht : area.bitmap.test? slot with
  | none => exact absurd ht hrec
  | some used => cases used <;> simp_all

/-- A slot that is handed out is the first free one. -/
theorem alloc? (h : area.Supplies out) (ha : area.alloc? = some (slot, changed)) :
    slot < area.slotCount ∧ slot ∉ out ∧ (∀ i < slot, i ∈ out) ∧
      changed.Supplies (slot :: out) ∧ changed.disk = area.disk ∧
      ∀ other ≠ slot, changed.read other = area.read other := by
  unfold SwapArea.alloc? at ha
  split at ha
  · cases ha
  next first hfirst =>
  split at ha
  · cases ha
  next hlt =>
  obtain ⟨rfl, rfl⟩ := Prod.mk.inj (Option.some.inj ha)
  obtain ⟨hclear, hbelow⟩ := Swap.Bitmap.firstClear?_eq_some.mp hfirst
  have hnot : first ∉ out := by
    rw [← h.test_iff, hclear]
    simp
  have htest := Swap.Bitmap.test?_put area.bitmap first
  refine ⟨Nat.lt_of_not_le hlt, hnot, fun i hi => (h.test_iff i).mp (hbelow i hi), ?_, rfl, ?_⟩
  · refine ⟨List.nodup_cons.mpr ⟨hnot, h.nodup⟩, ?_, by simp [h.used], ?_, ?_⟩
    · intro slot hs
      rcases List.mem_cons.mp hs with rfl | hs
      · exact Nat.lt_of_not_le hlt
      · exact h.lt_count slot hs
    · intro slot
      by_cases hs : slot = first
      · simp [htest, hs, hclear]
      · simp [htest, hs, h.test_iff]
    · intro slot hs
      by_cases hf : slot = first
      · simp [htest, hf, hclear]
      · simpa [htest, hf] using h.recorded slot hs
  · intro other hne
    exact read_congr (by simp [htest, hne]) fun _ => rfl

theorem mem_of_alloc?_eq_none (h : area.Supplies out) (ha : area.alloc? = none)
    (hlt : slot < area.slotCount) : slot ∈ out := by
  rw [← h.test_iff, h.test_eq hlt]
  by_contra hmem
  have hfalse : area.bitmap.test? slot = some false := by
    rw [h.test_eq hlt]
    simpa using hmem
  unfold SwapArea.alloc? at ha
  split at ha
  next hnone => exact Swap.Bitmap.firstClear?_eq_none.mp hnone slot hfalse
  next first hfirst =>
    split at ha
    next hle =>
      have hset := (Swap.Bitmap.firstClear?_eq_some.mp hfirst).2 slot (lt_of_lt_of_le hlt hle)
      rw [hfalse] at hset
      cases hset
    next => cases ha

/-- A slot that was handed out is taken back, and what is in the others stays. -/
theorem release (h : area.Supplies (slot :: out)) :
    ∃ changed, area.release slot = .ok changed ∧ changed.Supplies out ∧
      changed.disk = area.disk ∧ ∀ other ≠ slot, changed.read other = area.read other := by
  obtain ⟨hnot, hnodup⟩ := List.nodup_cons.mp h.nodup
  have hset : area.bitmap.test? slot = some true := (h.test_iff slot).mpr (by simp)
  have hsub : Word.sub? area.used 1 = some out.length := by
    rw [h.used, List.length_cons, Word.sub?_of_le (by omega), Nat.add_sub_cancel]
  have htest := Swap.Bitmap.test?_put area.bitmap slot
  refine ⟨{ area with bitmap := area.bitmap.put slot false, used := out.length }, ?_, ?_, rfl, ?_⟩
  · simp only [SwapArea.release, isUsed, hset, hsub]
    rfl
  · refine ⟨hnodup, fun s hs => h.lt_count s (by simp [hs]), rfl, ?_, ?_⟩
    · intro s
      by_cases hs : s = slot
      · simp [htest, hs, hset, hnot]
      · simp [htest, hs, h.test_iff]
    · intro s hlt
      by_cases hs : s = slot
      · simp [htest, hs, hset]
      · simpa [htest, hs] using h.recorded s hlt
  · intro other hne
    exact read_congr (by simp [htest, hne]) fun _ => rfl

theorem mem_of_release (h : area.Supplies out) (hfreed : area.release slot = .ok changed) :
    slot ∈ out := by
  refine (h.test_iff slot).mp ?_
  unfold SwapArea.release SwapArea.isUsed at hfreed
  cases htest : area.bitmap.test? slot with
  | none => simp [htest, Bind.bind, Except.bind] at hfreed
  | some used =>
      cases used with
      | false =>
          simp [htest, Bind.bind, Except.bind, throw, throwThe, MonadExceptOf.throw] at hfreed
      | true => rfl

theorem first_le_of_release (h : area.Supplies out) (hfreed : area.release slot = .ok changed) :
    ∃ first taken, changed.alloc? = some (first, taken) ∧ first ≤ slot := by
  have hmem := h.mem_of_release hfreed
  have hlt : slot < area.slotCount := h.lt_count slot hmem
  obtain ⟨left, hleft, hsupplies, hdisk, -⟩ := (h.perm (List.perm_cons_erase hmem)).release
  obtain rfl : changed = left := Except.ok.inj (hfreed.symm.trans hleft)
  have hnot : slot ∉ out.erase slot := h.nodup.not_mem_erase
  cases halloc : changed.alloc? with
  | none =>
      have hlt' : slot < changed.slotCount := by
        rw [SwapArea.slotCount, hdisk]
        exact hlt
      exact absurd (hsupplies.mem_of_alloc?_eq_none halloc hlt') hnot
  | some pair =>
      obtain ⟨first, taken⟩ := pair
      obtain ⟨-, -, hbelow, -⟩ := hsupplies.alloc? halloc
      exact ⟨first, taken, rfl, Nat.le_of_not_lt fun hgt => hnot (hbelow slot hgt)⟩

/-- A page that is written to a slot is read back, and what is in the others stays. -/
theorem write (h : area.Supplies out) (hs : slot ∈ out) (page : PageBytes) :
    ∃ written, area.write slot page = .ok written ∧ written.Supplies out ∧
      written.slotCount = area.slotCount ∧
      ∀ other, written.read other = if other = slot then .ok page else area.read other := by
  have hset := (h.test_iff slot).mpr hs
  obtain ⟨disk, hwrite, hsize, hin, hout⟩ := write_sectors hset (h.lt_count slot hs) page
  have hcount : SwapArea.slotCount { area with disk } = area.slotCount := by
    simp only [slotCount, hsize]
  refine ⟨{ area with disk }, hwrite, ?_, hcount, ?_⟩
  · exact ⟨h.nodup, by simpa only [hcount] using h.lt_count, h.used, h.test_iff,
      by simpa only [hcount] using h.recorded⟩
  · intro other
    by_cases ho : other = slot
    · rw [if_pos ho, ho]
      exact read_of_sectors hset hin
    · rw [if_neg ho]
      exact read_congr rfl (hout other ho)

theorem read (h : area.Supplies out) (hs : slot ∈ out) :
    ∃ page, area.read slot = .ok page := by
  have hset := (h.test_iff slot).mpr hs
  have hread : ∀ i, ∃ sector, area.disk.read (sectorOf slot i) = .ok sector := fun i =>
    Disk.read_of_lt (sectorOf_lt (h.lt_count slot hs) i)
  choose sector hsector using hread
  have hreads : (fun i => area.disk.read (sectorOf slot i)) =
      fun i => (pure (sector i) : Except Panic Sector) := funext hsector
  simp only [SwapArea.read, requireUsed, isUsed, hset, hreads, Vector.mapM_pure]
  exact ⟨_, rfl⟩

end Supplies

end SwapArea

end DemandPaging
