import DemandPaging.PageTable.Basic
import Mathlib

/-! # What an entry maps

A fresh entry maps its page to the packed frame, with the permission that was asked for and with
no use noted. Later changes of an entry concern the notes of use alone.
-/

namespace DemandPaging.PageTable

namespace Flags

theorem foldl_put_spec (list : List Flag) (flags : Flags) (h : flags.IsDeclared) :
    (list.foldl (fun acc flag => acc.put flag true) flags).IsDeclared ∧
      ∀ flag, (list.foldl (fun acc flag => acc.put flag true) flags).has flag =
        (decide (flag ∈ list) || flags.has flag) := by
  induction list generalizing flags with
  | nil => exact ⟨h, by simp⟩
  | cons first list ih =>
      obtain ⟨hdeclared, hhas⟩ := ih (flags.put first true) (h.put first true)
      refine ⟨hdeclared, fun flag => ?_⟩
      rw [List.foldl_cons, hhas, has_put]
      by_cases hf : flag = first <;> simp [hf]

theorem isDeclared_ofList (list : List Flag) : (ofList list).IsDeclared :=
  (foldl_put_spec list ⟨0⟩ fun i _ => by simp).1

theorem has_ofList (list : List Flag) (flag : Flag) :
    (ofList list).has flag = decide (flag ∈ list) := by
  have h := (foldl_put_spec list ⟨0⟩ fun i _ => by simp).2 flag
  simpa [ofList, has] using h

end Flags

theorem isDeclared_freshFlags (writable : Bool) : (freshFlags writable).IsDeclared :=
  Flags.isDeclared_ofList _

namespace Entry

def fresh (frame : Frame) (writable : Bool) : Entry :=
  pack frame (freshFlags writable)

variable {frame : Frame} {writable : Bool}

theorem frame_fresh (h : frame < frameBound) : (fresh frame writable).frame = frame :=
  frame_pack h (isDeclared_freshFlags writable)

theorem has_fresh (frame : Frame) (writable : Bool) (flag : Flag) :
    (fresh frame writable).has flag = (freshFlags writable).has flag := by
  rw [has, fresh, flags_pack (isDeclared_freshFlags writable)]

@[simp] theorem isValid_fresh : (fresh frame writable).isValid = true := by
  cases writable <;> simp [isValid, has_fresh, freshFlags, Flags.has_ofList]

@[simp] theorem isWritable_fresh : (fresh frame writable).isWritable = writable := by
  cases writable <;> simp [isWritable, has_fresh, freshFlags, Flags.has_ofList]

@[simp] theorem not_accessed_fresh : (fresh frame writable).has .accessed = false := by
  cases writable <;> simp [has_fresh, freshFlags, Flags.has_ofList]

@[simp] theorem not_dirty_fresh : (fresh frame writable).has .dirty = false := by
  cases writable <;> simp [has_fresh, freshFlags, Flags.has_ofList]

/-- Two entries map a page to the same frame with the same permission. -/
structure SameMapping (entry other : Entry) : Prop where
  frame_eq : other.frame = entry.frame
  valid_eq : other.isValid = entry.isValid
  writable_eq : other.isWritable = entry.isWritable

theorem SameMapping.refl (entry : Entry) : entry.SameMapping entry :=
  ⟨rfl, rfl, rfl⟩

theorem SameMapping.trans {a b c : Entry} (h : a.SameMapping b) (h' : b.SameMapping c) :
    a.SameMapping c :=
  ⟨h'.frame_eq.trans h.frame_eq, h'.valid_eq.trans h.valid_eq, h'.writable_eq.trans h.writable_eq⟩

theorem sameMapping_put (entry : Entry) {flag : Flag} (on : Bool)
    (hf : flag = .accessed ∨ flag = .dirty) : entry.SameMapping (entry.put flag on) := by
  refine ⟨frame_put entry flag on, ?_, ?_⟩
  · rcases hf with rfl | rfl <;> simp [isValid, has_put]
  · rcases hf with rfl | rfl <;> simp [isWritable, has_put]

/-- An entry that the clock has passed: only its accessed flag may be cleared. -/
structure Aged (entry aged : Entry) : Prop where
  frame_eq : aged.frame = entry.frame
  has_eq : ∀ flag, flag ≠ .accessed → aged.has flag = entry.has flag
  accessed : aged.has .accessed = true → entry.has .accessed = true

theorem Aged.refl (entry : Entry) : entry.Aged entry :=
  ⟨rfl, fun _ _ => rfl, id⟩

theorem Aged.trans {a b c : Entry} (h : a.Aged b) (h' : b.Aged c) : a.Aged c :=
  ⟨h'.frame_eq.trans h.frame_eq, fun flag hf => (h'.has_eq flag hf).trans (h.has_eq flag hf),
    fun hc => h.accessed (h'.accessed hc)⟩

theorem aged_put (entry : Entry) : entry.Aged (entry.put .accessed false) := by
  refine ⟨frame_put entry .accessed false, fun flag hf => ?_, fun h => ?_⟩
  · rw [has_put, if_neg hf]
  · simp [has_put] at h

theorem Aged.sameMapping {entry aged : Entry} (h : entry.Aged aged) : entry.SameMapping aged :=
  ⟨h.frame_eq, h.has_eq .valid (by decide), h.has_eq .writable (by decide)⟩

end Entry

/-! ## Operations -/

variable {table : PageTable} {page : VirtPage} {entry : Entry}

theorem map_of_none (h : table.lookup? page = none) (frame : Frame) (writable : Bool) :
    table.map page frame writable =
      .ok ⟨table.entries.insert page (.fresh frame writable)⟩ := by
  rw [map, present?, h]
  rfl

theorem unmap_of_some (h : table.lookup? page = some entry) :
    table.unmap page = .ok (entry.has .dirty, ⟨table.entries.erase page⟩) := by
  rw [unmap, h]

theorem unmap_of_none (h : table.lookup? page = none) :
    table.unmap page = .error (.notMapped page) := by
  rw [unmap, h]

theorem present?_of_some (h : table.lookup? page = some entry) (hv : entry.isValid = true) :
    table.present? page = some entry := by
  simp [present?, h, hv]

/-- The entry after an access that passes. -/
def Entry.marked (entry : Entry) (write : Bool) : Entry :=
  if write then (entry.put .accessed true).put .dirty true else entry.put .accessed true

theorem Entry.sameMapping_marked (entry : Entry) (write : Bool) :
    entry.SameMapping (entry.marked write) := by
  have hused := entry.sameMapping_put true (.inl rfl)
  cases write with
  | false => exact hused
  | true => exact hused.trans ((entry.put .accessed true).sameMapping_put true (.inr rfl))

theorem access_of_none (h : table.lookup? page = none) (write : Bool) :
    table.access page write = .error .notPresent := by
  rw [access, present?, h]
  rfl

theorem access_of_some (h : table.lookup? page = some entry) (hv : entry.isValid = true)
    (write : Bool) :
    table.access page write =
      if write && !entry.isWritable then .error .protection
      else .ok (entry.frame, ⟨table.entries.insert page (entry.marked write)⟩) := by
  simp only [access, present?_of_some h hv]
  cases write <;> simp [Entry.marked]

end DemandPaging.PageTable
