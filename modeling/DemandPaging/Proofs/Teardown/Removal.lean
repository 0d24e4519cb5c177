import DemandPaging.Proofs.Clock.Circle

/-! # What is removed in any order

Entries that leave the frame table, slots that are given back and writes to bytes of their own leave
the same behind in whatever order they come. The hand ends at the first entry that is left, from
where it rested on.
-/

namespace DemandPaging

/-! ## Frames -/

namespace FrameTable

/-- The table when only some entries are left in it. -/
def keeping (table : FrameTable) (keep : FrameEntry → Bool) : FrameTable :=
  let entries := table.entries.filter keep
  let hand := (table.entries.take table.hand).countP keep
  { table with entries, hand := if entries.length ≤ hand then 0 else hand }

variable {table : FrameTable} {keep : FrameEntry → Bool} {e : FrameEntry}

theorem keeping_all (h : table.Rests) : table.keeping (fun _ => true) = table := by
  obtain ⟨entries, hand, evictions⟩ := table
  simp only [keeping, List.filter_true, List.countP_true, List.length_take, mk.injEq, true_and,
    and_true]
  unfold Rests size at h
  simp only at h
  split <;> omega

theorem keeping_congr {other : FrameEntry → Bool} (h : ∀ f ∈ table.entries, keep f = other f) :
    table.keeping keep = table.keeping other := by
  have hcount : (table.entries.take table.hand).countP keep =
      (table.entries.take table.hand).countP other :=
    List.countP_congr fun f hf => by rw [h f (List.mem_of_mem_take hf)]
  simp only [keeping, List.filter_congr h, hcount]

/-- Of the first elements of a list as many are left when one more is taken out, or one fewer if the
part goes past that. -/
theorem countP_take_cons {α : Type} {keep less : α → Bool} {before after : List α} {a : α} (n : ℕ)
    (hother : ∀ b, b ∈ before ∨ b ∈ after → less b = keep b) (hkept : keep a = true)
    (hself : ¬less a = true) :
    ((before ++ a :: after).take n).countP keep = ((before ++ a :: after).take n).countP less ∧
        ((before ++ a :: after).take n).countP keep ≤ (before.filter keep).length ∨
      ((before ++ a :: after).take n).countP keep =
          ((before ++ a :: after).take n).countP less + 1 ∧
        (before.filter keep).length < ((before ++ a :: after).take n).countP keep ∧
        ((before ++ a :: after).take n).countP keep ≤
          (before.filter keep).length + 1 + (after.filter keep).length := by
  have hcount : ∀ part : List α, (∀ b ∈ part, b ∈ before ∨ b ∈ after) →
      part.countP keep = part.countP less := fun part hpart =>
    List.countP_congr fun b hb => by rw [hother b (hpart b hb)]
  rw [← List.countP_eq_length_filter, ← List.countP_eq_length_filter]
  rcases Nat.lt_or_ge before.length n with hlt | hle
  · obtain ⟨j, hj⟩ : ∃ j, n - before.length = j + 1 := ⟨n - before.length - 1, by omega⟩
    rw [List.take_append, List.take_of_length_le (Nat.le_of_lt hlt), hj, List.take_succ_cons,
      List.countP_append, List.countP_append, List.countP_cons_of_pos hkept,
      List.countP_cons_of_neg hself, hcount before fun b hb => .inl hb,
      hcount (after.take j) fun b hb => .inr (List.mem_of_mem_take hb),
      hcount after fun b hb => .inr hb]
    have hle : (after.take j).countP less ≤ after.countP less :=
      (List.take_sublist j after).countP_le
    exact .inr ⟨rfl, by omega, by omega⟩
  · rw [List.take_append_of_le_length hle]
    exact .inl ⟨hcount _ fun b hb => .inl (List.mem_of_mem_take hb),
      (List.take_sublist n before).countP_le⟩

/-- One more entry leaves the table. -/
theorem removeFrame_keeping (hnodup : (table.entries.map FrameEntry.frame).Nodup)
    (hmem : e ∈ table.entries) (hkept : keep e = true) :
    (table.keeping keep).removeFrame e.frame = table.keeping fun f => keep f && f != e := by
  obtain ⟨before, after, hsplit⟩ := List.append_of_mem hmem
  obtain ⟨entries, hand, evictions⟩ := table
  simp only at hsplit hnodup
  subst hsplit
  have hframe : ∀ f, f ∈ before ∨ f ∈ after → f.frame ≠ e.frame := by
    simp only [List.map_append, List.map_cons, List.nodup_append, List.nodup_cons,
      List.mem_cons, List.mem_map] at hnodup
    rintro f (hf | hf) hsame
    · exact hnodup.2.2 f.frame ⟨f, hf, rfl⟩ e.frame (.inl rfl) hsame
    · exact hnodup.2.1.1 ⟨f, hf, hsame⟩
  generalize hless : (fun f => keep f && f != e) = less
  have hother : ∀ f, f ∈ before ∨ f ∈ after → less f = keep f := by
    intro f hf
    have hne : f ≠ e := fun he => hframe f hf (he ▸ rfl)
    simp [← hless, hne]
  have hself : ¬less e = true := by simp [← hless]
  have hbefore : before.filter less = before.filter keep :=
    List.filter_congr fun f hf => hother f (.inl hf)
  have hafter : after.filter less = after.filter keep :=
    List.filter_congr fun f hf => hother f (.inr hf)
  -- the entry comes after the entries before it that are left
  have hfind : (before.filter keep ++ e :: after.filter keep).findIdx? (·.frame == e.frame) =
      some (before.filter keep).length := by
    have hnone : (before.filter keep).findIdx? (·.frame == e.frame) = none := by
      rw [List.findIdx?_eq_none_iff]
      exact fun f hf => beq_eq_false_iff_ne.mpr (hframe f (.inl (List.mem_filter.mp hf).1))
    rw [List.findIdx?_append, hnone, List.findIdx?_cons]
    simp
  have herase := eraseIdx_append_cons (before.filter keep) (after.filter keep) e
  -- the hand counts the entry only if it has gone past it
  have hhand := countP_take_cons hand hother hkept hself
  simp only [keeping, List.filter_append, List.filter_cons_of_pos hkept,
    List.filter_cons_of_neg hself, hbefore, hafter, removeFrame, hfind, removeAt, herase,
    mk.injEq, true_and, and_true, List.length_append, List.length_cons]
  generalize ((before ++ e :: after).take hand).countP keep = k at hhand ⊢
  generalize ((before ++ e :: after).take hand).countP less = k' at hhand ⊢
  generalize (before.filter keep).length = a at hhand ⊢
  generalize (after.filter keep).length = b at hhand ⊢
  split <;> split <;> split <;> split <;> omega

end FrameTable

/-! ## Slots -/

theorem Swap.Bitmap.put_comm (bitmap : Swap.Bitmap) (i j : ℕ) :
    (bitmap.put i false).put j false = (bitmap.put j false).put i false := by
  have hbits : ∀ word : BitVec 64, putBit (putBit word (i % 64) false) (j % 64) false =
      putBit (putBit word (j % 64) false) (i % 64) false := by
    intro word
    simp only [putBit, Bool.false_eq_true, if_false]
    rw [BitVec.and_assoc, BitVec.and_comm (~~~BitVec.twoPow 64 (i % 64)), ← BitVec.and_assoc]
  refine congrArg Swap.Bitmap.mk (Array.ext_getElem? fun k => ?_)
  simp only [put, Array.getElem?_modify]
  by_cases hi : i / 64 = k <;> by_cases hj : j / 64 = k <;>
    simp [hi, hj, Function.comp_def, hbits]

/-- The area when a slot that was in use has been given back. -/
def SwapArea.cleared (area : SwapArea) (slot : Slot) : SwapArea :=
  { area with bitmap := area.bitmap.put slot false, used := area.used - 1 }

theorem SwapArea.cleared_comm (area : SwapArea) (a b : Slot) :
    (area.cleared a).cleared b = (area.cleared b).cleared a := by
  simp only [cleared, area.bitmap.put_comm a b]

theorem SwapArea.eq_cleared_of_release {area changed : SwapArea} {slot : Slot}
    (h : area.release slot = .ok changed) : changed = area.cleared slot := by
  unfold release at h
  simp only [Bind.bind, Except.bind] at h
  split at h
  · cases h
  · split at h
    · by_cases hle : 1 ≤ area.used
      · rw [Word.sub?_of_le hle] at h
        exact (Except.ok.inj h).symm
      · simp [Word.sub?, hle] at h
    · cases h

/-! ## Writes -/

theorem File.writeAt_comm (content : File) {i j : ℕ} {run other : Bytes}
    (h : ∀ x, ¬((i ≤ x ∧ x < i + run.size) ∧ j ≤ x ∧ x < j + other.size)) :
    (content.writeAt i run).writeAt j other = (content.writeAt j other).writeAt i run := by
  have hcount : ∀ (i j : ℕ) (run : Bytes) (n : ℕ),
      (content.writeAt i run).writeCount j n = content.writeCount j n := by
    intro i j run n
    simp only [writeCount, size_data_writeAt]
    rfl
  have hdata : ((content.writeAt i run).writeAt j other).data =
      ((content.writeAt j other).writeAt i run).data := by
    refine Array.ext_getElem? fun x => ?_
    have hrun := content.writeCount_le i run.size
    have hother := content.writeCount_le j other.size
    have hapart := h x
    simp only [getElem?_writeAt, hcount]
    split_ifs <;> first | rfl | omega
  exact congrArg (fun data => { content with data }) hdata

/-- One write to a file. -/
structure FileWrite where
  file : FileId
  offset : ℕ
  bytes : Bytes

namespace FileWrite

def apply (file : FileId) (content : Option File) (w : FileWrite) : Option File :=
  if w.file = file then content.map (·.writeAt w.offset w.bytes) else content

/-- The positions of its file that a write is to. -/
def Covers (w : FileWrite) (x : ℕ) : Prop :=
  w.offset ≤ x ∧ x < w.offset + w.bytes.size

/-- Two writes that have no byte of a file in common. -/
def Apart (v w : FileWrite) : Prop :=
  v.file = w.file → ∀ x, ¬(v.Covers x ∧ w.Covers x)

theorem apply_comm {v w : FileWrite} (h : v.Apart w) (file : FileId) (content : Option File) :
    apply file (apply file content v) w = apply file (apply file content w) v := by
  unfold apply
  by_cases hv : v.file = file
  · by_cases hw : w.file = file
    · rw [if_pos hv, if_pos hw, if_pos hw, if_pos hv]
      cases content with
      | none => rfl
      | some content =>
          have hapart := h (hv.trans hw.symm)
          exact congrArg some (File.writeAt_comm content hapart)
    · rw [if_neg hw, if_neg hw]
  · rw [if_neg hv, if_neg hv]

end FileWrite

end DemandPaging
