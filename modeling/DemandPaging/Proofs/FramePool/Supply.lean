import DemandPaging.FramePool.Basic
import DemandPaging.Proofs.FramePool.Tiling

/-! # What a frame pool has handed out

A pool that has handed out some frames keeps the others free, but for those that it has lost: it
never hands a frame out twice. A pool with as many size classes as its frames need loses no frame,
and refuses a request only if every frame is handed out.
-/

namespace DemandPaging.FramePool

/-- The pool has handed out the listed frames, each once, has lost some others, and keeps the rest
free. It loses none if it has a size class for every block that it can come to have. -/
structure Keeps (pool : FramePool) (out : List Frame) (lost : Frame → Prop) : Prop where
  nodup : out.Nodup
  lt_total : ∀ frame ∈ out, frame < pool.total
  allocated : pool.allocated = out.length
  tiles : Tiles pool.free fun frame => (frame < pool.total ∧ frame ∉ out) ∧ ¬lost frame
  spared : pool.total < 2 ^ pool.classes → ∀ frame, ¬lost frame

/-- The pool has handed out the listed frames, each once, and keeps all others free. -/
structure Supplies (pool : FramePool) (out : List Frame) : Prop where
  fits : pool.total < 2 ^ pool.classes
  keeps : pool.Keeps out fun _ => False

theorem keeps_fresh (classes total : ℕ) : (fresh classes total).Keeps [] fun _ => False := by
  refine ⟨List.nodup_nil, by simp, rfl, ?_, fun _ _ => id⟩
  refine (tiles_freshBlocks classes total).iff fun frame => ?_
  simp [FramePool.total, fresh]

theorem supplies_fresh (total : ℕ) : (fresh (classesFor total) total).Supplies [] := by
  refine ⟨?_, keeps_fresh _ total⟩
  have hsize : (fresh (classesFor total) total).total = total := Array.size_replicate
  calc
    (fresh (classesFor total) total).total = total := hsize
    _ < 2 ^ (total.log2 + 1) := Nat.lt_log2_self
    _ ≤ 2 ^ classesFor total := Nat.pow_le_pow_right (by decide) (le_max_right _ _)

variable {pool changed : FramePool} {out : List Frame} {lost : Frame → Prop} {frame : Frame}
  {page : PageBytes}

theorem Keeps.supplies (h : pool.Keeps out lost) (hfits : pool.total < 2 ^ pool.classes) :
    pool.Supplies out := by
  have hnone : lost = fun _ => False := funext fun f => eq_false (h.spared hfits f)
  exact ⟨hfits, hnone ▸ h⟩

theorem Keeps.perm {other : List Frame} (h : pool.Keeps out lost) (hp : out.Perm other) :
    pool.Keeps other lost := by
  refine ⟨hp.nodup_iff.mp h.nodup, fun f hf => h.lt_total f (hp.mem_iff.mpr hf), ?_, ?_, h.spared⟩
  · rw [h.allocated, hp.length_eq]
  · exact h.tiles.iff fun f => by rw [hp.mem_iff]

theorem Keeps.length_le (h : pool.Keeps out lost) : out.length ≤ pool.total := by
  have hsub : out ⊆ List.range pool.total := fun f hf => List.mem_range.mpr (h.lt_total f hf)
  simpa using (List.subperm_of_subset h.nodup hsub).length_le

namespace Supplies

variable (h : pool.Supplies out)

include h

theorem nodup : out.Nodup := h.keeps.nodup

theorem lt_total : ∀ frame ∈ out, frame < pool.total := h.keeps.lt_total

theorem allocated : pool.allocated = out.length := h.keeps.allocated

theorem tiles : Tiles pool.free fun frame => frame < pool.total ∧ frame ∉ out :=
  h.keeps.tiles.iff fun _ => and_iff_left id

theorem perm {other : List Frame} (hp : out.Perm other) : pool.Supplies other :=
  ⟨h.fits, h.keeps.perm hp⟩

theorem length_le : out.length ≤ pool.total := h.keeps.length_le

end Supplies

/-! ## Handing out -/

theorem alloc?_eq_some_iff :
    pool.alloc? = some (frame, changed) ↔
      ∃ free, takeFrame? pool.free = some (frame, free) ∧
        { pool with
          free
          allocated := pool.allocated + 1
          memory := pool.memory.setIfInBounds frame PageBytes.zero } = changed := by
  simp only [alloc?, Option.map_eq_some_iff, Prod.mk.injEq, Prod.exists]
  constructor
  · rintro ⟨f, free, htake, rfl, rfl⟩
    exact ⟨free, htake, rfl⟩
  · rintro ⟨free, htake, rfl⟩
    exact ⟨frame, free, htake, rfl, rfl⟩

theorem total_of_alloc? (ha : pool.alloc? = some (frame, changed)) :
    changed.total = pool.total := by
  obtain ⟨free, -, rfl⟩ := alloc?_eq_some_iff.mp ha
  simp [total]

theorem load_of_lt (h : frame < pool.total) : ∃ bytes, pool.load frame = .ok bytes := by
  have hlt : frame < pool.memory.size := h
  have hget : pool.memory[frame]? = some pool.memory[frame] := Array.getElem?_eq_getElem hlt
  exact ⟨pool.memory[frame], by simp only [load, hget]⟩

theorem classes_of_alloc? (ha : pool.alloc? = some (frame, changed)) :
    changed.classes = pool.classes := by
  obtain ⟨free, -, rfl⟩ := alloc?_eq_some_iff.mp ha
  rfl

/-- A frame that is handed out was free and is one of the pool's. -/
theorem Keeps.alloc? (h : pool.Keeps out lost) (ha : pool.alloc? = some (frame, changed)) :
    frame < pool.total ∧ frame ∉ out ∧ changed.Keeps (frame :: out) lost := by
  have htotal := total_of_alloc? ha
  have hclasses := classes_of_alloc? ha
  obtain ⟨free, htake, rfl⟩ := alloc?_eq_some_iff.mp ha
  have htiles := h.tiles
  cases hfree : pool.free with
  | nil => simp [takeFrame?, hfree] at htake
  | cons block blocks =>
      rw [hfree] at htake htiles
      simp only [takeFrame?, Option.some.injEq, Prod.mk.injEq] at htake
      obtain ⟨rfl, rfl⟩ := htake
      obtain ⟨⟨hlt, hnot⟩, -⟩ := (htiles.covers block.start).mp ⟨block, by simp, block.covers_start⟩
      refine ⟨hlt, hnot, List.nodup_cons.mpr ⟨hnot, h.nodup⟩, ?_, ?_, ?_, ?_⟩
      · intro f hf
        rw [htotal]
        rcases List.mem_cons.mp hf with rfl | hf
        · exact hlt
        · exact h.lt_total f hf
      · simp [h.allocated]
      · refine htiles.split.iff fun f => ?_
        rw [htotal, List.mem_cons, not_or]
        tauto
      · rw [htotal, hclasses]
        exact h.spared

theorem Keeps.load_alloc? (h : pool.Keeps out lost)
    (ha : pool.alloc? = some (frame, changed)) (other : Frame) :
    changed.load other = if other = frame then .ok PageBytes.zero else pool.load other := by
  have hlt : frame < pool.memory.size := (h.alloc? ha).1
  obtain ⟨free, -, rfl⟩ := alloc?_eq_some_iff.mp ha
  by_cases ho : other = frame
  · subst ho
    simp [load, hlt]
  · simp [load, ho, Ne.symm ho]

theorem Supplies.alloc? (h : pool.Supplies out) (ha : pool.alloc? = some (frame, changed)) :
    frame < pool.total ∧ frame ∉ out ∧ changed.Supplies (frame :: out) := by
  obtain ⟨hlt, hnot, hkeeps⟩ := h.keeps.alloc? ha
  refine ⟨hlt, hnot, ?_, hkeeps⟩
  rw [total_of_alloc? ha, classes_of_alloc? ha]
  exact h.fits

theorem Supplies.load_alloc? (h : pool.Supplies out)
    (ha : pool.alloc? = some (frame, changed)) (other : Frame) :
    changed.load other = if other = frame then .ok PageBytes.zero else pool.load other :=
  h.keeps.load_alloc? ha other

theorem Supplies.mem_of_alloc?_eq_none (h : pool.Supplies out) (ha : pool.alloc? = none)
    (hlt : frame < pool.total) : frame ∈ out := by
  have hnil : pool.free = [] := by
    cases hfree : pool.free with
    | nil => rfl
    | cons block blocks => simp [FramePool.alloc?, takeFrame?, hfree] at ha
  by_contra hmem
  obtain ⟨block, hblock, -⟩ := (h.tiles.covers frame).mpr ⟨hlt, hmem⟩
  simp [hnil] at hblock

/-! ## Taking back -/

/-- A frame that was handed out is taken back, and the contents of all frames stay. -/
theorem Keeps.release (h : pool.Keeps (frame :: out) lost) :
    ∃ changed lost', pool.release frame = .ok changed ∧ changed.Keeps out lost' ∧
      changed.classes = pool.classes ∧ changed.memory = pool.memory := by
  have hlt : frame < pool.total := h.lt_total frame (by simp)
  obtain ⟨hnot, hnodup⟩ := List.nodup_cons.mp h.nodup
  have hsub : Word.sub? pool.allocated 1 = some out.length := by
    rw [h.allocated, List.length_cons, Word.sub?_of_le (by omega), Nat.add_sub_cancel]
  obtain ⟨gone, htiles, hgone, htop⟩ := h.tiles.give pool.classes frame (by simp)
  refine ⟨{ pool with
      free := giveFrame pool.classes frame pool.free
      allocated := out.length }, fun f => (lost f ∧ f ≠ frame) ∨ gone f, ?_, ?_, rfl, rfl⟩
  · rw [FramePool.release, if_neg (Nat.not_le.mpr hlt), hsub]
    rfl
  refine ⟨hnodup, fun f hf => h.lt_total f (by simp [hf]), rfl, htiles.iff fun f => ?_, ?_⟩
  · change _ ↔ (f < pool.total ∧ f ∉ out) ∧ _
    rw [List.mem_cons]
    by_cases hf : f = frame
    · subst hf
      simp [hlt, hnot]
    · simp [hf]
      tauto
  · -- a block past the last class would have more frames than the pool
    rintro hfits f (⟨hf, -⟩ | hf)
    · exact h.spared hfits f hf
    · obtain ⟨top, horder, hcovers⟩ := htop ⟨f, hf⟩
      have hpos := Block.frames_pos top.order
      have hlast := hcovers (top.start + (Block.frames top.order - 1)) ⟨by lia, by lia⟩
      have hinside : top.start + (Block.frames top.order - 1) < pool.total := by
        rcases hlast with ⟨⟨hin, -⟩, -⟩ | heq
        · exact hin
        · exact heq ▸ hlt
      rw [Block.frames_eq, horder] at hinside
      change pool.total < 2 ^ pool.classes at hfits
      lia

theorem Supplies.release (h : pool.Supplies (frame :: out)) :
    ∃ changed, pool.release frame = .ok changed ∧ changed.Supplies out ∧
      changed.memory = pool.memory := by
  obtain ⟨changed, lost, hrelease, hkeeps, hclasses, hmemory⟩ := h.keeps.release
  have htotal : changed.total = pool.total := congrArg Array.size hmemory
  refine ⟨changed, hrelease, hkeeps.supplies ?_, hmemory⟩
  rw [htotal, hclasses]
  exact h.fits

theorem memory_of_release (h : pool.release frame = .ok changed) :
    changed.memory = pool.memory := by
  simp only [FramePool.release, Bind.bind, Except.bind] at h
  split at h
  · cases h
  · split at h
    · cases h
    · cases h
      rfl

theorem load_of_memory_eq (h : changed.memory = pool.memory) (frame : Frame) :
    changed.load frame = pool.load frame := by
  rw [load, load, h]

theorem total_of_release (h : pool.release frame = .ok changed) : changed.total = pool.total := by
  simp only [total, memory_of_release h]

/-! ## Contents -/

theorem store_of_lt (h : frame < pool.total) (page : PageBytes) :
    ∃ stored, pool.store frame page = .ok stored :=
  ⟨_, if_pos h⟩

theorem store_of_load (h : pool.load frame = .ok page) : pool.store frame page = .ok pool := by
  unfold load at h
  split at h
  · next contents hget =>
    obtain ⟨hlt, hcontents⟩ := Array.getElem?_eq_some_iff.mp hget
    obtain rfl := Except.ok.inj h
    have hsame : pool.memory.setIfInBounds frame contents = pool.memory := by
      rw [Array.setIfInBounds, dif_pos hlt, ← hcontents, Array.set_getElem_self]
    have htotal : frame < pool.total := hlt
    rw [store, if_pos htotal, hsame]
  · cases h

theorem total_of_store (h : pool.store frame page = .ok changed) :
    changed.total = pool.total := by
  unfold store at h
  split at h
  · cases h
    simp [total]
  · cases h

theorem classes_of_store (h : pool.store frame page = .ok changed) :
    changed.classes = pool.classes := by
  unfold store at h
  split at h
  · cases h
    rfl
  · cases h

theorem Keeps.store (h : pool.Keeps out lost) (hs : pool.store frame page = .ok changed) :
    changed.Keeps out lost := by
  have htotal := total_of_store hs
  unfold FramePool.store at hs
  split at hs
  · cases hs
    refine ⟨h.nodup, ?_, h.allocated, ?_, ?_⟩
    · simpa only [htotal] using h.lt_total
    · simpa only [htotal] using h.tiles
    · simpa only [htotal] using h.spared
  · cases hs

theorem Supplies.store (h : pool.Supplies out) (hs : pool.store frame page = .ok changed) :
    changed.Supplies out := by
  refine ⟨?_, h.keeps.store hs⟩
  rw [total_of_store hs, classes_of_store hs]
  exact h.fits

theorem copy_eq_store {dst src : Frame} (hne : dst ≠ src) (h : pool.load src = .ok page) :
    pool.copy dst src = pool.store dst page := by
  rw [copy, if_neg hne, h]
  rfl

end DemandPaging.FramePool
