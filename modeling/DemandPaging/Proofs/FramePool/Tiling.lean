import DemandPaging.FramePool.Buddy
import Mathlib

/-! # Tilings of the free frames

The blocks of a free list cover every free frame once. Splitting and joining blocks change the
blocks but not, apart from the frame that is taken or put back, what they cover.
-/

namespace DemandPaging.FramePool

namespace Block

def Covers (block : Block) (frame : Frame) : Prop :=
  block.start ≤ frame ∧ frame < block.start + frames block.order

def Aligned (block : Block) : Prop :=
  frames block.order ∣ block.start

/-- Two blocks have no frame in common. -/
def Apart (a b : Block) : Prop :=
  ∀ frame, a.Covers frame → ¬b.Covers frame

theorem frames_eq (order : ℕ) : frames order = 2 ^ order :=
  Nat.one_shiftLeft order

theorem frames_pos (order : ℕ) : 0 < frames order := by
  rw [frames_eq]
  exact Nat.two_pow_pos order

theorem frames_succ (order : ℕ) : frames (order + 1) = frames order + frames order := by
  rw [frames_eq, frames_eq, Nat.pow_succ]
  omega

theorem covers_start (block : Block) : block.Covers block.start := by
  exact ⟨le_rfl, Nat.lt_add_of_pos_right (frames_pos block.order)⟩

theorem Apart.symm {a b : Block} (h : a.Apart b) : b.Apart a :=
  fun frame hb ha => h frame ha hb

theorem Apart.ne {a b : Block} (h : a.Apart b) : a ≠ b := by
  rintro rfl
  exact h a.start a.covers_start a.covers_start

/-! ## Halves -/

theorem mem_upperHalves {block half : Block} :
    half ∈ block.upperHalves ↔
      half.order < block.order ∧ half.start = block.start + frames half.order := by
  simp only [upperHalves, List.mem_map, List.mem_range]
  constructor
  · rintro ⟨order, horder, rfl⟩
    exact ⟨horder, rfl⟩
  · rintro ⟨horder, hstart⟩
    exact ⟨half.order, horder, by rw [← hstart]⟩

theorem aligned_of_mem_upperHalves {block half : Block} (h : block.Aligned)
    (hm : half ∈ block.upperHalves) : half.Aligned := by
  obtain ⟨horder, hstart⟩ := mem_upperHalves.mp hm
  rw [Aligned, hstart]
  refine dvd_add ?_ dvd_rfl
  refine dvd_trans ?_ h
  rw [frames_eq, frames_eq]
  exact pow_dvd_pow 2 horder.le

private theorem covers_upperHalves_aux (start frame : ℕ) (order : ℕ) :
    (∃ o < order, start + frames o ≤ frame ∧ frame < start + frames o + frames o) ↔
      start < frame ∧ frame < start + frames order := by
  induction order with
  | zero =>
      simp only [Nat.not_lt_zero, false_and, exists_false, false_iff, frames]
      omega
  | succ order ih =>
      rw [frames_succ]
      have hpos := frames_pos order
      constructor
      · rintro ⟨o, ho, hlow, hhigh⟩
        rcases Nat.lt_succ_iff_lt_or_eq.mp ho with ho | rfl
        · have h := ih.mp ⟨o, ho, hlow, hhigh⟩
          omega
        · omega
      · rintro ⟨hlow, hhigh⟩
        by_cases h : frame < start + frames order
        · obtain ⟨o, ho, hcover⟩ := ih.mpr ⟨hlow, h⟩
          exact ⟨o, by omega, hcover⟩
        · exact ⟨order, by omega, by omega, by omega⟩

theorem covers_upperHalves (block : Block) (frame : Frame) :
    (∃ half ∈ block.upperHalves, half.Covers frame) ↔
      block.Covers frame ∧ frame ≠ block.start := by
  have haux := covers_upperHalves_aux block.start frame block.order
  constructor
  · rintro ⟨half, hm, hlow, hhigh⟩
    obtain ⟨horder, hstart⟩ := mem_upperHalves.mp hm
    rw [hstart] at hlow hhigh
    obtain ⟨hl, hh⟩ := haux.mp ⟨half.order, horder, hlow, hhigh⟩
    exact ⟨⟨hl.le, hh⟩, hl.ne'⟩
  · rintro ⟨⟨hlow, hhigh⟩, hne⟩
    obtain ⟨order, horder, hcover⟩ := haux.mpr ⟨lt_of_le_of_ne hlow (Ne.symm hne), hhigh⟩
    exact ⟨⟨order, block.start + frames order⟩, mem_upperHalves.mpr ⟨horder, rfl⟩, hcover⟩

theorem pairwise_upperHalves (block : Block) : block.upperHalves.Pairwise Apart := by
  rw [upperHalves, List.pairwise_map]
  refine List.Pairwise.imp ?_ (List.pairwise_lt_range (n := block.order))
  intro low high hlt frame hlow hhigh
  have hle : frames (low + 1) ≤ frames high := by
    rw [frames_eq, frames_eq]
    exact Nat.pow_le_pow_right (by decide) hlt
  rw [frames_succ] at hle
  simp only [Covers] at hlow hhigh
  lia

/-! ## Buddies -/

theorem Aligned.eq_shiftLeft {block : Block} (h : block.Aligned) :
    ∃ k, block.start = k <<< block.order := by
  obtain ⟨k, hk⟩ := h
  exact ⟨k, by rw [hk, frames_eq, Nat.shiftLeft_eq, Nat.mul_comm]⟩

/-- The buddy of an aligned block is the other half of an aligned block of the next order. -/
theorem Aligned.buddy_start {block : Block} (h : block.Aligned) :
    (frames (block.order + 1) ∣ block.start ∧
        block.buddy.start = block.start + frames block.order) ∨
      (frames (block.order + 1) ∣ block.buddy.start ∧
        block.start = block.buddy.start + frames block.order) := by
  obtain ⟨k, hk⟩ := h.eq_shiftLeft
  have hbuddy : block.buddy.start = (k ^^^ 1) <<< block.order := by
    simp only [buddy, hk, frames]
    exact (Nat.shiftLeft_xor_distrib).symm
  simp only [hbuddy, hk, frames_eq, Nat.shiftLeft_eq, Nat.pow_succ]
  rcases Nat.even_or_odd k with he | ho
  · left
    obtain ⟨j, rfl⟩ := he
    rw [Nat.xor_one_of_even ⟨j, rfl⟩]
    exact ⟨⟨j, by ring⟩, by ring⟩
  · right
    obtain ⟨j, rfl⟩ := ho
    rw [Nat.xor_one_of_odd ⟨j, rfl⟩]
    simp only [Nat.add_sub_cancel]
    exact ⟨⟨j, by ring⟩, by ring⟩

theorem Aligned.joined {block : Block} (h : block.Aligned) : block.joined.Aligned := by
  simp only [Aligned, Block.joined]
  have hpos := frames_pos block.order
  rcases h.buddy_start with ⟨hdvd, hstart⟩ | ⟨hdvd, hstart⟩
  · rwa [min_eq_left (by lia)]
  · rwa [min_eq_right (by lia)]

theorem Aligned.covers_joined {block : Block} (h : block.Aligned) (frame : Frame) :
    block.joined.Covers frame ↔ block.Covers frame ∨ block.buddy.Covers frame := by
  simp only [Covers, Block.joined, frames_succ]
  have horder : block.buddy.order = block.order := rfl
  have hpos := frames_pos block.order
  rw [horder]
  rcases h.buddy_start with ⟨-, hstart⟩ | ⟨-, hstart⟩ <;> lia

end Block

/-! ## Tilings -/

/-- Aligned blocks that cover each of the free frames once, and no other frame. -/
structure Tiles (blocks : List Block) (free : Frame → Prop) : Prop where
  aligned : ∀ block ∈ blocks, block.Aligned
  apart : blocks.Pairwise Block.Apart
  covers : ∀ frame, (∃ block ∈ blocks, block.Covers frame) ↔ free frame

namespace Tiles

variable {blocks other : List Block} {free freed : Frame → Prop} {block : Block}

theorem perm (h : Tiles blocks free) (hp : blocks.Perm other) : Tiles other free := by
  refine ⟨fun b hb => h.aligned b (hp.mem_iff.mpr hb), ?_, fun frame => ?_⟩
  · exact hp.pairwise h.apart fun hab => hab.symm
  · simp only [← h.covers frame, hp.mem_iff]

theorem iff (h : Tiles blocks free) (hf : ∀ frame, free frame ↔ freed frame) :
    Tiles blocks freed :=
  ⟨h.aligned, h.apart, fun frame => (h.covers frame).trans (hf frame)⟩

/-- Taking the first frame of the first block leaves the others tiled. -/
theorem split (h : Tiles (block :: blocks) free) :
    Tiles (block.upperHalves ++ blocks) fun frame => free frame ∧ frame ≠ block.start := by
  have hblock : block.Aligned := h.aligned block (by simp)
  have happart := List.pairwise_cons.mp h.apart
  have hsub : ∀ half ∈ block.upperHalves, ∀ frame, half.Covers frame → block.Covers frame :=
    fun half hm frame hc => ((block.covers_upperHalves frame).mp ⟨half, hm, hc⟩).1
  refine ⟨?_, ?_, ?_⟩
  · intro b hb
    rcases List.mem_append.mp hb with hb | hb
    · exact Block.aligned_of_mem_upperHalves hblock hb
    · exact h.aligned b (by simp [hb])
  · refine List.pairwise_append.mpr ⟨block.pairwise_upperHalves, happart.2, ?_⟩
    intro half hm b hb frame hc
    exact happart.1 b hb frame (hsub half hm frame hc)
  · intro frame
    rw [← h.covers frame]
    have hhalves := block.covers_upperHalves frame
    constructor
    · rintro ⟨b, hb, hc⟩
      rcases List.mem_append.mp hb with hb | hb
      · obtain ⟨hc', hne⟩ := hhalves.mp ⟨b, hb, hc⟩
        exact ⟨⟨block, by simp, hc'⟩, hne⟩
      · refine ⟨⟨b, by simp [hb], hc⟩, ?_⟩
        rintro rfl
        exact happart.1 b hb block.start block.covers_start hc
    · rintro ⟨⟨b, hb, hc⟩, hne⟩
      rcases List.mem_cons.mp hb with rfl | hb
      · obtain ⟨half, hm, hc'⟩ := hhalves.mpr ⟨hc, hne⟩
        exact ⟨half, by simp [hm], hc'⟩
      · exact ⟨b, by simp [hb], hc⟩

theorem insertBlock_perm (block : Block) (blocks : List Block) (h : block ∉ blocks) :
    (insertBlock block blocks).Perm (block :: blocks) := by
  induction blocks with
  | nil => exact .refl _
  | cons b bs ih =>
      rw [List.mem_cons, not_or] at h
      rw [insertBlock, if_neg h.1]
      split
      · exact .refl _
      · exact ((ih h.2).cons b).trans (.swap block b bs)

theorem insert (h : Tiles (block :: blocks) free) : Tiles (insertBlock block blocks) free := by
  have hnot : block ∉ blocks := fun hm => ((List.pairwise_cons.mp h.apart).1 block hm).ne rfl
  exact h.perm (insertBlock_perm block blocks hnot).symm

/-- A block and its buddy may be replaced by the block that they make up. -/
theorem join (h : Tiles (block :: blocks) free) (hm : block.buddy ∈ blocks) :
    Tiles (block.joined :: blocks.erase block.buddy) free := by
  have hblock : block.Aligned := h.aligned block (by simp)
  have hall := h.perm ((List.perm_cons_erase hm).cons block)
  obtain ⟨hfirst, hrest⟩ := List.pairwise_cons.mp hall.apart
  obtain ⟨hsecond, htail⟩ := List.pairwise_cons.mp hrest
  refine ⟨?_, List.pairwise_cons.mpr ⟨?_, htail⟩, ?_⟩
  · intro b hb
    rcases List.mem_cons.mp hb with rfl | hb
    · exact hblock.joined
    · exact hall.aligned b (by simp [hb])
  · intro b hb frame hc
    rcases (hblock.covers_joined frame).mp hc with hc | hc
    · exact hfirst b (by simp [hb]) frame hc
    · exact hsecond b hb frame hc
  · intro frame
    rw [← hall.covers frame]
    simp only [List.mem_cons, exists_eq_or_imp, hblock.covers_joined frame, or_assoc]

/-- Joining loses frames only if all frames of a block past the last size class are free. -/
theorem joinBlock (classes : ℕ) (h : Tiles (block :: blocks) free) :
    ∃ lost : Frame → Prop,
      Tiles (joinBlock classes block blocks) (fun frame => free frame ∧ ¬lost frame) ∧
      (∀ frame, lost frame → free frame) ∧
      ((∃ frame, lost frame) → ∃ top : Block, top.order = block.order + classes ∧
        ∀ frame, top.Covers frame → free frame) := by
  induction classes generalizing block blocks with
  | zero =>
      obtain ⟨hfirst, hrest⟩ := List.pairwise_cons.mp h.apart
      have hfree : ∀ frame, block.Covers frame → free frame := fun frame hc =>
        (h.covers frame).mp ⟨block, List.mem_cons_self, hc⟩
      refine ⟨block.Covers, ⟨?_, hrest, fun frame => ?_⟩, hfree, fun _ => ⟨block, rfl, hfree⟩⟩
      · exact fun b hb => h.aligned b (List.mem_cons_of_mem _ hb)
      · rw [← h.covers frame, FramePool.joinBlock]
        constructor
        · rintro ⟨b, hb, hc⟩
          exact ⟨⟨b, List.mem_cons_of_mem _ hb, hc⟩, fun hc' => hfirst b hb frame hc' hc⟩
        · rintro ⟨⟨b, hb, hc⟩, hnot⟩
          rcases List.mem_cons.mp hb with rfl | hb
          · exact absurd hc hnot
          · exact ⟨b, hb, hc⟩
  | succ classes ih =>
      rw [FramePool.joinBlock]
      split
      · next hm =>
        obtain ⟨lost, htiles, hfree, htop⟩ := ih (h.join hm)
        refine ⟨lost, htiles, hfree, fun hlost => ?_⟩
        obtain ⟨top, horder, hcovers⟩ := htop hlost
        have hjoined : block.joined.order = block.order + 1 := rfl
        exact ⟨top, by omega, hcovers⟩
      · exact ⟨fun _ => False, h.insert.iff (by simp), by simp, by simp⟩

/-- A frame that is put back is covered again, unless it is lost. -/
theorem give (classes : ℕ) (frame : Frame) (h : Tiles blocks free) (hf : ¬free frame) :
    ∃ lost : Frame → Prop,
      Tiles (giveFrame classes frame blocks) (fun f => (free f ∨ f = frame) ∧ ¬lost f) ∧
      (∀ f, lost f → free f ∨ f = frame) ∧
      ((∃ f, lost f) → ∃ top : Block, top.order = classes ∧
        ∀ f, top.Covers f → free f ∨ f = frame) := by
  have hone : ∀ f, Block.Covers ⟨0, frame⟩ f ↔ f = frame := by
    intro f
    simp only [Block.Covers, Block.frames]
    lia
  have hwith : Tiles (⟨0, frame⟩ :: blocks) fun f => free f ∨ f = frame := by
    refine ⟨?_, List.pairwise_cons.mpr ⟨?_, h.apart⟩, ?_⟩
    · intro b hb
      rcases List.mem_cons.mp hb with rfl | hb
      · exact one_dvd _
      · exact h.aligned b hb
    · intro b hb f hc hc'
      rw [(hone f).mp hc] at hc'
      exact hf ((h.covers frame).mp ⟨b, hb, hc'⟩)
    · intro f
      rw [← h.covers f, or_comm]
      simp only [List.mem_cons, exists_eq_or_imp, hone f]
  obtain ⟨lost, htiles, hfree, htop⟩ := hwith.joinBlock classes
  refine ⟨lost, htiles, hfree, fun hlost => ?_⟩
  obtain ⟨top, horder, hcovers⟩ := htop hlost
  exact ⟨top, horder.trans (Nat.zero_add classes), hcovers⟩

end Tiles

/-! ## The blocks of a fresh pool -/

theorem cutOrder_spec (classes start : ℕ) {rest : ℕ} (hrest : rest ≠ 0) :
    Block.frames (cutOrder classes start rest) ∣ start ∧
      Block.frames (cutOrder classes start rest) ≤ rest := by
  rw [cutOrder]
  cases hfind : (List.range (min (rest.log2 + 1) classes)).reverse.find? fun order =>
      start % Block.frames order == 0 && (start != 0 || order ≤ 5) with
  | none => exact ⟨one_dvd _, Nat.pos_of_ne_zero hrest⟩
  | some order =>
      have hmem : order < rest.log2 + 1 ∧ order < classes := by
        simpa using List.mem_of_find?_eq_some hfind
      have hmod := List.find?_some hfind
      simp only [Bool.and_eq_true, beq_iff_eq] at hmod
      refine ⟨Nat.dvd_of_mod_eq_zero hmod.1, ?_⟩
      calc
        Block.frames order = 2 ^ order := Block.frames_eq order
        _ ≤ 2 ^ rest.log2 := Nat.pow_le_pow_right (by decide) (by omega)
        _ ≤ rest := Nat.log2_self_le hrest

theorem tiles_cutBlocks (classes cuts start rest : ℕ) (hcuts : rest ≤ cuts) :
    Tiles (cutBlocks classes cuts start rest) fun frame =>
      start ≤ frame ∧ frame < start + rest := by
  induction cuts generalizing start rest with
  | zero =>
      refine ⟨by simp [cutBlocks], by simp [cutBlocks], fun frame => ?_⟩
      simp only [cutBlocks, List.not_mem_nil, false_and, exists_false, false_iff]
      lia
  | succ cuts ih =>
      rw [cutBlocks]
      split
      · next hrest =>
          refine ⟨by simp, by simp, fun frame => ?_⟩
          simp only [List.not_mem_nil, false_and, exists_false, false_iff]
          lia
      · next hrest =>
          obtain ⟨hdvd, hle⟩ := cutOrder_spec classes start hrest
          have hpos := Block.frames_pos (cutOrder classes start rest)
          have htail := ih (start + Block.frames (cutOrder classes start rest))
            (rest - Block.frames (cutOrder classes start rest)) (by omega)
          refine Tiles.insert ⟨?_, List.pairwise_cons.mpr ⟨?_, htail.apart⟩, ?_⟩
          · intro b hb
            rcases List.mem_cons.mp hb with rfl | hb
            · exact hdvd
            · exact htail.aligned b hb
          · intro b hb frame hc hc'
            have hlow := ((htail.covers frame).mp ⟨b, hb, hc'⟩).1
            have hhigh := hc.2
            exact absurd hlow (Nat.not_le.mpr hhigh)
          · intro frame
            simp only [List.mem_cons, exists_eq_or_imp]
            rw [htail.covers frame]
            simp only [Block.Covers]
            lia

theorem tiles_freshBlocks (classes total : ℕ) :
    Tiles (freshBlocks classes total) fun frame => frame < total :=
  (tiles_cutBlocks classes total 0 total le_rfl).iff fun frame => by simp

end DemandPaging.FramePool
