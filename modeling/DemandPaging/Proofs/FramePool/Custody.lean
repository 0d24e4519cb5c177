import DemandPaging.Proofs.FramePool.Supply
import DemandPaging.Proofs.Sessions

/-! # Frames in custody

The callers of a frame pool use only the frames that they hold. Then every frame has one holder at
a time, who finds it zeroed and later finds what was stored in it last, and no request panics. A
pool with a size class for every block that its frames can make up refuses a frame only when all
are held. A larger pool loses the frames of a block that is joined past the last class.
-/

namespace DemandPaging.FramePool

/-- A request to a frame pool. -/
inductive Request where
  | alloc
  | release (frame : Frame)
  /-- The holder of a frame may change its contents in any way. -/
  | edit (frame : Frame) (change : PageBytes → PageBytes)
  | copy (dst src : Frame)

/-- A pool with the frames that are held, and what each frame was left with. -/
structure Custody where
  pool : FramePool
  out : List Frame
  bytes : Frame → PageBytes

namespace Custody

def fresh (classes total : ℕ) : Custody :=
  ⟨.fresh classes total, [], fun _ => .zero⟩

/-- Serves one request. A frame is given out zeroed. -/
def serve (custody : Custody) : Request → Except Panic (Option Frame × Custody)
  | .alloc =>
    match custody.pool.alloc? with
    | none => .ok (none, custody)
    | some (frame, pool) =>
      .ok (some frame,
        ⟨pool, frame :: custody.out, Function.update custody.bytes frame .zero⟩)
  | .release frame => do
    let pool ← custody.pool.release frame
    return (none, { custody with pool, out := custody.out.erase frame })
  | .edit frame change => do
    let pool ← custody.pool.store frame (change (← custody.pool.load frame))
    let bytes := Function.update custody.bytes frame (change (custody.bytes frame))
    return (none, { custody with pool, bytes })
  | .copy dst src => do
    let pool ← custody.pool.copy dst src
    let bytes := Function.update custody.bytes dst (custody.bytes src)
    return (none, { custody with pool, bytes })

/-- A request for frames that are held. -/
def Permits (custody : Custody) : Request → Prop
  | .alloc => True
  | .release frame => frame ∈ custody.out
  | .edit frame _ => frame ∈ custody.out
  | .copy dst src => dst ∈ custody.out ∧ src ∈ custody.out ∧ dst ≠ src

instance (custody : Custody) : DecidablePred custody.Permits
  | .alloc => .isTrue trivial
  | .release frame => inferInstanceAs (Decidable (frame ∈ custody.out))
  | .edit frame _ => inferInstanceAs (Decidable (frame ∈ custody.out))
  | .copy dst src =>
    inferInstanceAs (Decidable (dst ∈ custody.out ∧ src ∈ custody.out ∧ dst ≠ src))

/-! ## One request -/

/-- The pool has given out the frames that are held, and they contain what is stored in them. -/
structure Sound (classes total : ℕ) (custody : Custody) : Prop where
  keeps : ∃ lost, custody.pool.Keeps custody.out lost
  classes_eq : custody.pool.classes = classes
  total_eq : custody.pool.total = total
  load_eq : ∀ frame ∈ custody.out, custody.pool.load frame = .ok (custody.bytes frame)

variable {classes total : ℕ} {custody : Custody} {frame dst src : Frame}

namespace Sound

variable (h : custody.Sound classes total)

include h

theorem nodup : custody.out.Nodup :=
  h.keeps.elim fun _ hkeeps => hkeeps.nodup

theorem lt_total : ∀ frame ∈ custody.out, frame < total :=
  h.total_eq ▸ h.keeps.elim fun _ hkeeps => hkeeps.lt_total

theorem allocated : custody.pool.allocated = custody.out.length :=
  h.keeps.elim fun _ hkeeps => hkeeps.allocated

theorem length_le : custody.out.length ≤ total :=
  h.total_eq ▸ h.keeps.elim fun _ hkeeps => hkeeps.length_le

theorem alloc {pool : FramePool} (halloc : custody.pool.alloc? = some (frame, pool)) :
    Sound classes total
      ⟨pool, frame :: custody.out, Function.update custody.bytes frame .zero⟩ := by
  obtain ⟨lost, hkeeps⟩ := h.keeps
  obtain ⟨-, -, hnext⟩ := hkeeps.alloc? halloc
  refine ⟨⟨lost, hnext⟩, (classes_of_alloc? halloc).trans h.classes_eq,
    (total_of_alloc? halloc).trans h.total_eq, fun other hother => ?_⟩
  simp only [hkeeps.load_alloc? halloc other]
  by_cases ho : other = frame
  · rw [if_pos ho, ho, Function.update_self]
  · rw [if_neg ho, Function.update_of_ne ho]
    exact h.load_eq other ((List.mem_cons.mp hother).resolve_left ho)

theorem release (hheld : frame ∈ custody.out) :
    ∃ pool, custody.pool.release frame = .ok pool ∧
      Sound classes total { custody with pool, out := custody.out.erase frame } := by
  obtain ⟨lost, hkeeps⟩ := h.keeps
  obtain ⟨pool, lost', hrelease, hnext, hclasses, hmemory⟩ :=
    (hkeeps.perm (List.perm_cons_erase hheld)).release
  refine ⟨pool, hrelease, ⟨lost', hnext⟩, hclasses.trans h.classes_eq,
    (total_of_release hrelease).trans h.total_eq, fun other hother => ?_⟩
  exact (load_of_memory_eq hmemory other).trans (h.load_eq other (List.mem_of_mem_erase hother))

theorem store (hheld : frame ∈ custody.out) (page : PageBytes) :
    ∃ pool, custody.pool.store frame page = .ok pool ∧ Sound classes total
      { custody with pool, bytes := Function.update custody.bytes frame page } := by
  obtain ⟨lost, hkeeps⟩ := h.keeps
  obtain ⟨pool, hstore⟩ := store_of_lt (hkeeps.lt_total frame hheld) page
  refine ⟨pool, hstore, ⟨lost, hkeeps.store hstore⟩, (classes_of_store hstore).trans h.classes_eq,
    (total_of_store hstore).trans h.total_eq, fun other hother => ?_⟩
  simp only [load_of_store hstore other]
  by_cases ho : other = frame
  · rw [if_pos ho, ho, Function.update_self]
  · rw [if_neg ho, Function.update_of_ne ho]
    exact h.load_eq other hother

theorem copy (hdst : dst ∈ custody.out) (hsrc : src ∈ custody.out) (hne : dst ≠ src) :
    ∃ pool, custody.pool.copy dst src = .ok pool ∧ Sound classes total
      { custody with pool, bytes := Function.update custody.bytes dst (custody.bytes src) } := by
  rw [copy_eq_store hne (h.load_eq src hsrc)]
  exact h.store hdst (custody.bytes src)

/-- A request for frames that are held is served. -/
theorem serve {request : Request} (hpermits : custody.Permits request) :
    ∃ answer next, custody.serve request = .ok (answer, next) ∧ next.Sound classes total := by
  cases request with
  | alloc =>
      simp only [Custody.serve]
      cases halloc : custody.pool.alloc? with
      | none => exact ⟨none, custody, rfl, h⟩
      | some pair => exact ⟨_, _, rfl, h.alloc halloc⟩
  | release frame =>
      obtain ⟨pool, hrelease, hsound⟩ := h.release hpermits
      refine ⟨none, _, ?_, hsound⟩
      rw [Custody.serve, hrelease]
      rfl
  | edit frame change =>
      obtain ⟨pool, hstore, hsound⟩ := h.store hpermits (change (custody.bytes frame))
      refine ⟨none, _, ?_, hsound⟩
      rw [Custody.serve, h.load_eq frame hpermits]
      change (custody.pool.store frame (change (custody.bytes frame)) >>= _) = _
      rw [hstore]
      rfl
  | copy dst src =>
      obtain ⟨hdst, hsrc, hne⟩ := hpermits
      obtain ⟨pool, hcopy, hsound⟩ := h.copy hdst hsrc hne
      refine ⟨none, _, ?_, hsound⟩
      rw [Custody.serve, hcopy]
      rfl

end Sound

/-! ## Any requests -/

/-- A pool of `total` frames keeps account of the frames that are held. -/
structure Accounts (classes total : ℕ) (custody : Custody) : Prop where
  total_eq : custody.pool.total = total
  nodup : custody.out.Nodup
  lt_total : ∀ frame ∈ custody.out, frame < total
  allocated_eq : custody.pool.allocated = custody.out.length
  allocated_le : custody.pool.allocated ≤ total
  /-- Every frame that is held contains what was stored in it last, or zeros. -/
  load_eq : ∀ frame ∈ custody.out, custody.pool.load frame = .ok (custody.bytes frame)
  refused : (∀ frame < total, frame ∈ custody.out) → custody.pool.alloc? = none
  /-- As long as the blocks of the pool have a size class, no frame is refused but for want. -/
  full_iff : total < 2 ^ classes →
    (custody.pool.alloc? = none ↔ ∀ frame < total, frame ∈ custody.out)
  full_iff_length : total < 2 ^ classes →
    (custody.pool.alloc? = none ↔ custody.out.length = total)
  /-- The next frame that is given out is nobody's, and it is zeroed. -/
  given : ∀ frame pool, custody.pool.alloc? = some (frame, pool) →
    frame < total ∧ frame ∉ custody.out ∧ pool.load frame = .ok .zero ∧
      ∀ other ≠ frame, pool.load other = custody.pool.load other
  /-- A write to one frame changes no other. -/
  stored : ∀ frame ∈ custody.out, ∀ page, ∃ pool, custody.pool.store frame page = .ok pool ∧
    ∀ other, pool.load other = if other = frame then .ok page else custody.pool.load other
  copied : ∀ dst ∈ custody.out, ∀ src ∈ custody.out, dst ≠ src →
    ∃ pool, custody.pool.copy dst src = .ok pool ∧
      ∀ other, pool.load other = custody.pool.load (if other = dst then src else other)

theorem Sound.refused (h : custody.Sound classes total)
    (hall : ∀ frame < total, frame ∈ custody.out) : custody.pool.alloc? = none := by
  cases halloc : custody.pool.alloc? with
  | none => rfl
  | some pair =>
      obtain ⟨frame, pool⟩ := pair
      obtain ⟨lost, hkeeps⟩ := h.keeps
      obtain ⟨hlt, hnot, -⟩ := hkeeps.alloc? halloc
      exact absurd (hall frame (h.total_eq ▸ hlt)) hnot

theorem Sound.full_iff (h : custody.Sound classes total) (hfits : total < 2 ^ classes) :
    custody.pool.alloc? = none ↔ ∀ frame < total, frame ∈ custody.out := by
  obtain ⟨lost, hkeeps⟩ := h.keeps
  have hsupplies := hkeeps.supplies (by rwa [h.total_eq, h.classes_eq])
  exact ⟨fun hfull frame hlt => hsupplies.mem_of_alloc?_eq_none hfull (h.total_eq ▸ hlt), h.refused⟩

theorem Sound.forall_mem_iff (h : custody.Sound classes total) :
    (∀ frame < total, frame ∈ custody.out) ↔ custody.out.length = total := by
  have hsub : custody.out.toFinset ⊆ Finset.range total := fun frame hmem =>
    Finset.mem_range.mpr (h.lt_total frame (List.mem_toFinset.mp hmem))
  have hcard : custody.out.toFinset.card = custody.out.length :=
    List.toFinset_card_of_nodup h.nodup
  constructor
  · intro hall
    have hsup : Finset.range total ⊆ custody.out.toFinset := fun frame hmem =>
      List.mem_toFinset.mpr (hall frame (Finset.mem_range.mp hmem))
    rw [← hcard, hsub.antisymm hsup, Finset.card_range]
  · intro hlength frame hframe
    have hall := Finset.eq_of_subset_of_card_le hsub (by rw [hcard, hlength, Finset.card_range])
    exact List.mem_toFinset.mp (hall ▸ Finset.mem_range.mpr hframe)

theorem Sound.accounts (h : custody.Sound classes total) : custody.Accounts classes total where
  total_eq := h.total_eq
  nodup := h.nodup
  lt_total := h.lt_total
  allocated_eq := h.allocated
  allocated_le := h.allocated ▸ h.length_le
  load_eq := h.load_eq
  refused := h.refused
  full_iff := h.full_iff
  full_iff_length hfits := (h.full_iff hfits).trans h.forall_mem_iff
  given frame pool halloc := by
    obtain ⟨lost, hkeeps⟩ := h.keeps
    obtain ⟨hlt, hnot, -⟩ := hkeeps.alloc? halloc
    have hload := hkeeps.load_alloc? halloc
    refine ⟨h.total_eq ▸ hlt, hnot, ?_, fun other ho => ?_⟩
    · rw [hload, if_pos rfl]
    · rw [hload, if_neg ho]
  stored frame hheld page := by
    obtain ⟨pool, hstore, -⟩ := h.store hheld page
    exact ⟨pool, hstore, load_of_store hstore⟩
  copied dst hdst src hsrc hne := by
    have hsrc' := h.load_eq src hsrc
    obtain ⟨pool, hstore, -⟩ := h.store hdst (custody.bytes src)
    refine ⟨pool, (copy_eq_store hne hsrc').trans hstore, fun other => ?_⟩
    rw [load_of_store hstore]
    split
    · exact hsrc'.symm
    · rfl

/-- Two frames make up a block for which a single size class has no place: when one of them comes
back, both are lost. -/
example : let session := Session.run serve (fresh 1 2) [.alloc, .release 0]
    session.state.out = [] ∧ session.state.pool.alloc?.isNone = true := by
  decide +kernel

end Custody

end DemandPaging.FramePool
