import DemandPaging.Proofs.Eviction
import DemandPaging.Proofs.FreeFrames.Frameless

/-! # What is left in frames

Two machines match if they differ at most in the contents of frames that no page occupies and nobody
holds. An action is blind if it ends the same way on both and leaves them matching. Frames are
handed out zeroed, so no action has to see what was left in them.
-/

namespace DemandPaging

def FramePool.withMemory (pool : FramePool) (memory : Array PageBytes) : FramePool :=
  { pool with memory }

namespace Machine

def withPool (m : Machine) (pool : FramePool) : Machine :=
  { m with pool }

/-- The frames whose contents matter: they are occupied or held. -/
def InUse (m : Machine) (held : List Frame) (frame : Frame) : Prop :=
  frame ∈ m.frames.entries.map FrameEntry.frame ∨ frame ∈ held

/-- A machine that differs at most in the contents of frames that are not in use. -/
inductive Matches (m : Machine) (held : List Frame) : Machine → Prop where
  | intro (memory : Array PageBytes) (size_eq : memory.size = m.pool.memory.size)
      (same : ∀ frame, m.InUse held frame → memory[frame]? = m.pool.memory[frame]?) :
      Matches m held (m.withPool (m.pool.withMemory memory))

variable {m n : Machine} {held other : List Frame} {frame : Frame}

theorem InUse.mono (h : m.InUse held frame) (hsub : held ⊆ other) : m.InUse other frame :=
  h.imp_right fun hin => hsub hin

theorem Matches.mono (h : m.Matches held n) (hsub : other ⊆ held) : m.Matches other n := by
  obtain ⟨memory, hsize, hsame⟩ := h
  exact ⟨memory, hsize, fun frame hin => hsame frame (hin.mono hsub)⟩

theorem Matches.load_eq (h : m.Matches held n) (hin : m.InUse held frame) :
    n.pool.load frame = m.pool.load frame := by
  obtain ⟨memory, -, hsame⟩ := h
  simp only [FramePool.load, withPool, FramePool.withMemory, hsame frame hin]

end Machine

/-- Two runs of an action end the same way and leave machines that match. -/
inductive Agree {α : Type} (after : α → List Frame) :
    EStateM.Result Stop Machine α → EStateM.Result Stop Machine α → Prop where
  | ok {a : α} {m n : Machine} (h : m.Matches (after a) n) : Agree after (.ok a m) (.ok a n)
  | failed {e : Errno} {m n : Machine} (h : m.Matches [] n) :
      Agree after (.error (.failed e) m) (.error (.failed e) n)
  | panicked {p : Panic} {m n : Machine} (h : m.Matches [] n) :
      Agree after (.error (.panicked p) m) (.error (.panicked p) n)

/-- What an action does on a machine does not depend on what is in frames that are not in use. The
frames that are held may be others afterwards. -/
def Blind {α : Type} (held : List Frame) (action : MachineM α) (after : α → List Frame)
    (m : Machine) : Prop :=
  ∀ n, m.Matches held n → Agree after (action m) (action n)

namespace Blind

open MachineM

variable {α β : Type} {held other : List Frame} {action : MachineM α} {next : α → MachineM β}
  {after : α → List Frame} {last : β → List Frame} {m m' : Machine} {frame : Frame} {a : α}

/-! ## Sequences -/

theorem mono {fewer : α → List Frame} (h : Blind held action after m)
    (hsub : ∀ a, fewer a ⊆ after a) : Blind held action fewer m := by
  intro n hn
  have hagree := h n hn
  generalize action m = first at hagree ⊢
  generalize action n = second at hagree ⊢
  cases hagree with
  | ok hmatch => exact .ok (hmatch.mono (hsub _))
  | failed hmatch => exact .failed hmatch
  | panicked hmatch => exact .panicked hmatch

theorem congr {action' : MachineM α} (he : ∀ m, action m = action' m)
    (h : Blind held action' after m) : Blind held action after m := by
  intro n hn
  rw [he m, he n]
  exact h n hn

theorem pure (hsub : after a ⊆ held) : Blind held (Pure.pure a) after m :=
  fun _ hn => .ok (hn.mono hsub)

theorem bind (h : Blind held action after m)
    (hnext : ∀ a m', action m = .ok a m' → Blind (after a) (next a) last m') :
    Blind held (action >>= next) last m := by
  intro n hn
  have hagree := h n hn
  simp only [Bind.bind, EStateM.bind]
  generalize hfirst : action m = first at hagree
  generalize action n = second at hagree
  cases hagree with
  | ok hmatch => exact hnext _ _ hfirst _ hmatch
  | failed hmatch => exact .failed hmatch
  | panicked hmatch => exact .panicked hmatch

/-- An action that has nothing to do with frames is blind. -/
theorem of_frameless (action : MachineM α) [hframeless : Frameless action] :
    Blind held action (fun _ => held) m := by
  rintro n ⟨memory, hsize, hsame⟩
  have hself := hframeless.kept m
  have hother := hframeless.eq m (m.pool.withMemory memory) m.frames
  change action (m.withPool (m.pool.withMemory memory)) = _ at hother
  rw [hother]
  have hmatch : ∀ m' : Machine, m' = m'.withFrames m.pool m.frames →
      m'.Matches held (m'.withFrames (m.pool.withMemory memory) m.frames) := by
    intro m' hkept
    have hpool : m'.pool = (m'.withFrames m.pool m.frames).pool := congrArg Machine.pool hkept
    have hframes : m'.frames = (m'.withFrames m.pool m.frames).frames :=
      congrArg Machine.frames hkept
    change m'.pool = m.pool at hpool
    change m'.frames = m.frames at hframes
    rw [← hpool, ← hframes]
    refine ⟨memory, hpool ▸ hsize, fun frame hin => ?_⟩
    rw [hpool]
    exact hsame frame (by rwa [Machine.InUse, ← hframes])
  cases hrun : action m with
  | ok a m' =>
      rw [hrun] at hself
      exact .ok (hmatch m' (EStateM.Result.ok.inj hself).2)
  | error stop m' =>
      rw [hrun] at hself
      have hleft := (hmatch m' (EStateM.Result.error.inj hself).2).mono (List.nil_subset held)
      cases stop with
      | failed e => exact .failed hleft
      | panicked p => exact .panicked hleft

theorem get {next : Machine → MachineM α} (hsame : ∀ pool, next (m.withPool pool) = next m)
    (hnext : Blind held (next m) after m) : Blind held (MonadState.get >>= next) after m := by
  rintro n ⟨memory, hsize, hmemory⟩
  have hagree := hnext _ ⟨memory, hsize, hmemory⟩
  change Agree after (next m m) (next (m.withPool (m.pool.withMemory memory)) _)
  rw [hsame]
  exact hagree

theorem modify {change : Machine → Machine} {left : List Frame}
    (hpool : ∀ m pool, change (m.withPool pool) = (change m).withPool pool)
    (hin : ∀ frame, (change m).InUse left frame → m.InUse held frame) :
    Blind held (MonadState.modifyGet fun m => ((), change m)) (fun _ => left) m := by
  rintro n ⟨memory, hsize, hsame⟩
  refine .ok ?_
  have hkept : (change m).pool = ((change m).withPool m.pool).pool :=
    congrArg Machine.pool (hpool m m.pool)
  change (change m).pool = m.pool at hkept
  rw [hpool, ← hkept]
  refine ⟨memory, hkept ▸ hsize, fun frame hframe => ?_⟩
  rw [hkept]
  exact hsame frame (hin frame hframe)

theorem attempt (h : Blind [] action (fun _ => []) m) :
    Blind [] (MachineM.attempt action) (fun _ => []) m := by
  intro n hn
  have hagree := h n hn
  simp only [MachineM.attempt]
  generalize action m = first at hagree
  generalize action n = second at hagree
  cases hagree with
  | ok hmatch => exact .ok hmatch
  | failed hmatch => exact .ok hmatch
  | panicked hmatch => exact .panicked hmatch

theorem onStop {cleanup : MachineM Unit} (h : Blind held action after m)
    (hclean : ∀ stop m', action m = .error stop m' → Blind [] cleanup (fun _ => []) m') :
    Blind held (MachineM.onStop action cleanup) after m := by
  intro n hn
  have hagree := h n hn
  simp only [MachineM.onStop]
  generalize hfirst : action m = first at hagree
  generalize action n = second at hagree
  cases hagree with
  | ok hmatch => exact .ok hmatch
  | @failed e m' n' hmatch =>
      have hfail : Blind [] (do cleanup; fail e : MachineM α) after m' :=
        (hclean _ m' hfirst).bind fun _ _ _ => fun _ hn => .failed hn
      exact hfail n' hmatch
  | @panicked p m' n' hmatch =>
      have hends := hclean _ m' hfirst n' hmatch
      simp only
      generalize cleanup m' = first at hends
      generalize cleanup n' = second at hends
      cases hends with
      | ok hleft => exact .panicked hleft
      | failed hleft => exact .panicked hleft
      | panicked hleft => exact .panicked hleft

theorem forM {list : List α} {body : α → MachineM PUnit} (inv : Machine → Prop)
    (hbody : ∀ a ∈ list, ∀ m, inv m → Blind [] (body a) (fun _ => []) m)
    (hends : ∀ a ∈ list, ∀ m, inv m → Ends False (body a) m (fun _ m' => inv m') fun _ _ => True)
    (h : inv m) : Blind [] (list.forM body) (fun _ => []) m := by
  induction list generalizing m with
  | nil => exact pure (List.Subset.refl _)
  | cons a list ih =>
      refine bind (hbody a (by simp) m h) fun _ m' hrun => ?_
      refine ih (fun b hb => hbody b (by simp [hb])) (fun b hb => hends b (by simp [hb])) ?_
      exact (hends a (by simp) m h).ok_of_eq hrun

/-! ## Frames -/

theorem loadFrame (hin : m.InUse held frame) :
    Blind held (MachineM.loadFrame frame) (fun _ => held) m := by
  intro n hn
  have hload := hn.load_eq hin
  change Agree _ (MachineM.ofExcept (m.pool.load frame) m) (MachineM.ofExcept (n.pool.load frame) n)
  rw [hload]
  cases m.pool.load frame with
  | ok bytes => exact .ok hn
  | error p => exact .panicked (hn.mono (List.nil_subset held))

/-- A frame whose contents were replaced has the same contents in both machines. -/
theorem storeFrame (frame : Frame) (bytes : PageBytes) :
    Blind held (MachineM.storeFrame frame bytes) (fun _ => frame :: held) m := by
  rintro n ⟨memory, hsize, hsame⟩
  have htotal : (m.pool.withMemory memory).total = m.pool.total := hsize
  by_cases hlt : frame < m.pool.total
  · have hfirst : m.pool.store frame bytes =
        .ok (m.pool.withMemory (m.pool.memory.setIfInBounds frame bytes)) := if_pos hlt
    have hsecond : (m.withPool (m.pool.withMemory memory)).pool.store frame bytes =
        .ok (m.pool.withMemory (memory.setIfInBounds frame bytes)) := if_pos (htotal ▸ hlt)
    rw [storeFrame_of_ok hfirst, storeFrame_of_ok hsecond]
    refine .ok ⟨memory.setIfInBounds frame bytes, ?_, fun other hin => ?_⟩
    · simpa [FramePool.withMemory] using hsize
    · simp only [FramePool.withMemory, Array.getElem?_setIfInBounds, hsize]
      by_cases ho : frame = other
      · rw [if_pos ho, if_pos ho]
      · rw [if_neg ho, if_neg ho]
        refine hsame other (hin.imp_right fun hmem => ?_)
        exact (List.mem_cons.mp hmem).resolve_left (Ne.symm ho)
  · have hfirst : m.pool.store frame bytes = .error .outOfBounds := if_neg hlt
    have hsecond : (m.withPool (m.pool.withMemory memory)).pool.store frame bytes =
        .error .outOfBounds := if_neg (htotal ▸ hlt)
    rw [storeFrame_of_error hfirst, storeFrame_of_error hsecond]
    exact .panicked (Machine.Matches.mono ⟨memory, hsize, hsame⟩ (List.nil_subset held))

theorem releaseFrame (frame : Frame) :
    Blind held (MachineM.releaseFrame frame) (fun _ => held) m := by
  rintro n ⟨memory, hsize, hsame⟩
  have hsecond : (m.withPool (m.pool.withMemory memory)).pool.release frame =
      (m.pool.release frame).map (·.withMemory memory) := by
    simp only [FramePool.release, FramePool.total, Machine.withPool, FramePool.withMemory, hsize,
      Bind.bind, Except.bind]
    by_cases hle : m.pool.memory.size ≤ frame
    · simp only [hle, if_true]
      rfl
    · simp only [hle, if_false]
      cases checked (Word.sub? m.pool.allocated 1) <;> rfl
  cases hfirst : m.pool.release frame with
  | error p =>
      rw [hfirst] at hsecond
      rw [releaseFrame_of_error hfirst, releaseFrame_of_error hsecond]
      exact .panicked (Machine.Matches.mono ⟨memory, hsize, hsame⟩ (List.nil_subset held))
  | ok pool =>
      rw [hfirst] at hsecond
      have hmemory := FramePool.memory_of_release hfirst
      rw [releaseFrame_of_ok hfirst, releaseFrame_of_ok hsecond]
      refine .ok ⟨memory, ?_, fun frame hin => ?_⟩
      · rw [hmemory]
        exact hsize
      · rw [hmemory]
        exact hsame frame hin

end Blind

end DemandPaging
