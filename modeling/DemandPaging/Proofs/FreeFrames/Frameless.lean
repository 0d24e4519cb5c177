import DemandPaging.Machine.Operation
import Mathlib

/-! # Actions that have nothing to do with frames

Most of what a machine does neither looks at the frame pool and the frame table nor changes them.
Such actions are closed under sequencing and branching, so that the larger ones are recognized by
their parts.
-/

namespace DemandPaging

def Machine.withFrames (m : Machine) (pool : FramePool) (frames : FrameTable) : Machine :=
  { m with pool, frames }

namespace MachineM

variable {α β : Type}

/-- How an action ended, with the machine that it left changed. -/
def mapState (change : Machine → Machine) :
    EStateM.Result Stop Machine α → EStateM.Result Stop Machine α
  | .ok a m => .ok a (change m)
  | .error stop m => .error stop (change m)

/-- An action that neither looks at frames nor changes them. -/
class Frameless (action : MachineM α) : Prop where
  eq : ∀ m pool frames, action (m.withFrames pool frames) =
    mapState (·.withFrames pool frames) (action m)

namespace Frameless

theorem kept {action : MachineM α} [h : Frameless action] (m : Machine) :
    action m = mapState (·.withFrames m.pool m.frames) (action m) :=
  h.eq m m.pool m.frames

theorem frames_eq {action : MachineM α} [h : Frameless action] {m m' : Machine} {a : α}
    (hrun : action m = .ok a m') : m'.frames = m.frames := by
  have hkept := h.kept m
  rw [hrun] at hkept
  have hsame : m'.frames = (m'.withFrames m.pool m.frames).frames :=
    congrArg Machine.frames (EStateM.Result.ok.inj hkept).2
  exact hsame

/-! ## Sequences and branches -/

instance pure (a : α) : Frameless (Pure.pure a : MachineM α) :=
  ⟨fun _ _ _ => rfl⟩

instance fail (error : Errno) : Frameless (MachineM.fail error : MachineM α) :=
  ⟨fun _ _ _ => rfl⟩

instance panic (panic : Panic) : Frameless (MachineM.panic panic : MachineM α) :=
  ⟨fun _ _ _ => rfl⟩

theorem andThen {action : MachineM α} {next : α → MachineM β} [hfirst : Frameless action]
    (hnext : ∀ a, Frameless (next a)) : Frameless (action >>= next) := by
  refine ⟨fun m pool frames => ?_⟩
  simp only [Bind.bind, EStateM.bind, hfirst.eq m pool frames]
  cases action m with
  | ok a m' => exact (hnext a).eq m' pool frames
  | error stop m' => rfl

instance bind {action : MachineM α} {next : α → MachineM β} [Frameless action]
    [hnext : ∀ a, Frameless (next a)] : Frameless (action >>= next) :=
  andThen hnext

instance map {action : MachineM α} {f : α → β} [h : Frameless action] :
    Frameless (f <$> action) := by
  rw [map_eq_pure_bind]
  infer_instance

instance ite {c : Prop} [Decidable c] {action other : MachineM α} [h : Frameless action]
    [h' : Frameless other] : Frameless (if c then action else other) := by
  split
  · exact h
  · exact h'

instance ofExcept (x : Except Panic α) : Frameless (MachineM.ofExcept x) := by
  cases x with
  | ok a => exact pure a
  | error p => exact panic p

instance lift (x : Except Panic α) : Frameless (liftM x : MachineM α) :=
  ofExcept x

instance ofResult (x : Except Errno α) : Frameless (MachineM.ofResult x) := by
  cases x with
  | ok a => exact pure a
  | error e => exact fail e

instance forM {list : List α} {body : α → MachineM PUnit} [hbody : ∀ a, Frameless (body a)] :
    Frameless (list.forM body) := by
  induction list with
  | nil => exact pure _
  | cons a list ih => exact andThen fun _ => ih

theorem of_get {next : Machine → MachineM β}
    (hsame : ∀ m pool frames, next (m.withFrames pool frames) = next m)
    (hnext : ∀ m, Frameless (next m)) : Frameless (get >>= next) := by
  refine ⟨fun m pool frames => ?_⟩
  change next (m.withFrames pool frames) (m.withFrames pool frames) = _
  rw [hsame]
  exact (hnext m).eq m pool frames

/-! ## Single changes -/

instance emit (event : Event) : Frameless (MachineM.emit event) :=
  ⟨fun _ _ _ => rfl⟩

instance putSpace (s : SpaceId) (space : Space) : Frameless (MachineM.putSpace s space) :=
  ⟨fun _ _ _ => rfl⟩

instance retainBacking (id : BackingId) : Frameless (MachineM.retainBacking id) :=
  ⟨fun _ _ _ => rfl⟩

instance releaseBacking (id : BackingId) : Frameless (MachineM.releaseBacking id) :=
  ⟨fun _ _ _ => rfl⟩

instance truncate (file : FileId) (length : ℕ) : Frameless (MachineM.truncate file length) :=
  ⟨fun _ _ _ => rfl⟩

instance writeFile (file : FileId) (offset : ℕ) (data : Bytes) :
    Frameless (MachineM.writeFile file offset data) :=
  ⟨fun _ _ _ => rfl⟩

instance space (s : SpaceId) : Frameless (MachineM.space s) := by
  refine of_get (fun _ _ _ => rfl) fun m => ?_
  split <;> infer_instance

instance releaseSlot (slot : Slot) : Frameless (MachineM.releaseSlot slot) := by
  refine of_get (fun _ _ _ => rfl) fun m => ?_
  have hmodify : ∀ swap : SwapArea, Frameless (modify fun m => { m with swap } : MachineM Unit) :=
    fun _ => ⟨fun _ _ _ => rfl⟩
  infer_instance

/-! ## Pages and backings -/

section

variable (s : SpaceId) (vpn : VirtPage)

instance page : Frameless (MachineM.page s vpn) := by
  refine andThen fun space => ?_
  split <;> infer_instance

instance putPage (page : Page) : Frameless (MachineM.putPage s page) := by
  unfold MachineM.putPage
  infer_instance

instance erasePage : Frameless (MachineM.erasePage s vpn) := by
  unfold MachineM.erasePage
  infer_instance

instance mapPage (frame : Frame) (writable : Bool) :
    Frameless (MachineM.mapPage s vpn frame writable) := by
  unfold MachineM.mapPage
  infer_instance

instance unmapPage : Frameless (MachineM.unmapPage s vpn) := by
  unfold MachineM.unmapPage
  infer_instance

instance retainPage (page : Page) : Frameless (MachineM.retainPage page) := by
  unfold MachineM.retainPage
  split <;> infer_instance

instance releasePage (page : Page) : Frameless (MachineM.releasePage page) := by
  unfold MachineM.releasePage
  split <;> infer_instance

instance readSegment (segment : Segment) (bytes : PageBytes) :
    Frameless (MachineM.readSegment segment bytes) := by
  refine of_get (fun _ _ _ => rfl) fun m => ?_
  infer_instance

instance writeSegment (segment : Segment) (bytes : PageBytes) :
    Frameless (MachineM.writeSegment segment bytes) := by
  refine of_get (fun _ _ _ => rfl) fun m => ?_
  have hmodify : ∀ files : FileStore,
      Frameless (modify fun m => { m with files } : MachineM Unit) :=
    fun _ => ⟨fun _ _ _ => rfl⟩
  infer_instance

instance register (page : Page) : Frameless (MachineM.register s page) := by
  unfold MachineM.register
  infer_instance

instance registerAll (run : List Page) : Frameless (MachineM.registerAll s run) := by
  unfold MachineM.registerAll
  infer_instance

instance alloc (va : VirtAddr) (writable : Bool) (loader : Loader) (target : PageType) :
    Frameless (MachineM.alloc s va writable loader target) := by
  unfold MachineM.alloc
  infer_instance

instance createSpace : Frameless MachineM.createSpace := by
  refine of_get (fun _ _ _ => rfl) fun m => ?_
  have hmodify : Frameless (modify fun n => { n with nextSpace := m.nextSpace + 1 } :
      MachineM Unit) := ⟨fun _ _ _ => rfl⟩
  infer_instance

instance setUserSp (userSp : ℕ) : Frameless (MachineM.setUserSp s userSp) := by
  unfold MachineM.setUserSp
  infer_instance

/-! ## Requests -/

instance userChunks (va : VirtAddr) (length : ℕ) : Frameless (MachineM.userChunks va length) := by
  unfold MachineM.userChunks
  infer_instance

instance require (sound : Bool) : Frameless (MachineM.require sound) := by
  unfold MachineM.require
  infer_instance

instance requireUnoccupied (base : VirtPage) (count : ℕ) :
    Frameless (MachineM.requireUnoccupied s base count) := by
  unfold MachineM.requireUnoccupied
  infer_instance

instance reopen (file : FileId) (base : VirtPage) (pages : ℕ) :
    Frameless (MachineM.reopen file base pages) := by
  refine of_get (fun _ _ _ => rfl) fun m => ?_
  have hmodify : ∀ files : FileStore,
      Frameless (modify fun m => { m with files } : MachineM Unit) :=
    fun _ => ⟨fun _ _ _ => rfl⟩
  infer_instance

instance mapFile (va : VirtAddr) (length : ℕ) (writable : Bool) (file : FileId) (offset : ℕ) :
    Frameless (MachineM.mapFile s va length writable file offset) := by
  refine andThen fun _ => andThen fun _ => of_get (fun _ _ _ => rfl) fun m => ?_
  refine andThen fun _ => andThen fun span => andThen fun _ => andThen fun _ => ?_
  refine andThen fun backing => of_get (fun _ _ _ => rfl) fun m' => ?_
  infer_instance

instance loadExecutable (va : VirtAddr) (file : FileId) (offset readBytes zeroBytes : ℕ)
    (writable : Bool) :
    Frameless (MachineM.loadExecutable s va file offset readBytes zeroBytes writable) := by
  refine andThen fun _ => andThen fun _ => andThen fun _ => andThen fun _ => andThen fun _ => ?_
  dsimp only
  split
  all_goals
    refine andThen fun backing => andThen fun _ => andThen fun _ => ?_
    split <;> infer_instance

instance mapCall (descriptors : Descriptors) (addr length : ℕ) (writable : Bool) (fd offset : ℕ) :
    Frameless (MachineM.mapCall s descriptors addr length writable fd offset) := by
  refine andThen fun _ => ?_
  dsimp only
  split
  · refine andThen fun _ => andThen fun _ => ?_
    split <;> infer_instance
  · split <;> infer_instance

instance processorAccess (va : VirtAddr) (write : Bool) :
    Frameless (MachineM.processorAccess s va write) := by
  refine andThen fun space => ?_
  split <;> infer_instance

instance setFlags (va : VirtAddr) (accessed dirty : Option Bool) :
    Frameless (MachineM.setFlags s va accessed dirty) := by
  unfold MachineM.setFlags
  infer_instance

end

end Frameless

end MachineM

end DemandPaging
