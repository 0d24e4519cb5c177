import DemandPaging.Proofs.Requests

/-! # Runs of requests

A machine is booted and then serves requests, one after another, in any order. Whatever a request is
asked of, and whether or not it succeeds, it leaves the records of the machine in agreement with
the pages.
-/

namespace DemandPaging

/-! ## Single requests -/

theorem Op.makesNoSpace_of_deeds {op : Op} (hcreate : op ≠ .create) (hfork : ∀ s, op ≠ .fork s)
    {child : SpaceId} {d : Deed} (hd : d ∈ op.deeds child) : d.MakesNoSpace := by
  have hbelongs := Op.belongsTo_of_deeds hd
  have hnot : ¬(op = .create ∨ ∃ t, op = .fork t) := by
    rintro (rfl | ⟨t, rfl⟩)
    · exact hcreate rfl
    · exact hfork t rfl
  cases d
  case create => exact hnot hbelongs
  case next => exact hnot hbelongs
  all_goals trivial

namespace Machine

variable {m m' : Machine} {op : Op}

theorem Sound.steps {deeds : Set Deed} (h : m.Sound)
    (hsteps : Steps deeds (m.view [] []) (m'.view [] [])) (hd : ∀ d ∈ deeds, d.MakesNoSpace) :
    m'.Sound :=
  ⟨hsteps.consistent h.consistent, hsteps.fresh hd h.fresh⟩

end Machine

section

variable {m m' : Machine} {sound : Prop} {op : Op} {visit : Visit}

open MachineM

theorem Ends.reply {α : Type} {action : MachineM α} {done : Machine → Prop}
    {failed : Errno → Machine → Prop} (h : Ends sound action m (fun _ m' => done m') failed)
    (answer : α → Reply) :
    Ends sound (do return answer (← action)) m (fun _ m' => done m') failed :=
  h.bind fun _ _ hdone => Ends.pure hdone

/-- A page of zeros is registered with nothing to refer to, and a page of a file with a reference
that is the caller's affair. -/
theorem alloc_steps {s child : SpaceId} {va : VirtAddr} {writable : Bool} {loader : Loader}
    {target : PageType} (hlive : sound → (m.view [] []).Live s) :
    Ends sound (alloc s va writable loader target) m
      (fun _ m' => Steps ((Op.alloc s va writable loader target).deeds child) (m.view [] [])
        (m'.view [] []))
      fun _ m' => Steps ((Op.alloc s va writable loader target).deeds child) (m.view [] [])
        (m'.view [] []) := by
  refine (alloc_ends hlive va writable loader target).mono ?_ ?_
  · rintro - m' ⟨touch, htouch, hlive, hfresh, hin, hview⟩
    rw [hview]
    cases loader with
    | zero =>
        cases target with
        | file => cases htouch
        | anon =>
            obtain rfl := Except.ok.inj htouch
            refine Steps.single (d := .register s (.untouched va.page writable .zero)) ?_ rfl
            exact Step.register hlive hfresh hin fun _ hs => by simp [FirstTouch.segment?] at hs
    | file segment =>
        refine Steps.single (d := .adopt s (.untouched va.page writable touch)) ?_
          ⟨touch, FirstTouch.segment?_make htouch, rfl⟩
        exact Step.adopt hlive hfresh hin
  · rintro e m' ⟨-, rfl⟩
    exact Steps.refl _

/-- A request other than a fork or a new address space is a sequence of steps, even if it fails. -/
theorem Op.execBy_steps (visit : Visit) (h : m.Sound) (hserves : sound → m.Serves op)
    (hcreate : op ≠ .create) (hfork : ∀ s, op ≠ .fork s) :
    Ends sound (op.execBy visit) m
      (fun _ m' => Steps (op.deeds m.nextSpace) (m.view [] []) (m'.view [] []))
      fun _ m' => Steps (op.deeds m.nextSpace) (m.view [] []) (m'.view [] []) := by
  have hready : ∀ s ∈ op.spaces, Ready sound m s [] := fun s hs =>
    ⟨h.consistent, fun hsound => (hserves hsound).total_pos,
      fun hsound => (hserves hsound).live s hs⟩
  cases op with
  | create => exact absurd rfl hcreate
  | fork s => exact absurd rfl (hfork s)
  | drop s =>
      have hdrop := dropSpaceBy_ends visit (hready s (by simp [Op.spaces]))
      refine (hdrop.mono ?_ ?_).reply fun _ => .done
      · exact fun _ _ hsteps => hsteps
      · exact fun _ _ hf => hf.elim
  | copy dst src =>
      have hdst := hready dst (by simp [Op.spaces])
      have hsrc := hready src (by simp [Op.spaces])
      exact (copySpaceBy_ends visit hdst hsrc.live).reply fun _ => .done
  | alloc s va writable loader target =>
      exact (alloc_steps (hready s (by simp [Op.spaces])).live).reply fun _ => .done
  | claim s va =>
      have hs := hready s (by simp [Op.spaces])
      have hclaim := claimAt_ends h.consistent hs.total_pos hs.live va
      exact (hclaim.mono (fun _ _ hok => hok.1) fun _ _ hf => hf.2).reply fun _ => .done
  | fault s f =>
      have hs := hready s (by simp [Op.spaces])
      have hfault := handleFault_ends h.consistent hs.total_pos hs.live f
      have hsub := Deed.resolving_subset_faulting s (VirtAddr.page ⟨f.addr⟩)
      exact (hfault.mono (fun _ _ hok => hok.2.1.mono hsub) fun _ _ hf => hf.2.mono hsub).reply
        fun _ => .done
  | setUserSp s userSp =>
      have hset := setUserSp_ends (hready s (by simp [Op.spaces])).live userSp
      refine (hset.mono ?_ ?_).reply fun _ => .done
      · exact fun _ _ hstep => Steps.single hstep rfl
      · exact fun _ _ hf => hf.elim
  | setupStack s =>
      have hsub := Set.insert_subset_insert (a := Deed.setUserSp s)
        (Deed.resolving_subset_faulting s stackPage)
      refine Ends.reply ((setupStack_ends (hready s (by simp [Op.spaces]))).mono ?_ ?_) fun va =>
        .address va.val
      · exact fun _ _ hsteps => hsteps.mono hsub
      · exact fun _ _ hsteps => hsteps.mono hsub
  | read s va buffer =>
      refine (readUser_ends (hready s (by simp [Op.spaces])) va buffer).bind_total ?_
      exact fun _ _ hsteps => Ends.pure hsteps
  | write s va data =>
      exact (writeUser_ends (hready s (by simp [Op.spaces])) va data).reply fun _ => .done
  | remove s va =>
      refine ((remove_ends (hready s (by simp [Op.spaces])) va).mono ?_ ?_).reply fun _ => .done
      · exact fun _ _ hsteps => hsteps
      · rintro - m' rfl
        exact Steps.refl _
  | recycle s =>
      have hrecycle := recycleBy_ends visit (hready s (by simp [Op.spaces]))
      refine (hrecycle.mono ?_ ?_).reply fun _ => .done
      · exact fun _ _ hsteps => hsteps
      · exact fun _ _ hf => hf.elim
  | map s va length writable file offset =>
      have hmap := mapFile_ends (hready s (by simp [Op.spaces])).live va length writable file offset
      refine (hmap.mono ?_ ?_).reply fun va => .address va.val
      · exact fun _ _ hsteps => hsteps
      · rintro - m' rfl
        exact Steps.refl _
  | unmap s va =>
      have hbacked : sound → Backed m := fun hsound => (hserves hsound).backed
      exact (unmap_ends (hready s (by simp [Op.spaces])) hbacked va).reply fun _ => .done
  | loadExecutable s va file offset readBytes zeroBytes writable =>
      have hload := loadExecutable_ends (hready s (by simp [Op.spaces])).live va file offset
        readBytes zeroBytes writable
      refine (hload.mono ?_ ?_).reply fun _ => .done
      · exact fun _ _ hsteps => hsteps
      · rintro - m' rfl
        exact Steps.refl _
  | mapCall s descriptors addr length writable fd offset =>
      have hmap := mapCall_ends (hready s (by simp [Op.spaces])).live descriptors addr length
        writable fd offset
      refine Ends.map (hmap.mono ?_ ?_)
      · rintro addr m' ⟨file, hfile, hsteps⟩
        exact hsteps.mono fun d hd => ⟨file, hfile, hd⟩
      · exact fun _ _ hview => Steps.of_eq hview
  | unmapCall s addr =>
      have hbacked : sound → Backed m := fun hsound => (hserves hsound).backed
      exact (unmapCall_ends (hready s (by simp [Op.spaces])) hbacked addr).reply fun _ => .done
  | access s va isWrite =>
      refine (processorAccess_ends (hready s (by simp [Op.spaces])) va isWrite).mono ?_ ?_
      · exact fun _ _ hsteps => hsteps
      · exact fun _ _ hf => hf.elim
  | setFlags s va accessed dirty =>
      refine (setFlags_ends (hready s (by simp [Op.spaces])).live va accessed dirty).mono ?_ ?_
      · exact fun _ _ hsteps => hsteps
      · exact fun _ _ hf => hf.elim
  | reopen file base pages =>
      refine Ends.map ((reopen_ends file base pages m).mono ?_ ?_)
      · rintro id m' ⟨files, hopen, rfl⟩
        exact Steps.single (Step.reopen hopen) rfl
      · rintro - m' rfl
        exact Steps.refl _
  | release backing => exact Ends.of_ok rfl (Steps.single (Step.release backing) rfl)
  | truncate file length => exact Ends.of_ok rfl (Steps.single (Step.edit _ fun _ => rfl) rfl)
  | writeFile file offset data => exact Ends.of_ok rfl (Steps.single (Step.edit _ fun _ => rfl) rfl)

/-- The machine after a request, whatever came of it. -/
structure Op.Finished (op : Op) (m m' : Machine) : Prop where
  steps : Steps (op.deeds m.nextSpace) (m.view [] []) (m'.view [] [])
  sound : m'.Sound

theorem Op.finished_of_steps (h : m.Sound) (hcreate : op ≠ .create) (hfork : ∀ s, op ≠ .fork s)
    (hsteps : Steps (op.deeds m.nextSpace) (m.view [] []) (m'.view [] [])) : op.Finished m m' :=
  ⟨hsteps, h.steps hsteps fun _ hd => op.makesNoSpace_of_deeds hcreate hfork hd⟩

theorem Op.fork_ends (visit : Visit) (h : m.Sound) (s : SpaceId) :
    Ends False ((Op.fork s).execBy visit) m
      (fun reply m' => reply = .space m.nextSpace ∧ Completed m m' s)
      fun e m' => e = .ioError ∧ (m.view [] []).Live s ∧
        ∃ m₁, (m₁.view [] []).Unreadable s ∧ Abandoned m m₁ m' s := by
  have hready : Ready False m s [] := ⟨h.consistent, False.elim, False.elim⟩
  refine Ends.map ((forkBy_ends visit hready h.fresh).mono ?_ fun _ _ hfailed => hfailed)
  rintro child m' ⟨rfl, hdone⟩
  exact ⟨rfl, hdone⟩

theorem Op.execBy_finished (visit : Visit) (h : m.Sound) :
    Ends False (op.execBy visit) m (fun _ m' => op.Finished m m') fun _ m' => op.Finished m m' := by
  by_cases hcreate : op = .create
  · obtain rfl := hcreate
    refine Ends.map ((createSpace_ends h).mono ?_ ?_)
    · rintro s m' ⟨-, hsteps, hfresh⟩
      exact ⟨hsteps, hsteps.consistent h.consistent, hfresh⟩
    · exact fun _ _ hf => hf.elim
  by_cases hfork : ∃ s, op = .fork s
  · obtain ⟨s, rfl⟩ := hfork
    refine (Op.fork_ends visit h s).mono ?_ ?_
    · rintro reply m' ⟨-, hdone⟩
      exact ⟨hdone.steps.mono fun d hd => forking_of_making hd,
        hdone.steps.consistent h.consistent, hdone.fresh⟩
    · rintro e m' ⟨-, -, m₁, -, hleft⟩
      exact ⟨hleft.steps, hleft.steps.consistent h.consistent, hleft.fresh⟩
  have hnot : ∀ s, op ≠ .fork s := fun s he => hfork ⟨s, he⟩
  refine (Op.execBy_steps visit h False.elim hcreate hnot).mono ?_ ?_
  · exact fun _ _ hsteps => Op.finished_of_steps h hcreate hnot hsteps
  · exact fun _ _ hsteps => Op.finished_of_steps h hcreate hnot hsteps

/-- What holds however a request ends holds of the machine after it. -/
theorem Ends.of_step? {done : Machine → Prop}
    (h : Ends sound (op.execBy visit) m (fun _ m' => done m') fun _ m' => done m')
    (hstep : m.step? visit op = some m') : done m' := by
  unfold Machine.step? at hstep
  split at hstep
  · next he => exact Option.some.inj hstep ▸ h.ok_of_eq he
  · next he => exact Option.some.inj hstep ▸ h.failed_of_eq he
  · cases hstep

theorem Op.finished (h : m.Sound) (hstep : m.step? visit op = some m') : op.Finished m m' :=
  (op.execBy_finished visit h).of_step? hstep

end

/-! ## Sequences of requests -/

namespace Machine

variable {m m' : Machine} {visit : Visit} {op : Op} {requests : List (Visit × Op)}

/-- A run of requests ends where a request panics. -/
theorem step?_eq_none :
    m.step? visit op = none ↔ ∃ p m', op.execBy visit m = .error (.panicked p) m' := by
  unfold step?
  split
  · next he => simp [he]
  · next he => simp [he]
  · next he => simp [he]

theorem run?_cons (visit : Visit) (op : Op) (requests : List (Visit × Op)) (m : Machine) :
    m.run? ((visit, op) :: requests) =
      (m.step? visit op).bind fun m' => m'.run? requests := rfl

theorem run?_append (requests more : List (Visit × Op)) (m : Machine) :
    m.run? (requests ++ more) = (m.run? requests).bind fun m' => m'.run? more :=
  List.foldlM_append

def answer? (m : Machine) (visit : Visit) (op : Op) : Option (Reply × Machine) :=
  match op.execBy visit m with
  | .ok reply m' => some (reply, m')
  | .error _ _ => none

theorem execBy_of_answer? {reply : Reply} (h : m.answer? visit op = some (reply, m')) :
    op.execBy visit m = .ok reply m' := by
  unfold answer? at h
  split at h
  · next hexec =>
    cases h
    exact hexec
  · cases h

/-- The buffer of a read that ends with some error, or with none, and the machine after it. -/
def read? (m : Machine) (visit : Visit) (s : SpaceId) (va : VirtAddr) (buffer : Bytes)
    (error : Option Errno) : Option (Bytes × Machine) :=
  match m.answer? visit (.read s va buffer) with
  | some (.buffer bytes ended, m') => if ended = error then some (bytes, m') else none
  | _ => none

theorem execBy_of_read? {s : SpaceId} {va : VirtAddr} {buffer bytes : Bytes}
    {error : Option Errno} (h : m.read? visit s va buffer error = some (bytes, m')) :
    (Op.read s va buffer).execBy visit m = .ok (.buffer bytes error) m' := by
  unfold read? at h
  split at h
  · next hanswer =>
    split at h
    · next hended =>
      cases h
      exact hended ▸ execBy_of_answer? hanswer
    · cases h
  · cases h

/-- What every request keeps is kept by a run of requests. -/
theorem run_invariant (inv : Machine → Prop)
    (hstep : ∀ request ∈ requests, ∀ {m m' : Machine}, inv m →
      m.step? request.1 request.2 = some m' → inv m') (hinv : inv m)
    (hrun : m.run? requests = some m') : inv m' := by
  induction requests generalizing m with
  | nil =>
      obtain rfl := Option.some.inj hrun
      exact hinv
  | cons request requests ih =>
      rw [run?_cons] at hrun
      obtain ⟨m₁, hfirst, hrest⟩ := Option.bind_eq_some_iff.mp hrun
      refine ih (fun later hlater => hstep later (by simp [hlater])) ?_ hrest
      exact hstep request (by simp) hinv hfirst

/-- Every request of a run is allowed on the machine that serves it. -/
def Along (allowed : Machine → Op → Prop) : Machine → List (Visit × Op) → Prop
  | _, [] => True
  | m, (visit, op) :: requests =>
    allowed m op ∧ ∀ m', m.step? visit op = some m' → Along allowed m' requests

theorem along_of_forall {allowed : Machine → Op → Prop}
    (h : ∀ request ∈ requests, ∀ m, allowed m request.2) (m : Machine) :
    m.Along allowed requests := by
  induction requests generalizing m with
  | nil => trivial
  | cons request requests ih =>
      exact ⟨h request (by simp) m, fun m' _ => ih (fun later hl => h later (by simp [hl])) m'⟩

/-- What every request that is allowed keeps is kept by a run of such requests. -/
theorem along_invariant {allowed : Machine → Op → Prop} (inv : Machine → Prop)
    (hstep : ∀ {visit op m m'}, inv m → allowed m op → m.step? visit op = some m' → inv m')
    (halong : m.Along allowed requests) (hinv : inv m) (hrun : m.run? requests = some m') :
    inv m' := by
  induction requests generalizing m with
  | nil =>
      obtain rfl := Option.some.inj hrun
      exact hinv
  | cons request requests ih =>
      rw [run?_cons] at hrun
      obtain ⟨m₁, hfirst, hrest⟩ := Option.bind_eq_some_iff.mp hrun
      obtain ⟨hallowed, hlater⟩ := halong
      exact ih (hlater m₁ hfirst) (hstep hinv hallowed hfirst) hrest

theorem Sound.run (h : m.Sound) (hrun : m.run? requests = some m') : m'.Sound :=
  run_invariant Sound (fun _ _ _ _ h hstep => (Op.finished h hstep).sound) h hrun

theorem total_run (h : m.Sound) (hrun : m.run? requests = some m') :
    m'.pool.total = m.pool.total := by
  refine (run_invariant (fun m₁ => m₁.Sound ∧ m₁.pool.total = m.pool.total)
    (fun request _ m₁ m₂ hinv hstep => ?_) ⟨h, rfl⟩ hrun).2
  have hfinished := Op.finished hinv.1 hstep
  exact ⟨hfinished.sound, (Steps.total_eq hfinished.steps).trans hinv.2⟩

/-- After a start nothing is registered, and all frames and slots are free. The number of every
frame fits into a page table entry, as the memory that a processor can address requires. -/
theorem sound_boot {frames : ℕ} (hframes : frames ≤ PageTable.Entry.frameBound) (disk : Disk)
    (files : FileStore) : (boot frames disk files).Sound := by
  have hpage : ∀ s vpn, (boot frames disk files).page? s vpn = none := fun s vpn =>
    page?_eq_none rfl vpn
  have hentry : ∀ s vpn, (boot frames disk files).entryAt? s vpn = none := fun s vpn =>
    entryAt?_eq_none rfl vpn
  refine ⟨⟨?_, fun {s vpn} _ => hentry s vpn, ?_, ?_, ?_, ?_⟩, fun s _ hlive => ?_⟩
  · intro s vpn page hp
    cases (hpage s vpn).symm.trans hp
  · rintro ⟨frame, s, vpn⟩
    have hnone : View.frame ((boot frames disk files).view [] []) s vpn = none :=
      View.frame_of_none (hpage s vpn)
    simp only [hnone, reduceCtorEq, iff_false]
    exact List.not_mem_nil
  · exact FramePool.supplies_fresh frames
  · exact le_of_eq_of_le Array.size_replicate hframes
  · refine ⟨[], SwapArea.supplies_onDisk disk, fun slot => ?_, fun {slot s vpn t u} hs => ?_⟩
    · simp only [List.not_mem_nil, false_iff, not_exists]
      intro s vpn hs
      cases (View.slot_of_none (hpage s vpn)).symm.trans hs
    · cases (View.slot_of_none (hpage s vpn)).symm.trans hs
  · exact hlive rfl

/-- A machine that was booted and served requests is sound. -/
theorem sound_of_run {frames : ℕ} {disk : Disk} {files : FileStore}
    (hframes : frames ≤ PageTable.Entry.frameBound)
    (hrun : (boot frames disk files).run? requests = some m) : m.Sound :=
  (sound_boot hframes disk files).run hrun

end Machine

end DemandPaging
