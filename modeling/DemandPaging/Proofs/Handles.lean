import DemandPaging.Proofs.References
import DemandPaging.Proofs.Runs

/-! # Open handles

Beside the handles that were opened from outside, a file has one open handle for each of its
backings. A backing takes its handle along when it is closed, so no step loses a handle or leaves
one behind.
-/

namespace DemandPaging

namespace FileStore

variable {store changed : FileStore} {id : BackingId} {file other : FileId} {outside : FileId → ℕ}

/-! ## Counting handles -/

def handles (store : FileStore) (file : FileId) : ℕ :=
  (store.files[file]?).elim 0 File.handles

def openOn (store : FileStore) (file : FileId) : Set BackingId :=
  {id | ∃ backing, store.backing? id = some backing ∧ backing.file = file}

/-- Beside the handles that were opened from outside, every backing has one of its own. -/
def Balanced (outside : FileId → ℕ) (store : FileStore) : Prop :=
  ∀ file, (store.handles file : ℕ∞) = outside file + (store.openOn file).encard

theorem balanced_ofFiles (files : Array File) :
    (ofFiles files).Balanced (ofFiles files).handles := by
  intro file
  have hnone : (ofFiles files).openOn file = ∅ := by
    refine Set.eq_empty_of_forall_notMem ?_
    rintro id ⟨backing, ⟨⟩, -⟩
  rw [hnone, Set.encard_empty, add_zero]

theorem Balanced.handles_eq (h : store.Balanced outside) (h' : changed.Balanced outside)
    (hopen : changed.openOn file = store.openOn file) :
    changed.handles file = store.handles file := by
  have hcount := (h' file).trans (hopen ▸ (h file).symm)
  exact_mod_cast hcount

theorem Balanced.congr (h : store.Balanced outside) (hhandles : changed.handles = store.handles)
    (hopen : changed.openOn = store.openOn) : changed.Balanced outside := by
  intro file
  rw [hhandles, hopen]
  exact h file

/-! ## Handles after a change -/

theorem handles_modifyFile (store : FileStore) (file other : FileId) (change : File → File) :
    (store.modifyFile file change).handles other =
      if file = other then (store.files[file]?).elim 0 fun content => (change content).handles
      else store.handles other := by
  simp only [handles, modifyFile, Array.getElem?_modify]
  split
  · next h =>
    subst h
    cases store.files[file]? <;> rfl
  · rfl

theorem handles_modifyFile_of_kept {change : File → File}
    (hkept : ∀ content, (change content).handles = content.handles) :
    (store.modifyFile file change).handles = store.handles := by
  funext other
  rw [handles_modifyFile]
  split
  · next h =>
    subst h
    simp only [hkept]
    rfl
  · rfl

theorem handles_retain (store : FileStore) (id : BackingId) :
    (store.retain id).handles = store.handles := by
  unfold retain
  split <;> rfl

theorem openOn_retain (store : FileStore) (id : BackingId) :
    (store.retain id).openOn = store.openOn := by
  funext file
  ext other
  simp only [openOn, Set.mem_ofPred_eq, backing?_retain]
  split
  · next h =>
    subst h
    cases store.backing? id <;> simp
  · rfl

theorem Balanced.retain (h : store.Balanced outside) (id : BackingId) :
    (store.retain id).Balanced outside :=
  h.congr (handles_retain store id) (openOn_retain store id)

theorem openOn_release_of_lt {backing : Backing} (hid : store.backing? id = some backing)
    (hlt : 1 < backing.refs) : (store.release id).openOn = store.openOn := by
  funext file
  ext other
  simp only [openOn, Set.mem_ofPred_eq, backing?_release]
  split
  · next h =>
    subst h
    simp [hid, Nat.not_le_of_lt hlt]
  · rfl

theorem openOn_release_of_le {backing : Backing} (hid : store.backing? id = some backing)
    (hle : backing.refs ≤ 1) (file : FileId) :
    (store.release id).openOn file = store.openOn file \ {id} := by
  ext other
  simp only [openOn, Set.mem_ofPred_eq, backing?_release, Set.mem_sdiff, Set.mem_singleton_iff]
  split
  · next h =>
    subst h
    simp [hid, hle]
  · next h => simp [Ne.symm h]

theorem handles_release_of_le {backing : Backing} (hid : store.backing? id = some backing)
    (hle : backing.refs ≤ 1) (file : FileId) :
    (store.release id).handles file =
      store.handles file - if backing.file = file then 1 else 0 := by
  have hclosed : (store.release id).handles =
      (store.modifyFile backing.file File.closeHandle).handles := by
    simp only [release, hid, if_pos hle]
    rfl
  rw [hclosed, handles_modifyFile]
  split
  · next he =>
    subst he
    unfold handles
    cases store.files[backing.file]? <;> rfl
  · rfl

theorem Balanced.release (h : store.Balanced outside) (id : BackingId) :
    (store.release id).Balanced outside := by
  cases hid : store.backing? id with
  | none =>
      have hsame : store.release id = store := by simp only [FileStore.release, hid]
      rwa [hsame]
  | some backing =>
      by_cases hle : backing.refs ≤ 1
      · intro file
        have hcount := h file
        rw [handles_release_of_le hid hle, openOn_release_of_le hid hle]
        split
        · next he =>
          have hmem : id ∈ store.openOn file := ⟨backing, hid, he⟩
          rw [← Set.encard_sdiff_singleton_add_one hmem, ← add_assoc] at hcount
          rw [ENat.natCast_sub, hcount]
          exact ENat.addLECancellable_of_ne_top ENat.one_ne_top |>.add_tsub_cancel_right
        · next he =>
          have hnot : id ∉ store.openOn file := by
            rintro ⟨other, hother, hfile⟩
            exact he (Option.some.inj (hid.symm.trans hother) ▸ hfile)
          rwa [Set.sdiff_singleton_eq_self hnot]
      · have hlt : 1 < backing.refs := Nat.lt_of_not_le hle
        refine h.congr ?_ (openOn_release_of_lt hid hlt)
        simp only [FileStore.release, hid, if_neg hle]
        rfl

theorem handles_of_opened (hopens : store.reopenError? file = none)
    (hfiles : changed.files = store.files.modify file File.openHandle) (other : FileId) :
    changed.handles other = store.handles other + if file = other then 1 else 0 := by
  have hchanged : changed.handles other =
      (store.modifyFile file File.openHandle).handles other := by
    rw [handles, hfiles]
    rfl
  rw [hchanged, handles_modifyFile]
  split
  · next he =>
    subst he
    unfold reopenError? at hopens
    split at hopens
    · cases hopens
    · next content hcontent =>
      rw [handles, hcontent]
      rfl
  · rfl

theorem handles_reopen {base : VirtPage} {pages : ℕ}
    (hopen : store.reopen file base pages = .ok (id, changed)) (other : FileId) :
    changed.handles other = store.handles other + if file = other then 1 else 0 := by
  unfold reopen at hopen
  split at hopen
  · cases hopen
  · next hopens =>
    obtain ⟨-, rfl⟩ := Prod.mk.inj (Except.ok.inj hopen)
    exact handles_of_opened hopens rfl other

theorem openOn_reopen {base : VirtPage} {pages : ℕ} (hn : store.Numbered)
    (hopen : store.reopen file base pages = .ok (id, changed)) (other : FileId) :
    changed.openOn other = if file = other then insert id (store.openOn other)
      else store.openOn other := by
  obtain ⟨rfl, -, hback⟩ := backing?_reopen hopen
  have hfresh : store.backing? store.nextBacking = none := by
    by_contra hne
    obtain ⟨backing, hother⟩ := Option.ne_none_iff_exists'.mp hne
    exact lt_irrefl _ (hn.lt_next hother)
  ext own
  by_cases hown : store.nextBacking = own
  · subst hown
    by_cases hfile : file = other <;> simp [openOn, hback, hfile, hfresh]
  · by_cases hfile : file = other <;> simp [openOn, hback, hown, hfile, Ne.symm hown]

theorem Balanced.reopen {base : VirtPage} {pages : ℕ} (h : store.Balanced outside)
    (hn : store.Numbered) (hopen : store.reopen file base pages = .ok (id, changed)) :
    changed.Balanced outside := by
  intro other
  rw [handles_reopen hopen, openOn_reopen hn hopen]
  have hcount := h other
  split
  · obtain ⟨rfl, -⟩ := backing?_reopen hopen
    have hfresh : store.nextBacking ∉ store.openOn other := by
      rintro ⟨backing, hother, -⟩
      exact lt_irrefl _ (hn.lt_next hother)
    rw [Set.encard_insert_of_notMem hfresh, Nat.cast_add, hcount]
    exact add_assoc _ _ _
  · exact hcount

end FileStore

/-! ## Steps -/

section

variable {outside : FileId → ℕ} {files : FileStore}

theorem Page.balanced_retainedIn (page : Page) (h : files.Balanced outside) :
    (page.retainedIn files).Balanced outside := by
  unfold retainedIn
  cases page.backing? with
  | none => exact h
  | some id => exact h.retain id

theorem Page.balanced_releasedIn (page : Page) (h : files.Balanced outside) :
    (page.releasedIn files).Balanced outside := by
  unfold releasedIn
  cases page.backing? with
  | none => exact h
  | some id => exact h.release id

theorem PageKind.balanced_savedIn (kind : PageKind) (bytes : PageBytes) (dirty : Bool)
    (h : files.Balanced outside) : (kind.savedIn bytes dirty files).Balanced outside := by
  unfold savedIn
  split
  · next segment =>
    split
    · unfold Segment.writeBack
      split
      · exact h
      · exact h.congr (FileStore.handles_modifyFile_of_kept fun _ => rfl) rfl
    · exact h
  · exact h

theorem Fill.balanced {swap swap' : SwapArea} {files' : FileStore} {kind kind' : PageKind}
    {bytes : PageBytes} (hfill : Fill swap files kind bytes kind' swap' files')
    (h : files.Balanced outside) : files'.Balanced outside := by
  cases hfill with
  | copy => exact h.release _
  | zero | share | slot | file => exact h

variable {d : Deed} {V W : View}

/-- No step opens a handle without a backing, or leaves one behind. -/
theorem Step.balanced (hstep : Step d V W) (hn : V.files.Numbered)
    (h : V.files.Balanced outside) : W.files.Balanced outside := by
  cases hstep with
  | evict full victim found mapped loaded spilled zeroed => exact PageKind.balanced_savedIn _ _ _ h
  | bring found absent first filled stored => exact filled.balanced h
  | register | adopt | inherit | copy => exact Page.balanced_retainedIn _ h
  | discardResident found resident mapped loaded freed =>
      exact Page.balanced_releasedIn _ (PageKind.balanced_savedIn _ _ _ h)
  | discardSlot | discardBare => exact Page.balanced_releasedIn _ h
  | unpin | release => exact h.release _
  | pin inside opened => exact h.reopen hn opened
  | reopen opened => exact h.reopen hn opened
  | edit change kept => exact h.congr (FileStore.handles_modifyFile_of_kept kept) rfl
  | take | sweep | spoil | giveBack | touch | adjust | store | create | next | drop | setUserSp =>
      exact h

/-- The backings of a machine are numbered, and each has its handle. -/
structure View.Balanced (V : View) (outside : FileId → ℕ) : Prop where
  numbered : V.files.Numbered
  balanced : V.files.Balanced outside

theorem Steps.balanced {deeds : Set Deed} (hsteps : Steps deeds V W) (h : V.Balanced outside) :
    W.Balanced outside :=
  hsteps.invariant (fun U => U.Balanced outside)
    (fun _ _ _ _ hstep hU => ⟨hstep.numbered hU.numbered, hstep.balanced hU.numbered hU.balanced⟩) h

end

/-! ## Runs -/

namespace Machine

variable {m m' : Machine} {requests : List (Visit × Op)} {outside : FileId → ℕ}

theorem balanced_run (h : m.Sound) (hb : (m.view [] []).Balanced outside)
    (hrun : m.run? requests = some m') : (m'.view [] []).Balanced outside := by
  refine (run_invariant (fun m => m.Sound ∧ (m.view [] []).Balanced outside)
    (fun request _ m₁ m₂ hinv hstep => ?_) ⟨h, hb⟩ hrun).2
  have hfinished := Op.finished hinv.1 hstep
  exact ⟨hfinished.sound, hfinished.steps.balanced hinv.2⟩

/-- Whatever requests a machine served, no handle is lost or left open. -/
theorem balanced_of_run {frames : ℕ} {disk : Disk} {files : Array File}
    (hframes : frames ≤ PageTable.Entry.frameBound)
    (hrun : (boot frames disk (.ofFiles files)).run? requests = some m) :
    (m.view [] []).Balanced (FileStore.ofFiles files).handles := by
  refine balanced_run (sound_boot hframes disk _) ⟨⟨?_, ?_⟩, ?_⟩ hrun
  · rintro id backing ⟨⟩
  · rintro id backing ⟨⟩
  · exact FileStore.balanced_ofFiles files

end Machine

end DemandPaging
