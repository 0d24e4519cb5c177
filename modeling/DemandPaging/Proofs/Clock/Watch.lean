import DemandPaging.Proofs.Clock.Turn
import DemandPaging.Proofs.KeptFrames

/-! # Waiting for an eviction

While pages are brought in, a page that is not accessed either loses its frame or has its turn
brought nearer by every eviction. What else a machine does leaves the page waiting as it is.
-/

namespace DemandPaging

/-- How many pages have come into frames, but for those that left their frames by themselves. -/
def FrameTable.arrivals (table : FrameTable) : ℕ :=
  table.size + table.evictions

/-- How many pages have come into frames, and how many were evicted from them. -/
def FrameTable.turnover (table : FrameTable) : ℕ :=
  table.arrivals + table.evictions

namespace FrameTable

theorem arrivals_push (table : FrameTable) (e : FrameEntry) :
    (table.push e).arrivals = table.arrivals + 1 := by
  have hlength : (table.push e).size = table.size + 1 := List.length_append
  change (table.push e).size + table.evictions = table.size + table.evictions + 1
  omega

theorem turnover_push (table : FrameTable) (e : FrameEntry) :
    (table.push e).turnover = table.turnover + 1 := by
  have harrivals := table.arrivals_push e
  change (table.push e).arrivals + table.evictions = table.arrivals + table.evictions + 1
  omega

theorem arrivals_evicted {table : FrameTable} {index : ℕ} (hindex : index < table.size) :
    (table.evicted index).arrivals = table.arrivals := by
  have hlength := List.length_eraseIdx_of_lt hindex
  change (table.entries.eraseIdx index).length + (table.evictions + 1) =
    table.entries.length + table.evictions
  change index < table.entries.length at hindex
  omega

theorem turnover_evicted {table : FrameTable} {index : ℕ} (hindex : index < table.size) :
    (table.evicted index).turnover = table.turnover + 1 := by
  change (table.evicted index).arrivals + (table.evictions + 1) = _
  rw [arrivals_evicted hindex]
  rfl

end FrameTable

/-- Whether the page of an entry was used since its accessed flag was last cleared. -/
def View.Used (V : View) (f : FrameEntry) : Prop :=
  (V.entry f.space f.vpn).any (·.has .accessed) = true

theorem View.used_iff {m : Machine} {held : List Frame} {pins : List BackingId} {f : FrameEntry} :
    (m.view held pins).Used f ↔ f.isAccessed m.spaces = true := by
  rw [FrameEntry.isAccessed_eq]
  rfl

/-- An entry that is followed until its page loses its frame. -/
structure Watch where
  entry : FrameEntry
  /-- Whether each page that is claimed is accessed before a frame is taken for the next one. -/
  orderly : Prop
  /-- The number of evictions that the page does not survive. -/
  limit : ℕ
  /-- How many pages had arrived when the watch began. -/
  start : ℕ
  /-- The turnover of the frame table that the watch ends with. -/
  horizon : ℕ

/-- Steps that take no frame of a page and give none, and do not access the page that is watched. -/
def Deed.LeavesFrames (w : Watch) : Deed → Prop
  | .touch s vpn _ => w.entry.place ≠ (s, vpn)
  | .sweep | .evict _ _ | .bring _ _ | .copy _ _ _ | .discard _ _ | .adjust _ _ => False
  | _ => True

/-! ## Single steps -/

section

variable {d : Deed} {V W : View} {s : SpaceId} {vpn : VirtPage} {write : Bool}

/-- A page that has no frame gets one only if it is brought in or copied. -/
theorem Step.frame_eq_none (hstep : Step d V W) (h : V.Consistent) (hbring : d ≠ .bring s vpn)
    (hcopy : ∀ src, d ≠ .copy s src vpn) (hnone : V.frame s vpn = none) :
    W.frame s vpn = none := by
  have hput : ∀ {t : SpaceId} {u : VirtPage} {p : Option Page}, W.page = setAt V.page t u p →
      (t = s ∧ u = vpn → p.bind Page.frame = none) → W.frame s vpn = none := by
    intro t u p hpages hp
    rw [View.frame_eq_setAt hpages]
    by_cases hat : t = s ∧ u = vpn
    · obtain ⟨rfl, rfl⟩ := hat
      rw [setAt_same, hp ⟨rfl, rfl⟩]
    · rw [setAt_of_ne hat, hnone]
  cases hstep with
  | evict | discardResident | discardSlot | discardBare => exact hput rfl fun _ => rfl
  | bring found =>
      refine hput rfl fun hat => (hbring ?_).elim
      rw [← hat.1, ← hat.2, (h.settled found).vpn_eq]
  | @copy _ dst src =>
      refine hput rfl fun hat => (hcopy src ?_).elim
      rw [← hat.1, ← hat.2]
  | register | adopt => exact hput rfl fun _ => rfl
  | inherit live found untouched =>
      exact hput rfl fun _ => Page.frame_of_isUninit (h.settled found).placed untouched
  | take | sweep | spoil | giveBack | touch | adjust | store | create | next | drop | setUserSp
  | pin | unpin | edit | reopen | release => exact hnone

theorem Step.of_evict (hstep : Step (.evict s vpn) V W) :
    W.frame s vpn = none ∧
      ∀ t u, ¬(s = t ∧ vpn = u) → W.entry t u = V.entry t u ∧ W.page t u = V.page t u := by
  generalize hd : Deed.evict s vpn = d at hstep
  cases hstep <;> cases hd
  refine ⟨?_, fun t u hne => ⟨setAt_of_ne hne, setAt_of_ne hne⟩⟩
  exact (View.frame_of_page setAt_same).trans rfl

theorem Step.of_bring (hstep : Step (.bring s vpn) V W) (h : V.Consistent) :
    ∃ frame, W.frames = V.frames.push ⟨frame, s, vpn⟩ ∧
      ∀ t u, ¬(s = t ∧ vpn = u) → W.entry t u = V.entry t u := by
  generalize hd : Deed.bring s vpn = d at hstep
  cases hstep with
  | @bring _ s vpn page frame rest bytes kind swap files pool found =>
      obtain ⟨rfl, rfl⟩ := Deed.bring.inj hd
      obtain rfl := (h.settled found).vpn_eq
      exact ⟨frame, rfl, fun t u hne => setAt_of_ne hne⟩
  | _ => cases hd

theorem Step.used_of_touch (hstep : Step (.touch s vpn write) V W) (f : FrameEntry) :
    W.Used f ↔ f.place = (s, vpn) ∨ V.Used f := by
  generalize hd : Deed.touch s vpn write = d at hstep
  cases hstep with
  | @touch _ s vpn entry write mapped =>
      obtain ⟨rfl, rfl, rfl⟩ := Deed.touch.inj hd
      simp only [View.Used, FrameEntry.place, Prod.mk.injEq]
      by_cases hat : s = f.space ∧ vpn = f.vpn
      · obtain ⟨rfl, rfl⟩ := hat
        rw [setAt_same]
        cases write <;> simp [PageTable.Entry.marked, PageTable.Entry.has_put]
      · rw [setAt_of_ne hat]
        simp only [eq_comm (a := f.space), eq_comm (a := f.vpn), hat, false_or]
  | _ => cases hd

theorem View.Consistent.frame_eq_none (h : V.Consistent) (hentry : V.entry s vpn = none) :
    V.frame s vpn = none := by
  cases hp : V.page s vpn with
  | none => exact View.frame_of_none hp
  | some page =>
      rw [View.frame_of_page hp, (h.settled hp).frame_eq, hentry]
      rfl

theorem Step.frame_of_touch (hstep : Step (.touch s vpn write) V W) : W.frame = V.frame := by
  generalize hd : Deed.touch s vpn write = d at hstep
  cases hstep with
  | touch => rfl
  | _ => cases hd

theorem Step.frame_of_store (hstep : Step (.store s vpn) V W) : W.frame = V.frame := by
  generalize hd : Deed.store s vpn = d at hstep
  cases hstep with
  | store => rfl
  | _ => cases hd

theorem Step.frames_of_leaves {w : Watch} (hstep : Step d V W) (hd : d.LeavesFrames w) :
    W.frames = V.frames := by
  cases hstep with
  | sweep | evict | bring | copy | discardResident | discardSlot | discardBare | adjust =>
      exact hd.elim
  | _ => rfl

theorem Step.used_of_leaves {w : Watch} (hstep : Step d V W) (hd : d.LeavesFrames w) :
    (W.Used w.entry ↔ V.Used w.entry) ∧ ∀ f, V.Used f → W.Used f := by
  by_cases htouch : ∃ s vpn write, d = .touch s vpn write
  · obtain ⟨s, vpn, write, rfl⟩ := htouch
    refine ⟨(hstep.used_of_touch _).trans (or_iff_right hd), fun f hf => ?_⟩
    exact (hstep.used_of_touch f).mpr (.inr hf)
  · cases hstep with
    | sweep | evict | bring | copy | discardResident | discardSlot | discardBare | adjust =>
        exact hd.elim
    | touch => exact absurd ⟨_, _, _, rfl⟩ htouch
    | _ => exact ⟨Iff.rfl, fun _ hf => hf⟩

end

namespace Watch

/-- The page waits in its frame for its turn; the pages that came in last may not be accessed
yet. -/
structure Awaits (w : Watch) (V : View) (unsettled : List FrameEntry) : Prop where
  idle : ¬V.Used w.entry
  due : V.frames.Due V.Used w.orderly w.entry w.limit unsettled
  arrivals : w.start + unsettled.length ≤ V.frames.arrivals

def Lost (w : Watch) (V : View) : Prop :=
  V.frame w.entry.space w.entry.vpn = none

def Over (w : Watch) (V : View) : Prop :=
  w.horizon < V.frames.turnover

/-- The page has lost its frame or waits for its turn, as long as it is watched. -/
structure Holds (w : Watch) (V : View) (unsettled : List FrameEntry) : Prop where
  consistent : V.Consistent
  rests : V.frames.Rests
  waits : w.Lost V ∨ w.Awaits V unsettled ∨ w.Over V

/-- At most one page is not accessed yet. -/
def Between (w : Watch) (V : View) : Prop :=
  ∃ unsettled, unsettled.length ≤ 1 ∧ w.Holds V unsettled

/-- A frame may be taken: all pages are accessed, or the watch is over when one is taken. -/
def Ready (w : Watch) (V : View) : Prop :=
  w.Holds V [] ∨ w.Between V ∧ w.horizon ≤ V.frames.turnover

/-- The page that was claimed last, if one was claimed, may not be accessed yet. -/
def Claimed (w : Watch) (V : View) (s : SpaceId) (vpn : VirtPage) : Prop :=
  w.Ready V ∨ ∃ frame, w.Holds V [⟨frame, s, vpn⟩]

/-- Pages are about to be accessed one after the other; a frame may be taken, or the page that came
in last is accessed before the first one that has no frame. -/
def ReadyFor (w : Watch) (V : View) (s : SpaceId) (pages : List VirtPage) : Prop :=
  w.Ready V ∨ w.Between V ∧ ∃ last, V.frames.entries.getLast? = some last ∧ last.space = s ∧
    last.vpn ∈ pages.takeWhile fun vpn => (V.frame s vpn).isSome

variable {w : Watch} {V W : View} {s : SpaceId} {vpn : VirtPage} {unsettled : List FrameEntry}
  {d : Deed} {pages : List VirtPage}

/-- The watch is over once the frames are turned over past its horizon. -/
theorem over_of_next (hend : w.horizon ≤ V.frames.turnover)
    (hnext : W.frames.turnover = V.frames.turnover + 1) : w.Over W :=
  Nat.lt_of_lt_of_eq (Nat.lt_succ_of_le hend) hnext.symm

theorem Awaits.mem_entries (h : w.Awaits V unsettled) : w.entry ∈ V.frames.entries :=
  h.due.mem_entries

theorem Awaits.frame_eq (h : w.Awaits V unsettled) (hc : V.Consistent) :
    V.frame w.entry.space w.entry.vpn = some w.entry.frame :=
  (hc.listed w.entry).mp h.mem_entries

theorem Between.consistent (h : w.Between V) : V.Consistent :=
  let ⟨_, _, hholds⟩ := h
  hholds.consistent

theorem Holds.between (h : w.Holds V []) : w.Between V :=
  ⟨[], Nat.zero_le _, h⟩

theorem Ready.between (h : w.Ready V) : w.Between V :=
  h.elim Holds.between And.left

theorem Claimed.between (h : w.Claimed V s vpn) : w.Between V := by
  rcases h with h | ⟨frame, h⟩
  · exact h.between
  · exact ⟨[⟨frame, s, vpn⟩], Nat.le_refl _, h⟩

theorem ReadyFor.between (h : w.ReadyFor V s pages) : w.Between V :=
  h.elim Ready.between And.left

theorem ReadyFor.ready (h : w.ReadyFor V s (vpn :: pages)) (hnone : V.frame s vpn = none) :
    w.Ready V := by
  rcases h with h | ⟨-, last, -, -, hmem⟩
  · exact h
  · simp [hnone] at hmem

theorem Holds.leaves (h : w.Holds V unsettled) (hstep : Step d V W) (hd : d.LeavesFrames w) :
    w.Holds W unsettled := by
  have hframes := hstep.frames_of_leaves hd
  refine ⟨hstep.consistent h.consistent, hstep.rests h.rests, ?_⟩
  rcases h.waits with hlost | hawaits | hover
  · refine .inl (hstep.frame_eq_none h.consistent ?_ ?_ hlost)
    · rintro rfl
      exact hd
    · rintro src rfl
      exact hd
  · obtain ⟨hidle, hused⟩ := hstep.used_of_leaves hd
    refine .inr (.inl ⟨mt hidle.mp hawaits.idle, ?_, ?_⟩)
    · rw [hframes]
      exact hawaits.due.of_used fun _ f _ => hused f
    · rw [hframes]
      exact hawaits.arrivals
  · refine .inr (.inr ?_)
    rwa [Over, hframes]

theorem Between.leaves (h : w.Between V) (hstep : Step d V W) (hd : d.LeavesFrames w) :
    w.Between W :=
  let ⟨unsettled, hone, hholds⟩ := h
  ⟨unsettled, hone, hholds.leaves hstep hd⟩

theorem Ready.leaves (h : w.Ready V) (hstep : Step d V W) (hd : d.LeavesFrames w) : w.Ready W := by
  rcases h with h | ⟨hbetween, hturnover⟩
  · exact .inl (h.leaves hstep hd)
  · rw [← hstep.frames_of_leaves hd] at hturnover
    exact .inr ⟨hbetween.leaves hstep hd, hturnover⟩

/-- If the page that came in last is accessed, no page is left that is not. -/
theorem Between.settled (h : w.Between V)
    (hlast : w.orderly → V.frames.arrivals = w.start ∨
      ∀ f, V.frames.entries.getLast? = some f → V.Used f) : w.Holds V [] := by
  obtain ⟨unsettled, hone, hc, hrests, hwaits⟩ := h
  refine ⟨hc, hrests, hwaits.imp_right fun hwaits => hwaits.imp_left fun hawaits =>
    ⟨hawaits.idle, ?_, ?_⟩⟩
  · by_cases hsame : V.frames.arrivals = w.start
    · have harrivals := hawaits.arrivals
      obtain rfl : unsettled = [] := List.length_eq_zero_iff.mp (by omega)
      exact hawaits.due
    · exact hawaits.due.settle_last hone fun horderly =>
        (hlast horderly).resolve_left hsame
  · exact Nat.le_trans (Nat.le_add_right _ _) hawaits.arrivals

theorem Claimed.touch {write : Bool} (h : w.Claimed V s vpn)
    (hstep : Step (.touch s vpn write) V W) (hne : w.entry.place ≠ (s, vpn)) : w.Ready W := by
  rcases h with h | ⟨frame, h⟩
  · exact h.leaves hstep hne
  · obtain ⟨hc, hrests, hwaits⟩ := h.leaves hstep hne
    refine .inl ⟨hc, hrests, hwaits.imp_right fun hwaits => hwaits.imp_left fun hawaits =>
      ⟨hawaits.idle, ?_, ?_⟩⟩
    · exact hawaits.due.settle ((hstep.used_of_touch _).mpr (.inl rfl))
    · exact Nat.le_trans (Nat.le_add_right _ _) hawaits.arrivals

theorem ReadyFor.touch {write : Bool} (h : w.ReadyFor V s (vpn :: pages))
    (hstep : Step (.touch s vpn write) V W) (hne : w.entry.place ≠ (s, vpn)) :
    w.ReadyFor W s pages := by
  rcases h with h | ⟨hbetween, last, hlast, rfl, hmem⟩
  · exact .inl (h.leaves hstep hne)
  have hW := hbetween.leaves hstep hne
  rw [← hstep.frames_of_leaves hne] at hlast
  rw [List.takeWhile_cons] at hmem
  split at hmem
  · rcases List.mem_cons.mp hmem with rfl | hmem
    · refine .inl (.inl (hW.settled fun _ => .inr fun f hf => ?_))
      obtain rfl := Option.some.inj (hlast.symm.trans hf)
      exact (hstep.used_of_touch _).mpr (.inl rfl)
    · have hframe : W.frame = V.frame := hstep.frame_of_touch
      refine .inr ⟨hW, last, hlast, rfl, ?_⟩
      rwa [hframe]
  · cases hmem

theorem ReadyFor.store (h : w.ReadyFor V s pages) (hstep : Step (.store s vpn) V W) :
    w.ReadyFor W s pages := by
  rcases h with h | ⟨hbetween, hlast⟩
  · exact .inl (h.leaves hstep trivial)
  · refine .inr ⟨hbetween.leaves hstep trivial, ?_⟩
    have hframe : W.frame = V.frame := hstep.frame_of_store
    rwa [hframe, hstep.frames_of_leaves (w := w) trivial]

end Watch

/-- Whether the parts of a range are gone through up to those of a page, if each is gone through
until one of them fails. -/
def Machine.reaches {α : Type} (part : Chunk → MachineM α) (vpn : VirtPage) :
    Machine → List Chunk → Bool
  | _, [] => false
  | m, chunk :: chunks =>
    match part chunk m with
    | .ok _ m' => chunk.page == vpn || m'.reaches part vpn chunks
    | .error _ _ => false

/-! ## Claims -/

namespace MachineM

variable {w : Watch} {m m' : Machine} {s : SpaceId} {vpn : VirtPage} {frame : Frame}
  {e : FrameEntry}

/-- An eviction ends the scan of the frame table at its victim, and takes that out of the table. -/
theorem Evicts.exists_passed (hevicts : Evicts m [] e frame m')
    (hc : (m.view [] []).Consistent) :
    ∃ passed, m.frames.Picks m.spaces passed e ∧
      m.swept.spaces = FrameEntry.clearAll passed m.spaces ∧
      m'.frames = m.frames.evicted ((m.frames.hand + passed.length) % m.frames.size) := by
  have hne : m.frames.entries ≠ [] := List.ne_nil_of_mem (List.mem_of_getElem? hevicts.victim)
  obtain ⟨passed, victim, hpicks⟩ := FrameTable.exists_picks hne hc.places_nodup m.spaces
  have hscan := hpicks.victimScan_eq
  have hindex : m.victimIndex = (m.frames.hand + passed.length) % m.frames.size :=
    congrArg Scan.examined hscan
  obtain rfl : e = victim := by
    have hfound := hevicts.victim
    rw [hindex] at hfound
    exact Option.some.inj (hfound.symm.trans hpicks.found)
  refine ⟨passed, hpicks, congrArg Scan.spaces hscan, ?_⟩
  rw [hevicts.frames_eq, hindex, Machine.swept, hscan]
  rfl

theorem Evicts.used_iff {passed : List FrameEntry} (hevicts : Evicts m [] e frame m')
    (hc : (m.view [] []).Consistent)
    (hspaces : m.swept.spaces = FrameEntry.clearAll passed m.spaces) {f : FrameEntry}
    (hf : f ∈ m.frames.entries) (hne : f ≠ e) :
    (m'.view [frame] []).Used f ↔ f.isAccessed (FrameEntry.clearAll passed m.spaces) = true := by
  obtain ⟨-, hothers⟩ := hevicts.step.of_evict
  have hother : ¬(e.space = f.space ∧ e.vpn = f.vpn) := fun hat =>
    hne (List.inj_on_of_nodup_map hc.places_nodup hf (List.mem_of_getElem? hevicts.victim)
      (Prod.ext hat.1.symm hat.2.symm))
  rw [FrameEntry.isAccessed_eq, ← hspaces, View.Used, (hothers _ _ hother).1]
  rfl

/-- An eviction takes the frame of the page that waits, or brings its turn nearer. -/
theorem Evicts.awaits (hevicts : Evicts m [] e frame m') (hc : (m.view [] []).Consistent)
    (hrests : m.frames.Rests) (h : w.Awaits (m.view [] []) []) :
    w.Lost (m'.view [frame] []) ∨ w.Awaits (m'.view [frame] []) [] := by
  obtain ⟨passed, hpicks, hspaces, hframes⟩ := hevicts.exists_passed hc
  by_cases heq : e = w.entry
  · obtain ⟨hlost, -⟩ := hevicts.step.of_evict
    rw [heq] at hlost
    exact .inl hlost
  have hpassed : ∀ f ∈ passed, f ∈ m.frames.entries := fun f hf => by
    have hahead := hpicks.ordered.subset hf
    rwa [FrameTable.ahead, List.mem_rotate] at hahead
  have hsame : (m.view [] []).Used = fun f => f.isAccessed m.spaces = true :=
    funext fun f => propext View.used_iff
  have hidle : w.entry.isAccessed m.spaces = false :=
    Bool.eq_false_iff.mpr fun haccessed => h.idle (View.used_iff.mpr haccessed)
  -- a page that the scan did not pass stays noted as accessed
  have hkept : ∀ f ∈ m.frames.entries, f ≠ e → f ∉ passed → f.isAccessed m.spaces = true →
      (m'.view [frame] []).Used f := by
    intro f hf hfe hnot haccessed
    refine (hevicts.used_iff hc hspaces hf hfe).mpr ?_
    rw [FrameEntry.isAccessed_eq, FrameEntry.entryAt?_clearAll_of_not_mem,
      ← FrameEntry.isAccessed_eq]
    · exact haccessed
    · intro hplace
      obtain ⟨g, hg, hat⟩ := List.mem_map.mp hplace
      exact hnot (List.inj_on_of_nodup_map hc.places_nodup (hpassed g hg) hf hat ▸ hg)
  have hdue := h.due
  rw [hsame] at hdue
  have hnext : m'.frames.Due (m'.view [frame] []).Used w.orderly w.entry w.limit [] := by
    rw [hframes]
    exact (hdue.evict hidle hpicks hrests hc.entries_nodup hkept).resolve_left heq
  refine .inr ⟨fun haccessed => ?_, hnext, ?_⟩
  · have hafter := (hevicts.used_iff hc hspaces h.mem_entries (Ne.symm heq)).mp haccessed
    have hnodup := hpicks.nodup_passed hc.places_nodup
    cases hidle.symm.trans (FrameEntry.isAccessed_of_clearAll hnodup hafter).1
  · change w.start + 0 ≤ m'.frames.arrivals
    rw [hframes, FrameTable.arrivals_evicted (Nat.mod_lt _ hpicks.size_pos)]
    exact h.arrivals

/-- When the hand has found a victim, the watch goes on only if all pages are accessed. -/
theorem Acquires.ready (hacquires : Acquires m [] frame m') (h : w.Ready (m.view [] [])) :
    w.Ready (m'.view [frame] []) := by
  cases hacquires with
  | free halloc hsame =>
      subst hsame
      exact h.leaves (Step.take (V := m.view [] []) halloc) trivial
  | evicted hfull hevicts =>
      have hne : m.frames.entries ≠ [] := fun hnil => by simpa [hnil] using hevicts.victim
      have hsweep := step_swept hne [] []
      obtain ⟨_, _, hbefore⟩ := h.between
      have hc := hsweep.consistent hbefore.consistent
      refine .inl ⟨hevicts.step.consistent hc, hevicts.step.rests (hsweep.rests hbefore.rests), ?_⟩
      obtain ⟨passed, hpicks, -, hframes⟩ := hevicts.exists_passed hbefore.consistent
      have hindex := Nat.mod_lt (m.frames.hand + passed.length) hpicks.size_pos
      have hnext : m'.frames.turnover = m.frames.turnover + 1 := by
        rw [hframes, FrameTable.turnover_evicted hindex]
      have hover : w.horizon ≤ m.frames.turnover → w.Over (m'.view [frame] []) := fun hend =>
        Watch.over_of_next (V := m.view [] []) hend hnext
      rcases h with h | ⟨-, hend⟩
      · rcases h.waits with hlost | hawaits | hended
        · refine .inl (hevicts.step.frame_eq_none hc (by simp) (by simp) ?_)
          exact hsweep.frame_eq_none h.consistent (by simp) (by simp) hlost
        · exact (hevicts.awaits h.consistent h.rests hawaits).imp_right .inl
        · exact .inr (.inr (hover (Nat.le_of_lt hended)))
      · exact .inr (.inr (hover hend))

/-- A page that is brought in is listed last, and is not accessed yet. -/
theorem holds_of_bring {V W : View} (hstep : Step (.bring s vpn) V W) (h : w.Ready V)
    (hfree : V.frame s vpn = none) (hne : w.Lost V → w.entry.place ≠ (s, vpn)) :
    ∃ frame, w.Holds W [⟨frame, s, vpn⟩] := by
  obtain ⟨_, _, hbefore⟩ := h.between
  obtain ⟨frame, hframes, hentries⟩ := hstep.of_bring hbefore.consistent
  refine ⟨frame, hstep.consistent hbefore.consistent, hstep.rests hbefore.rests, ?_⟩
  have hnext : W.frames.turnover = V.frames.turnover + 1 := by
    rw [hframes, FrameTable.turnover_push]
  rcases h with h | ⟨-, hend⟩
  swap
  · exact .inr (.inr (Watch.over_of_next hend hnext))
  rcases h.waits with hlost | hawaits | hover
  · refine .inl (hstep.frame_eq_none h.consistent (fun hd => ?_) (by simp) hlost)
    obtain ⟨rfl, rfl⟩ := Deed.bring.inj hd
    exact hne hlost rfl
  · have hother : ∀ f ∈ V.frames.entries, ¬(s = f.space ∧ vpn = f.vpn) := by
      rintro f hf ⟨rfl, rfl⟩
      cases hfree.symm.trans ((h.consistent.listed f).mp hf)
    have hused : ∀ f ∈ V.frames.entries, (W.Used f ↔ V.Used f) := fun f hf => by
      rw [View.Used, hentries _ _ (hother f hf)]
      rfl
    refine .inr (.inl ⟨mt (hused _ hawaits.mem_entries).mp hawaits.idle, ?_, ?_⟩)
    · rw [hframes]
      exact (hawaits.due.of_used fun _ f hf => (hused f hf).mpr).push _
    · rw [hframes, FrameTable.arrivals_push]
      exact Nat.succ_le_succ hawaits.arrivals
  · exact .inr (.inr (Watch.over_of_next (Nat.le_of_lt hover) hnext))

/-- A claim takes at most one frame, and brings in a page or gives the frame back. -/
theorem claim_holds (h : w.Ready (m.view [] [])) :
    Ends False (claim s vpn) m
      (fun _ m' => (w.Lost (m.view [] []) → w.entry.place ≠ (s, vpn)) →
        w.Claimed (m'.view [] []) s vpn)
      fun _ m' => w.Ready (m'.view [] []) := by
  have hlive : False → (m.view [] []).Live s := False.elim
  cases hp : m.page? s vpn with
  | none =>
      have hlost : Ends False (MachineM.page s vpn) m (fun _ _ => False) fun _ _ => False := by
        unfold MachineM.page
        refine Ends.space hlive fun space hspace => ?_
        rw [← Machine.page?_of_space? hspace, hp]
        exact Ends.panic False.elim
      unfold claim
      exact hlost.bind_total fun _ _ hf => hf.elim
  | some page =>
      by_cases hfree : page.frame = none
      · refine claim_of_absent h.between.consistent hp hfree False.elim fun frame m₁ hacquired => ?_
        have h₁ := hacquired.acquires.ready h
        have hfree₁ : (m₁.view [frame] []).frame s vpn = none :=
          (View.frame_of_page (V := m₁.view [frame] []) hacquired.found).trans hfree
        refine (fill_ends h₁.between.consistent hacquired.found hfree hacquired.zeroed).mono ?_ ?_
        · rintro - m' ⟨hbring, -⟩ hne
          refine .inr (holds_of_bring hbring h₁ hfree₁ fun _ => ?_)
          -- the page that waits is in its frame until an eviction takes it, so it is not this one
          intro hat
          obtain ⟨rfl, rfl⟩ := Prod.mk.inj hat
          exact hne ((View.frame_of_page (V := m.view [] []) hp).trans hfree) rfl
        · rintro e m' ⟨-, segment, bytes, spoiled, pool, -, -, hstore, hfreed, hview⟩
          have hspoil := Step.spoil (V := m₁.view [frame] []) List.mem_cons_self hstore
          have hback : Step (.giveBack frame) { m₁.view [frame] [] with pool := spoiled }
              (m'.view [] []) := by
            rw [hview]
            exact Step.giveBack rfl hfreed
          exact (h₁.leaves hspoil trivial).leaves hback trivial
      · exact Ends.of_ok (claim_of_resident hp hfree) fun _ => .inl h

theorem claimAt_holds {va : VirtAddr} (h : w.Ready (m.view [] [])) :
    Ends False (claimAt s va) m
      (fun _ m' => (w.Lost (m.view [] []) → w.entry.place ≠ (s, va.page)) →
        w.Claimed (m'.view [] []) s va.page)
      fun _ m' => w.Ready (m'.view [] []) := by
  have hlive : False → (m.view [] []).Live s := False.elim
  unfold claimAt
  refine Ends.space hlive fun space hspace => ?_
  by_cases hmem : space.pages.contains va.page = true
  · simp only [hmem, if_true]
    exact claim_holds h
  · simp only [hmem]
    exact Ends.bind_failed (Ends.failed_eq _ m) h

theorem allocZero_holds {va : VirtAddr} (h : w.Ready (m.view [] [])) :
    Ends False (do alloc s va true .zero .anon; claimAt s va : MachineM Unit) m
      (fun _ m' => (w.Lost (m.view [] []) → w.entry.place ≠ (s, va.page)) →
        w.Claimed (m'.view [] []) s va.page)
      fun _ m' => w.Ready (m'.view [] []) := by
  have hlive : False → (m.view [] []).Live s := False.elim
  refine ((alloc_ends hlive va true .zero .anon).mono (fun _ _ ha => ha) ?_).bind ?_
  · rintro e m' ⟨-, rfl⟩
    exact h
  · rintro - m₁ ⟨touch, htouch, hlive, hfresh, hin, hview⟩
    obtain rfl : touch = .zero := (Except.ok.inj htouch).symm
    have hstep : Step (.register s (.untouched va.page true .zero)) (m.view [] [])
        (m₁.view [] []) := by
      rw [hview]
      exact Step.register hlive hfresh hin fun segment hs => by cases hs
    refine (claimAt_holds (h.leaves hstep trivial)).mono ?_ fun _ _ hr => hr
    refine fun _ _ hclaimed hne => hclaimed fun _ hat => hne ?_ hat
    obtain ⟨hs, hvpn⟩ := Prod.mk.inj hat
    rw [Watch.Lost, hs, hvpn]
    exact View.frame_of_none hfresh

theorem growStack_holds (h : w.Ready (m.view [] [])) (hin : vpn.number < userPages) :
    Ends False (growStack s vpn) m
      (fun _ m' => (w.Lost (m.view [] []) → w.entry.place ≠ (s, vpn)) →
        w.Claimed (m'.view [] []) s vpn)
      fun _ m' => w.Ready (m'.view [] []) := by
  have hpage := (VirtPage.start_of_lt hin).2
  unfold growStack
  refine Ends.emit _ [] [] fun m₁ hview => ?_
  rw [← hview] at h ⊢
  have hzero : Ends False (do alloc s vpn.start true .zero .anon; claimAt s vpn.start :
      MachineM Unit) m₁ _ _ := allocZero_holds h
  rwa [hpage] at hzero

theorem handleFault_holds {fault : PageFault} (h : w.Ready (m.view [] [])) :
    Ends False (handleFault s fault) m
      (fun _ m' =>
        (w.Lost (m.view [] []) → w.entry.place ≠ (s, VirtAddr.page ⟨fault.addr⟩)) →
          w.Claimed (m'.view [] []) s (VirtAddr.page ⟨fault.addr⟩))
      fun _ m' => w.Ready (m'.view [] []) := by
  cases hspace : m.space? s with
  | none => exact Ends.of_panicked (handleFault_of_no_space hspace fault) False.elim
  | some space =>
      rcases handleFault_cases hspace fault with
        ⟨-, events, hfailed⟩ | ⟨-, ⟨page, -, -, hclaim⟩ | ⟨-, hin, -, hgrow⟩⟩
      · exact Ends.of_failed hfailed h
      · exact Ends.of_eq hclaim (claim_holds (m := m.told fault) h)
      · exact Ends.of_eq hgrow (growStack_holds (m := m.told fault) h hin)

/-! ## User memory -/

variable {write : Bool} {pages : List VirtPage}

/-- An access of another page brings in at most this page, and accesses it then. -/
theorem userFrame_holds (h : w.ReadyFor (m.view [] []) s (vpn :: pages))
    (hin : vpn.number < userPages) :
    Ends False (userFrame s vpn write) m
      (fun frame m' => (m'.view [] []).Consistent ∧ Accessed m' s vpn write frame ∧
        (w.entry.place ≠ (s, vpn) → w.ReadyFor (m'.view [] []) s pages))
      fun _ m' => w.Between (m'.view [] []) := by
  have hc := h.between.consistent
  cases hentry : m.entryAt? s vpn with
  | some entry =>
      refine (userFrame_of_mapped hc hentry write).mono ?_ ?_
      · rintro frame m' ⟨-, htouch, haccessed⟩
        exact ⟨htouch.consistent hc, haccessed, h.touch htouch⟩
      · rintro e m' ⟨-, -, hview⟩
        exact hview ▸ h.between
  | none =>
      have hlive : False → (m.view [] []).Live s := False.elim
      have hpage := (VirtPage.start_of_lt hin).2
      have hready := h.ready (hc.frame_eq_none hentry)
      have hfault := (handleFault_ends hc False.elim hlive (accessFault vpn write)).and
        (handleFault_holds hready)
      rw [show VirtAddr.page ⟨(accessFault vpn write).addr⟩ = vpn from hpage] at hfault
      refine userFrame_of_fault hlive hentry
        (hfault.mono (fun _ _ ha => ha) fun _ _ hf => hf.2.between) ?_
      rintro m₁ ⟨⟨-, hsteps, haccessible⟩, hclaimed⟩
      have hc₁ := hsteps.consistent hc
      refine (access_of_accessible hc₁ haccessible 0).mono ?_ fun _ _ hf => hf.elim
      rintro frame m' ⟨htouch, haccessed⟩
      refine ⟨htouch.consistent hc₁, haccessed, fun hne => .inl ?_⟩
      exact (hclaimed fun _ => hne).touch htouch hne

theorem reaches_cons_of_ok {α : Type} {part : Chunk → MachineM α} {chunk : Chunk} {a : α}
    (h : part chunk m = .ok a m') (chunks : List Chunk) :
    m.reaches part vpn (chunk :: chunks) =
      (chunk.page == vpn || m'.reaches part vpn chunks) := by
  rw [Machine.reaches, h]

/-- The first part of a range is gone through, and the page that waits is not reached. -/
theorem passes_of_reaches {α : Type} {part : Chunk → MachineM α} {chunk : Chunk} {a : α}
    {chunks : List Chunk} (h : part chunk m = .ok a m')
    (hnot : w.entry.space = s → m.reaches part w.entry.vpn (chunk :: chunks) = false) :
    w.entry.place ≠ (s, chunk.page) ∧
      (w.entry.space = s → m'.reaches part w.entry.vpn chunks = false) := by
  have hrest : w.entry.space = s →
      chunk.page ≠ w.entry.vpn ∧ m'.reaches part w.entry.vpn chunks = false := by
    intro hs
    have hnone := hnot hs
    rw [reaches_cons_of_ok h, Bool.or_eq_false_iff] at hnone
    exact hnone.imp_left ne_of_beq_false
  refine ⟨fun hat => ?_, fun hs => (hrest hs).2⟩
  obtain ⟨hs, hvpn⟩ := Prod.mk.inj hat
  exact (hrest hs).1 hvpn.symm

theorem readChunks_holds {chunks : List Chunk}
    (h : w.ReadyFor (m.view [] []) s (chunks.map Chunk.page))
    (hin : ∀ chunk ∈ chunks, chunk.page.number < userPages)
    (hnot : w.entry.space = s →
      m.reaches (fun chunk => userFrame s chunk.page false) w.entry.vpn chunks = false)
    (buffer : Bytes) :
    Ends False (readChunks s chunks buffer) m (fun _ m' => w.Between (m'.view [] []))
      fun _ _ => False := by
  refine readChunks_of_invariant [] (fun rest _ m' =>
    w.ReadyFor (m'.view [] []) s (rest.map Chunk.page) ∧
      (∀ chunk ∈ rest, chunk.page.number < userPages) ∧ (w.entry.space = s →
        m'.reaches (fun chunk => userFrame s chunk.page false) w.entry.vpn rest = false))
    ⟨h, hin, hnot⟩ (fun hdone => hdone.1.between) ?_
  rintro chunk rest buffer m₁ ⟨h₁, hin₁, hnot₁⟩
  obtain ⟨hin₁, hlater⟩ := List.forall_mem_cons.mp hin₁
  refine (userFrame_holds h₁ hin₁).with_eq.mono ?_ fun _ _ hf => hf.2
  rintro frame m₂ ⟨hrun, hc, haccessed, hready⟩
  obtain ⟨hne, hrest⟩ := passes_of_reaches hrun hnot₁
  exact ⟨hc, haccessed, fun _ _ => ⟨hready hne, hlater, hrest⟩⟩

theorem writeChunk_holds {data : Bytes} {chunk : Chunk}
    (h : w.ReadyFor (m.view [] []) s (chunk.page :: pages)) (hin : chunk.page.number < userPages) :
    Ends False (writeChunk s data chunk) m
      (fun _ m' => w.entry.place ≠ (s, chunk.page) → w.ReadyFor (m'.view [] []) s pages)
      fun _ m' => w.Between (m'.view [] []) := by
  unfold writeChunk
  refine (userFrame_holds h hin).bind ?_
  rintro frame m₁ ⟨hc, haccessed, hready⟩
  obtain ⟨page, bytes, pool, -, -, hload, hstore, hstep⟩ :=
    exists_store_of_accessed hc chunk haccessed data
  refine Ends.bind_ok (loadFrame_of_ok hload) (Ends.of_ok (storeFrame_of_ok hstore) ?_)
  exact fun hne => (hready hne).store hstep

theorem writeChunks_holds {data : Bytes} {chunks : List Chunk}
    (h : w.ReadyFor (m.view [] []) s (chunks.map Chunk.page))
    (hin : ∀ chunk ∈ chunks, chunk.page.number < userPages)
    (hnot : w.entry.space = s → m.reaches (writeChunk s data) w.entry.vpn chunks = false) :
    Ends False (chunks.forM (writeChunk s data)) m (fun _ m' => w.Between (m'.view [] []))
      fun _ m' => w.Between (m'.view [] []) := by
  refine (Ends.forM_rest (fun rest m' =>
    w.ReadyFor (m'.view [] []) s (rest.map Chunk.page) ∧
      (∀ chunk ∈ rest, chunk.page.number < userPages) ∧ (w.entry.space = s →
        m'.reaches (writeChunk s data) w.entry.vpn rest = false)) ?_
    ⟨h, hin, hnot⟩).mono (fun _ _ hdone => hdone.1.between) fun _ _ hf => hf
  rintro chunk rest m₁ ⟨h₁, hin₁, hnot₁⟩
  obtain ⟨hin₁, hlater⟩ := List.forall_mem_cons.mp hin₁
  refine (writeChunk_holds h₁ hin₁).with_eq.mono ?_ fun _ _ hf => hf.2
  rintro _ m₂ ⟨hrun, hready⟩
  obtain ⟨hne, hrest⟩ := passes_of_reaches hrun hnot₁
  exact ⟨hready hne, hlater, hrest⟩

end MachineM

end DemandPaging
