import DemandPaging.Proofs.Clock.Scan
import DemandPaging.Proofs.Runs

/-! # The victim of an eviction

The hand always rests at an entry of the frame table, and every entry names a page of its own, so
that the scan finds the victim that a second chance for every accessed page leads to.
-/

namespace DemandPaging

/-! ## Where the hand rests -/

/-- The hand rests at an entry of the table, or at the start of an empty one. -/
def FrameTable.Rests (table : FrameTable) : Prop :=
  table.hand = 0 ∨ table.hand < table.size

namespace FrameTable

variable {table : FrameTable}

theorem size_push (table : FrameTable) (entry : FrameEntry) :
    (table.push entry).size = table.size + 1 :=
  List.length_append

theorem size_removeAt {index : ℕ} (h : index < table.size) :
    (table.removeAt index).size + 1 = table.size :=
  List.length_eraseIdx_add_one h

theorem Rests.hand_lt (h : table.Rests) (hne : table.entries ≠ []) : table.hand < table.size := by
  have hpos : 0 < table.size := List.length_pos_iff.mpr hne
  unfold Rests at h
  omega

theorem Rests.push (h : table.Rests) (e : FrameEntry) : (table.push e).Rests := by
  have hsize := size_push table e
  have hhand : (table.push e).hand = table.hand := rfl
  unfold Rests at h ⊢
  omega

theorem rests_removeAt (table : FrameTable) (index : ℕ) : (table.removeAt index).Rests := by
  unfold Rests removeAt size
  simp only
  generalize (if index < table.hand then table.hand - 1 else table.hand) = hand
  split
  · exact .inl rfl
  · next hinside => exact .inr (Nat.lt_of_not_le hinside)

theorem Rests.removeFrame (h : table.Rests) (frame : Frame) : (table.removeFrame frame).Rests := by
  unfold FrameTable.removeFrame
  split
  · exact h
  · exact table.rests_removeAt _

end FrameTable

variable {d : Deed} {V W : View}

theorem Step.rests (hstep : Step d V W) (h : V.frames.Rests) : W.frames.Rests := by
  cases hstep with
  | sweep hand passed inside => exact .inr inside
  | evict => exact FrameTable.rests_removeAt _ _
  | bring | copy => exact h.push _
  | discardResident => exact h.removeFrame _
  | take | spoil | giveBack | register | adopt | inherit | discardSlot | discardBare | touch
  | adjust | store | create | next | drop | setUserSp | pin | unpin | edit | reopen
  | release => exact h

theorem View.Consistent.places_nodup (h : V.Consistent) :
    (V.frames.entries.map FrameEntry.place).Nodup := by
  refine (List.nodup_map_iff_inj_on h.entries_nodup).mpr ?_
  rintro ⟨frame, s, vpn⟩ he ⟨other, t, u⟩ he' hplace
  obtain ⟨rfl, rfl⟩ := Prod.mk.inj hplace
  have hown := (h.listed ⟨frame, s, vpn⟩).mp he
  have hown' := (h.listed ⟨other, s, vpn⟩).mp he'
  obtain rfl : frame = other := Option.some.inj (hown.symm.trans hown')
  rfl

namespace Machine

variable {m m' : Machine} {requests : List (Visit × Op)}

theorem rests_run (h : m.Sound) (hrests : m.frames.Rests) (hrun : m.run? requests = some m') :
    m'.frames.Rests := by
  refine (run_invariant (fun m => m.Sound ∧ m.frames.Rests) (fun request _ m₁ m₂ hinv hstep => ?_)
    ⟨h, hrests⟩ hrun).2
  have hfinished := Op.finished hinv.1 hstep
  exact ⟨hfinished.sound, hfinished.steps.invariant (fun V => V.frames.Rests)
    (fun _ _ _ _ hstep hrests => hstep.rests hrests) hinv.2⟩

/-! ## Second chances -/

/-- How the clock takes a victim out of the frame table: it passes some entries and ends at the
victim. -/
structure SecondChance (m : Machine) (passed : List FrameEntry) (victim : FrameEntry)
    (m' : Machine) : Prop where
  hand_lt : m.frames.hand < m.frames.size
  /-- The entries that are passed are the ones from the hand on, in cyclic order. -/
  ordered : passed <+: m.frames.ahead
  accessed : ∀ e ∈ passed, e.isAccessed m.spaces = true
  /-- The victim is the next entry, which was not accessed; or all entries were accessed and passed,
  and the victim is the one at the hand. -/
  chosen : (m.frames.ahead[passed.length]? = some victim ∧ victim.isAccessed m.spaces = false) ∨
    (passed = m.frames.ahead ∧ m.frames.entries[m.frames.hand]? = some victim)
  /-- The scan ends by itself in the step after those that pass an entry. -/
  ended : FrameTable.scan? m.frames.entries (passed.length + 1)
    ⟨m.frames.hand, m.frames.hand, m.spaces⟩ = some (m.frames.victimScan m.spaces)
  steps_le : passed.length + 1 ≤ 2 * m.frames.size
  examined : m.frames.entries[m.victimIndex]? = some victim
  hand_eq : m.swept.frames.hand = (m.victimIndex + 1) % m.frames.size
  removed : m' = { m.swept with frames := m.swept.frames.removeAt m.victimIndex }
  /-- Each entry that is passed loses its accessed flag and nothing else. -/
  cleared : ∀ e ∈ passed, ∃ before after, m.entryAt? e.space e.vpn = some before ∧
    m'.entryAt? e.space e.vpn = some after ∧ after.frame = before.frame ∧
    before.has .accessed = true ∧ after.has .accessed = false ∧
    ∀ flag, flag ≠ .accessed → after.has flag = before.has flag
  /-- All other page table entries stay as they are. -/
  kept : ∀ s vpn, (s, vpn) ∉ passed.map FrameEntry.place → m'.entryAt? s vpn = m.entryAt? s vpn
  page?_eq : m'.page? = m.page?
  userSp?_eq : m'.userSp? = m.userSp?
  /-- The hand rests at the entry after the victim, also when the victim has left the table. -/
  rested : 1 < m.frames.size → ∃ next, m.frames.entries[m.swept.frames.hand]? = some next ∧
    m'.frames.entries[m'.frames.hand]? = some next

variable {passed : List FrameEntry} {victim : FrameEntry}

/-- What the scan picks is what the clock takes. -/
theorem Sound.secondChance (h : m.Sound) (hrests : m.frames.Rests)
    (hpicks : m.frames.Picks m.spaces passed victim) :
    m.SecondChance passed victim
      { m.swept with frames := m.swept.frames.removeAt m.victimIndex } := by
  have hscan := hpicks.victimScan_eq
  have hne : m.frames.entries ≠ [] := List.length_pos_iff.mp hpicks.size_pos
  have hindex : m.victimIndex = (m.frames.hand + passed.length) % m.frames.size :=
    congrArg Scan.examined hscan
  have hhand : m.swept.frames.hand = (m.victimIndex + 1) % m.frames.size := by
    rw [hindex]
    exact congrArg Scan.hand hscan
  have hspaces : m.swept.spaces = FrameEntry.clearAll passed m.spaces :=
    congrArg Scan.spaces hscan
  have hnodup := hpicks.nodup_passed h.consistent.places_nodup
  have hle := hpicks.length_passed_le
  have hpos := hpicks.size_pos
  have hlt := hrests.hand_lt hne
  refine ⟨hlt, hpicks.ordered, hpicks.accessed, hpicks.chosen.imp_right fun hall => ?_,
    hscan ▸ hpicks.ended, by omega, hindex ▸ hpicks.found, hhand, rfl, fun e he => ?_,
    fun s vpn hnot => ?_, MachineM.page?_swept m, MachineM.userSp?_swept m, fun hmore => ?_⟩
  · exact ⟨hall.1, (List.head?_rotate hlt).symm.trans hall.2⟩
  · obtain ⟨before, hbefore, haccessed⟩ := FrameEntry.isAccessed_iff.mp (hpicks.accessed e he)
    have hafter := FrameEntry.entryAt?_clearAll_of_mem m.spaces hnodup he
    rw [hbefore, ← hspaces] at hafter
    have haged := before.aged_put
    refine ⟨before, _, hbefore, hafter, haged.frame_eq, haccessed, ?_, haged.has_eq⟩
    rw [PageTable.Entry.has_put, if_pos rfl]
  · have hafter := FrameEntry.entryAt?_clearAll_of_not_mem m.spaces hnot
    rw [← hspaces] at hafter
    exact hafter
  · have hmod : (m.victimIndex + 1) % m.frames.size < m.frames.size := Nat.mod_lt _ hpos
    obtain ⟨next, hnext⟩ : ∃ next, m.frames.entries[(m.victimIndex + 1) % m.frames.size]? =
        some next := ⟨_, List.getElem?_eq_getElem hmod⟩
    refine ⟨next, by rw [hhand, hnext], ?_⟩
    have hlast : m.victimIndex < m.frames.size := hindex ▸ Nat.mod_lt _ hpos
    rw [← hnext, ← FrameTable.getElem?_hand_removeAt hlast hmore, ← hhand]
    rfl

/-- In every machine that was booted and served requests, whatever accesses were noted and wherever
the hand is, the clock finds its victim by itself within two rounds, and every accessed page that
it passes has a second chance. -/
theorem secondChance_of_run {frames : ℕ} {disk : Disk} {files : FileStore}
    (hframes : frames ≤ PageTable.Entry.frameBound)
    (hrun : (boot frames disk files).run? requests = some m) (hne : m.frames.entries ≠ []) :
    ∃ passed victim m', MachineM.takeVictim m = .ok victim m' ∧
      m.SecondChance passed victim m' := by
  have h := sound_of_run hframes hrun
  have hrests : m.frames.Rests := rests_run (sound_boot hframes disk files) (.inl rfl) hrun
  obtain ⟨passed, victim, hpicks⟩ :=
    FrameTable.exists_picks hne h.consistent.places_nodup m.spaces
  obtain ⟨e, hvictim, htake⟩ := MachineM.takeVictim_ok hne
  have hchance := h.secondChance hrests hpicks
  obtain rfl : e = victim := Option.some.inj (hvictim.symm.trans hchance.examined)
  exact ⟨passed, e, _, htake, hchance⟩

/-- Four pages take turns in three frames. The scan begins in the middle of the table, passes the
page that was read, and ends at the one after it. -/
theorem secondChance_of_read : ∃ m passed victim m',
    (boot 3 (.zeroed 64) (.ofFiles #[])).run? ([.create, .alloc 0 ⟨pageSize⟩ true .zero .anon,
      .alloc 0 ⟨2 * pageSize⟩ true .zero .anon, .alloc 0 ⟨3 * pageSize⟩ true .zero .anon,
      .alloc 0 ⟨4 * pageSize⟩ true .zero .anon, .claim 0 ⟨pageSize⟩, .read 0 ⟨pageSize⟩ #[0],
      .claim 0 ⟨2 * pageSize⟩, .claim 0 ⟨3 * pageSize⟩, .claim 0 ⟨4 * pageSize⟩,
      .read 0 ⟨3 * pageSize⟩ #[0]].map (Visit.ascending, ·)) = some m ∧
      m.frames.entries.map FrameEntry.vpn = [⟨1⟩, ⟨3⟩, ⟨4⟩] ∧ m.frames.hand = 1 ∧
      MachineM.takeVictim m = .ok victim m' ∧ m.SecondChance passed victim m' ∧
      victim.vpn = ⟨4⟩ := by
  generalize hrequests : ([Op.create, .alloc 0 ⟨pageSize⟩ true .zero .anon,
      .alloc 0 ⟨2 * pageSize⟩ true .zero .anon, .alloc 0 ⟨3 * pageSize⟩ true .zero .anon,
      .alloc 0 ⟨4 * pageSize⟩ true .zero .anon, .claim 0 ⟨pageSize⟩, .read 0 ⟨pageSize⟩ #[0],
      .claim 0 ⟨2 * pageSize⟩, .claim 0 ⟨3 * pageSize⟩, .claim 0 ⟨4 * pageSize⟩,
      .read 0 ⟨3 * pageSize⟩ #[0]].map (Visit.ascending, ·)) = requests
  have hserved : ((boot 3 (.zeroed 64) (.ofFiles #[])).run? requests).any (fun m =>
      decide (m.frames.entries.map FrameEntry.vpn = [⟨1⟩, ⟨3⟩, ⟨4⟩]) &&
        decide (m.frames.hand = 1) &&
        decide ((m.frames.entries[m.victimIndex]?).map FrameEntry.vpn = some ⟨4⟩)) = true := by
    rw [← hrequests]
    decide +kernel
  simp only [Option.any_eq_true, Bool.and_eq_true, decide_eq_true_eq] at hserved
  obtain ⟨m, hrun, ⟨hentries, hhand⟩, hfourth⟩ := hserved
  have hne : m.frames.entries ≠ [] := fun hnil => by simp [hnil] at hentries
  obtain ⟨passed, victim, m', htake, hchance⟩ := secondChance_of_run (by decide) hrun hne
  rw [hchance.examined] at hfourth
  exact ⟨m, passed, victim, m', hrun, hentries, hhand, htake, hchance, Option.some.inj hfourth⟩

end Machine

end DemandPaging
