import DemandPaging.Machine.Clock
import DemandPaging.Proofs.PageTable.Mapping

/-! # The scan for a victim

The scan goes round the frame table from the hand on. It clears the accessed flags of the entries
that it passes and ends at the first entry without one, after one round at the latest: by then it
has cleared the flag of the entry where it began.
-/

namespace DemandPaging

/-! ## Accessed flags -/

/-- The page table entry of a page of some address space. -/
def SpaceMap.entryAt? (spaces : SpaceMap) (s : SpaceId) (vpn : VirtPage) :
    Option PageTable.Entry :=
  (spaces[s]?).bind (·.table.lookup? vpn)

namespace FrameEntry

def place (e : FrameEntry) : SpaceId × VirtPage :=
  (e.space, e.vpn)

/-- Clears the accessed flags of the pages of some entries, one after another. -/
def clearAll (passed : List FrameEntry) (spaces : SpaceMap) : SpaceMap :=
  passed.foldl (fun spaces e => e.clearAccessed spaces) spaces

variable {e other : FrameEntry} {passed : List FrameEntry} {spaces : SpaceMap} {s : SpaceId}
  {vpn : VirtPage}

theorem isAccessed_eq (e : FrameEntry) (spaces : SpaceMap) :
    e.isAccessed spaces = (SpaceMap.entryAt? spaces e.space e.vpn).any (·.has .accessed) := by
  rw [isAccessed, SpaceMap.entryAt?]
  cases spaces[e.space]? <;> rfl

theorem isAccessed_iff : e.isAccessed spaces = true ↔
    ∃ entry, SpaceMap.entryAt? spaces e.space e.vpn = some entry ∧ entry.has .accessed = true := by
  rw [isAccessed_eq, Option.any_eq_true]

/-- Clearing a flag changes the entry of one page. -/
theorem entryAt?_clearAccessed (e : FrameEntry) (spaces : SpaceMap) (s : SpaceId)
    (vpn : VirtPage) :
    SpaceMap.entryAt? (e.clearAccessed spaces) s vpn =
      if e.place = (s, vpn) then
        (SpaceMap.entryAt? spaces s vpn).map (·.put .accessed false)
      else SpaceMap.entryAt? spaces s vpn := by
  simp only [place, Prod.mk.injEq, SpaceMap.entryAt?]
  unfold clearAccessed
  cases hspace : spaces[e.space]? with
  | none =>
      by_cases hs : e.space = s
      · simp [← hs, hspace]
      · simp [hs]
  | some space =>
      simp only [Std.TreeMap.getElem?_insert, Std.compare_eq_iff_eq]
      by_cases hs : e.space = s
      · subst hs
        simp only [if_true, hspace, Option.bind_some, PageTable.setAccessed, PageTable.lookup?_put,
          true_and]
        split
        · next hvpn => rw [hvpn]
        · rfl
      · simp only [hs, if_false, false_and]

theorem isAccessed_clearAccessed_of_ne (h : e.place ≠ other.place) :
    other.isAccessed (e.clearAccessed spaces) = other.isAccessed spaces := by
  rw [isAccessed_eq, isAccessed_eq, entryAt?_clearAccessed]
  exact congrArg (Option.any _) (if_neg h)

theorem entryAt?_clearAll_of_not_mem (spaces : SpaceMap) (h : (s, vpn) ∉ passed.map place) :
    SpaceMap.entryAt? (clearAll passed spaces) s vpn = SpaceMap.entryAt? spaces s vpn := by
  induction passed generalizing spaces with
  | nil => rfl
  | cons e passed ih =>
      rw [List.map_cons, List.mem_cons, not_or] at h
      exact (ih _ h.2).trans ((entryAt?_clearAccessed e spaces s vpn).trans (if_neg (Ne.symm h.1)))

theorem entryAt?_clearAll_of_mem (spaces : SpaceMap) (hnodup : (passed.map place).Nodup)
    (he : e ∈ passed) :
    SpaceMap.entryAt? (clearAll passed spaces) e.space e.vpn =
      (SpaceMap.entryAt? spaces e.space e.vpn).map (·.put .accessed false) := by
  induction passed generalizing spaces with
  | nil => cases he
  | cons first passed ih =>
      obtain ⟨hfirst, hrest⟩ := List.nodup_cons.mp hnodup
      rcases List.mem_cons.mp he with rfl | he
      · exact (entryAt?_clearAll_of_not_mem _ hfirst).trans
          ((entryAt?_clearAccessed e spaces _ _).trans (if_pos rfl))
      · have hne : first.place ≠ (e.space, e.vpn) := fun h =>
          hfirst (h ▸ List.mem_map_of_mem he)
        exact (ih _ hrest he).trans
          (congrArg _ ((entryAt?_clearAccessed first spaces _ _).trans (if_neg hne)))

theorem isAccessed_of_clearAll (hnodup : (passed.map place).Nodup)
    (h : e.isAccessed (clearAll passed spaces) = true) :
    e.isAccessed spaces = true ∧ e.place ∉ passed.map place := by
  by_cases he : e.place ∈ passed.map place
  · obtain ⟨other, hother, hplace⟩ := List.mem_map.mp he
    obtain ⟨hs, hv⟩ := Prod.mk.inj hplace
    obtain ⟨entry, hentry, haccessed⟩ := isAccessed_iff.mp h
    rw [← hs, ← hv, entryAt?_clearAll_of_mem spaces hnodup hother] at hentry
    obtain ⟨before, -, rfl⟩ := Option.map_eq_some_iff.mp hentry
    rw [PageTable.Entry.has_put, if_pos rfl] at haccessed
    cases haccessed
  · rw [isAccessed_eq, entryAt?_clearAll_of_not_mem spaces he, ← isAccessed_eq] at h
    exact ⟨h, he⟩

end FrameEntry

/-! ## Where the scan ends -/

namespace FrameTable

/-- The scan, if it ends at an entry without an accessed flag before its steps run out. -/
def scan? (entries : List FrameEntry) : ℕ → Scan → Option Scan
  | 0, _ => none
  | steps + 1, state =>
    let index := state.hand % entries.length
    let moved := { state with examined := index, hand := (index + 1) % entries.length }
    match entries[index]? with
    | none => none
    | some entry =>
      if entry.isAccessed moved.spaces then
        scan? entries steps { moved with spaces := entry.clearAccessed moved.spaces }
      else some moved

variable {entries : List FrameEntry} {steps more : ℕ} {state result : Scan}

/-- A scan that ends by itself is the scan, however many steps it may take. -/
theorem scan_of_scan? (h : scan? entries steps state = some result) (hle : steps ≤ more) :
    scan entries more state = result := by
  induction steps generalizing more state with
  | zero => cases h
  | succ steps ih =>
      obtain ⟨more, rfl⟩ := Nat.exists_eq_add_of_le' (Nat.le_trans (Nat.le_add_left 1 steps) hle)
      simp only [scan?, scan] at h ⊢
      cases hentry : entries[state.hand % entries.length]? with
      | none =>
          simp only [hentry] at h
          cases h
      | some entry =>
          simp only [hentry] at h ⊢
          by_cases haccessed : entry.isAccessed state.spaces = true
          · rw [if_pos haccessed] at h ⊢
            exact ih h (Nat.le_of_succ_le_succ hle)
          · rw [if_neg haccessed] at h ⊢
            exact Option.some.inj h

theorem mod_succ_add_mod (hand k n : ℕ) : ((hand % n + 1) % n + k) % n = (hand + (k + 1)) % n := by
  rw [Nat.mod_add_mod, Nat.add_assoc, Nat.mod_add_mod, Nat.add_comm 1 k]

/-- A scan passes the entries that were accessed and ends at the next one. -/
theorem scan?_of_passed {passed : List FrameEntry} {victim : FrameEntry} (state : Scan)
    (hnodup : (passed.map FrameEntry.place).Nodup)
    (hahead : ∀ k e, passed[k]? = some e → entries[(state.hand + k) % entries.length]? = some e)
    (haccessed : ∀ e ∈ passed, e.isAccessed state.spaces = true)
    (hvictim : entries[(state.hand + passed.length) % entries.length]? = some victim)
    (hidle : victim.isAccessed (FrameEntry.clearAll passed state.spaces) = false) :
    scan? entries (passed.length + 1) state =
      some ⟨(state.hand + passed.length) % entries.length,
        ((state.hand + passed.length) % entries.length + 1) % entries.length,
        FrameEntry.clearAll passed state.spaces⟩ := by
  induction passed generalizing state with
  | nil =>
      simp only [List.length_nil, Nat.add_zero] at hvictim
      have hnot : victim.isAccessed state.spaces ≠ true := Bool.eq_false_iff.mp hidle
      simp only [List.length_nil, Nat.add_zero, scan?, hvictim, if_neg hnot]
      rfl
  | cons e passed ih =>
      obtain ⟨hfirst, hrest⟩ := List.nodup_cons.mp hnodup
      have he : entries[state.hand % entries.length]? = some e := hahead 0 e rfl
      have hused := haccessed e List.mem_cons_self
      rw [List.length_cons, scan?]
      simp only [he, hused, if_true]
      simp only [List.length_cons] at hvictim ⊢
      have hnext := ih ⟨state.hand % entries.length,
        (state.hand % entries.length + 1) % entries.length, e.clearAccessed state.spaces⟩ hrest
      simp only [mod_succ_add_mod] at hnext
      refine hnext (fun k later hk => hahead (k + 1) later hk) (fun later hlater => ?_) hvictim
        hidle
      have hne : e.place ≠ later.place := fun h => hfirst (h ▸ List.mem_map_of_mem hlater)
      rw [FrameEntry.isAccessed_clearAccessed_of_ne hne]
      exact haccessed later (List.mem_cons_of_mem _ hlater)

/-- The entries of a table in the order in which the hand comes to them. -/
def ahead (table : FrameTable) : List FrameEntry :=
  table.entries.rotate table.hand

/-- The scan for a victim passes some entries, all of them accessed, and ends at the next one: it
was not accessed, or all were and the scan is back where it began. -/
structure Picks (table : FrameTable) (spaces : SpaceMap) (passed : List FrameEntry)
    (victim : FrameEntry) : Prop where
  ordered : passed <+: table.ahead
  accessed : ∀ e ∈ passed, e.isAccessed spaces = true
  chosen : (table.ahead[passed.length]? = some victim ∧ victim.isAccessed spaces = false) ∨
    (passed = table.ahead ∧ table.ahead.head? = some victim)
  found : table.entries[(table.hand + passed.length) % table.size]? = some victim
  ended : scan? table.entries (passed.length + 1) ⟨table.hand, table.hand, spaces⟩ =
    some ⟨(table.hand + passed.length) % table.size,
      ((table.hand + passed.length) % table.size + 1) % table.size,
      FrameEntry.clearAll passed spaces⟩

variable {table : FrameTable} {spaces : SpaceMap} {passed : List FrameEntry} {victim : FrameEntry}

theorem length_ahead (table : FrameTable) : table.ahead.length = table.size :=
  List.length_rotate ..

theorem getElem?_ahead {k : ℕ} (hk : k < table.size) :
    table.ahead[k]? = table.entries[(table.hand + k) % table.size]? := by
  rw [ahead, List.getElem?_rotate hk, Nat.add_comm k]
  rfl

theorem getElem?_of_passed (hordered : passed <+: table.ahead) {k : ℕ} {e : FrameEntry}
    (hk : passed[k]? = some e) :
    table.entries[(table.hand + k) % table.size]? = some e := by
  obtain ⟨rest, hrest⟩ := hordered
  have hlt : k < passed.length := (List.getElem?_eq_some_iff.mp hk).1
  have hle : passed.length ≤ table.size := by
    rw [← length_ahead, ← hrest, List.length_append]
    exact Nat.le_add_right _ _
  rw [← getElem?_ahead (Nat.lt_of_lt_of_le hlt hle), ← hrest, List.getElem?_append_left hlt, hk]

/-- The scan for a victim of a table that lists no page twice. -/
theorem exists_picks (hne : table.entries ≠ [])
    (hnodup : (table.entries.map FrameEntry.place).Nodup) (spaces : SpaceMap) :
    ∃ passed victim, table.Picks spaces passed victim := by
  have hpos : 0 < table.size := List.length_pos_iff.mpr hne
  have hplaces : (table.ahead.map FrameEntry.place).Nodup := by
    rw [ahead, List.map_rotate]
    exact List.nodup_rotate.mpr hnodup
  have hsplit := List.takeWhile_append_dropWhile (p := (·.isAccessed spaces)) (l := table.ahead)
  generalize hpassed : table.ahead.takeWhile (·.isAccessed spaces) = passed at hsplit
  have haccessed : ∀ e ∈ passed, e.isAccessed spaces = true := by
    rw [← hpassed]
    exact fun e he =>
      List.mem_takeWhile_imp (p := fun e : FrameEntry => e.isAccessed spaces) he
  have hordered : passed <+: table.ahead := ⟨_, hsplit⟩
  have hdistinct : (passed.map FrameEntry.place).Nodup :=
    (hordered.sublist.map FrameEntry.place).nodup hplaces
  have hended : ∀ victim, table.entries[(table.hand + passed.length) % table.size]? = some victim →
      victim.isAccessed (FrameEntry.clearAll passed spaces) = false → _ := fun victim hv hidle =>
    scan?_of_passed ⟨table.hand, table.hand, spaces⟩ hdistinct
      (fun k e hk => getElem?_of_passed hordered hk) haccessed hv hidle
  cases hrest : table.ahead.dropWhile (·.isAccessed spaces) with
  | nil =>
      rw [hrest, List.append_nil] at hsplit
      have hround : (table.hand + passed.length) % table.size = table.hand % table.size := by
        rw [hsplit, length_ahead, Nat.add_mod_right]
      obtain ⟨victim, hvictim⟩ : ∃ victim, table.ahead[0]? = some victim :=
        ⟨_, List.getElem?_eq_getElem (length_ahead table ▸ hpos)⟩
      have hfound : table.entries[(table.hand + passed.length) % table.size]? = some victim := by
        rw [hround, ← hvictim, getElem?_ahead hpos, Nat.add_zero]
      refine ⟨passed, victim, hordered, haccessed, .inr ⟨hsplit, ?_⟩, hfound, hended _ hfound ?_⟩
      · rw [List.head?_eq_getElem?, hvictim]
      · refine Bool.eq_false_iff.mpr fun hv => (FrameEntry.isAccessed_of_clearAll hdistinct hv).2 ?_
        exact List.mem_map_of_mem (hsplit ▸ List.mem_of_getElem? hvictim)
  | cons victim rest =>
      rw [hrest] at hsplit
      have hidle : victim.isAccessed spaces = false := by
        have hnot := List.head?_dropWhile_not (·.isAccessed spaces) table.ahead
        rw [hrest] at hnot
        exact hnot
      have hvictim : table.ahead[passed.length]? = some victim := by
        rw [← hsplit, List.getElem?_append_right (Nat.le_refl _), Nat.sub_self]
        rfl
      have hlt : passed.length < table.size := by
        rw [← length_ahead, ← hsplit, List.length_append, List.length_cons]
        omega
      have hfound := (getElem?_ahead hlt).symm.trans hvictim
      refine ⟨passed, victim, hordered, haccessed, .inl ⟨hvictim, hidle⟩, hfound,
        hended _ hfound (Bool.eq_false_iff.mpr fun hv => ?_)⟩
      exact Bool.eq_false_iff.mp hidle (FrameEntry.isAccessed_of_clearAll hdistinct hv).1

namespace Picks

variable (h : table.Picks spaces passed victim)

include h

theorem length_passed_le : passed.length ≤ table.size :=
  length_ahead table ▸ h.ordered.length_le

theorem nodup_passed (hnodup : (table.entries.map FrameEntry.place).Nodup) :
    (passed.map FrameEntry.place).Nodup := by
  refine (h.ordered.sublist.map FrameEntry.place).nodup ?_
  rw [ahead, List.map_rotate]
  exact List.nodup_rotate.mpr hnodup

theorem size_pos : 0 < table.size :=
  Nat.pos_of_ne_zero fun hzero => by
    have hnil : table.entries = [] := List.length_eq_zero_iff.mp hzero
    simpa [hnil] using h.found

theorem victimScan_eq : table.victimScan spaces =
    ⟨(table.hand + passed.length) % table.size,
      ((table.hand + passed.length) % table.size + 1) % table.size,
      FrameEntry.clearAll passed spaces⟩ := by
  have hle := h.length_passed_le
  have hpos := h.size_pos
  exact scan_of_scan? h.ended (by omega)

end Picks

/-! ## The hand -/

theorem hand_removeAt {index : ℕ} (hindex : index < table.size) :
    ({ table with hand := (index + 1) % table.size }.removeAt index).hand =
      if index + 1 = table.size then 0 else index := by
  have hlength : (table.entries.eraseIdx index).length = table.size - 1 :=
    List.length_eraseIdx_of_lt hindex
  simp only [removeAt, hlength]
  by_cases hlast : index + 1 = table.size
  · rw [hlast, Nat.mod_self, if_neg (Nat.not_lt_zero index), if_pos rfl, ite_self]
  · have hmod : (index + 1) % table.size = index + 1 := Nat.mod_eq_of_lt (by omega)
    have hinside : ¬table.size - 1 ≤ index := by omega
    rw [hmod, if_pos (Nat.lt_succ_self index), Nat.add_sub_cancel, if_neg hinside, if_neg hlast]

theorem getElem?_hand_removeAt {index : ℕ} (hindex : index < table.size) (hmore : 1 < table.size) :
    let rest := { table with hand := (index + 1) % table.size }.removeAt index
    rest.entries[rest.hand]? = table.entries[(index + 1) % table.size]? := by
  simp only [hand_removeAt hindex]
  change (table.entries.eraseIdx index)[_]? = _
  by_cases hlast : index + 1 = table.size
  · rw [if_pos hlast, hlast, Nat.mod_self, List.getElem?_eraseIdx, if_pos (by omega)]
  · have hmod : (index + 1) % table.size = index + 1 := Nat.mod_eq_of_lt (by omega)
    rw [if_neg hlast, hmod, List.getElem?_eraseIdx, if_neg (Nat.lt_irrefl index)]

end FrameTable

end DemandPaging
