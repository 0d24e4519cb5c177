import DemandPaging.Proofs.PageTable.Mapping
import DemandPaging.Proofs.Sessions

/-! # A page table as a memory management unit

Seen from outside, a page table is a map from virtual pages to frames that notes how each page may
be and has been used. The packed entries, which every change of a flag unpacks and packs again,
never show: they are at any time the packed words of what is mapped.
-/

namespace DemandPaging

namespace PageTable

/-! ## Flags that are changed again -/

namespace Flags

variable (flags : Flags) (flag : Flag)

theorem getLsbD_bits_put (on : Bool) (i : ℕ) :
    (flags.put flag on).bits.getLsbD i = if i = flag.bit then on else flags.bits.getLsbD i := by
  have hbit : flag.bit < 16 := Nat.lt_trans flag.bit_lt (by decide)
  by_cases hi : i = flag.bit
  · cases on <;> simp [put, hi, hbit]
  · cases on with
    | false => simpa [put, hi, Ne.symm hi] using BitVec.lt_of_getLsbD
    | true => simp [put, hi, Ne.symm hi]

theorem ext_getLsbD {flags other : Flags}
    (h : ∀ i, flags.bits.getLsbD i = other.bits.getLsbD i) : flags = other :=
  congrArg mk (BitVec.eq_of_getLsbD_eq fun i _ => h i)

theorem put_put (on later : Bool) : (flags.put flag on).put flag later = flags.put flag later := by
  refine ext_getLsbD fun i => ?_
  simp only [getLsbD_bits_put]
  split <;> rfl

theorem put_comm {flag other : Flag} (h : flag ≠ other) (on later : Bool) :
    (flags.put flag on).put other later = (flags.put other later).put flag on := by
  have hbit : flag.bit ≠ other.bit := fun he => h (Flag.bit_inj.mp he)
  refine ext_getLsbD fun i => ?_
  simp only [getLsbD_bits_put]
  split_ifs <;> first | rfl | omega

theorem put_has : flags.put flag (flags.has flag) = flags := by
  refine ext_getLsbD fun i => ?_
  rw [getLsbD_bits_put]
  split
  · next hi => rw [has, hi]
  · rfl

end Flags

/-! ## Requests -/

/-- A request to a page table. A frame that is mapped fits into an entry. -/
inductive Request where
  | map (page : VirtPage) (frame : Fin Entry.frameBound) (writable : Bool)
  | unmap (page : VirtPage)
  | access (page : VirtPage) (write : Bool)
  | setAccessed (page : VirtPage) (on : Bool)
  | setDirty (page : VirtPage) (on : Bool)
  | frame (page : VirtPage)
  | entry (page : VirtPage)
  | isAccessed (page : VirtPage)
  | isDirty (page : VirtPage)

/-- The answer to a request. -/
inductive Answer where
  | done
  | flag (on : Bool)
  | access (outcome : Except AccessFault Frame)
  | frame (found : Option Frame)
  | entry (found : Option Entry)

def serve (table : PageTable) : Request → Except Panic (Answer × PageTable)
  | .map page frame writable => (table.map page frame writable).map fun table => (.done, table)
  | .unmap page => (table.unmap page).map fun (dirty, table) => (.flag dirty, table)
  | .access page write =>
    match table.access page write with
    | .error fault => .ok (.access (.error fault), table)
    | .ok (frame, table) => .ok (.access (.ok frame), table)
  | .setAccessed page on => .ok (.done, table.setAccessed page on)
  | .setDirty page on => .ok (.done, table.setDirty page on)
  | .frame page => .ok (.frame (table.frame? page), table)
  | .entry page => .ok (.entry (table.lookup? page), table)
  | .isAccessed page => .ok (.flag (table.isAccessed page), table)
  | .isDirty page => .ok (.flag (table.isDirty page), table)

end PageTable

/-! ## Translations -/

/-- What a memory management unit knows of a page that is mapped. -/
structure Translation where
  frame : Fin PageTable.Entry.frameBound
  writable : Bool
  accessed : Bool
  dirty : Bool

namespace Translation

open PageTable

def flags (t : Translation) : Flags :=
  ((freshFlags t.writable).put .accessed t.accessed).put .dirty t.dirty

def entry (t : Translation) : Entry :=
  .pack t.frame t.flags

variable (t : Translation)

theorem isDeclared_flags : t.flags.IsDeclared :=
  ((isDeclared_freshFlags t.writable).put .accessed t.accessed).put .dirty t.dirty

@[simp] theorem frame_entry : t.entry.frame = t.frame :=
  Entry.frame_pack t.frame.isLt t.isDeclared_flags

@[simp] theorem flags_entry : t.entry.flags = t.flags :=
  Entry.flags_pack t.isDeclared_flags

theorem has_entry (flag : Flag) : t.entry.has flag =
    if flag = .dirty then t.dirty
    else if flag = .accessed then t.accessed
    else (freshFlags t.writable).has flag := by
  rw [Entry.has, flags_entry, flags, Flags.has_put, Flags.has_put]

@[simp] theorem isValid_entry : t.entry.isValid = true := by
  cases hw : t.writable <;> simp [Entry.isValid, has_entry, freshFlags, Flags.has_ofList, hw]

@[simp] theorem isWritable_entry : t.entry.isWritable = t.writable := by
  cases hw : t.writable <;> simp [Entry.isWritable, has_entry, freshFlags, Flags.has_ofList, hw]

@[simp] theorem accessed_entry : t.entry.has .accessed = t.accessed := by
  simp [has_entry]

@[simp] theorem dirty_entry : t.entry.has .dirty = t.dirty := by
  simp [has_entry]

theorem entry_fresh (frame : Fin Entry.frameBound) (writable : Bool) :
    Entry.fresh frame writable = (⟨frame, writable, false, false⟩ : Translation).entry := by
  have hflags : (⟨frame, writable, false, false⟩ : Translation).flags = freshFlags writable := by
    have haccessed := (freshFlags writable).put_has .accessed
    have hdirty := (freshFlags writable).put_has .dirty
    rw [← Entry.has_fresh frame, Entry.not_accessed_fresh] at haccessed
    rw [← Entry.has_fresh frame, Entry.not_dirty_fresh] at hdirty
    rw [flags, haccessed, hdirty]
  rw [Entry.fresh, entry, hflags]

theorem put_accessed (on : Bool) :
    t.entry.put .accessed on = { t with accessed := on }.entry := by
  have hflags : t.flags.put .accessed on = { t with accessed := on }.flags := by
    rw [flags, Flags.put_comm _ (by decide), Flags.put_put, flags]
  rw [Entry.put, frame_entry, flags_entry, hflags, entry]

theorem put_dirty (on : Bool) : t.entry.put .dirty on = { t with dirty := on }.entry := by
  have hflags : t.flags.put .dirty on = { t with dirty := on }.flags := by
    rw [flags, Flags.put_put, flags]
  rw [Entry.put, frame_entry, flags_entry, hflags, entry]

theorem marked_entry (write : Bool) : t.entry.marked write =
    { t with accessed := true, dirty := t.dirty || write }.entry := by
  cases write with
  | false => simp only [Entry.marked, put_accessed, Bool.or_false, Bool.false_eq_true, if_false]
  | true => simp only [Entry.marked, put_accessed, put_dirty, Bool.or_true, if_true]

end Translation

/-! ## The memory management unit -/

/-- A memory management unit without a page table. -/
abbrev Mmu := VirtPage → Option Translation

namespace Mmu

def empty : Mmu :=
  fun _ => none

def serve (mmu : Mmu) : PageTable.Request → Except Panic (PageTable.Answer × Mmu)
  | .map page frame writable =>
    match mmu page with
    | some _ => .error (.alreadyMapped page)
    | none => .ok (.done, Function.update mmu page (some ⟨frame, writable, false, false⟩))
  | .unmap page =>
    match mmu page with
    | none => .error (.notMapped page)
    | some t => .ok (.flag t.dirty, Function.update mmu page none)
  | .access page write =>
    match mmu page with
    | none => .ok (.access (.error .notPresent), mmu)
    | some t =>
      if write && !t.writable then .ok (.access (.error .protection), mmu)
      else .ok (.access (.ok t.frame), Function.update mmu page
        (some { t with accessed := true, dirty := t.dirty || write }))
  | .setAccessed page on =>
    .ok (.done, Function.update mmu page ((mmu page).map ({ · with accessed := on })))
  | .setDirty page on =>
    .ok (.done, Function.update mmu page ((mmu page).map ({ · with dirty := on })))
  | .frame page => .ok (.frame ((mmu page).map (·.frame.val)), mmu)
  | .entry page => .ok (.entry ((mmu page).map Translation.entry), mmu)
  | .isAccessed page => .ok (.flag ((mmu page).any (·.accessed)), mmu)
  | .isDirty page => .ok (.flag ((mmu page).any (·.dirty)), mmu)

end Mmu

namespace PageTable

/-- The entries of the table are the packed words of what the unit maps. -/
def Shows (table : PageTable) (mmu : Mmu) : Prop :=
  ∀ page, table.lookup? page = (mmu page).map Translation.entry

variable {table : PageTable} {mmu : Mmu} {page : VirtPage} {t : Translation}

theorem shows_empty : empty.Shows .empty :=
  fun _ => Std.TreeMap.getElem?_emptyc

namespace Shows

variable (h : table.Shows mmu)

include h

theorem lookup?_of_none (hpage : mmu page = none) : table.lookup? page = none := by
  rw [h page, hpage]
  rfl

theorem lookup?_of_some (hpage : mmu page = some t) : table.lookup? page = some t.entry := by
  rw [h page, hpage]
  rfl

theorem insert (page : VirtPage) (t : Translation) :
    Shows ⟨table.entries.insert page t.entry⟩ (Function.update mmu page (some t)) := by
  intro other
  rw [lookup?_insert]
  by_cases ho : page = other
  · rw [if_pos ho, ← ho, Function.update_self, Option.map_some]
  · rw [if_neg ho, Function.update_of_ne (Ne.symm ho)]
    exact h other

theorem erase (page : VirtPage) :
    Shows ⟨table.entries.erase page⟩ (Function.update mmu page none) := by
  intro other
  rw [lookup?_erase]
  by_cases ho : page = other
  · rw [if_pos ho, ← ho, Function.update_self, Option.map_none]
  · rw [if_neg ho, Function.update_of_ne (Ne.symm ho)]
    exact h other

theorem put {flag : Flag} {on : Bool} {change : Translation → Translation}
    (hput : ∀ t, t.entry.put flag on = (change t).entry) (page : VirtPage) :
    (table.put page flag on).Shows (Function.update mmu page ((mmu page).map change)) := by
  intro other
  rw [lookup?_put]
  by_cases ho : page = other
  · rw [if_pos ho, ← ho, Function.update_self, h page, Option.map_map, Option.map_map]
    exact congrArg (Option.map · (mmu page)) (funext hput)
  · rw [if_neg ho, Function.update_of_ne (Ne.symm ho)]
    exact h other

theorem has_eq (page : VirtPage) (flag : Flag) :
    table.has page flag = (mmu page).any (·.entry.has flag) := by
  rw [has, h page, Option.any_map]

theorem frame?_eq (page : VirtPage) : table.frame? page = (mmu page).map (·.frame.val) := by
  rw [frame?, present?, h page]
  cases mmu page with
  | none => rfl
  | some t => simp

/-- The table and the unit end every request alike. -/
theorem serve (request : Request) :
    Session.Alike Shows (table.serve request) (mmu.serve request) := by
  cases request with
  | map page frame writable =>
      simp only [PageTable.serve, Mmu.serve]
      cases hpage : mmu page with
      | none =>
          rw [map_of_none (h.lookup?_of_none hpage), Translation.entry_fresh]
          exact .answered _ (h.insert page _)
      | some t =>
          have hpresent := present?_of_some (h.lookup?_of_some hpage) t.isValid_entry
          rw [PageTable.map, hpresent]
          exact .panicked _
  | unmap page =>
      simp only [PageTable.serve, Mmu.serve]
      cases hpage : mmu page with
      | none =>
          rw [PageTable.unmap, h.lookup?_of_none hpage]
          exact .panicked _
      | some t =>
          rw [unmap_of_some (h.lookup?_of_some hpage), Translation.dirty_entry]
          exact .answered _ (h.erase page)
  | access page write =>
      simp only [PageTable.serve, Mmu.serve]
      cases hpage : mmu page with
      | none =>
          rw [access_of_none (h.lookup?_of_none hpage)]
          exact .answered _ h
      | some t =>
          rw [access_of_some (h.lookup?_of_some hpage) t.isValid_entry, t.isWritable_entry]
          simp only
          by_cases hdenied : (write && !t.writable) = true
          · rw [if_pos hdenied, if_pos hdenied]
            exact .answered _ h
          · rw [if_neg hdenied, if_neg hdenied, t.frame_entry, t.marked_entry]
            exact .answered _ (h.insert page _)
  | setAccessed page on => exact .answered _ (h.put (fun t => t.put_accessed on) page)
  | setDirty page on => exact .answered _ (h.put (fun t => t.put_dirty on) page)
  | frame page =>
      simp only [PageTable.serve, Mmu.serve, h.frame?_eq]
      exact .answered _ h
  | entry page =>
      simp only [PageTable.serve, Mmu.serve, h page]
      exact .answered _ h
  | isAccessed page =>
      simp only [PageTable.serve, Mmu.serve, isAccessed, h.has_eq, Translation.accessed_entry]
      exact .answered _ h
  | isDirty page =>
      simp only [PageTable.serve, Mmu.serve, isDirty, h.has_eq, Translation.dirty_entry]
      exact .answered _ h

end Shows

/-! ## The number of entries -/

theorem size_eq_ncard (table : PageTable) :
    table.size = {page | table.lookup? page ≠ none}.ncard := by
  have hpages : {page | table.lookup? page ≠ none} =
      (table.entries.keys.toFinset : Set VirtPage) := by
    ext page
    rw [Set.mem_ofPred_eq, List.coe_toFinset, Set.mem_ofPred_eq, Std.TreeMap.mem_keys,
      Std.TreeMap.mem_iff_isSome_getElem?, Option.isSome_iff_ne_none]
    rfl
  rw [hpages, Set.ncard_coe_finset, List.toFinset_card_of_nodup table.entries.nodup_keys,
    Std.TreeMap.length_keys]
  rfl

/-- The table after some requests, told by what the unit maps. -/
structure Simulates (table : PageTable) (mmu : Mmu) : Prop where
  unmapped : ∀ page, mmu page = none → table.lookup? page = none
  /-- The entry of a page is a packed word from which everything that is known of it is read. -/
  mapped : ∀ page t, mmu page = some t → table.lookup? page = some t.entry ∧
    t.entry.frame = t.frame ∧ t.entry.flags = t.flags ∧ t.entry.isWritable = t.writable ∧
    t.entry.has .accessed = t.accessed ∧ t.entry.has .dirty = t.dirty
  size_eq : table.size = {page | mmu page ≠ none}.ncard
  isEmpty_iff : table.isEmpty = true ↔ ∀ page, mmu page = none

theorem Shows.simulates (h : table.Shows mmu) : table.Simulates mmu where
  unmapped page hpage := h.lookup?_of_none hpage
  mapped page t hpage := ⟨h.lookup?_of_some hpage, t.frame_entry, t.flags_entry,
    t.isWritable_entry, t.accessed_entry, t.dirty_entry⟩
  size_eq := by
    simp only [size_eq_ncard, h _, ne_eq, Option.map_eq_none_iff]
  isEmpty_iff := by
    rw [isEmpty, Std.TreeMap.isEmpty_iff_forall_not_mem]
    refine forall_congr' fun page => ?_
    rw [Std.TreeMap.mem_iff_isSome_getElem?, Bool.not_eq_true, Option.isSome_eq_false_iff,
      Option.isNone_iff_eq_none]
    change table.lookup? page = none ↔ _
    rw [h page, Option.map_eq_none_iff]

/-- Whatever is requested of a page table, it answers as a memory management unit does, and an entry
gives back the frame and the flags that are packed in it. -/
theorem simulates_of_requests (requests : List Request) :
    let session := Session.run serve empty requests
    let unit := Session.run Mmu.serve .empty requests
    session.answers = unit.answers ∧ session.state.Simulates unit.state ∧
      ∀ frame < Entry.frameBound, ∀ flags : Flags, flags.IsDeclared →
        (Entry.pack frame flags).frame = frame ∧ (Entry.pack frame flags).flags = flags := by
  intro session unit
  obtain ⟨hanswers, hshows⟩ :=
    Session.answers_eq_of_alike (fun h => h.serve) requests shows_empty
  exact ⟨hanswers, hshows.simulates, fun frame hframe flags hflags =>
    ⟨Entry.frame_pack hframe hflags, Entry.flags_pack hflags⟩⟩

end PageTable

end DemandPaging
