import DemandPaging.Proofs.Runs

/-! # The ownership of swap slots

Between two requests, every slot in use belongs to one anonymous page that is not resident, and
every such page has a slot. What no page holds is free.
-/

namespace DemandPaging.Machine

def Holds (m : Machine) (s : SpaceId) (vpn : VirtPage) (slot : Slot) : Prop :=
  ∃ page, m.page? s vpn = some page ∧ page.kind = .anon (some slot)

def Held (m : Machine) (slot : Slot) : Prop :=
  ∃ s vpn, m.Holds s vpn slot

/-- The swap slots in use are those that pages hold. -/
structure SlotOwnership (m : Machine) : Prop where
  /-- An anonymous page holds a slot exactly if it is not resident. -/
  anon : ∀ s vpn page slot, m.page? s vpn = some page → page.kind = .anon slot →
    (page.isResident = false ↔ slot ≠ none)
  holder_unique : ∀ s vpn t u slot, m.Holds s vpn slot → m.Holds t u slot → s = t ∧ vpn = u
  marked_iff : ∀ slot, m.swap.bitmap.test? slot = some true ↔ m.Held slot
  held_lt : ∀ slot, m.Held slot → slot < m.swap.slotCount
  used_eq : {x : SpaceId × VirtPage | ∃ page slot, m.page? x.1 x.2 = some page ∧
    page.kind = .anon slot ∧ page.isResident = false}.encard = m.swap.used
  /-- The next slot to be taken is the first that no page holds. -/
  alloc?_some : ∀ slot swap, m.swap.alloc? = some (slot, swap) →
    slot < m.swap.slotCount ∧ ¬m.Held slot ∧ ∀ i < slot, m.Held i
  /-- There is none only if pages hold them all. -/
  alloc?_none : m.swap.alloc? = none ↔ ∀ slot < m.swap.slotCount, m.Held slot
  /-- A slot can be given back if a page holds it, and is there to be taken at once. -/
  release_iff : ∀ slot, (∃ swap, m.swap.release slot = .ok swap) ↔ m.Held slot
  alloc?_release : ∀ slot swap, m.swap.release slot = .ok swap →
    ∃ first taken, swap.alloc? = some (first, taken) ∧ first ≤ slot

variable {m : Machine}

theorem holds_iff {s : SpaceId} {vpn : VirtPage} {slot : Slot} :
    m.Holds s vpn slot ↔ (m.view [] []).slot s vpn = some slot := by
  constructor
  · rintro ⟨page, hpage, hkind⟩
    rw [View.slot_of_page (V := m.view [] []) hpage, Page.slot?, hkind]
  · intro hslot
    obtain ⟨page, hpage, hown⟩ := Option.bind_eq_some_iff.mp hslot
    refine ⟨page, hpage, ?_⟩
    unfold Page.slot? at hown
    split at hown
    · next kept hkind => rw [hkind, hown]
    · cases hown

theorem Sound.anon_iff (h : m.Sound) {s : SpaceId} {vpn : VirtPage} {page : Page}
    {slot : Option Slot} (hpage : m.page? s vpn = some page) (hkind : page.kind = .anon slot) :
    page.isResident = false ↔ slot ≠ none := by
  have hplaced := (h.consistent.settled hpage).placed
  unfold Page.Placed at hplaced
  rw [hkind] at hplaced
  rw [Page.isResident, Option.isSome_eq_false_iff, Option.isNone_iff_eq_none]
  exact hplaced

theorem Sound.slotOwnership (h : m.Sound) : m.SlotOwnership := by
  obtain ⟨slots, hsupplies, howners⟩ := h.consistent.slotted
  have hheld : ∀ slot, m.Held slot ↔ slot ∈ slots := fun slot => by
    rw [howners.mem_iff]
    exact exists₂_congr fun s vpn => holds_iff
  refine ⟨fun s vpn page slot hpage hkind => h.anon_iff hpage hkind, ?_, ?_, ?_, ?_, ?_, ?_, ?_, ?_⟩
  · intro s vpn t u slot hs ht
    exact howners.inj (holds_iff.mp hs) (holds_iff.mp ht)
  · intro slot
    rw [hheld]
    exact hsupplies.test_iff slot
  · intro slot hslot
    exact hsupplies.lt_count slot ((hheld slot).mp hslot)
  · have hused : m.swap.used = slots.length := hsupplies.used
    rw [hused, ← howners.encard_eq hsupplies.nodup]
    congr 1
    ext ⟨s, vpn⟩
    constructor
    · rintro ⟨page, slot, hpage, hkind, hout⟩
      obtain ⟨kept, rfl⟩ := Option.ne_none_iff_exists'.mp ((h.anon_iff hpage hkind).mp hout)
      exact Option.ne_none_iff_exists'.mpr ⟨kept, holds_iff.mp ⟨page, hpage, hkind⟩⟩
    · intro hne
      obtain ⟨slot, hslot⟩ := Option.ne_none_iff_exists'.mp hne
      obtain ⟨page, hpage, hkind⟩ := holds_iff.mpr hslot
      exact ⟨page, some slot, hpage, hkind, (h.anon_iff hpage hkind).mpr (by simp)⟩
  · intro slot swap halloc
    obtain ⟨hlt, hnot, hbelow, -⟩ := hsupplies.alloc? halloc
    exact ⟨hlt, (hheld slot).not.mpr hnot, fun i hi => (hheld i).mpr (hbelow i hi)⟩
  · constructor
    · exact fun halloc slot hlt => (hheld slot).mpr (hsupplies.mem_of_alloc?_eq_none halloc hlt)
    · intro hall
      by_contra hne
      obtain ⟨⟨slot, swap⟩, halloc⟩ := Option.ne_none_iff_exists'.mp hne
      obtain ⟨hlt, hnot, -⟩ := hsupplies.alloc? halloc
      exact hnot ((hheld slot).mp (hall slot hlt))
  · intro slot
    rw [hheld]
    constructor
    · rintro ⟨swap, hfreed⟩
      exact hsupplies.mem_of_release hfreed
    · intro hmem
      obtain ⟨swap, hfreed, -⟩ := (hsupplies.perm (List.perm_cons_erase hmem)).release
      exact ⟨swap, hfreed⟩
  · exact fun slot swap hfreed => hsupplies.first_le_of_release hfreed

/-- Whatever requests a machine has served, and whether or not they succeeded, the swap slots in use
are those that pages hold, each held by one page. -/
theorem slotOwnership_of_run {frames : ℕ} {disk : Disk} {files : FileStore}
    {requests : List (Visit × Op)} (hframes : frames ≤ PageTable.Entry.frameBound)
    (hrun : (boot frames disk files).run? requests = some m) : m.SlotOwnership :=
  (sound_of_run hframes hrun).slotOwnership

/-- A child is copied from resident and from evicted pages, and outlives its parent. -/
theorem slotOwnership_of_child : ∃ m : Machine,
    (boot 1 (.zeroed 24) (.ofFiles #[])).run? ([.create, .setupStack 0,
      .alloc 0 ⟨pageSize⟩ true .zero .anon, .claim 0 ⟨pageSize⟩, .fork 0,
      .drop 0].map (Visit.ascending, ·)) = some m ∧
      m.SlotOwnership := by
  have hserved : ((boot 1 (.zeroed 24) (.ofFiles #[])).run? ([.create, .setupStack 0,
      .alloc 0 ⟨pageSize⟩ true .zero .anon, .claim 0 ⟨pageSize⟩, .fork 0,
      .drop 0].map (Visit.ascending, ·))).isSome = true := by
    decide +kernel
  obtain ⟨m, hrun⟩ := Option.isSome_iff_exists.mp hserved
  exact ⟨m, hrun, slotOwnership_of_run (by decide) hrun⟩

end DemandPaging.Machine
