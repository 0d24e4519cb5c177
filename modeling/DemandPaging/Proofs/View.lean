import DemandPaging.Machine.Basic
import Mathlib

/-! # The view of a machine

A view shows a machine through look-ups: which page is registered where, which entry maps it, which
address spaces exist. Beside that it keeps what an unfinished action holds: frames that were
acquired but are not occupied yet, and references to backings that no page holds.
-/

namespace DemandPaging

/-- The number of virtual pages in user space. -/
def userPages : ℕ := userEnd / pageSize

/-- A function of address spaces and virtual pages with one value replaced. -/
def setAt {α : Type} (f : SpaceId → VirtPage → α) (s : SpaceId) (vpn : VirtPage) (a : α) :
    SpaceId → VirtPage → α :=
  fun t u => if s = t ∧ vpn = u then a else f t u

section SetAt

variable {α β : Type} {f : SpaceId → VirtPage → α} {s t : SpaceId} {vpn u : VirtPage} {a b : α}

@[simp] theorem setAt_same : setAt f s vpn a s vpn = a := by
  simp [setAt]

theorem setAt_of_ne (h : ¬(s = t ∧ vpn = u)) : setAt f s vpn a t u = f t u := by
  simp [setAt, h]

theorem setAt_some_eq_none_iff {f : SpaceId → VirtPage → Option α} (a : α) :
    setAt f s vpn (some a) s u = none ↔ u ≠ vpn ∧ f s u = none := by
  by_cases hu : vpn = u
  · subst hu
    simp
  · rw [setAt_of_ne fun h => hu h.2, and_iff_right (Ne.symm hu)]

theorem setAt_eq_self (h : f s vpn = a) : setAt f s vpn a = f := by
  funext t u
  by_cases htu : s = t ∧ vpn = u
  · obtain ⟨rfl, rfl⟩ := htu
    rw [setAt_same, h]
  · exact setAt_of_ne htu

theorem setAt_comm : setAt (setAt f s vpn a) t u a = setAt (setAt f t u a) s vpn a := by
  funext t' u'
  simp only [setAt]
  split <;> split <;> rfl

theorem setAt_none_cons {f g : SpaceId → VirtPage → Option α} {order : List VirtPage}
    (h : ∀ t u, g t u = if s = t ∧ u ∈ order then none else setAt f s vpn none t u) (t : SpaceId)
    (u : VirtPage) : g t u = if s = t ∧ u ∈ vpn :: order then none else f t u := by
  rw [h]
  by_cases hs : s = t
  · subst hs
    by_cases hu : u ∈ order
    · simp [hu]
    · by_cases hvpn : vpn = u
      · simp [hvpn]
      · simp [hu, setAt, hvpn, Ne.symm hvpn]
  · simp [hs, setAt]

theorem comp_setAt (g : α → β) :
    (fun t u => g (setAt f s vpn a t u)) = setAt (fun t u => g (f t u)) s vpn (g a) := by
  funext t u
  simp only [setAt]
  split <;> rfl

end SetAt

namespace Machine

def entryAt? (m : Machine) (s : SpaceId) (vpn : VirtPage) : Option PageTable.Entry :=
  (m.space? s).bind (·.table.lookup? vpn)

def userSp? (m : Machine) (s : SpaceId) : Option ℕ :=
  (m.space? s).map Space.userSp

end Machine

/-- What look-ups show of a machine, and what an unfinished action holds. -/
structure View where
  page : SpaceId → VirtPage → Option Page
  entry : SpaceId → VirtPage → Option PageTable.Entry
  userSp : SpaceId → Option ℕ
  nextSpace : SpaceId
  frames : FrameTable
  pool : FramePool
  swap : SwapArea
  files : FileStore
  /-- Frames that were acquired and are not occupied yet. -/
  held : List Frame
  /-- References to backings that are held by no page. -/
  pins : List BackingId

namespace View

def frame (V : View) (s : SpaceId) (vpn : VirtPage) : Option Frame :=
  (V.page s vpn).bind Page.frame

def slot (V : View) (s : SpaceId) (vpn : VirtPage) : Option Slot :=
  (V.page s vpn).bind Page.slot?

def backing (V : View) (s : SpaceId) (vpn : VirtPage) : Option BackingId :=
  (V.page s vpn).bind Page.backing?

def Live (V : View) (s : SpaceId) : Prop :=
  V.userSp s ≠ none

end View

namespace Machine

/-- The view of a machine in the middle of an action that holds frames and references. -/
def view (m : Machine) (held : List Frame) (pins : List BackingId) : View :=
  { page := m.page?
    entry := m.entryAt?
    userSp := m.userSp?
    nextSpace := m.nextSpace
    frames := m.frames
    pool := m.pool
    swap := m.swap
    files := m.files
    held
    pins }

def setSpace (m : Machine) (s : SpaceId) (space : Space) : Machine :=
  { m with spaces := m.spaces.insert s space }

variable {m : Machine} {s : SpaceId} {space : Space} {held : List Frame} {pins : List BackingId}

theorem space?_setSpace (t : SpaceId) :
    (m.setSpace s space).space? t = if s = t then some space else m.space? t := by
  simp only [space?, setSpace, Std.TreeMap.getElem?_insert, Std.compare_eq_iff_eq]

theorem page?_eq_none (h : m.space? s = none) (vpn : VirtPage) : m.page? s vpn = none := by
  rw [page?, h]
  rfl

theorem entryAt?_eq_none (h : m.space? s = none) (vpn : VirtPage) : m.entryAt? s vpn = none := by
  rw [entryAt?, h]
  rfl

theorem exists_space_of_userSp? {sp : ℕ} (h : m.userSp? s = some sp) :
    ∃ space, m.space? s = some space ∧ space.userSp = sp :=
  Option.map_eq_some_iff.mp h

theorem exists_space_of_live (h : (m.view held pins).Live s) :
    ∃ space, m.space? s = some space := by
  obtain ⟨sp, hsp⟩ := Option.ne_none_iff_exists'.mp h
  obtain ⟨space, hspace, -⟩ := exists_space_of_userSp? hsp
  exact ⟨space, hspace⟩

theorem live_of_space? (h : m.space? s = some space) : (m.view held pins).Live s := by
  simp [View.Live, view, userSp?, h]

theorem exists_space_of_page? {vpn : VirtPage} {page : Page} (h : m.page? s vpn = some page) :
    ∃ space, m.space? s = some space ∧ space.pages[vpn]? = some page :=
  Option.bind_eq_some_iff.mp h

theorem exists_space_of_entry? {vpn : VirtPage} {entry : PageTable.Entry}
    (h : m.entryAt? s vpn = some entry) :
    ∃ space, m.space? s = some space ∧ space.table.lookup? vpn = some entry :=
  Option.bind_eq_some_iff.mp h

theorem live_of_page? {vpn : VirtPage} {page : Page} (h : m.page? s vpn = some page) :
    (m.view held pins).Live s := by
  obtain ⟨space, hspace, -⟩ := exists_space_of_page? h
  exact live_of_space? hspace

/-! ## Changes of one address space -/

/-- A change of an address space shows in the view of that address space alone. -/
theorem view_setSpace (h : m.space? s = some space) {changed : Space}
    {page : SpaceId → VirtPage → Option Page}
    {entry : SpaceId → VirtPage → Option PageTable.Entry}
    (hpage : ∀ t u, page t u = if s = t then changed.pages[u]? else m.page? t u)
    (hentry : ∀ t u, entry t u = if s = t then changed.table.lookup? u else m.entryAt? t u)
    (hsp : changed.userSp = space.userSp) :
    (m.setSpace s changed).view held pins = { m.view held pins with page, entry } := by
  have hp : (m.setSpace s changed).page? = page := by
    funext t u
    rw [hpage, page?, space?_setSpace]
    split <;> rfl
  have he : (m.setSpace s changed).entryAt? = entry := by
    funext t u
    rw [hentry, entryAt?, space?_setSpace]
    split <;> rfl
  have hu : (m.setSpace s changed).userSp? = m.userSp? := by
    funext t
    rw [userSp?, space?_setSpace]
    split
    · next hst => rw [← hst, userSp?, h, Option.map_some, Option.map_some, hsp]
    · rfl
  simp only [view, hp, he, hu]
  rfl

theorem page?_of_space? (h : m.space? s = some space) (u : VirtPage) :
    m.page? s u = space.pages[u]? := by
  rw [page?, h]
  rfl

theorem entryAt?_of_space? (h : m.space? s = some space) (u : VirtPage) :
    m.entryAt? s u = space.table.lookup? u := by
  rw [entryAt?, h]
  rfl

theorem view_setPages (h : m.space? s = some space) (pages : PageMap) (held : List Frame)
    (pins : List BackingId) :
    (m.setSpace s { space with pages }).view held pins =
      { m.view held pins with page := fun t u => if s = t then pages[u]? else m.page? t u } := by
  refine view_setSpace h (fun _ _ => rfl) (fun t u => ?_) rfl
  split
  · next hst => exact hst ▸ entryAt?_of_space? h u
  · rfl

theorem view_putPage (h : m.space? s = some space) (page : Page) (held : List Frame)
    (pins : List BackingId) :
    (m.setSpace s { space with pages := space.pages.insert page.vpn page }).view held pins =
      { m.view held pins with page := setAt m.page? s page.vpn (some page) } := by
  refine view_setSpace h (fun t u => ?_) (fun t u => ?_) rfl
  · simp only [setAt, Std.TreeMap.getElem?_insert, Std.compare_eq_iff_eq]
    by_cases hst : s = t
    · subst hst
      simp only [true_and, if_true, page?_of_space? h]
    · simp [hst]
  · by_cases hst : s = t
    · subst hst
      exact (entryAt?_of_space? h u).trans (if_pos rfl).symm
    · exact (if_neg hst).symm

theorem view_erasePage (h : m.space? s = some space) (vpn : VirtPage) :
    (m.setSpace s { space with pages := space.pages.erase vpn }).view held pins =
      { m.view held pins with page := setAt m.page? s vpn none } := by
  refine view_setSpace h (fun t u => ?_) (fun t u => ?_) rfl
  · simp only [setAt, Std.TreeMap.getElem?_erase, Std.compare_eq_iff_eq]
    by_cases hst : s = t
    · subst hst
      simp only [true_and, if_true, page?_of_space? h]
    · simp [hst]
  · by_cases hst : s = t
    · subst hst
      exact (entryAt?_of_space? h u).trans (if_pos rfl).symm
    · exact (if_neg hst).symm

/-- A table in which one entry differs shows in the view as that entry. -/
theorem view_putTable (h : m.space? s = some space) {table : PageTable} {vpn : VirtPage}
    {entry : Option PageTable.Entry}
    (ht : ∀ u, table.lookup? u = if vpn = u then entry else space.table.lookup? u)
    (held : List Frame) (pins : List BackingId) :
    (m.setSpace s { space with table }).view held pins =
      { m.view held pins with entry := setAt m.entryAt? s vpn entry } := by
  refine view_setSpace h (fun t u => ?_) (fun t u => ?_) rfl
  · by_cases hst : s = t
    · subst hst
      exact (page?_of_space? h u).trans (if_pos rfl).symm
    · exact (if_neg hst).symm
  · by_cases hst : s = t
    · subst hst
      simp only [setAt, true_and, if_true, ht, entryAt?_of_space? h]
    · simp [setAt, hst]

theorem view_putUserSp (h : m.space? s = some space) (userSp : ℕ) :
    (m.setSpace s { space with userSp }).view held pins =
      { m.view held pins with userSp := Function.update m.userSp? s (some userSp) } := by
  have hp : (m.setSpace s { space with userSp }).page? = m.page? := by
    funext t u
    rw [page?, space?_setSpace]
    split
    · next hst => exact hst ▸ (page?_of_space? h u).symm
    · rfl
  have he : (m.setSpace s { space with userSp }).entryAt? = m.entryAt? := by
    funext t u
    rw [entryAt?, space?_setSpace]
    split
    · next hst => exact hst ▸ (entryAt?_of_space? h u).symm
    · rfl
  have hu : (m.setSpace s { space with userSp }).userSp? =
      Function.update m.userSp? s (some userSp) := by
    funext t
    rw [userSp?, space?_setSpace]
    by_cases hst : s = t
    · subst hst
      simp
    · simp [hst, Ne.symm hst, userSp?]
  simp only [view, hp, he, hu]
  rfl

end Machine

end DemandPaging
