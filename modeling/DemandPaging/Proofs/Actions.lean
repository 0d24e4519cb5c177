import DemandPaging.Proofs.FramePool.Supply
import DemandPaging.Proofs.Outcome
import DemandPaging.Proofs.PageTable.Mapping
import DemandPaging.Proofs.View

/-! # Elementary actions

What the small actions of a machine do where they are allowed: how they end, and how the view of the
machine changes.
-/

namespace DemandPaging

namespace MachineM

variable {m : Machine} {s : SpaceId} {vpn : VirtPage} {held : List Frame} {pins : List BackingId}

/-! ## Look-ups -/

theorem space_of_some {space : Space} (h : m.space? s = some space) :
    MachineM.space s m = .ok space m := by
  simp only [MachineM.space, get, getThe, MonadStateOf.get, Bind.bind, EStateM.bind, EStateM.get, h]
  rfl

theorem space_of_none (h : m.space? s = none) :
    MachineM.space s m = .error (.panicked (.noSpace s)) m := by
  simp only [MachineM.space, get, getThe, MonadStateOf.get, Bind.bind, EStateM.bind, EStateM.get, h]
  rfl

theorem page_of_some {page : Page} (h : m.page? s vpn = some page) :
    MachineM.page s vpn m = .ok page m := by
  obtain ⟨space, hspace, hpage⟩ := Machine.exists_space_of_page? h
  simp only [MachineM.page, Bind.bind, EStateM.bind, space_of_some hspace, hpage]
  rfl

/-! ## Pages and mappings -/

theorem putPage_ok (hlive : (m.view held pins).Live s) (page : Page) :
    ∃ m', putPage s page m = .ok () m' ∧ m'.view held pins =
      { m.view held pins with page := setAt m.page? s page.vpn (some page) } := by
  obtain ⟨space, hspace⟩ := Machine.exists_space_of_live hlive
  refine ⟨m.setSpace s { space with pages := space.pages.insert page.vpn page }, ?_,
    Machine.view_putPage hspace page held pins⟩
  simp only [putPage, Bind.bind, EStateM.bind, space_of_some hspace]
  rfl

theorem erasePage_ok (hlive : (m.view held pins).Live s) (vpn : VirtPage) :
    ∃ m', erasePage s vpn m = .ok () m' ∧ m'.view held pins =
      { m.view held pins with page := setAt m.page? s vpn none } := by
  obtain ⟨space, hspace⟩ := Machine.exists_space_of_live hlive
  refine ⟨m.setSpace s { space with pages := space.pages.erase vpn }, ?_,
    Machine.view_erasePage hspace vpn⟩
  simp only [erasePage, Bind.bind, EStateM.bind, space_of_some hspace]
  rfl

theorem mapPage_ok (hlive : (m.view held pins).Live s) (h : m.entryAt? s vpn = none) (frame : Frame)
    (writable : Bool) :
    ∃ m', mapPage s vpn frame writable m = .ok () m' ∧ m'.view held pins =
      { m.view held pins with
        entry := setAt m.entryAt? s vpn (some (PageTable.Entry.fresh frame writable)) } := by
  obtain ⟨space, hspace⟩ := Machine.exists_space_of_live hlive
  have hlookup : space.table.lookup? vpn = none :=
    (Machine.entryAt?_of_space? hspace vpn).symm.trans h
  refine ⟨_, ?_, Machine.view_putTable hspace
    (fun u => space.table.lookup?_insert vpn u _) held pins⟩
  simp only [mapPage, Bind.bind, EStateM.bind, space_of_some hspace,
    PageTable.map_of_none hlookup]
  rfl

theorem unmapPage_ok {entry : PageTable.Entry} (h : m.entryAt? s vpn = some entry)
    (held : List Frame) (pins : List BackingId) :
    ∃ m', unmapPage s vpn m = .ok (entry.has .dirty) m' ∧ m'.view held pins =
      { m.view held pins with entry := setAt m.entryAt? s vpn none } := by
  obtain ⟨space, hspace, hlookup⟩ := Machine.exists_space_of_entry? h
  refine ⟨_, ?_, Machine.view_putTable hspace
    (fun u => space.table.lookup?_erase vpn u) held pins⟩
  simp only [unmapPage, Bind.bind, EStateM.bind, space_of_some hspace,
    PageTable.unmap_of_some hlookup]
  rfl

theorem unmapPage_of_none (hlive : (m.view held pins).Live s) (h : m.entryAt? s vpn = none) :
    unmapPage s vpn m = .error (.panicked (.notMapped vpn)) m := by
  obtain ⟨space, hspace⟩ := Machine.exists_space_of_live hlive
  have hlookup : space.table.lookup? vpn = none :=
    (Machine.entryAt?_of_space? hspace vpn).symm.trans h
  simp only [unmapPage, Bind.bind, EStateM.bind, space_of_some hspace,
    PageTable.unmap_of_none hlookup]
  rfl

/-! ## Frames and slots -/

variable {frame : Frame} {bytes : PageBytes} {slot : Slot}

theorem loadFrame_of_ok (h : m.pool.load frame = .ok bytes) : loadFrame frame m = .ok bytes m := by
  simp only [loadFrame, get, getThe, MonadStateOf.get, Bind.bind, EStateM.bind, EStateM.get, h]
  rfl

theorem loadFrame_of_error {p : Panic} (h : m.pool.load frame = .error p) :
    loadFrame frame m = .error (.panicked p) m := by
  simp only [loadFrame, get, getThe, MonadStateOf.get, Bind.bind, EStateM.bind, EStateM.get, h]
  rfl

theorem storeFrame_of_ok {pool : FramePool} (h : m.pool.store frame bytes = .ok pool) :
    storeFrame frame bytes m = .ok () { m with pool } := by
  simp only [storeFrame, get, getThe, MonadStateOf.get, Bind.bind, EStateM.bind, EStateM.get, h]
  rfl

theorem storeFrame_of_error {p : Panic} (h : m.pool.store frame bytes = .error p) :
    storeFrame frame bytes m = .error (.panicked p) m := by
  simp only [storeFrame, get, getThe, MonadStateOf.get, Bind.bind, EStateM.bind, EStateM.get, h]
  rfl

theorem releaseFrame_of_ok {pool : FramePool} (h : m.pool.release frame = .ok pool) :
    releaseFrame frame m = .ok () { m with pool } := by
  simp only [releaseFrame, get, getThe, MonadStateOf.get, Bind.bind, EStateM.bind, EStateM.get, h]
  rfl

theorem releaseFrame_of_error {p : Panic} (h : m.pool.release frame = .error p) :
    releaseFrame frame m = .error (.panicked p) m := by
  simp only [releaseFrame, get, getThe, MonadStateOf.get, Bind.bind, EStateM.bind, EStateM.get, h]
  rfl

theorem releaseSlot_of_ok {swap : SwapArea} (h : m.swap.release slot = .ok swap) :
    releaseSlot slot m = .ok () { m with swap } := by
  simp only [releaseSlot, get, getThe, MonadStateOf.get, Bind.bind, EStateM.bind, EStateM.get, h]
  rfl

theorem loadFromSwap_of_ok {pool : FramePool} (h : m.swap.read slot = .ok bytes)
    (hs : m.pool.store frame bytes = .ok pool) :
    loadFromSwap slot frame m = .ok () { m with pool } := by
  have hread : (liftM (m.swap.read slot) : MachineM PageBytes) m = .ok bytes m := by
    rw [h]
    rfl
  simp only [loadFromSwap, get, getThe, MonadStateOf.get, Bind.bind, EStateM.bind, EStateM.get]
  rw [hread]
  exact storeFrame_of_ok hs

end MachineM

theorem Ends.space {α : Type} {sound : Prop} {m : Machine} {s : SpaceId} {held : List Frame}
    {pins : List BackingId} {next : Space → MachineM α} {ok : α → Machine → Prop}
    {failed : Errno → Machine → Prop} (hlive : sound → (m.view held pins).Live s)
    (hnext : ∀ space, m.space? s = some space → Ends sound (next space) m ok failed) :
    Ends sound (MachineM.space s >>= next) m ok failed := by
  cases hspace : m.space? s with
  | some space => exact Ends.bind_ok (MachineM.space_of_some hspace) (hnext space hspace)
  | none =>
      have hdead : Ends sound (MachineM.space s) m (fun _ _ => False) fun _ _ => False := by
        refine Ends.of_panicked (MachineM.space_of_none hspace) fun hs => ?_
        obtain ⟨space, hsome⟩ := Machine.exists_space_of_live (hlive hs)
        simp [hspace] at hsome
      exact hdead.bind_total fun _ _ hf => hf.elim

theorem Ends.emit {α : Type} {sound : Prop} {m : Machine} {next : Unit → MachineM α}
    {ok : α → Machine → Prop} {failed : Errno → Machine → Prop} (event : Event) (held : List Frame)
    (pins : List BackingId)
    (hnext : ∀ m', m'.view held pins = m.view held pins → Ends sound (next ()) m' ok failed) :
    Ends sound (MachineM.emit event >>= next) m ok failed :=
  Ends.bind_ok rfl (hnext { m with events := m.events.push event } rfl)

end DemandPaging
