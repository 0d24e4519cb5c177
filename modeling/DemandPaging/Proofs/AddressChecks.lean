import DemandPaging.Proofs.CopiedBytes
import DemandPaging.Proofs.Runs

/-! # Which addresses are valid

Three parts of the machine decide whether an address of a process may be used: the check of a
pointer, the fault of the process itself, and an access on its behalf. All three look for a
registered page and else for the stack. But an access on behalf of a process raises its fault at the
start of the page, and so may be refused where the stack pointer is less than a page above.
-/

namespace DemandPaging

/-! ## Refusals -/

namespace MachineM

variable {α β : Type} {m : Machine} {s : SpaceId} {space : Space} {vpn : VirtPage}

/-- The machine turns an action down: the address is bad, and all that is left of the action is what
was reported. -/
def TurnsDown (action : MachineM α) (m : Machine) : Prop :=
  ∃ events, action m = .error (.failed .badAddress) { m with events }

theorem TurnsDown.bind {action : MachineM α} (h : TurnsDown action m) (next : α → MachineM β) :
    TurnsDown (action >>= next) m := by
  obtain ⟨events, h⟩ := h
  exact ⟨events, bind_of_error h⟩

theorem turnsDown_emit (event : Event) (m : Machine) :
    TurnsDown (do emit event; fail .badAddress : MachineM α) m :=
  ⟨m.events.push event, rfl⟩

theorem handleFault_of_refuses {fault : PageFault} (hspace : m.space? s = some space)
    (hrefuses : space.refuses fault = true) : TurnsDown (handleFault s fault) m := by
  rcases handleFault_cases hspace fault with ⟨-, hfailed⟩ | ⟨haccepts, -⟩
  · exact hfailed
  · cases haccepts.symm.trans hrefuses

theorem userFrame_of_refuses (hspace : m.space? s = some space) (hentry : m.entryAt? s vpn = none)
    {write : Bool} (hrefuses : space.refuses (accessFault vpn write) = true) :
    TurnsDown (userFrame s vpn write) m := by
  obtain ⟨events, hfailed⟩ :=
    (handleFault_of_refuses hspace hrefuses).bind fun _ => accessPage s vpn write 1
  exact ⟨events, (userFrame_of_missing hspace hentry write).trans hfailed⟩

theorem readByte_of_refuses (hspace : m.space? s = some space)
    (hentry : m.entryAt? s va.page = none) (huser : va.isUser = true)
    (hrefuses : space.refuses (accessFault va.page false) = true) (byte : UInt8) :
    ∃ m', readUser s va #[byte] m = .ok (#[byte], some .badAddress) m' := by
  obtain ⟨events, hfailed⟩ := userFrame_of_refuses hspace hentry hrefuses
  exact ⟨{ m with events }, (readUser_byte huser s byte m).trans (readChunks_of_failed hfailed)⟩

end MachineM

/-! ## Checks of a pointer -/

namespace Space

variable {space : Space} {va : VirtAddr}

theorem checkAddress_eq_false_iff (hva : va.val ≠ 0) :
    space.checkAddress va = false ↔
      va.isUser = false ∨ space.pageAt? va = none ∧ space.isStackAccess va = false := by
  simp only [checkAddress, pageAt?, Std.TreeMap.contains_eq_isSome_getElem?, Bool.and_eq_false_iff,
    Bool.or_eq_false_iff, bne_eq_false_iff_eq, hva, false_or, Option.isSome_eq_false_iff,
    Option.isNone_iff_eq_none]

/-- The fault of a read that finds no page is refused exactly where the check of a pointer is. -/
theorem refuses_read_iff (hva : va.val ≠ 0) (user : Bool) :
    space.refuses ⟨va.val, false, user, true⟩ = true ↔ space.checkAddress va = false := by
  rw [checkAddress_eq_false_iff hva]
  simp only [refuses, Bool.not_true, Bool.or_false, Bool.or_eq_true, Bool.not_eq_true',
    Bool.false_and]
  cases space.pageAt? va with
  | none => simp
  | some page => simp

/-- The start of a page is a stack access where an address of the page is one, unless the stack
pointer is more than a page above the start. -/
theorem isStackAccess_start (h : va.isUser = true) :
    space.isStackAccess va.page.start = false ↔
      space.isStackAccess va = false ∨ va.page.start.val + stackSlack < space.userSp := by
  obtain ⟨hstart, -⟩ := VirtPage.start_of_lt (VirtAddr.page_lt_userPages h)
  have hoffset := va.page_mul_add_offset
  have hlt : va.offset < pageSize := Nat.mod_lt _ (by decide)
  simp only [isStackAccess, hstart, Bool.and_eq_false_iff, decide_eq_false_iff_not]
  simp only [userStackTop, stackLimit, stackSlack, pageSize] at *
  omega

end Space

/-! ## Agreement -/

namespace Machine

variable {m : Machine} {s : SpaceId} {space : Space} {visit : Visit} {va : VirtAddr}

/-- A read by the process itself that finds no page is answered with a bad address. -/
def ReadFaultRefused (m : Machine) (visit : Visit) (s : SpaceId) (va : VirtAddr) (user : Bool) :
    Prop :=
  ∃ m', (Op.fault s ⟨va.val, false, user, true⟩).execBy visit m = .error (.failed .badAddress) m'

/-- A read of one byte on behalf of the process is answered with a bad address. -/
def ReadRefused (m : Machine) (visit : Visit) (s : SpaceId) (va : VirtAddr) (byte : UInt8) : Prop :=
  ∃ bytes m', (Op.read s va #[byte]).execBy visit m = .ok (.buffer bytes (some .badAddress)) m'

/-- How the ways to decide whether an address is valid agree. -/
structure AddressChecks (m : Machine) (s : SpaceId) (space : Space) : Prop where
  /-- A read by the process is refused exactly where the check of a pointer is. -/
  fault_iff : ∀ visit va user, va.val ≠ 0 →
    (m.ReadFaultRefused visit s va user ↔ space.checkAddress va = false)
  /-- A read on its behalf is refused there, and also on the stack, at most a page below the stack
  pointer, if the start of the page is more than a page below it. -/
  read_iff : ∀ visit va byte, va.val ≠ 0 →
    (m.ReadRefused visit s va byte ↔ space.checkAddress va = false ∨
      m.page? s va.page = none ∧ va.page.start.val + stackSlack < space.userSp)
  /-- If the stack pointer is at the start of a page, all of them agree. -/
  read_iff_of_aligned : pageSize ∣ space.userSp → ∀ visit va byte, va.val ≠ 0 →
    (m.ReadRefused visit s va byte ↔ space.checkAddress va = false)

theorem Sound.readFaultRefused_iff (h : m.Sound) (hspace : m.space? s = some space)
    (visit : Visit) (hva : va.val ≠ 0) (user : Bool) :
    m.ReadFaultRefused visit s va user ↔ space.checkAddress va = false := by
  rw [← Space.refuses_read_iff hva user]
  constructor
  · rintro ⟨m', hfailed⟩
    have hfault := MachineM.handleFault_ends (s := s) h.consistent False.elim False.elim
      ⟨va.val, false, user, true⟩
    have hends : Ends False ((Op.fault s ⟨va.val, false, user, true⟩).execBy visit) m
        (fun _ _ => True) fun e _ => e = .badAddress → space.refuses _ = true :=
      (hfault.mono (fun _ _ _ => trivial) fun e _ hf he =>
        (MachineM.refuses_iff hspace _).mp (hf.1.mp he)).bind fun _ _ _ => Ends.pure trivial
    exact hends.failed_of_eq hfailed rfl
  · intro hrefuses
    obtain ⟨events, hfault⟩ := MachineM.handleFault_of_refuses hspace hrefuses
    refine ⟨{ m with events }, ?_⟩
    simp only [Op.execBy, Bind.bind, EStateM.bind, hfault]

/-- A read of one byte of a user page is refused if the fault at the start of the page is. -/
theorem Sound.readRefused_iff (h : m.Sound) (hspace : m.space? s = some space) (visit : Visit)
    (huser : va.isUser = true) (byte : UInt8) :
    m.ReadRefused visit s va byte ↔
      m.page? s va.page = none ∧ space.isStackAccess va.page.start = false := by
  have hrefuses : MachineM.Refuses m s (MachineM.accessFault va.page false) ↔
      m.page? s va.page = none ∧ space.isStackAccess va.page.start = false := by
    rw [MachineM.refuses_accessFault hspace (VirtAddr.page_lt_userPages huser)]
    cases m.page? s va.page with
    | none => simp
    | some page => simp
  rw [← hrefuses]
  constructor
  · rintro ⟨bytes, m', hreply⟩
    exact ((MachineM.readByte_answer h.consistent huser hreply).refused _ rfl).mp rfl
  · intro hrefused
    have hentry := h.consistent.unmapped (hrefuses.mp hrefused).1
    obtain ⟨m', hread⟩ := MachineM.readByte_of_refuses hspace hentry huser
      ((MachineM.refuses_iff hspace _).mp hrefused) byte
    refine ⟨#[byte], m', ?_⟩
    simp only [Op.execBy, Bind.bind, EStateM.bind, hread]
    rfl

theorem readRefused_of_not_user (visit : Visit) (huser : va.isUser = false) (byte : UInt8) :
    m.ReadRefused visit s va byte := by
  have hrange : isUserRange va (#[byte] : Bytes).size = false := (isUserRange_one va).trans huser
  have hread : MachineM.readUser s va #[byte] m = .ok (#[byte], some .badAddress) m := by
    simp only [MachineM.readUser, MachineM.userChunks, hrange, Bool.false_eq_true, if_false]
    rfl
  refine ⟨#[byte], m, ?_⟩
  simp only [Op.execBy, Bind.bind, EStateM.bind, hread]
  rfl

theorem Sound.addressChecks (h : m.Sound) (hspace : m.space? s = some space) :
    m.AddressChecks s space := by
  have hread : ∀ visit va byte, va.val ≠ 0 → (m.ReadRefused visit s va byte ↔
      space.checkAddress va = false ∨
        m.page? s va.page = none ∧ va.page.start.val + stackSlack < space.userSp) := by
    intro visit va byte hva
    rw [Space.checkAddress_eq_false_iff hva, Space.pageAt?, ← page?_of_space? hspace]
    cases huser : va.isUser with
    | false => simp [readRefused_of_not_user visit huser byte]
    | true =>
        rw [h.readRefused_iff hspace visit huser, Space.isStackAccess_start huser]
        simp only [Bool.true_eq_false, false_or]
        tauto
  refine ⟨fun visit va user hva => h.readFaultRefused_iff hspace visit hva user, hread, ?_⟩
  intro haligned visit va byte hva
  rw [hread visit va byte hva, or_iff_left_iff_imp]
  rintro ⟨hnone, hbelow⟩
  rw [Space.checkAddress_eq_false_iff hva, Space.pageAt?, ← page?_of_space? hspace]
  cases huser : va.isUser with
  | false => exact .inl rfl
  | true =>
      -- Both the stack pointer and the start of the page are multiples of the page size.
      refine .inr ⟨hnone, ?_⟩
      obtain ⟨hstart, -⟩ := VirtPage.start_of_lt (VirtAddr.page_lt_userPages huser)
      obtain ⟨count, hcount⟩ := haligned
      have hoffset := va.page_mul_add_offset
      have hlt : va.offset < pageSize := Nat.mod_lt _ (by decide)
      simp only [Space.isStackAccess, Bool.and_eq_false_iff, decide_eq_false_iff_not]
      rw [hstart] at hbelow
      simp only [userStackTop, stackLimit, stackSlack, pageSize] at *
      omega

/-- Whatever requests a machine has served, the ways to decide whether an address is valid agree,
but for the page that the slack below an unaligned stack pointer ends in. -/
theorem addressChecks_of_run {frames : ℕ} {disk : Disk} {files : FileStore}
    {requests : List (Visit × Op)} (hframes : frames ≤ PageTable.Entry.frameBound)
    (hrun : (boot frames disk files).run? requests = some m) (hspace : m.space? s = some space) :
    m.AddressChecks s space :=
  (sound_of_run hframes hrun).addressChecks hspace

/-- The stack pointer is at the start of a page, and the last byte of the page below its slack is
refused by all. -/
theorem addressChecks_of_aligned : ∃ m : Machine, ∃ space : Space,
    (boot 1 (.zeroed 8) (.ofFiles #[])).run?
      ([.create, .setUserSp 0 0x4747f000].map (Visit.ascending, ·)) = some m ∧
      m.space? 0 = some space ∧ ¬m.ReadRefused .ascending 0 ⟨0x4747e000⟩ 0 ∧
      m.ReadRefused .ascending 0 ⟨0x4747dfff⟩ 0 := by
  have hserved : ((boot 1 (.zeroed 8) (.ofFiles #[])).run?
      ([.create, .setUserSp 0 0x4747f000].map (Visit.ascending, ·))).any (fun m =>
        (m.space? 0).any fun space => space.userSp == 0x4747f000 &&
          space.checkAddress ⟨0x4747e000⟩ && !space.checkAddress ⟨0x4747dfff⟩) = true := by
    decide +kernel
  obtain ⟨m, hrun, hserved⟩ := (Option.any_eq_true _ _).mp hserved
  obtain ⟨space, hspace, hserved⟩ := (Option.any_eq_true _ _).mp hserved
  simp only [Bool.and_eq_true, Bool.not_eq_true', beq_iff_eq] at hserved
  obtain ⟨⟨huserSp, haccepted⟩, hrefused⟩ := hserved
  have hchecks := addressChecks_of_run (by decide) hrun hspace
  have haligned : pageSize ∣ space.userSp := by
    rw [huserSp]
    decide
  have hread := hchecks.read_iff_of_aligned haligned .ascending
  refine ⟨m, space, hrun, hspace, ?_, ?_⟩
  · rw [hread ⟨0x4747e000⟩ 0 (by decide), haccepted]
    exact Bool.noConfusion
  · exact (hread ⟨0x4747dfff⟩ 0 (by decide)).mpr hrefused

/-- A push one word below the end of a page stores where the check of a pointer and the fault of the
process accept a stack access, but an access on behalf of the process is refused. -/
theorem readRefused_of_push : ∃ m : Machine, ∃ space : Space,
    (boot 1 (.zeroed 8) (.ofFiles #[])).run?
      ([.create, .setUserSp 0 0x4747fff8].map (Visit.ascending, ·)) = some m ∧
      m.space? 0 = some space ∧ space.checkAddress ⟨0x4747eff8⟩ = true ∧
      ¬m.ReadFaultRefused .ascending 0 ⟨0x4747eff8⟩ true ∧
      m.ReadRefused .ascending 0 ⟨0x4747eff8⟩ 0 := by
  have hserved : ((boot 1 (.zeroed 8) (.ofFiles #[])).run?
      ([.create, .setUserSp 0 0x4747fff8].map (Visit.ascending, ·))).any (fun m =>
        (m.space? 0).any fun space => space.checkAddress ⟨0x4747eff8⟩ &&
          (m.answer? .ascending (.fault 0 ⟨0x4747eff8, false, true, true⟩)).isSome &&
          (m.read? .ascending 0 ⟨0x4747eff8⟩ #[0] (some .badAddress)).isSome) = true := by
    decide +kernel
  obtain ⟨m, hrun, hserved⟩ := (Option.any_eq_true _ _).mp hserved
  obtain ⟨space, hspace, hserved⟩ := (Option.any_eq_true _ _).mp hserved
  simp only [Bool.and_eq_true] at hserved
  obtain ⟨⟨hcheck, hfault⟩, hread⟩ := hserved
  refine ⟨m, space, hrun, hspace, hcheck, ?_, ?_⟩
  · rintro ⟨m', hfailed⟩
    obtain ⟨⟨reply, m₁⟩, hanswer⟩ := Option.isSome_iff_exists.mp hfault
    cases hfailed.symm.trans (execBy_of_answer? hanswer)
  · obtain ⟨⟨bytes, m'⟩, hanswer⟩ := Option.isSome_iff_exists.mp hread
    exact ⟨bytes, m', execBy_of_read? hanswer⟩

end Machine

end DemandPaging
