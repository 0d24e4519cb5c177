import DemandPaging.Proofs.FlatMemory.UserCopy

/-! # Refinement of flat memory

A machine that was booted and served requests shows flat memory: what a read returns is what was
last written to the address in the same address space, whatever became of the page in between.
-/

namespace DemandPaging

variable {m m' : Machine} {memory : Flat} {op : Op} {visit : Visit} {s dst src : SpaceId} {addr : ℕ}
  {byte : UInt8}

/-! ## Flat memory after a request -/

namespace Flat

theorem exists_of_after (h : memory.after op m m' s addr = some byte) :
    ∃ page before, m'.page? s (pageOf addr) = some page ∧
      (if (m.page? s (pageOf addr)).isSome then memory s addr
        else memory.first op m s addr page) = some before ∧
      (op.stored? m s addr).getD before = byte := by
  unfold after at h
  cases hp : m'.page? s (pageOf addr) with
  | none => simp [hp] at h
  | some page =>
      simp only [hp] at h
      obtain ⟨before, hbefore, hbyte⟩ := Option.map_eq_some_iff.mp h
      exact ⟨page, before, rfl, hbefore, hbyte⟩

theorem first_eq_some {page : Page} (hsource : op.source? m s = none)
    (h : memory.first op m s addr page = some byte) : page.segment? = none ∧ byte = 0 := by
  simp only [first, hsource] at h
  split at h
  · next hzero => exact ⟨hzero, (Option.some.inj h).symm⟩
  · cases h

/-- Flat memory with zeros where no page is registered. -/
def padded (memory : Flat) (V : View) : Flat := fun s addr =>
  if (V.page s (pageOf addr)).isSome then memory s addr else some 0

theorem padded_of_after (hsource : op.source? m s = none)
    (h : memory.after op m m' s addr = some byte) :
    ∃ before, memory.padded (m.view [] []) s addr = some before ∧
      (op.stored? m s addr).getD before = byte := by
  obtain ⟨page, before, -, hbefore, hbyte⟩ := exists_of_after h
  refine ⟨before, ?_, hbyte⟩
  change (if (m.page? s (pageOf addr)).isSome then memory s addr else some 0) = some before
  split
  · next hp => rwa [if_pos hp] at hbefore
  · next hp =>
    rw [if_neg hp] at hbefore
    rw [(first_eq_some hsource hbefore).2]

theorem padded_of_after_unstored (hsource : op.source? m s = none)
    (hstored : op.stored? m s addr = none) (h : memory.after op m m' s addr = some byte) :
    memory.padded (m.view [] []) s addr = some byte := by
  obtain ⟨before, hbefore, hbyte⟩ := padded_of_after hsource h
  rw [hstored, Option.getD_none] at hbyte
  rwa [← hbyte]

end Flat

theorem View.Shows.refines_padded {V : View} (hshows : V.Shows memory) (h : V.Consistent) :
    V.Refines (memory.padded V) := by
  refine ⟨h, ?_, ?_⟩
  · intro s vpn hp i hi byte hbyte
    rw [Flat.padded, pageOf_number_mul_add vpn hi, if_pos (Option.isSome_iff_ne_none.mpr hp)]
      at hbyte
    exact hshows s vpn hp i hi byte hbyte
  · intro s vpn hnone i hi byte hbyte
    rw [Flat.padded, pageOf_number_mul_add vpn hi, hnone] at hbyte
    exact (Option.some.inj hbyte).symm

/-! ## Kinds of requests -/

section

variable {deeds : Set Deed} (h : m.Sound) (hshows : (m.view [] []).Shows memory)
  (hsteps : Steps deeds (m.view [] []) (m'.view [] [])) (hsource : ∀ s, op.source? m s = none)
  (hstored : ∀ s addr, op.stored? m s addr = none)

include h hshows hsteps hsource hstored

theorem shows_after_of_onlyZeros (hd : ∀ d ∈ deeds, d.OnlyZeros) :
    (m'.view [] []).Shows (memory.after op m m') := by
  have hrefines := hsteps.refines hd (hshows.refines_padded h.consistent)
  exact hrefines.shows.mono fun s addr byte hbyte =>
    Flat.padded_of_after_unstored (hsource s) (hstored s addr) hbyte

theorem shows_after_of_addsNoPage (hd : ∀ d ∈ deeds, d.AddsNoPage) :
    (m'.view [] []).Shows (memory.after op m m') := by
  have hpadded :=
    hsteps.shows_of_addsNoPage hd h.consistent (hshows.refines_padded h.consistent).shows
  exact hpadded.mono fun s addr byte hbyte =>
    Flat.padded_of_after_unstored (hsource s) (hstored s addr) hbyte

/-- A request that registers pages of any kind, and does nothing else to pages. -/
theorem shows_after_of_registers (hd : ∀ d ∈ deeds, d.Registers) :
    (m'.view [] []).Shows (memory.after op m m') := by
  have hextends := hsteps.extends hd h.consistent hshows
  intro s vpn hp i hi byte hbyte
  obtain ⟨page, before, hpage, hbefore, hgetD⟩ := Flat.exists_of_after hbyte
  rw [hstored, Option.getD_none] at hgetD
  rw [pageOf_number_mul_add vpn hi] at hpage hbefore
  subst hgetD
  by_cases hold : m.page? s vpn = none
  · rw [hold, Option.isSome_none, if_neg Bool.false_ne_true] at hbefore
    obtain ⟨hzero, rfl⟩ := Flat.first_eq_some (hsource s) hbefore
    obtain ⟨writable, touch, rfl⟩ := hextends.new s vpn page hold hpage
    cases touch with
    | zero =>
        refine ⟨PageBytes.zero, View.contents_untouched hpage, ?_⟩
        simp [PageBytes.zero, PageBytes.filled, hi]
    | copy segment => cases hzero
    | share segment => cases hzero
  · rw [if_pos (Option.isSome_iff_ne_none.mpr hold)] at hbefore
    exact (hextends.old s vpn hold).2 i hi before hbefore

end

/-- A request that copies pages to one address space. -/
theorem shows_after_of_copies {deeds : Set Deed} (h : m.Sound)
    (hshows : (m.view [] []).Shows memory)
    (hsteps : Steps deeds (m.view [] []) (m'.view [] []))
    (hd : ∀ d ∈ deeds, d.CopiesTo dst src)
    (hkept : (∀ d ∈ deeds, d.KeepsPages) ∨ ∀ vpn, m.page? dst vpn = none)
    (hsource : op.source? m dst = some src) (hstored : ∀ s addr, op.stored? m s addr = none) :
    (m'.view [] []).Shows (memory.after op m m') := by
  have hcopies := hsteps.copies hd hkept h.consistent hshows
  intro s vpn hp i hi byte hbyte
  apply hcopies.shows s vpn hp i hi
  obtain ⟨page, before, -, hbefore, hgetD⟩ := Flat.exists_of_after hbyte
  rw [hstored, Option.getD_none] at hgetD
  subst hgetD
  rw [pageOf_number_mul_add vpn hi] at hbefore
  rw [Flat.copied, pageOf_number_mul_add vpn hi]
  by_cases hold : m.page? s vpn = none
  · have hs : s = dst := by
      by_contra hne
      exact hcopies.others s vpn hne hp hold
    subst hs
    rw [if_pos ⟨rfl, hold⟩]
    simpa [hold, Flat.first, hsource] using hbefore
  · rw [if_neg fun he => hold he.2]
    rwa [if_pos (Option.isSome_iff_ne_none.mpr hold)] at hbefore

theorem shows_after_write {va : VirtAddr} {data : Bytes} (h : m.Sound)
    (hshows : (m.view [] []).Shows memory) (hstep : m.step? visit (.write s va data) = some m') :
    (m'.view [] []).Shows (memory.after (.write s va data) m m') := by
  have hwrite := MachineM.writeUser_refines (s := s) (hshows.refines_padded h.consistent) va data
  have hrefines := (hwrite.reply (fun _ => Reply.done)).of_step? hstep
  apply hrefines.shows.mono
  intro t addr byte hbyte
  obtain ⟨before, hbefore, hgetD⟩ := Flat.padded_of_after rfl hbyte
  rw [Flat.written, hbefore]
  exact congrArg some hgetD

/-! ## All requests -/

theorem Deed.copiesTo_of_copying {d : Deed} (hd : d ∈ Deed.copying dst src) :
    d.CopiesTo dst src := by
  rcases hd with hd | ⟨vpn, rfl⟩ | ⟨vpn, rfl⟩
  · cases d <;> trivial
  · exact ⟨rfl, rfl⟩
  · exact ⟨rfl, rfl⟩

theorem Deed.copiesTo_of_forking {d : Deed} (hd : d ∈ Deed.forking dst src) :
    d.CopiesTo dst src := by
  rcases hd with hd | (rfl | ⟨vpn, rfl⟩) | rfl | rfl
  · exact Deed.copiesTo_of_copying hd
  · trivial
  · rfl
  · trivial
  · trivial

theorem Deed.onlyZeros_of_claiming {vpn : VirtPage} {d : Deed} (hd : d ∈ Deed.claiming s vpn) :
    d.OnlyZeros := by
  rcases hd with rfl | hd
  · trivial
  · cases d <;> trivial

/-- Whatever is asked of a machine, and whether or not it succeeds, the pages show flat memory
afterwards. -/
theorem Op.shows_after (h : m.Sound) (hshows : (m.view [] []).Shows memory)
    (hstep : m.step? visit op = some m') : (m'.view [] []).Shows (memory.after op m m') := by
  have hsteps := (Op.finished h hstep).steps
  cases op with
  | write s va data => exact shows_after_write h hshows hstep
  | copy dst src =>
      apply shows_after_of_copies h hshows hsteps
      · exact fun d hd => Deed.copiesTo_of_copying hd
      · exact .inl fun d hd => MachineM.keepsPages_of_copying hd
      · exact if_pos rfl
      · exact fun _ _ => rfl
  | fork src =>
      apply shows_after_of_copies h hshows hsteps
      · exact fun d hd => Deed.copiesTo_of_forking hd
      · exact .inr (Machine.page?_eq_none (MachineM.space?_nextSpace h.fresh))
      · exact if_pos rfl
      · exact fun _ _ => rfl
  | drop s =>
      apply shows_after_of_addsNoPage h hshows hsteps (fun _ => rfl) fun _ _ => rfl
      rintro d (rfl | ⟨vpn, rfl⟩) <;> trivial
  | recycle | unmap | unmapCall =>
      apply shows_after_of_addsNoPage h hshows hsteps (fun _ => rfl) fun _ _ => rfl
      rintro d ⟨vpn, rfl⟩
      trivial
  | remove =>
      apply shows_after_of_addsNoPage h hshows hsteps (fun _ => rfl) fun _ _ => rfl
      rintro d rfl
      trivial
  | map | loadExecutable =>
      apply shows_after_of_registers h hshows hsteps (fun _ => rfl) fun _ _ => rfl
      rintro d (⟨page, rfl⟩ | rfl | ⟨id, rfl⟩) <;> trivial
  | mapCall =>
      apply shows_after_of_registers h hshows hsteps (fun _ => rfl) fun _ _ => rfl
      rintro d ⟨file, -, ⟨page, rfl⟩ | rfl | ⟨id, rfl⟩⟩ <;> trivial
  | alloc s va writable loader target =>
      apply shows_after_of_registers h hshows hsteps (fun _ => rfl) fun _ _ => rfl
      intro d hd
      cases loader with
      | zero => obtain rfl : d = _ := hd; trivial
      | file segment => obtain ⟨touch, -, rfl⟩ := hd; trivial
  | claim s va =>
      apply shows_after_of_onlyZeros h hshows hsteps (fun _ => rfl) fun _ _ => rfl
      exact fun d hd => Deed.onlyZeros_of_claiming hd
  | fault s f =>
      apply shows_after_of_onlyZeros h hshows hsteps (fun _ => rfl) fun _ _ => rfl
      exact fun d hd => MachineM.onlyZeros_of_faulting hd
  | read s va buffer =>
      apply shows_after_of_onlyZeros h hshows hsteps (fun _ => rfl) fun _ _ => rfl
      exact fun d hd => MachineM.onlyZeros_of_accessing hd
  | setupStack s =>
      apply shows_after_of_onlyZeros h hshows hsteps (fun _ => rfl) fun _ _ => rfl
      rintro d (rfl | hd)
      · trivial
      · exact MachineM.onlyZeros_of_faulting hd
  | create =>
      apply shows_after_of_onlyZeros h hshows hsteps (fun _ => rfl) fun _ _ => rfl
      rintro d (rfl | rfl) <;> trivial
  | setUserSp | access | setFlags | reopen | release | truncate | writeFile =>
      apply shows_after_of_onlyZeros h hshows hsteps (fun _ => rfl) fun _ _ => rfl
      rintro d rfl
      trivial

/-! ## Runs of requests -/

namespace Machine

variable {requests : List (Visit × Op)}

theorem flatAfter_append {more : List (Visit × Op)} (hrun : m.run? requests = some m') :
    m.flatAfter memory (requests ++ more) = m'.flatAfter (m.flatAfter memory requests) more := by
  induction requests generalizing m memory with
  | nil =>
      obtain rfl := Option.some.inj hrun
      rfl
  | cons request requests ih =>
      rw [run?_cons] at hrun
      obtain ⟨m₁, hfirst, hrest⟩ := Option.bind_eq_some_iff.mp hrun
      simp only [List.cons_append, flatAfter, hfirst]
      exact ih hrest

/-- Registered pages show flat memory after any run of requests. -/
theorem shows_flatAfter (h : m.Sound) (hshows : (m.view [] []).Shows memory)
    (hrun : m.run? requests = some m') :
    (m'.view [] []).Shows (m.flatAfter memory requests) := by
  induction requests generalizing m memory with
  | nil =>
      obtain rfl := Option.some.inj hrun
      exact hshows
  | cons request requests ih =>
      rw [run?_cons] at hrun
      obtain ⟨m₁, hfirst, hrest⟩ := Option.bind_eq_some_iff.mp hrun
      simp only [flatAfter, hfirst]
      exact ih (Op.finished h hfirst).sound (Op.shows_after h hshows hfirst) hrest

/-- A read that succeeds returns what is known of its range. -/
theorem read_of_shows {va : VirtAddr} {buffer bytes : Bytes} (h : m.Sound)
    (hshows : (m.view [] []).Shows memory)
    (hread : (Op.read s va buffer).execBy visit m = .ok (.buffer bytes none) m') :
    bytes.size = buffer.size ∧ ∀ i < bytes.size, ∀ byte,
      memory.after (.read s va buffer) m m' s (va.val + i) = some byte → bytes[i]? = some byte := by
  have hinv := MachineM.readInvariant_refines (memory.padded (m.view [] [])) s
  obtain ⟨hsize, hgood⟩ := hinv.answer (hshows.refines_padded h.consistent) hread
  refine ⟨hsize, fun i hi byte hbyte => ?_⟩
  have hget := Array.getElem?_eq_getElem hi
  rw [hget, hgood i (hi.trans_eq hsize) _ hget byte (Flat.padded_of_after_unstored rfl rfl hbyte)]

/-- What is known of a page stays known until the page is removed, and only a write changes it. -/
theorem after_of_known (h : m.Sound) (hstep : m.step? visit op = some m')
    (hpage : m.page? s (pageOf addr) ≠ none) (hbyte : memory s addr = some byte)
    (hkept : ¬op.Removes s (pageOf addr)) :
    memory.after op m m' s addr = some ((op.stored? m s addr).getD byte) := by
  obtain ⟨page, hp'⟩ := Option.ne_none_iff_exists'.mp (page_ne_none_of_step h hstep hkept hpage)
  simp only [Flat.after, hp', Option.isSome_iff_ne_none.mpr hpage, if_true, hbyte, Option.map_some]

theorem page_of_flatAfter (hknown : ∀ s addr, memory s addr ≠ none → m.page? s (pageOf addr) ≠ none)
    (hrun : m.run? requests = some m') (s : SpaceId) (addr : ℕ)
    (h : m.flatAfter memory requests s addr ≠ none) : m'.page? s (pageOf addr) ≠ none := by
  induction requests generalizing m memory with
  | nil =>
      obtain rfl := Option.some.inj hrun
      exact hknown s addr h
  | cons request requests ih =>
      rw [run?_cons] at hrun
      obtain ⟨m₁, hfirst, hrest⟩ := Option.bind_eq_some_iff.mp hrun
      simp only [flatAfter, hfirst] at h
      refine ih (fun t other hother => ?_) hrest h
      obtain ⟨byte, hbyte⟩ := Option.ne_none_iff_exists'.mp hother
      obtain ⟨page, -, hpage, -⟩ := Flat.exists_of_after hbyte
      simp [hpage]

/-- What processes see of a machine with a flat memory, where the next request leads to another flat
memory. -/
structure FlatSemantics (m : Machine) (memory : Flat) (next : Visit × Op → Flat) : Prop where
  /-- A page that is registered to start as zeros is zero, but for what is written to it at once. -/
  zeroed : ∀ {visit op m' s addr page}, m.step? visit op = some m' → op.source? m s = none →
    m.page? s (pageOf addr) = none → m'.page? s (pageOf addr) = some page →
    page.segment? = none → next (visit, op) s addr = some ((op.stored? m s addr).getD 0)
  /-- A page that is registered by a fork has the bytes of the parent. -/
  copied : ∀ {visit op m' dst src addr}, m.step? visit op = some m' →
    op.source? m dst = some src → m.page? dst (pageOf addr) = none →
    m'.page? dst (pageOf addr) ≠ none → next (visit, op) dst addr = memory src addr
  /-- What is known of a page stays known until the page is removed, and only a write to the same
  address in the same address space changes it. -/
  kept : ∀ {visit op m' s addr byte}, m.step? visit op = some m' → memory s addr = some byte →
    ¬op.Removes s (pageOf addr) →
    next (visit, op) s addr = some ((op.stored? m s addr).getD byte)
  /-- A write that succeeds stores all of its data. -/
  stored : ∀ {visit s va data reply m'}, (Op.write s va data).execBy visit m = .ok reply m' →
    ∀ i < data.size, (Op.write s va data).stored? m s (va.val + i) = data[i]?
  /-- A read that succeeds returns what is known of its range. -/
  read : ∀ {visit s va buffer bytes m'},
    (Op.read s va buffer).execBy visit m = .ok (.buffer bytes none) m' →
    bytes.size = buffer.size ∧ ∀ i < bytes.size, ∀ byte,
      next (visit, .read s va buffer) s (va.val + i) = some byte → bytes[i]? = some byte

/-- Whatever requests a machine has served since it was booted, and whatever pages lost their frames
meanwhile, processes see flat memory. The number of every frame fits into a page table entry: that
bounds the frames by the memory that the processor can address. -/
theorem flatSemantics_of_run {frames : ℕ} {disk : Disk} {files : FileStore}
    (hframes : frames ≤ PageTable.Entry.frameBound)
    (hrun : (boot frames disk files).run? requests = some m) :
    m.FlatSemantics ((boot frames disk files).flat requests) fun request =>
      (boot frames disk files).flat (requests ++ [request]) := by
  have hboot := sound_boot hframes disk files
  have hsound := hboot.run hrun
  have hnext : ∀ {visit op m'}, m.step? visit op = some m' →
      (boot frames disk files).flat (requests ++ [(visit, op)]) =
        Flat.after ((boot frames disk files).flat requests) op m m' := by
    intro visit op m' hstep
    rw [flat, flatAfter_append hrun, flatAfter, hstep]
    rfl
  have hshows : (m.view [] []).Shows ((boot frames disk files).flat requests) := by
    apply shows_flatAfter hboot _ hrun
    intro s vpn _ i _ byte hbyte
    cases hbyte
  constructor
  · intro visit op m' s addr page hstep hsource hold hpage hzero
    rw [hnext hstep]
    simp only [Flat.after, hpage, hold, Option.isSome_none, Flat.first, hsource, hzero, if_true,
      Bool.false_eq_true, if_false, Option.map_some]
  · intro visit op m' dst src addr hstep hsource hold hpage
    obtain ⟨page, hpage⟩ := Option.ne_none_iff_exists'.mp hpage
    have hstored : op.stored? m dst addr = none := by
      cases op with
      | write s va data => cases hsource
      | _ => rfl
    rw [hnext hstep]
    simp only [Flat.after, hpage, hold, Option.isSome_none, Flat.first, hsource, hstored,
      Bool.false_eq_true, if_false, Option.getD_none, Option.map_id']
  · intro visit op m' s addr byte hstep hbyte hkept
    rw [hnext hstep]
    have hknown : (boot frames disk files).flatAfter (fun _ _ => none) requests s addr ≠ none := by
      intro hnone
      cases hnone.symm.trans hbyte
    have hpage := page_of_flatAfter (fun _ _ hother => absurd rfl hother) hrun s addr hknown
    exact after_of_known hsound hstep hpage hbyte hkept
  · intro visit s va data reply m' hwrite i hi
    exact MachineM.stored?_of_ok (MachineM.writeUser_of_execBy hwrite) hi
  · intro visit s va buffer bytes m' hread
    have hstep : m.step? visit (.read s va buffer) = some m' := by
      simp only [step?, hread]
    rw [hnext hstep]
    exact read_of_shows hsound hshows hread

/-- Parent and child share one frame and two slots, and the child keeps the byte that the parent had
before the fork. -/
theorem flatSemantics_of_fork : ∃ m m' : Machine, ∃ bytes : Bytes,
    (boot 1 (.zeroed 16) (.ofFiles #[])).run? ([.create, .alloc 0 ⟨pageSize⟩ true .zero .anon,
      .write 0 ⟨pageSize⟩ #[7], .fork 0, .write 0 ⟨pageSize⟩ #[9]].map (Visit.ascending, ·)) =
        some m ∧
      (Op.read 1 ⟨pageSize⟩ #[0]).execBy .ascending m = .ok (.buffer bytes none) m' ∧
      bytes[0]? = some 7 := by
  generalize hrequests : [Op.create, .alloc 0 ⟨pageSize⟩ true .zero .anon,
      .write 0 ⟨pageSize⟩ #[7], .fork 0, .write 0 ⟨pageSize⟩ #[9]].map (Visit.ascending, ·) =
        requests
  have hserved : (((boot 1 (.zeroed 16) (.ofFiles #[])).run? requests).bind fun m =>
      m.read? .ascending 1 ⟨pageSize⟩ #[0] none).isSome = true := by
    rw [← hrequests]
    decide +kernel
  have hflat : (boot 1 (.zeroed 16) (.ofFiles #[])).flat
      (requests ++ [(.ascending, .read 1 ⟨pageSize⟩ #[0])]) 1 pageSize = some 7 := by
    rw [← hrequests]
    decide +kernel
  obtain ⟨⟨bytes, m'⟩, hserved⟩ := Option.isSome_iff_exists.mp hserved
  obtain ⟨m, hrun, hanswer⟩ := Option.bind_eq_some_iff.mp hserved
  have hread := execBy_of_read? hanswer
  have hflat' := (flatSemantics_of_run (by decide) hrun).read hread
  refine ⟨m, m', bytes, hrun, hread, hflat'.2 0 ?_ 7 hflat⟩
  rw [hflat'.1]
  exact Nat.zero_lt_one

end Machine

end DemandPaging
