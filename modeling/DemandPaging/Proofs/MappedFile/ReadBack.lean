import DemandPaging.Proofs.MappedFile.Runs
import DemandPaging.Proofs.MappedFile.Tail

/-! # Reading back what was written to a mapping

What was written through a mapping is read back, whatever pages lose their frames meanwhile, if it
belongs to the file. Beyond the bytes of the file it is read back as long as its page stays in its
frame, and zeros are read once the page has lost it.
-/

namespace DemandPaging

/-! ## Requests -/

section

variable {m m' : Machine} {M : FileMapping} {memory : ℕ → Option UInt8} {index i : ℕ}
  {byte : UInt8} {op : Op} {visit : Visit} {d : Deed} {s : SpaceId}

open MachineM

/-- What is done in another address space leaves a page of a mapping. -/
theorem Deed.leaves_of_writing (hs : s ≠ M.space) (byte : UInt8) (hd : d ∈ Deed.writing s) :
    (∀ U, d.Respects M U) ∧ d.Leaves M index byte := by
  rcases hd with hd | ⟨u, rfl⟩
  · refine ⟨fun U => respects_of_accessing hd, ne_store_of_accessing hd _ _, ?_⟩
    rintro rfl
    rcases hd with (hd | ⟨u, hu⟩ | ⟨u, hu⟩) | ⟨u, write, hu⟩
    · exact hd.elim
    · exact (hs (Deed.bring.inj hu).1.symm).elim
    · cases hu
    · cases hu
  · refine ⟨fun U => trivial, fun he => ?_, fun he => by cases he⟩
    injection he with ht
    exact hs ht

/-- A request other than a copy leaves a byte beyond the file as it met it. -/
theorem Op.keeps_of_not_copy (h : m.Sound) (hbeyond : M.Beyond index i)
    (hm : (m.view [] []).Mirrors M memory) (hV : (m.view [] []).Keeps M index i byte)
    (hop : op.Respects M m) (hcopy : op.isCopy = false) (hstep : m.step? visit op = some m') :
    (m'.view [] []).Keeps M index i (m.met M index byte) := by
  have hsteps : Steps {d | d ∈ op.deeds m.nextSpace ∧
      (d = .bring M.space (M.page index) → m.met M index byte = 0)} (m.view [] [])
      (m'.view [] []) := by
    by_cases hframe : m.inFrame M.space (M.page index) = true
    · refine (Op.steps_of_inFrame h hcopy hframe hstep).mono fun d hd => ⟨hd.1, fun he => ?_⟩
      exact (hd.2 he).elim
    · exact (Op.finished h hstep).steps.mono fun d hd => ⟨hd, fun _ => if_neg hframe⟩
  have hwrite : ∀ s va data, op ≠ .write s va data := by
    rintro s va data rfl
    cases hcopy
  have hstart : (m.view [] []).Respected M memory op := ⟨hm, List.not_mem_nil, hop.copies⟩
  refine (hsteps.invariant (fun V => V.Respected M memory op ∧ V.Keeps M index i
    (m.met M index byte)) ?_ ⟨hstart, keeps_met hV⟩).2
  rintro d ⟨hd, hzero⟩ V W hstep' ⟨hrespected, hkeeps⟩
  have hbelongs := Op.belongsTo_of_deeds hd
  refine ⟨hstep'.respected hop hbelongs hwrite hrespected,
    hstep'.keeps (hstep'.respects hop hbelongs hrespected) ⟨?_, hzero⟩ hbeyond hkeeps⟩
  rintro rfl
  obtain ⟨va, data, rfl⟩ := hbelongs
  exact hwrite _ va data rfl

/-- A request leaves what it stores of a byte beyond the file, or the byte as it met it. -/
theorem Op.keeps (h : m.Sound) (hbeyond : M.Beyond index i)
    (hm : (m.view [] []).Mirrors M memory) (hV : (m.view [] []).Keeps M index i byte)
    (hop : op.Respects M m) (hstep : m.step? visit op = some m') :
    (m'.view [] []).Keeps M index i
      ((op.stored? m M.space ((M.page index).number * pageSize + i)).getD
        ((op.turn m M.space (M.page index)).met M index byte)) := by
  by_cases hcopy : op.isCopy = true
  · cases op with
    | read t va buffer =>
        by_cases ht : t = M.space
        · subst ht
          exact Ends.of_step? (Ends.bind_total (readUser_keeps hbeyond hV va buffer)
            fun _ _ hdone => Ends.pure hdone.1) hstep
        · rw [Op.turn, if_neg fun he => ht he.1]
          exact (Op.finished h hstep).steps.keeps (fun d hd =>
            Deed.leaves_of_writing ht _ (.inl hd)) hbeyond (keeps_met hV)
    | write t va data =>
        by_cases ht : t = M.space
        · subst ht
          exact ((writeUser_keeps hbeyond hV va data).reply fun _ => Reply.done).of_step? hstep
        · rw [Op.turn, if_neg fun he => ht he.1, Op.stored?, if_neg fun he => ht he.1]
          exact (Op.finished h hstep).steps.keeps (fun d hd =>
            Deed.leaves_of_writing ht _ hd) hbeyond (keeps_met hV)
    | _ => cases hcopy
  · rw [Bool.not_eq_true] at hcopy
    rw [Op.turn_of_not_copy hcopy, Op.stored?_of_not_copy hcopy, Option.getD_none]
    exact Op.keeps_of_not_copy h hbeyond hm hV hop hcopy hstep

end

/-! ## Runs -/

namespace Machine

variable {m m' m₁ m₂ m₃ m₄ m₅ : Machine} {M : FileMapping} {memory : ℕ → Option UInt8}
  {index i addr : ℕ} {byte : UInt8} {visit visit' : Visit}
  {requests earlier later : List (Visit × Op)}

theorem lastWritten_of_quiet
    (hquiet : m.Along (fun m op => op.stored? m M.space addr = none) requests) :
    M.lastWritten m memory requests addr = memory addr := by
  induction requests generalizing m memory with
  | nil => rfl
  | cons request requests ih =>
      obtain ⟨hnone, hlater⟩ := hquiet
      have hafter : M.after m request.2 memory addr = memory addr := by
        rw [FileMapping.after, hnone, ite_self, Option.none_or]
      cases hfirst : m.step? request.1 request.2 with
      | none => simp only [FileMapping.lastWritten, hfirst]
      | some m₁ =>
          simp only [FileMapping.lastWritten, hfirst]
          exact (ih (hlater m₁ hfirst)).trans hafter

/-- A byte beyond the file is kept while its page stays in its frame, and zero once it has not. -/
theorem keeps_run (h : m.Sound) (hbeyond : M.Beyond index i)
    (hm : (m.view [] []).Mirrors M memory) (hV : (m.view [] []).Keeps M index i byte)
    (halong : m.Along (Op.Respects M) requests)
    (hquiet : m.Along (fun m op =>
      op.stored? m M.space ((M.page index).number * pageSize + i) = none) requests)
    (hrun : m.run? requests = some m') :
    (m'.view [] []).Keeps M index i
      (if m.keepsFrame M.space (M.page index) requests then byte else 0) := by
  induction requests generalizing m memory byte with
  | nil =>
      obtain rfl := Option.some.inj hrun
      exact MachineM.keeps_met hV
  | cons request requests ih =>
      rw [run?_cons] at hrun
      obtain ⟨m₁, hfirst, hrest⟩ := Option.bind_eq_some_iff.mp hrun
      obtain ⟨hop, hlater⟩ := halong
      obtain ⟨hnone, hlater'⟩ := hquiet
      have hfirst' : m.step? request.1 request.2 = some m₁ := hfirst
      have hV₁ := Op.keeps h hbeyond hm hV hop hfirst
      rw [hnone, Option.getD_none] at hV₁
      have hdone := ih (Op.finished h hfirst).sound (mirrors_step h hm hop hfirst) hV₁
        (hlater m₁ hfirst) (hlater' m₁ hfirst) hrest
      rw [keepsFrame, hfirst', Option.any_some]
      by_cases hmet :
          (request.2.turn m M.space (M.page index)).inFrame M.space (M.page index) = true
      · rw [met, if_pos hmet] at hdone
        rwa [hmet, Bool.true_and]
      · rw [met, if_neg hmet, ite_self] at hdone
        rwa [Bool.eq_false_iff.mpr hmet, Bool.false_and, if_neg Bool.false_ne_true]

end Machine

/-- What is read of a byte that was stored through a mapping: the byte, if it belongs to the file or
its page has stayed in its frame, and else zero. -/
def FileMapping.readBack (M : FileMapping) (addr : ℕ) (stayed : Bool) (byte : UInt8) : UInt8 :=
  if addr - M.start < M.mapped ∨ stayed = true then byte else 0

theorem FileMapping.beyond_of_le {M : FileMapping} {index addr : ℕ}
    (hat : pageOf addr = M.page index) (hle : ¬addr - M.start < M.mapped) :
    M.Beyond index (addr % pageSize) ∧
      (M.page index).number * pageSize + addr % pageSize = addr := by
  have hsum : (M.page index).number * pageSize + addr % pageSize = addr := by
    rw [← hat, pageOf_number, Nat.div_add_mod']
  have hi : addr % pageSize < pageSize := Nat.mod_lt _ (by decide)
  refine ⟨⟨Nat.le_of_not_lt fun hlt => hle ?_, hi⟩, hsum⟩
  have hcovers : (M.segment index).Covers ((M.segment index).offset + addr % pageSize)
      (addr % pageSize) := ⟨hlt, rfl⟩
  obtain ⟨-, hlt', -⟩ := FileMapping.covers_iff.mp hcovers
  rw [← hsum, FileMapping.page_mul_add, Nat.add_sub_cancel_left]
  exact hlt'

namespace Machine

variable {m m' m₁ m₂ m₃ m₄ m₅ : Machine} {M : FileMapping} {memory : ℕ → Option UInt8}
  {addr j : ℕ} {byte : UInt8} {visit visit' : Visit} {requests earlier later : List (Visit × Op)}
  {va va' : VirtAddr} {data buffer bytes : Bytes}

/-- A byte that was stored through a mapping is read back, but for what lies beyond the file and has
lost its frame. -/
theorem readBack_of_mirrors (h : m.Sound) (hm : (m.view [] []).Mirrors M memory)
    (hwrite : m.step? visit (.write M.space va data) = some m₁)
    (hstored : (Op.write M.space va data).stored? m M.space addr = some byte)
    (hpage : (m.view [] []).backing M.space (pageOf addr) = some M.backing)
    (halong : m₁.Along (Op.Respects M) later)
    (hquiet : m₁.Along (fun m op => op.stored? m M.space addr = none) later)
    (hlater : m₁.run? later = some m₂)
    (hread : (Op.read M.space va' buffer).execBy visit' m₂ = .ok (.buffer bytes none) m')
    (hj : j < buffer.size) (hat : va'.val + j = addr)
    (hpage' : (m₂.view [] []).backing M.space (pageOf addr) = some M.backing) :
    bytes[j]? = some (M.readBack addr (m₁.keepsFrame M.space (pageOf addr) later &&
      ((Op.read M.space va' buffer).turn m₂ M.space (pageOf addr)).inFrame M.space (pageOf addr))
        byte) := by
  have hop : (Op.write M.space va data).Respects M m := Op.respects_of_isLocal rfl
  have hsound := (Op.finished h hwrite).sound
  have hm₁ := mirrors_step h hm hop hwrite
  have hm₂ := mirrors_run hsound hm₁ halong hlater
  by_cases hhead : addr - M.start < M.mapped
  · have hmemory : M.lastWritten m₁ (M.after m (.write M.space va data) memory) later addr =
        some byte := by
      rw [lastWritten_of_quiet hquiet, FileMapping.after, if_pos hpage, hstored, Option.some_or]
    rw [FileMapping.readBack, if_pos (.inl hhead)]
    subst hat
    exact (mirrored_of_mirrors hm₂).read hread j hj hpage' byte
      (FileMapping.known_of_written hmemory hhead)
  · obtain ⟨index, hindex, -⟩ := hm.exists_index hpage
    obtain ⟨hbeyond, haddr⟩ := FileMapping.beyond_of_le hindex hhead
    obtain ⟨other, hother, hmapped⟩ := hm₂.exists_index hpage'
    obtain rfl : index = other := FileMapping.page_inj (hindex.symm.trans hother)
    obtain ⟨before, hV⟩ := hm.exists_keeps hbeyond.2
    have hV₁ := Op.keeps h hbeyond hm hV hop hwrite
    rw [haddr, hstored, Option.getD_some] at hV₁
    have hV₂ := keeps_run hsound hbeyond hm₁ hV₁ halong (haddr.symm ▸ hquiet) hlater
    rw [hindex] at hmapped ⊢
    have hreply : Ends False ((Op.read M.space va' buffer).execBy visit') m₂
        (fun reply _ => ∀ bytes, reply = .buffer bytes none → bytes[j]? = some
          (((Op.read M.space va' buffer).turn m₂ M.space (M.page index)).met M index
            (if m₁.keepsFrame M.space (M.page index) later then byte else 0)))
        fun _ _ => False := by
      refine (MachineM.readUser_keeps hbeyond hV₂ va' buffer).bind_total ?_
      rintro ⟨result, error⟩ m₃ hdone
      apply Ends.pure
      rintro other ⟨rfl, rfl⟩
      exact hdone.2 rfl hmapped j hj (hat.trans haddr.symm)
    rw [hreply.ok_of_eq hread bytes rfl, FileMapping.readBack, met]
    simp only [hhead, false_or, Bool.and_eq_true]
    split
    · next hmet => simp only [hmet, and_true]
    · next hmet => rw [if_neg fun hboth => hmet hboth.2]

/-- Whatever requests a machine serves after a file was mapped that is used through the mapping
alone, a byte that was stored there and not stored to since is read back, as long as its page is
registered: always if it belongs to the file, and beyond that as long as its page stays in its
frame. -/
theorem readBack_of_run {frames : ℕ} {disk : Disk} {files : Array File} {m₃ m₄ : Machine}
    {s : SpaceId} {length offset : ℕ} {writable : Bool} {file : FileId} {content : File}
    {reply : Reply} {visit'' : Visit} {start : VirtAddr}
    (hframes : frames ≤ PageTable.Entry.frameBound)
    (hrun : (boot frames disk (.ofFiles files)).run? requests = some m)
    (hfile : m.Mappable file content) (hM : M = m.mappingOf s start length file offset content)
    (hmap : (Op.map s start length writable file offset).execBy visit m = .ok reply m₁)
    (halong : m₁.Along (Op.Respects M) earlier) (hearlier : m₁.run? earlier = some m₂)
    (hwrite : m₂.step? visit' (.write s va data) = some m₃)
    (hstored : (Op.write s va data).stored? m₂ s addr = some byte)
    (hpage : (m₂.view [] []).backing s (pageOf addr) = some M.backing)
    (halong' : m₃.Along (Op.Respects M) later)
    (hquiet : m₃.Along (fun m op => op.stored? m s addr = none) later)
    (hlater : m₃.run? later = some m₄)
    (hread : (Op.read s va' buffer).execBy visit'' m₄ = .ok (.buffer bytes none) m')
    (hj : j < buffer.size) (hat : va'.val + j = addr)
    (hpage' : (m₄.view [] []).backing s (pageOf addr) = some M.backing) :
    M.start = start.val ∧
      bytes[j]? = some (M.readBack addr (m₃.keepsFrame s (pageOf addr) later &&
        ((Op.read s va' buffer).turn m₄ s (pageOf addr)).inFrame s (pageOf addr)) byte) := by
  subst hM
  have hsound := sound_of_run hframes hrun
  have hn := numbered_of_run hframes hrun
  obtain ⟨hstart, hmirrors⟩ := mirrors_of_map hsound hn hfile hmap halong hearlier
  have hstep : m.step? visit (.map s start length writable file offset) = some m₁ := by
    simp only [step?, hmap]
  have hsound₂ := (Op.finished hsound hstep).sound.run hearlier
  exact ⟨hstart, readBack_of_mirrors hsound₂ hmirrors hwrite hstored hpage halong' hquiet hlater
    hread hj hat hpage'⟩

/-- A byte is written to a page of a mapping, beyond the one byte of the file. -/
def tailWrite : Op :=
  .write 0 ⟨pageSize + 1⟩ #[0x42]

/-- A second page is brought in. -/
def tailRequests : List (Visit × Op) :=
  [.alloc 0 ⟨2 * pageSize⟩ true .zero .anon, .claim 0 ⟨2 * pageSize⟩].map (Visit.ascending, ·)

theorem tailRequests_respect (M : FileMapping) (m : Machine) :
    m.Along (Op.Respects M) tailRequests := by
  refine along_of_forall (fun request hr m => Op.respects_of_isLocal ?_) m
  revert request
  simp [tailRequests, Op.isLocal]

theorem tailRequests_quiet (s : SpaceId) (addr : ℕ) (m : Machine) :
    m.Along (fun m op => op.stored? m s addr = none) tailRequests := by
  refine along_of_forall (fun request hr m => Op.stored?_of_not_copy ?_ addr) m
  revert request
  simp [tailRequests, Op.isCopy]

/-- With two frames, both pages stay in their frames: the byte is read back. -/
theorem readBack_of_twoFrames : ∃ m₃ m₄ m' : Machine, ∃ bytes : Bytes,
    m₃.run? tailRequests = some m₄ ∧ m₄.inFrame 0 ⟨2⟩ = true ∧
      (Op.read 0 ⟨pageSize + 1⟩ #[0]).execBy .ascending m₄ = .ok (.buffer bytes none) m' ∧
      bytes[0]? = some 0x42 := by
  generalize hcontent : File.mk #[0x41] 0 none none none none = content
  have hserved : ((boot 2 (.zeroed 16) (.ofFiles #[content])).run?
      [(.ascending, .create)]).any (fun m =>
        decide (m.registered = [] ∧ m.files.backings.isEmpty = true ∧
          m.files.file? 0 = some content) &&
        (m.answer? .ascending (.map 0 ⟨pageSize⟩ 1 true 0 0)).any fun answer =>
          decide (tailWrite.stored? answer.2 0 (pageSize + 1) = some 0x42 ∧
            (answer.2.view [] []).backing 0 ⟨1⟩ = some m.files.nextBacking) &&
          (answer.2.step? .ascending tailWrite).any fun m₃ =>
            m₃.keepsFrame 0 ⟨1⟩ tailRequests &&
            (m₃.run? tailRequests).any fun m₄ =>
              decide ((m₄.view [] []).backing 0 ⟨1⟩ = some m.files.nextBacking) &&
              m₄.inFrame 0 ⟨2⟩ &&
              ((Op.read 0 ⟨pageSize + 1⟩ #[0]).turn m₄ 0 ⟨1⟩).inFrame 0 ⟨1⟩ &&
              (m₄.read? .ascending 0 ⟨pageSize + 1⟩ #[0] none).isSome) = true := by
    rw [← hcontent]
    decide +kernel
  simp only [Option.any_eq_true, Bool.and_eq_true, decide_eq_true_eq] at hserved
  obtain ⟨m, hrun, ⟨hpages, hbackings, hfile⟩, ⟨reply, m₁⟩, hanswer, ⟨hstored, hbacking⟩, m₃,
    hwrite, hkept, m₄, hlater, ⟨⟨hbacking', hother⟩, hmet⟩, hread⟩ := hserved
  obtain ⟨⟨bytes, m'⟩, hread⟩ := Option.isSome_iff_exists.mp hread
  have hmappable := mappable_of_registered hpages hbackings hfile (by rw [← hcontent])
    (by rw [← hcontent])
  have hreply := execBy_of_read? hread
  have hnone : m₁.run? [] = some m₁ := rfl
  have hidle : ∀ M : FileMapping, m₁.Along (Op.Respects M) [] := fun _ => trivial
  obtain ⟨-, hbyte⟩ := readBack_of_run (j := 0) (by decide) hrun hmappable rfl
    (execBy_of_answer? hanswer) (hidle _) hnone hwrite hstored hbacking
    (tailRequests_respect _ m₃) (tailRequests_quiet 0 _ m₃) hlater hreply (by decide) rfl hbacking'
  refine ⟨m₃, m₄, m', bytes, hlater, hother, hreply, hbyte.trans ?_⟩
  have hstay : (m₃.keepsFrame 0 (pageOf (pageSize + 1)) tailRequests &&
      ((Op.read 0 ⟨pageSize + 1⟩ #[0]).turn m₄ 0 (pageOf (pageSize + 1))).inFrame 0
        (pageOf (pageSize + 1))) = true := by
    rw [show pageOf (pageSize + 1) = ⟨1⟩ from rfl, hkept, hmet]
    rfl
  rw [hstay, FileMapping.readBack, if_pos (.inr rfl)]

/-- With one frame, the page is evicted: what was written beyond the file is lost. -/
theorem tailByte_of_oneFrame : ∃ m m₁ m₂ m₃ m' : Machine, ∃ reply : Reply, ∃ bytes : Bytes,
    (boot 1 (.zeroed 16) (.ofFiles #[⟨#[0x41], 0, none, none, none, none⟩])).run?
        [(.ascending, .create)] = some m ∧
      m.Mappable 0 ⟨#[0x41], 0, none, none, none, none⟩ ∧
      (Op.map 0 ⟨pageSize⟩ 1 true 0 0).execBy .ascending m = .ok (.address pageSize) m₁ ∧
      tailWrite.execBy .ascending m₁ = .ok reply m₂ ∧
      tailWrite.stored? m₁ 0 (pageSize + 1) = some 0x42 ∧
      m₂.Along (Op.Respects (m.mappingOf 0 ⟨pageSize⟩ 1 0 0 ⟨#[0x41], 0, none, none, none, none⟩))
        tailRequests ∧
      m₂.Along (fun m op => op.stored? m 0 (pageSize + 1) = none) tailRequests ∧
      m₂.run? tailRequests = some m₃ ∧
      (m₃.view [] []).backing 0 ⟨1⟩ = some m.files.nextBacking ∧
      (Op.read 0 ⟨pageSize + 1⟩ #[0]).execBy .ascending m₃ = .ok (.buffer bytes none) m' ∧
      bytes[0]? = some 0 := by
  generalize hcontent : File.mk #[0x41] 0 none none none none = content
  have hserved : ((boot 1 (.zeroed 16) (.ofFiles #[content])).run?
      [(.ascending, .create)]).any (fun m =>
        decide (m.registered = [] ∧ m.files.backings.isEmpty = true ∧
          m.files.file? 0 = some content) &&
        (m.answer? .ascending (.map 0 ⟨pageSize⟩ 1 true 0 0)).any fun answer =>
          decide (answer.1 = .address pageSize ∧
            tailWrite.stored? answer.2 0 (pageSize + 1) = some 0x42 ∧
            (answer.2.view [] []).backing 0 ⟨1⟩ = some m.files.nextBacking) &&
          (answer.2.answer? .ascending tailWrite).any fun written =>
            !written.2.keepsFrame 0 ⟨1⟩ tailRequests &&
            (written.2.run? tailRequests).any fun m₃ =>
              decide ((m₃.view [] []).backing 0 ⟨1⟩ = some m.files.nextBacking) &&
              (m₃.read? .ascending 0 ⟨pageSize + 1⟩ #[0] none).isSome) = true := by
    rw [← hcontent]
    decide +kernel
  simp only [Option.any_eq_true, Bool.and_eq_true, decide_eq_true_eq, Bool.not_eq_true'] at hserved
  obtain ⟨m, hrun, ⟨hpages, hbackings, hfile⟩, ⟨-, m₁⟩, hanswer, ⟨rfl, hstored, hbacking⟩,
    ⟨reply, m₂⟩, hwrite, hlost, m₃, hlater, hbacking', hread⟩ := hserved
  obtain ⟨⟨bytes, m'⟩, hread⟩ := Option.isSome_iff_exists.mp hread
  have hmappable := mappable_of_registered hpages hbackings hfile (by rw [← hcontent])
    (by rw [← hcontent])
  have hmap := execBy_of_answer? hanswer
  have hreply := execBy_of_read? hread
  have hwritten := execBy_of_answer? hwrite
  have hstep : m₁.step? .ascending tailWrite = some m₂ := by
    simp only [step?, hwritten]
  have hsound : m.Sound := sound_of_run (by decide) hrun
  have hn := numbered_of_run (by decide) hrun
  have hfirst : m.step? .ascending (.map 0 ⟨pageSize⟩ 1 true 0 0) = some m₁ := by
    simp only [step?, hmap]
  have hnone : m₁.run? [] = some m₁ := rfl
  have hidle : ∀ M : FileMapping, m₁.Along (Op.Respects M) [] := fun _ => trivial
  obtain ⟨hstart, hmirrors⟩ := mirrors_of_map hsound hn hmappable hmap (hidle _) hnone
  have hrespect := tailRequests_respect (m.mappingOf 0 ⟨pageSize⟩ 1 0 0 content) m₂
  have hquiet := tailRequests_quiet 0 (pageSize + 1) m₂
  have hbyte := readBack_of_mirrors (Op.finished hsound hfirst).sound hmirrors hstep hstored
    hbacking hrespect hquiet hlater hreply (j := 0) (by decide) rfl hbacking'
  refine ⟨m, m₁, m₂, m₃, m', reply, bytes, hrun, hmappable, hmap, hwritten, hstored, hrespect,
    hquiet, hlater, hbacking', hreply, hbyte.trans ?_⟩
  have hmapped : (m.mappingOf 0 ⟨pageSize⟩ 1 0 0 content).mapped = 1 := by
    rw [← hcontent]
    rfl
  rw [FileMapping.readBack, hstart, hmapped, if_neg]
  rintro (hlt | hstay)
  · exact absurd hlt (by decide)
  · have hkept : m₂.keepsFrame 0 (pageOf (pageSize + 1)) tailRequests = true :=
      (Bool.and_eq_true_iff.mp hstay).1
    cases hlost.symm.trans hkept

end Machine

end DemandPaging
