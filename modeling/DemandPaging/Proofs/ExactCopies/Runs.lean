import DemandPaging.Proofs.ExactCopies.Effects

/-! # Exact copies

A copy from or to user memory refuses a range that leaves user space, and otherwise moves the bytes
of one page after the other. If a page cannot be accessed, the copy ends there with that error: the
bytes before the page have moved, and no others.
-/

namespace DemandPaging

open MachineM

/-- Whether a range overflows a word, or is not empty and leaves user space. -/
def LeavesUser (va : VirtAddr) (length : ℕ) : Prop :=
  Word.bound ≤ va.val + length ∨ 0 < length ∧ userEnd < va.val + length

theorem isUserRange_of_not_leaves {va : VirtAddr} {length : ℕ} (h : ¬LeavesUser va length) :
    isUserRange va length = true :=
  Bool.of_not_eq_false fun hrange => h (isUserRange_eq_false_iff.mp hrange)

namespace Machine

variable {m m₁ m' : Machine} {s : SpaceId}

/-- What a read leaves that got to some pages: nothing is stored anywhere, and what was read is what
anonymous pages hold. -/
structure Reveals (m : Machine) (s : SpaceId) (shown : VirtPage → PageBytes)
    (pages : List VirtPage) (m' : Machine) : Prop where
  steps : Steps (Deed.accessing s) (m.view [] []) (m'.view [] [])
  kept : ∀ t vpn bytes, m.contents? t vpn = some bytes → m'.contents? t vpn = some bytes
  shown_eq : ∀ vpn ∈ pages, ∃ page, m'.page? s vpn = some page ∧
    (page.type = .anon → m'.contents? s vpn = some (shown vpn))

/-- What a write leaves that got to some pages: nothing is stored to any other, and anonymous ones
hold the data in place of what they held before. -/
structure Delivers (m : Machine) (s : SpaceId) (va : VirtAddr) (data : Bytes)
    (pages : List VirtPage) (m' : Machine) : Prop where
  steps : Steps (Deed.writingTo s pages) (m.view [] []) (m'.view [] [])
  kept : ∀ t vpn bytes, ¬(s = t ∧ vpn ∈ pages) → m.contents? t vpn = some bytes →
    m'.contents? t vpn = some bytes
  patched : ∀ vpn ∈ pages, ∃ page, m'.page? s vpn = some page ∧
    (page.type = .anon → ∃ bytes, m'.contents? s vpn = some bytes ∧
      Patched va data vpn (m.contents? s vpn) bytes)

end Machine

theorem View.Bears.exists_page {V : View} {s : SpaceId} {vpn : VirtPage}
    {holds : PageBytes → Prop} (h : V.Bears s vpn holds) : ∃ page, V.page s vpn = some page := by
  rcases h with ⟨page, hp, -⟩ | ⟨bytes, hbytes, -⟩
  · exact ⟨page, hp⟩
  · obtain ⟨page, hp, -⟩ := Option.bind_eq_some_iff.mp hbytes
    exact ⟨page, hp⟩

namespace MachineM

variable {m m₁ m' : Machine} {s : SpaceId} {va : VirtAddr} {data : Bytes} {length : ℕ}
  {done rest : List Chunk} {error : Option Errno} {shown : VirtPage → PageBytes}

theorem in_user_of_split (hrange : isUserRange va length = true)
    (hsplit : Chunk.split va length = done ++ rest) :
    (∀ chunk ∈ done, chunk.page.number < userPages) ∧
      ∀ chunk ∈ rest, chunk.page.number < userPages :=
  ⟨fun _ hchunk => Chunk.page_lt_of_mem_split hrange (hsplit ▸ List.mem_append_left _ hchunk),
    fun _ hchunk => Chunk.page_lt_of_mem_split hrange (hsplit ▸ List.mem_append_right _ hchunk)⟩

theorem reveals_of_accesses (h : (m.view [] []).Consistent) (hrange : isUserRange va length = true)
    (hsplit : Chunk.split va length = done ++ rest) (haccesses : Accesses s shown done m m₁)
    (hhalts : Halts s false rest error m₁ m') : m.Reveals s shown (done.map Chunk.page) m' := by
  obtain ⟨hdone, hrest⟩ := in_user_of_split hrange hsplit
  obtain ⟨hsteps, hbears⟩ := haccesses.bears h hdone
  have h₁ := hsteps.consistent h
  have hmore := hhalts.steps h₁ hrest
  refine ⟨hsteps.trans hmore, fun t vpn bytes hbytes => ?_, fun vpn hvpn => ?_⟩
  · exact (hsteps.trans hmore).contents_of_accessing h hbytes
  · obtain ⟨chunk, hchunk, rfl⟩ := List.mem_map.mp hvpn
    have hlast := hmore.bears_of_accessing h₁ (hbears chunk hchunk)
    obtain ⟨page, hp⟩ := hlast.exists_page
    refine ⟨page, hp, fun hanon => ?_⟩
    obtain ⟨bytes, hbytes, rfl⟩ := hlast.of_anon hp hanon
    exact hbytes

theorem delivers_of_stores (h : (m.view [] []).Consistent)
    (hrange : isUserRange va data.size = true)
    (hsplit : Chunk.split va data.size = done ++ rest) (hstores : Stores s data done m m₁)
    (hhalts : Halts s true rest error m₁ m') : m.Delivers s va data (done.map Chunk.page) m' := by
  have hstart : Stored (m.view [] []) s va data [] (m.view [] []) :=
    ⟨h, Steps.refl _, fun _ _ _ _ hbytes => hbytes, fun vpn hvpn => by cases hvpn⟩
  have hchunks : ∀ chunk ∈ done, ∃ number < userPages,
      chunk = Chunk.ofPage va (va.val + data.size) number := fun chunk hchunk =>
    Chunk.exists_of_mem_split hrange (hsplit ▸ List.mem_append_left _ hchunk)
  have hstored := hstores.stored hchunks hstart
  rw [List.nil_append] at hstored
  have hlast := hstored.access
    (hhalts.steps hstored.consistent (in_user_of_split hrange hsplit).2)
  refine ⟨hlast.steps, hlast.kept, fun vpn hvpn => ?_⟩
  obtain ⟨page, hp⟩ := (hlast.written vpn hvpn).exists_page
  exact ⟨page, hp, (hlast.written vpn hvpn).of_anon hp⟩

theorem mem_pages_iff (hsplit : Chunk.split va length = done ++ rest) {i : ℕ} (hi : i < length) :
    pageOf (va.val + i) ∈ done.map Chunk.page ↔ i < reached length rest := by
  cases rest with
  | cons chunk rest => exact Chunk.mem_done_iff hsplit hi
  | nil =>
      rw [List.append_nil] at hsplit
      subst hsplit
      exact iff_of_true (List.mem_map.mpr ⟨_, Chunk.mem_split_of_lt va hi, rfl⟩) hi

/-- A read after a write finds the data in anonymous pages. -/
theorem read_of_write {va' : VirtAddr} {buffer bytes : Bytes} {i j : ℕ}
    (h : (m.view [] []).Consistent) (hwrite : writeUser s va data m = .ok () m₁)
    (hread : readUser s va' buffer m₁ = .ok (bytes, none) m') (hi : i < data.size)
    (hj : j < buffer.size) (hat : va.val + i = va'.val + j) {page : Page}
    (hp : m₁.page? s (pageOf (va.val + i)) = some page) (hanon : page.type = .anon) :
    bytes[j]? = data[i]? := by
  have hrange : isUserRange va data.size = true := by
    by_contra hout
    rw [writeUser, userChunks, if_neg hout] at hwrite
    cases hwrite
  have hrange' : isUserRange va' buffer.size = true := by
    by_contra hout
    have htry : attempt (userChunks va' buffer.size) m₁ = .ok (.error .badAddress) m₁ := by
      rw [attempt, userChunks, if_neg hout]
      rfl
    cases (bind_of_ok htry).symm.trans hread
  obtain ⟨done, rest, m₂, hsplit, hstores, hhalts⟩ := (writeUser_iff hrange).mp
    (show writeUser s va data m = writeAnswer none m₁ from hwrite)
  obtain ⟨shown, done', rest', m₃, hsplit', haccesses, hhalts', hreceived⟩ :=
    (readUser_iff hrange').mp hread
  have hdelivers := delivers_of_stores h hrange hsplit hstores hhalts
  have h₁ : (m₁.view [] []).Consistent := hdelivers.steps.consistent h
  have hreveals := reveals_of_accesses h₁ hrange' hsplit' haccesses hhalts'
  have hreached : reached data.size rest = data.size := by
    cases hhalts
    rfl
  have hreached' : reached buffer.size rest' = buffer.size := by
    cases hhalts'
    rfl
  have hmem := (mem_pages_iff hsplit hi).mpr (hi.trans_eq hreached.symm)
  have hmem' := (mem_pages_iff hsplit' hj).mpr (hj.trans_eq hreached'.symm)
  rw [← hat] at hmem'
  obtain ⟨page₁, hp₁, hpatched⟩ := hdelivers.patched _ hmem
  obtain rfl := Option.some.inj (hp.symm.trans hp₁)
  obtain ⟨held, hheld, hpatched⟩ := hpatched hanon
  obtain ⟨page', hp', hshown⟩ := hreveals.shown_eq _ hmem'
  have hlast : (m'.view [] []).contents s (pageOf (va.val + i)) = some held :=
    hreveals.kept s _ held hheld
  have hpage' : (m'.view [] []).page s (pageOf (va.val + i)) = some page' := hp'
  obtain rfl := Option.some.inj
    (hlast.symm.trans (hshown (View.type_of_contents hpage' hlast)))
  rw [hreceived.arrived j (hj.trans_eq hreached'.symm) hj, ← hat]
  have hoffset : (va.val + i) / pageSize * pageSize + (va.val + i) % pageSize = va.val + i :=
    Nat.div_add_mod' _ _
  have hget := hpatched ((va.val + i) % pageSize) (Nat.mod_lt _ (by decide))
  rw [pageOf_number, hoffset, if_pos ⟨Nat.le_add_right _ _, Nat.add_lt_add_left hi _⟩,
    Nat.add_sub_cancel_left] at hget
  exact hget

end MachineM

namespace Machine

variable {m : Machine} {s : SpaceId}

/-- How copies from and to the memory of one address space proceed, end and what they leave. -/
structure CopiesUser (m : Machine) (s : SpaceId) : Prop where
  /-- A range that leaves user space is refused before anything happens. -/
  refused : ∀ va length, LeavesUser va length →
    (∀ buffer : Bytes, buffer.size = length →
      readUser s va buffer m = .ok (buffer, some .badAddress) m) ∧
    ∀ data : Bytes, data.size = length → writeUser s va data m = .error (.failed .badAddress) m
  /-- Any other range is cut into parts, one for each of its pages. -/
  partition : ∀ va length, ¬LeavesUser va length →
    userChunks va length m = .ok (Chunk.split va length) m ∧
      Chunk.Partition va length (Chunk.split va length)
  reached : ∀ va length done rest, Chunk.split va length = done ++ rest → ∀ i < length,
    (pageOf (va.val + i) ∈ done.map Chunk.page ↔ i < MachineM.reached length rest)
  /-- A read goes through the parts in order, up to one whose page cannot be accessed. -/
  reads : ∀ va (buffer : Bytes) result error m', ¬LeavesUser va buffer.size →
    (readUser s va buffer m = .ok (result, error) m' ↔
      ∃ shown done rest m₁, Chunk.split va buffer.size = done ++ rest ∧
        Accesses s shown done m m₁ ∧ Halts s false rest error m₁ m' ∧
        Chunk.Received va shown buffer (MachineM.reached buffer.size rest) result)
  reveals : ∀ va length shown done rest error m₁ m', ¬LeavesUser va length →
    Chunk.split va length = done ++ rest → Accesses s shown done m m₁ →
    Halts s false rest error m₁ m' → m.Reveals s shown (done.map Chunk.page) m'
  read_ne_failed : ∀ va buffer e m', readUser s va buffer m ≠ .error (.failed e) m'
  /-- A write goes through the parts in order, up to one whose page cannot be accessed. -/
  writes : ∀ va (data : Bytes) error m', ¬LeavesUser va data.size →
    (writeUser s va data m = writeAnswer error m' ↔
      ∃ done rest m₁, Chunk.split va data.size = done ++ rest ∧ Stores s data done m m₁ ∧
        Halts s true rest error m₁ m')
  delivers : ∀ va (data : Bytes) done rest error m₁ m', ¬LeavesUser va data.size →
    Chunk.split va data.size = done ++ rest → Stores s data done m m₁ →
    Halts s true rest error m₁ m' → m.Delivers s va data (done.map Chunk.page) m'
  /-- A read after a write finds the data in anonymous pages. -/
  readBack : ∀ va va' (data buffer bytes : Bytes) m₁ m', writeUser s va data m = .ok () m₁ →
    readUser s va' buffer m₁ = .ok (bytes, none) m' →
    ∀ i < data.size, ∀ j < buffer.size, va.val + i = va'.val + j →
      (∃ page, m₁.page? s (pageOf (va.val + i)) = some page ∧ page.type = .anon) →
      bytes[j]? = data[i]?

theorem Sound.copiesUser (h : m.Sound) (s : SpaceId) : m.CopiesUser s := by
  have hc := h.consistent
  constructor
  · intro va length hleaves
    have hrange : ¬isUserRange va length = true :=
      Bool.not_eq_true _ ▸ isUserRange_eq_false_iff.mpr hleaves
    refine ⟨?_, ?_⟩
    · rintro buffer rfl
      have htry : attempt (userChunks va buffer.size) m = .ok (.error .badAddress) m := by
        rw [attempt, userChunks, if_neg hrange]
        rfl
      exact bind_of_ok htry
    · rintro data rfl
      refine bind_of_error ?_
      rw [userChunks, if_neg hrange]
      rfl
  · intro va length hstays
    refine ⟨?_, Chunk.partition_split va length⟩
    rw [userChunks, if_pos (isUserRange_of_not_leaves hstays)]
    rfl
  · exact fun va length done rest hsplit i hi => mem_pages_iff hsplit hi
  · exact fun va buffer result error m' hstays => readUser_iff (isUserRange_of_not_leaves hstays)
  · intro va length shown done rest error m₁ m' hstays hsplit haccesses hhalts
    exact reveals_of_accesses hc (isUserRange_of_not_leaves hstays) hsplit haccesses hhalts
  · intro va buffer e m' hfailed
    have hends : Ends False (readUser s va buffer) m _ _ :=
      readUser_ends ⟨hc, False.elim, False.elim⟩ va buffer
    exact hends.failed_of_eq hfailed
  · exact fun va data error m' hstays => writeUser_iff (isUserRange_of_not_leaves hstays)
  · intro va data done rest error m₁ m' hstays hsplit hstores hhalts
    exact delivers_of_stores hc (isUserRange_of_not_leaves hstays) hsplit hstores hhalts
  · rintro va va' data buffer bytes m₁ m' hwrite hread i hi j hj hat ⟨page, hp, hanon⟩
    exact read_of_write hc hwrite hread hi hj hat hp hanon

/-- In every machine that was booted and served requests, copies from and to user memory move
exactly the bytes of their range, or of the pages before the first that cannot be accessed. -/
theorem copiesUser_of_run {frames : ℕ} {disk : Disk} {files : FileStore}
    {requests : List (Visit × Op)} (hframes : frames ≤ PageTable.Entry.frameBound)
    (hrun : (boot frames disk files).run? requests = some m) (s : SpaceId) : m.CopiesUser s :=
  (sound_of_run hframes hrun).copiesUser s

/-- Two bytes on either side of a page boundary are read as they were written, although the two
pages take turns in a single frame. -/
theorem copiesUser_of_boundary : ∃ (m m₁ m' : Machine) (bytes : Bytes),
    (boot 1 (.zeroed 16) (.ofFiles #[])).run? ([.create, .alloc 0 ⟨pageSize⟩ true .zero .anon,
      .alloc 0 ⟨2 * pageSize⟩ true .zero .anon].map (Visit.ascending, ·)) = some m ∧
      writeUser 0 ⟨2 * pageSize - 1⟩ #[7, 9] m = .ok () m₁ ∧
      readUser 0 ⟨2 * pageSize - 1⟩ #[0, 0] m₁ = .ok (bytes, none) m' ∧
      bytes[0]? = some 7 ∧ bytes[1]? = some 9 := by
  have hserved : ((boot 1 (.zeroed 16) (.ofFiles #[])).run? ([.create,
      .alloc 0 ⟨pageSize⟩ true .zero .anon, .alloc 0 ⟨2 * pageSize⟩ true .zero .anon].map
        (Visit.ascending, ·))).any (fun m =>
          (m.answer? .ascending (.write 0 ⟨2 * pageSize - 1⟩ #[7, 9])).any fun answer =>
            (answer.2.page? 0 ⟨1⟩).any (fun page => decide (page.type = .anon)) &&
              (answer.2.page? 0 ⟨2⟩).any (fun page => decide (page.type = .anon)) &&
              (answer.2.read? .ascending 0 ⟨2 * pageSize - 1⟩ #[0, 0] none).isSome) = true := by
    decide +kernel
  simp only [Option.any_eq_true, Bool.and_eq_true, decide_eq_true_eq, Option.isSome_iff_exists]
    at hserved
  obtain ⟨m, hrun, ⟨reply, m₁⟩, hanswer, ⟨⟨low, hlow, hlowType⟩, high, hhigh, hhighType⟩,
    ⟨bytes, m'⟩, hread⟩ := hserved
  have hwrite := writeUser_of_execBy (execBy_of_answer? hanswer)
  have hread := readUser_of_execBy (execBy_of_read? hread)
  have hcopies := (copiesUser_of_run (by decide) hrun 0).readBack ⟨2 * pageSize - 1⟩
    ⟨2 * pageSize - 1⟩ #[7, 9] #[0, 0] bytes m₁ m' hwrite hread
  refine ⟨m, m₁, m', bytes, hrun, hwrite, hread, ?_, ?_⟩
  · exact hcopies 0 (by decide) 0 (by decide) rfl ⟨low, hlow, hlowType⟩
  · exact hcopies 1 (by decide) 1 (by decide) rfl ⟨high, hhigh, hhighType⟩

end Machine

end DemandPaging
