import DemandPaging.Proofs.Executable.Segment

/-! # Touching the pages of a segment

A page that lacks a part of the file cannot be brought in: whatever asks for it is answered with an
input or output error, and the page stays as it was registered. All other pages can be brought in.
-/

namespace DemandPaging

/-! ## Ranges of a segment -/

section

variable {va : VirtAddr} {length j : ℕ} {chunk : Chunk} {L : LoadedSegment}

namespace LoadedSegment

/-- A range of addresses lies in a segment. -/
structure Contains (L : LoadedSegment) (va : VirtAddr) (length : ℕ) : Prop where
  start_le : L.start ≤ va.val
  end_le : va.val + length ≤ L.start + L.pages * pageSize

/-- A page of the segment lacks a part of the file. -/
def ShortAt (L : LoadedSegment) (vpn : VirtPage) : Prop :=
  ∃ index, vpn = L.page index ∧ L.Short index

theorem shortAt_page {index : ℕ} : L.ShortAt (L.page index) ↔ L.Short index := by
  constructor
  · rintro ⟨other, hpage, hshort⟩
    rwa [page_inj hpage]
  · exact fun hshort => ⟨index, rfl, hshort⟩

theorem Contains.exists_page (h : L.Contains va length) (hj : j < length) :
    ∃ index < L.pages, ∃ i < pageSize, pageOf (va.val + j) = L.page index ∧
      va.val + j = (L.page index).number * pageSize + i := by
  have hstart := h.start_le
  have hend := h.end_le
  have hposition : L.start + (va.val + j - L.start) = va.val + j := by omega
  have hindex : (va.val + j - L.start) / pageSize < L.pages :=
    (Nat.div_lt_iff_lt_mul (by decide)).mpr (by omega)
  have hi : (va.val + j - L.start) % pageSize < pageSize := Nat.mod_lt _ (by decide)
  have hat : va.val + j = (L.page ((va.val + j - L.start) / pageSize)).number * pageSize +
      (va.val + j - L.start) % pageSize := by
    rw [page_mul_add, Nat.div_add_mod', hposition]
  refine ⟨_, hindex, _, hi, ?_, hat⟩
  conv_lhs => rw [hat]
  exact pageOf_number_mul_add _ hi

theorem Contains.isUserRange (h : L.Contains va length)
    (hin : L.base.number + L.pages ≤ userPages) : isUserRange va length = true := by
  have hstart := h.start_le
  have hend := h.end_le
  have hlast : L.start + L.pages * pageSize ≤ userEnd := by
    have hle := Nat.mul_le_mul_right pageSize hin
    rw [Nat.add_mul] at hle
    exact hle
  have hword : userEnd < Word.bound := by decide
  simp only [DemandPaging.isUserRange, VirtAddr.isUser, Bool.and_eq_true, Bool.or_eq_true,
    beq_iff_eq, decide_eq_true_eq]
  omega

/-- How an access of some pages, one after another, comes out: at the first page that lacks a part
of the file it ends with an error. -/
inductive Answers (L : LoadedSegment) : List VirtPage → Option Errno → Prop where
  | done : Answers L [] none
  | next {vpn : VirtPage} {vpns : List VirtPage} {error : Option Errno}
      (complete : ¬L.ShortAt vpn) (rest : Answers L vpns error) : Answers L (vpn :: vpns) error
  | failed {vpn : VirtPage} {vpns : List VirtPage} (short : L.ShortAt vpn) :
      Answers L (vpn :: vpns) (some .ioError)

theorem Answers.cases {vpns : List VirtPage} {error : Option Errno} (h : L.Answers vpns error) :
    (error = none ∧ ∀ vpn ∈ vpns, ¬L.ShortAt vpn) ∨
      (error = some .ioError ∧ ∃ vpn ∈ vpns, L.ShortAt vpn) := by
  induction h with
  | done => exact .inl ⟨rfl, fun vpn hvpn => by cases hvpn⟩
  | next complete rest ih =>
      rcases ih with ⟨rfl, hrest⟩ | ⟨rfl, vpn, hvpn, hshort⟩
      · exact .inl ⟨rfl, List.forall_mem_cons.mpr ⟨complete, hrest⟩⟩
      · exact .inr ⟨rfl, vpn, List.mem_cons_of_mem _ hvpn, hshort⟩
  | failed short => exact .inr ⟨rfl, _, List.mem_cons_self, short⟩

def ShortIn (L : LoadedSegment) (va : VirtAddr) (length : ℕ) : Prop :=
  ∃ j < length, L.ShortAt (pageOf (va.val + j))

theorem Answers.cases_of_split {error : Option Errno}
    (h : L.Answers ((Chunk.split va length).map Chunk.page) error) :
    (error = none ∧ ¬L.ShortIn va length) ∨ (error = some .ioError ∧ L.ShortIn va length) := by
  rcases h.cases with ⟨rfl, hnone⟩ | ⟨rfl, vpn, hvpn, hshort⟩
  · refine .inl ⟨rfl, ?_⟩
    rintro ⟨j, hj, hshort⟩
    exact hnone _ (List.mem_map_of_mem (Chunk.mem_split_of_lt va hj)) hshort
  · obtain ⟨j, hj, rfl⟩ := Chunk.exists_of_mem_pages hvpn
    exact .inr ⟨rfl, j, hj, hshort⟩

end LoadedSegment

end

/-! ## Pages -/

/-- A page that is one of a segment, as it was registered or with bytes of its own. -/
def View.StandsAt (V : View) (L : LoadedSegment) (vpn : VirtPage) : Prop :=
  ∃ index memory, vpn = L.page index ∧ V.Stands L index memory

namespace MachineM

variable {m : Machine} {L : LoadedSegment} {index : ℕ} {memory : Flat} {sound : Prop} {write : Bool}
  {vpn : VirtPage}

section

variable (h : (m.view [] []).Serves L) (hwhole : L.content.readCap = none)
  (hpos : sound → 0 < m.pool.total) (hstands : (m.view [] []).StandsAt L vpn)

include h hwhole hpos hstands

/-- A page of a segment that is claimed is brought in, unless it lacks a part of the file. -/
theorem claim_of_standsAt :
    Ends sound (claim L.space vpn) m
      (fun _ m' => ¬L.ShortAt vpn ∧
        Steps (Deed.claiming L.space vpn) (m.view [] []) (m'.view [] []) ∧
        ∃ page, m'.page? L.space vpn = some page ∧ page.frame ≠ none ∧ page.writable = L.writable)
      fun e m' => e = .ioError ∧ L.ShortAt vpn ∧
        Steps (Deed.claiming L.space vpn) (m.view [] []) (m'.view [] []) := by
  obtain ⟨index, memory, rfl, hstands⟩ := hstands
  rw [LoadedSegment.shortAt_page]
  obtain ⟨page, hp, -, hwritable⟩ := hstands.exists_page
  refine (claim_ends h.consistent hp hpos).mono ?_ ?_
  · rintro - m' ⟨hsteps, after, hafter, hframe, hsame⟩
    obtain ⟨hserves, hkept⟩ :=
      (hsteps.mono (Deed.claiming_subset_accessing L.space _)).stands_of_accessing h
    obtain ⟨frame, hresident⟩ := Option.ne_none_iff_exists'.mp hframe
    obtain ⟨hcomplete, -⟩ := (hkept hstands).load hserves.consistent hafter hresident
    exact ⟨hcomplete, hsteps, after, hafter, hframe, hsame.trans hwritable⟩
  · rintro e m' ⟨rfl, hsteps, hlacks⟩
    exact ⟨rfl, hstands.short_of_lacks h hwhole hp hlacks, hsteps⟩

/-- An access of a page of a segment passes, unless the page lacks a part of the file. -/
theorem userFrame_of_standsAt (hin : vpn.number < userPages)
    (hallowed : write = true → L.writable = true) :
    Ends sound (userFrame L.space vpn write) m
      (fun frame m' => ¬L.ShortAt vpn ∧
        Steps (Deed.reaching L.space vpn) (m.view [] []) (m'.view [] []) ∧
        Accessed m' L.space vpn write frame)
      fun e m' => e = .ioError ∧ L.ShortAt vpn ∧
        Steps (Deed.reaching L.space vpn) (m.view [] []) (m'.view [] []) := by
  have hclaim := claim_of_standsAt h hwhole hpos hstands
  obtain ⟨index, memory, rfl, hstands⟩ := hstands
  obtain ⟨page, hp, -, hwritable⟩ := hstands.exists_page
  have hsub := (Deed.claiming_subset_resolving L.space (L.page index)).trans
    (Deed.resolving_subset_reaching L.space (L.page index))
  have htouch : Deed.touch L.space (L.page index) write ∈ Deed.reaching L.space (L.page index) :=
    .inr ⟨write, rfl⟩
  cases hentry : m.entryAt? L.space (L.page index) with
  | some entry =>
      obtain ⟨own, hown, hframe⟩ := h.consistent.exists_page hentry
      obtain ⟨hcomplete, -⟩ := hstands.load h.consistent hown hframe
      refine (userFrame_of_mapped h.consistent hentry write).mono ?_ ?_
      · rintro frame m' ⟨-, hstep, haccessed⟩
        rw [LoadedSegment.shortAt_page]
        exact ⟨hcomplete, Steps.single hstep htouch, haccessed⟩
      · rintro e m' ⟨-, hdenied, -⟩
        have hsame := ((h.consistent.settled hp).mapped entry hentry).2
        exact (hdenied fun hw => hsame.trans (hwritable.trans (hallowed hw))).elim
  | none =>
      refine Ends.of_eq (userFrame_of_registered hp hentry hin fun hw =>
        hwritable.trans (hallowed hw)) ?_
      have hclaim' : Ends sound (claim L.space (L.page index))
          (m.told (accessFault (L.page index) write)) _ _ :=
        claim_of_standsAt h hwhole hpos ⟨index, memory, rfl, hstands⟩
      refine (hclaim'.mono (fun _ _ hok => hok) fun e m' hf => ?_).bind ?_
      · exact ⟨hf.1, hf.2.1, hf.2.2.mono hsub⟩
      · rintro - m₁ ⟨hcomplete, hsteps, after, hafter, hframe, hsame⟩
        have haccessible : Accessible m₁ L.space (L.page index) write :=
          ⟨after, hafter, hframe, fun hw => hsame.trans (hallowed hw)⟩
        refine (access_of_accessible (hsteps.consistent h.consistent) haccessible 0).mono ?_
          fun _ _ hf => hf.elim
        rintro frame m' ⟨hstep, haccessed⟩
        exact ⟨hcomplete, (hsteps.mono hsub).tail hstep htouch, haccessed⟩

/-- A fault of a page of a segment is resolved, unless the page lacks a part of the file. -/
theorem handleFault_of_standsAt {fault : PageFault} (hat : VirtAddr.page ⟨fault.addr⟩ = vpn)
    (huser : VirtAddr.isUser ⟨fault.addr⟩ = true) (hpresent : fault.notPresent = true)
    (hallowed : fault.write = true → L.writable = true) :
    Ends sound (handleFault L.space fault) m
      (fun _ m' => ¬L.ShortAt vpn ∧
        Steps (Deed.claiming L.space vpn) (m.view [] []) (m'.view [] []))
      fun e m' => e = .ioError ∧ L.ShortAt vpn ∧
        Steps (Deed.claiming L.space vpn) (m.view [] []) (m'.view [] []) := by
  subst hat
  obtain ⟨index, memory, hvpn, hstands⟩ := hstands
  obtain ⟨page, hp, -, hwritable⟩ := hstands.exists_page
  have hclaim : Ends sound (claim L.space (VirtAddr.page ⟨fault.addr⟩))
      (m.told fault) _ _ :=
    claim_of_standsAt h hwhole hpos ⟨index, memory, hvpn, hstands⟩
  rw [← hvpn] at hp
  refine Ends.of_eq (handleFault_of_registered hp huser hpresent fun hw =>
    hwritable.trans (hallowed hw)) ?_
  exact hclaim.mono (fun _ _ hok => ⟨hok.1, hok.2.1⟩) fun _ _ hf => hf

end

/-! ## Copies -/

section

variable {va : VirtAddr} {buffer data : Bytes} {chunk : Chunk} {chunks : List Chunk}
  (hwhole : L.content.readCap = none)

theorem standsAt_of_accessing {V W : View} (hsteps : Steps (Deed.accessing L.space) V W)
    (h : V.Serves L) (hstands : V.StandsAt L vpn) : W.StandsAt L vpn := by
  obtain ⟨index, memory, hvpn, hstands⟩ := hstands
  exact ⟨index, memory, hvpn, (hsteps.stands_of_accessing h).2 hstands⟩

include hwhole

/-- A read gets as far as the first page that lacks a part of the file. -/
theorem readChunks_of_standsAt (h : (m.view [] []).Serves L) (hpos : sound → 0 < m.pool.total)
    (hin : ∀ chunk ∈ chunks, chunk.page.number < userPages)
    (hstands : ∀ chunk ∈ chunks, (m.view [] []).StandsAt L chunk.page) :
    Ends sound (readChunks L.space chunks buffer) m
      (fun result _ => L.Answers (chunks.map Chunk.page) result.2) fun _ _ => False := by
  refine readChunks_of_invariant [] (fun rest _ m' => (m'.view [] []).Serves L ∧
    (sound → 0 < m'.pool.total) ∧
    (∀ chunk ∈ rest, chunk.page.number < userPages ∧ (m'.view [] []).StandsAt L chunk.page) ∧
    ∀ error, L.Answers (rest.map Chunk.page) error → L.Answers (chunks.map Chunk.page) error)
    ⟨h, hpos, fun chunk hc => ⟨hin chunk hc, hstands chunk hc⟩, fun _ => id⟩
    (fun hdone => hdone.2.2.2 none .done) ?_
  rintro chunk rest buffer m₁ ⟨h₁, hpos₁, hrest, hanswers⟩
  obtain ⟨⟨hin₁, hstands₁⟩, hlater⟩ := List.forall_mem_cons.mp hrest
  have haccess : Ends sound (userFrame L.space chunk.page false) m₁ _ _ :=
    userFrame_of_standsAt h₁ hwhole hpos₁ hstands₁ hin₁ Bool.noConfusion
  refine haccess.mono ?_ ?_
  · rintro frame m₂ ⟨hcomplete, hsteps, haccessed⟩
    have hsteps' := hsteps.mono (Deed.reaching_subset_accessing _ _)
    have h₂ := (hsteps'.stands_of_accessing h₁).1
    refine ⟨h₂.consistent, haccessed, fun _ _ => ⟨h₂, fun hs => ?_, fun later hl => ?_, ?_⟩⟩
    · exact lt_of_lt_of_eq (hpos₁ hs) (Steps.total_eq hsteps).symm
    · exact ⟨(hlater later hl).1, standsAt_of_accessing hsteps' h₁ (hlater later hl).2⟩
    · exact fun error hrest => hanswers error (.next hcomplete hrest)
  · rintro e m₂ ⟨rfl, hshort, -⟩
    exact hanswers _ (.failed hshort)

/-- A part of the data that is written to a page of a segment leaves the segment its pages. -/
theorem writeChunk_of_standsAt {number : ℕ} (h : (m.view [] []).Serves L)
    (hpos : sound → 0 < m.pool.total) (hwritable : L.writable = true) (hin : number < userPages)
    (hstands : (m.view [] []).StandsAt L ⟨number⟩) :
    Ends sound (writeChunk L.space data (Chunk.ofPage va (va.val + data.size) number)) m
      (fun _ m' => ¬L.ShortAt ⟨number⟩ ∧ m'.pool.total = m.pool.total ∧ (m'.view [] []).Serves L ∧
        ∀ vpn, (m.view [] []).StandsAt L vpn → (m'.view [] []).StandsAt L vpn)
      fun e _ => e = .ioError ∧ L.ShortAt ⟨number⟩ := by
  have hframe : Ends sound (userFrame L.space ⟨number⟩ true) m _ _ :=
    userFrame_of_standsAt h hwhole hpos hstands hin fun _ => hwritable
  have hreached : Ends sound (userFrame L.space ⟨number⟩ true) m _
      fun e _ => e = .ioError ∧ L.ShortAt ⟨number⟩ :=
    hframe.mono (fun _ _ hok => hok.2) fun _ _ hf => ⟨hf.1, hf.2.1⟩
  have hends : Ends sound (writeChunk L.space data (Chunk.ofPage va (va.val + data.size) number)) m
      _ _ := writeChunk_of_userFrame h.consistent data hreached
  refine hends.mono ?_ fun _ _ hf => hf
  rintro - m' hwritten
  have htotal : m'.pool.total = m.pool.total := Steps.total_eq hwritten.steps
  obtain ⟨m₁, page, frame, bytes, pool, hsteps, hstep, hp, hresident, hload, hstore, hview⟩ :=
    hwritten
  obtain ⟨h₁, hkept⟩ := (hsteps.mono (Deed.reaching_subset_accessing _ _)).stands_of_accessing h
  obtain ⟨index, memory, hvpn, hstands⟩ := hstands
  have hanon : (m₁.view [] []).shared L.space ⟨number⟩ = none := by
    obtain ⟨own, hown, htype, -⟩ := (hkept hstands).exists_page
    rw [← hvpn] at hown
    rw [View.shared_of_page hown, Page.shared?, htype]
  rw [hview] at hstep ⊢
  refine ⟨?_, htotal, ?_, ?_⟩
  · have hat : (m₁.view [] []).page L.space ⟨number⟩ = some page := hp
    rw [hvpn] at hat ⊢
    rw [LoadedSegment.shortAt_page]
    exact ((hkept hstands).load h₁.consistent hat hresident).1
  · refine h₁.stored hstep hp hresident hload hstore fun i hshows => ?_
    obtain ⟨segment, hsegment, -⟩ := hshows
    cases hanon.symm.trans hsegment
  · rintro vpn ⟨other, known, hother, hpage⟩
    have hnow := hkept hpage
    rw [← Flat.written_nil known L.space va data] at hnow
    exact ⟨other, _, hother, hnow.stored hstep hp hresident hload hstore h₁⟩

/-- A write gets as far as the first page that lacks a part of the file. -/
theorem writeChunks_of_standsAt (h : (m.view [] []).Serves L) (hpos : sound → 0 < m.pool.total)
    (hwritable : L.writable = true)
    (hchunks : ∀ chunk ∈ chunks, ∃ number < userPages,
      chunk = Chunk.ofPage va (va.val + data.size) number)
    (hstands : ∀ chunk ∈ chunks, (m.view [] []).StandsAt L chunk.page) :
    Ends sound (chunks.forM (writeChunk L.space data)) m
      (fun _ _ => L.Answers (chunks.map Chunk.page) none)
      fun e _ => L.Answers (chunks.map Chunk.page) (some e) := by
  induction chunks generalizing m with
  | nil => exact Ends.pure .done
  | cons chunk chunks ih =>
      obtain ⟨number, hin, rfl⟩ := hchunks chunk List.mem_cons_self
      have hends : Ends sound
          (writeChunk L.space data (Chunk.ofPage va (va.val + data.size) number)) m _ _ :=
        writeChunk_of_standsAt hwhole h hpos hwritable hin (hstands _ List.mem_cons_self)
      change Ends sound (writeChunk L.space data _ >>= fun _ =>
        chunks.forM (writeChunk L.space data)) m _ _
      refine (hends.mono (fun _ _ hok => hok) ?_).bind ?_
      · rintro e m' ⟨rfl, hshort⟩
        exact .failed hshort
      · rintro - m₁ ⟨hcomplete, htotal, h₁, hkept⟩
        refine (ih h₁ (fun hs => lt_of_lt_of_eq (hpos hs) htotal.symm)
          (fun later hl => hchunks later (List.mem_cons_of_mem _ hl))
          fun later hl => hkept _ (hstands later (List.mem_cons_of_mem _ hl))).mono ?_ ?_
        · exact fun _ _ hrest => .next hcomplete hrest
        · exact fun _ _ hrest => .next hcomplete hrest

variable (h : (m.view [] []).Serves L) (hpos : sound → 0 < m.pool.total)
  (hin : L.base.number + L.pages ≤ userPages)

include h hpos hin

/-- A read of a part of a segment fails exactly if a page of it lacks a part of the file. -/
theorem readUser_of_standsAt (hrange : L.Contains va buffer.size)
    (hstands : ∀ j < buffer.size, (m.view [] []).StandsAt L (pageOf (va.val + j))) :
    Ends sound (readUser L.space va buffer) m
      (fun result _ => (result.2 = none ∧ ¬L.ShortIn va buffer.size) ∨
        (result.2 = some .ioError ∧ L.ShortIn va buffer.size)) fun _ _ => False := by
  have huser := hrange.isUserRange hin
  have hchunks : attempt (userChunks va buffer.size) m =
      .ok (.ok (Chunk.split va buffer.size)) m := by
    rw [userChunks, if_pos huser]
    rfl
  unfold readUser
  refine Ends.bind_ok hchunks ((readChunks_of_standsAt hwhole h hpos (fun chunk hc =>
    Chunk.page_lt_of_mem_split huser hc) fun chunk hc => ?_).mono
    (fun _ _ hanswers => hanswers.cases_of_split) fun _ _ hf => hf)
  obtain ⟨j, hj, hpage⟩ := Chunk.exists_of_mem_pages (List.mem_map_of_mem hc)
  rw [hpage]
  exact hstands j hj

/-- A write to a part of a segment fails exactly if a page of it lacks a part of the file. -/
theorem writeUser_of_standsAt (hwritable : L.writable = true) (hrange : L.Contains va data.size)
    (hstands : ∀ j < data.size, (m.view [] []).StandsAt L (pageOf (va.val + j))) :
    Ends sound (writeUser L.space va data) m (fun _ _ => ¬L.ShortIn va data.size)
      fun e _ => e = .ioError ∧ L.ShortIn va data.size := by
  have huser := hrange.isUserRange hin
  have hchunks : userChunks va data.size m = .ok (Chunk.split va data.size) m := by
    rw [userChunks, if_pos huser]
    rfl
  unfold writeUser
  refine Ends.bind_ok hchunks ((writeChunks_of_standsAt hwhole h hpos hwritable (fun chunk hc =>
    Chunk.exists_of_mem_split huser hc) fun chunk hc => ?_).mono ?_ ?_)
  · obtain ⟨j, hj, hpage⟩ := Chunk.exists_of_mem_pages (List.mem_map_of_mem hc)
    rw [hpage]
    exact hstands j hj
  · intro _ _ hanswers
    simpa using hanswers.cases_of_split
  · intro e _ hanswers
    simpa using hanswers.cases_of_split

end

end MachineM

end DemandPaging
