import DemandPaging.Proofs.ExactCopies.Accesses
import DemandPaging.Proofs.ForkStructure

/-! # What copies leave

A read changes the contents of no page, and shows what anonymous pages hold. A write puts its data
into the pages that it has stored to, and leaves all others as they were, although each of them may
have lost its frame to one that came later.
-/

namespace DemandPaging

variable {m m₁ m' : Machine} {s t : SpaceId} {vpn : VirtPage} {page : Page} {frame : Frame}
  {bytes : PageBytes} {U V W : View} {d : Deed} {holds : PageBytes → Prop}

/-! ## Pages that bear something -/

namespace View

/-- A page shares its bytes with a file, or has contents of its own of which something holds. -/
def Bears (V : View) (s : SpaceId) (vpn : VirtPage) (holds : PageBytes → Prop) : Prop :=
  (∃ page, V.page s vpn = some page ∧ page.shared? ≠ none) ∨
    ∃ bytes, V.contents s vpn = some bytes ∧ holds bytes

theorem Bears.of_anon (h : V.Bears s vpn holds) (hp : V.page s vpn = some page)
    (hanon : page.type = .anon) : ∃ bytes, V.contents s vpn = some bytes ∧ holds bytes := by
  rcases h with ⟨other, hother, hshared⟩ | hbytes
  · obtain rfl := Option.some.inj (hp.symm.trans hother)
    exact (hshared (Page.type_eq_anon_iff.mp hanon)).elim
  · exact hbytes

theorem type_of_contents (hp : V.page s vpn = some page) (hbytes : V.contents s vpn = some bytes) :
    page.type = .anon := by
  rw [contents_of_page hp] at hbytes
  unfold Page.contents? at hbytes
  unfold Page.type
  cases hkind : page.kind with
  | anon slot => rfl
  | uninit touch =>
      rw [hkind] at hbytes
      cases touch with
      | zero => rfl
      | copy segment | share segment => cases hbytes
  | file segment =>
      rw [hkind] at hbytes
      cases hbytes

/-- A resident page bears what holds of the bytes in its frame. -/
theorem Consistent.bears (h : V.Consistent) (hp : V.page s vpn = some page)
    (hframe : page.frame = some frame) (hload : V.pool.load frame = .ok bytes)
    (hbytes : holds bytes) : V.Bears s vpn holds := by
  by_cases hshared : page.shared? = none
  · have hplaced := (h.settled hp).placed
    have hanon := Page.type_eq_anon_iff.mpr hshared
    refine .inr ⟨bytes, ?_, hbytes⟩
    rw [View.contents_of_page hp]
    unfold Page.Placed at hplaced
    unfold Page.type at hanon
    unfold Page.contents?
    cases hkind : page.kind with
    | uninit touch =>
        rw [hkind, hframe] at hplaced
        cases hplaced
    | anon slot =>
        rw [hkind, hframe] at hplaced
        cases slot with
        | none => simp [hframe, hload, Except.toOption]
        | some slot => simp at hplaced
    | file segment =>
        rw [hkind] at hanon
        cases hanon
  · exact .inl ⟨page, hp, hshared⟩

end View

theorem Step.bears (hstep : Step d V W) (h : V.Consistent) (hstore : d ≠ .store s vpn)
    (hdiscard : d ≠ .discard s vpn) (hbears : V.Bears s vpn holds) : W.Bears s vpn holds := by
  rcases hbears with ⟨page, hp, hshared⟩ | ⟨bytes, hbytes, hholds⟩
  · left
    cases hstep.pageChange h s vpn with
    | same page_eq => exact ⟨page, page_eq.trans hp, hshared⟩
    | moved found now becomes =>
        obtain rfl := Option.some.inj (hp.symm.trans found)
        exact ⟨_, now, by rwa [becomes.shared?_eq]⟩
    | gone now deed => exact (hdiscard deed).elim
    | registered fresh now vpn_eq deed => cases fresh.symm.trans hp
    | inherited fresh now found becomes deed => cases fresh.symm.trans hp
  · exact .inr ⟨bytes, hstep.contents_eq h hstore hdiscard hbytes, hholds⟩

theorem Steps.bears_of_accessing (hsteps : Steps (Deed.accessing s) V W) (h : V.Consistent)
    (hbears : V.Bears t vpn holds) : W.Bears t vpn holds :=
  (hsteps.invariant (fun X => X.Consistent ∧ X.Bears t vpn holds)
    (fun _ hd _ _ hstep hX => ⟨hstep.consistent hX.1, hstep.bears hX.1
      (MachineM.ne_store_of_accessing hd t vpn) (MachineM.ne_discard_of_accessing hd t vpn) hX.2⟩)
    ⟨h, hbears⟩).2

theorem Steps.contents_of_accessing (hsteps : Steps (Deed.accessing s) V W) (h : V.Consistent)
    (hbytes : V.contents t vpn = some bytes) : W.contents t vpn = some bytes :=
  hsteps.contents_kept h (fun _ hd => ⟨MachineM.ne_store_of_accessing hd t vpn,
    MachineM.ne_discard_of_accessing hd t vpn⟩) hbytes

namespace MachineM

variable {write : Bool} {chunk : Chunk} {chunks done rest : List Chunk} {e : Errno}
  {error : Option Errno} {shown : VirtPage → PageBytes} {va : VirtAddr} {buffer data : Bytes}
  {pages : List VirtPage}

/-! ## Accesses -/

theorem userFrame_accesses (h : (m.view [] []).Consistent) (hin : vpn.number < userPages)
    (haccess : userFrame s vpn write m = .ok frame m') :
    Steps (Deed.accessing s) (m.view [] []) (m'.view [] []) ∧ Accessed m' s vpn write frame := by
  have hends : Ends False (userFrame s vpn write) m _ _ :=
    userFrame_ends h False.elim False.elim hin write
  obtain ⟨-, hsteps, haccessed⟩ := hends.ok_of_eq haccess
  exact ⟨hsteps.mono (Deed.reaching_subset_accessing s vpn), haccessed⟩

theorem Halts.steps (hhalts : Halts s write rest error m m') (h : (m.view [] []).Consistent)
    (hin : ∀ chunk ∈ rest, chunk.page.number < userPages) :
    Steps (Deed.accessing s) (m.view [] []) (m'.view [] []) := by
  cases hhalts with
  | done => exact Steps.refl _
  | @refused chunk chunks m m' e access =>
      have hends : Ends False (userFrame s chunk.page write) m _ _ :=
        userFrame_ends h False.elim False.elim (hin chunk List.mem_cons_self) write
      exact (hends.failed_of_eq access).2.mono (Deed.reaching_subset_accessing s chunk.page)

theorem Accesses.bears (haccesses : Accesses s shown chunks m m') (h : (m.view [] []).Consistent)
    (hin : ∀ chunk ∈ chunks, chunk.page.number < userPages) :
    Steps (Deed.accessing s) (m.view [] []) (m'.view [] []) ∧
      ∀ chunk ∈ chunks, (m'.view [] []).Bears s chunk.page (· = shown chunk.page) := by
  induction haccesses with
  | nil => exact ⟨Steps.refl _, fun chunk hchunk => by cases hchunk⟩
  | @cons chunk chunks m m₁ m' frame access load rest ih =>
      obtain ⟨hsteps, page, -, hp, hframe, -⟩ :=
        userFrame_accesses h (hin chunk List.mem_cons_self) access
      have h₁ := hsteps.consistent h
      obtain ⟨hmore, hbears⟩ := ih h₁ fun later hlater => hin later (List.mem_cons_of_mem _ hlater)
      refine ⟨hsteps.trans hmore, fun part hpart => ?_⟩
      rcases List.mem_cons.mp hpart with rfl | hlater
      · have hhere : (m₁.view [] []).Bears s part.page (· = shown part.page) :=
          h₁.bears hp hframe load rfl
        exact hmore.bears_of_accessing h₁ hhere
      · exact hbears part hlater

/-! ## Stores -/

/-- The bytes of a page after data was written to a range that meets it: those in the range are the
data's, and the others are those that the page had before, if it had contents of its own. -/
def Patched (va : VirtAddr) (data : Bytes) (vpn : VirtPage) (before : Option PageBytes)
    (bytes : PageBytes) : Prop :=
  ∀ i < pageSize,
    if va.val ≤ vpn.number * pageSize + i ∧ vpn.number * pageSize + i < va.val + data.size then
      bytes[i]? = data[vpn.number * pageSize + i - va.val]?
    else ∀ old, before = some old → bytes[i]? = old[i]?

end MachineM

def Deed.writingTo (s : SpaceId) (pages : List VirtPage) : Set Deed :=
  {d | d ∈ Deed.accessing s ∨ ∃ vpn ∈ pages, d = .store s vpn}

theorem Deed.writingTo_mono {pages more : List VirtPage} (hsub : pages ⊆ more) :
    Deed.writingTo s pages ⊆ Deed.writingTo s more := by
  rintro d (hd | ⟨vpn, hvpn, rfl⟩)
  · exact .inl hd
  · exact .inr ⟨vpn, hsub hvpn, rfl⟩

namespace MachineM

variable {chunk : Chunk} {chunks : List Chunk} {va : VirtAddr} {data : Bytes}
  {pages : List VirtPage}

/-- What the machine shows when a write has stored to some pages. -/
structure Stored (U : View) (s : SpaceId) (va : VirtAddr) (data : Bytes) (pages : List VirtPage)
    (V : View) : Prop where
  consistent : V.Consistent
  steps : Steps (Deed.writingTo s pages) U V
  kept : ∀ t vpn bytes, ¬(s = t ∧ vpn ∈ pages) → U.contents t vpn = some bytes →
    V.contents t vpn = some bytes
  written : ∀ vpn ∈ pages, V.Bears s vpn (Patched va data vpn (U.contents s vpn))

theorem Stored.access (h : Stored U s va data pages V) (hsteps : Steps (Deed.accessing s) V W) :
    Stored U s va data pages W := by
  refine ⟨hsteps.consistent h.consistent, h.steps.trans (hsteps.mono fun d hd => .inl hd),
    fun t vpn bytes hnot hbytes => ?_, fun vpn hvpn => ?_⟩
  · exact hsteps.contents_of_accessing h.consistent (h.kept t vpn bytes hnot hbytes)
  · exact hsteps.bears_of_accessing h.consistent (h.written vpn hvpn)

/-- A page that part of the data is stored to bears it. -/
theorem Stored.patched {number : ℕ} {pool : FramePool} (h : Stored U s va data pages V)
    (hstep : Step (.store s ⟨number⟩) V { V with pool }) (hp : V.page s ⟨number⟩ = some page)
    (hframe : page.frame = some frame) (hload : V.pool.load frame = .ok bytes)
    (hstore : V.pool.store frame (bytes.overlay
      (Chunk.ofPage va (va.val + data.size) number).offset
      (data.slice (Chunk.ofPage va (va.val + data.size) number).position
        (Chunk.ofPage va (va.val + data.size) number).length)) = .ok pool) :
    View.Bears { V with pool } s ⟨number⟩ (Patched va data ⟨number⟩ (U.contents s ⟨number⟩)) := by
  have hold : page.type = .anon → V.contents s ⟨number⟩ = some bytes := fun hanon => by
    have hbears : V.Bears s ⟨number⟩ (· = bytes) := h.consistent.bears hp hframe hload rfl
    obtain ⟨other, hother, rfl⟩ := hbears.of_anon hp hanon
    exact hother
  by_cases hanon : page.type = .anon
  · have hnew := FramePool.load_of_store hstore frame
    rw [if_pos rfl] at hnew
    refine (hstep.consistent h.consistent).bears hp hframe hnew fun i hi => ?_
    have hget := Chunk.getElem?_stored va number bytes data hi
    split
    · next hin => rw [hget, if_pos hin]
    · next hout =>
      rw [hget, if_neg hout]
      intro old hbefore
      by_cases hmem : ⟨number⟩ ∈ pages
      · obtain ⟨other, hother, hpatched⟩ := (h.written _ hmem).of_anon hp hanon
        obtain rfl := Option.some.inj ((hold hanon).symm.trans hother)
        have hkept := hpatched i hi
        rw [if_neg hout] at hkept
        exact hkept old hbefore
      · have hkept := h.kept s ⟨number⟩ old (fun hboth => hmem hboth.2) hbefore
        rw [Option.some.inj ((hold hanon).symm.trans hkept)]
  · exact .inl ⟨page, hp, fun hnone => hanon (Page.type_eq_anon_iff.mpr hnone)⟩

theorem Stored.store {number : ℕ} {pool : FramePool} (h : Stored U s va data pages V)
    (hstep : Step (.store s ⟨number⟩) V { V with pool }) (hp : V.page s ⟨number⟩ = some page)
    (hframe : page.frame = some frame) (hload : V.pool.load frame = .ok bytes)
    (hstore : V.pool.store frame (bytes.overlay
      (Chunk.ofPage va (va.val + data.size) number).offset
      (data.slice (Chunk.ofPage va (va.val + data.size) number).position
        (Chunk.ofPage va (va.val + data.size) number).length)) = .ok pool) :
    Stored U s va data (pages ++ [⟨number⟩]) { V with pool } := by
  have hne : ∀ {t vpn}, ¬(s = t ∧ vpn = ⟨number⟩) → Deed.store s ⟨number⟩ ≠ .store t vpn := by
    intro t vpn hnot heq
    injection heq with hs hvpn
    exact hnot ⟨hs, hvpn.symm⟩
  refine ⟨hstep.consistent h.consistent, ?_, fun t vpn old hnot hbytes => ?_, fun vpn hvpn => ?_⟩
  · refine (h.steps.mono (Deed.writingTo_mono (List.subset_append_left _ _))).tail hstep ?_
    exact .inr ⟨⟨number⟩, List.mem_append_right _ List.mem_cons_self, rfl⟩
  · refine hstep.contents_eq h.consistent (hne fun hboth => hnot ⟨hboth.1, ?_⟩) (by simp)
      (h.kept t vpn old (fun hboth => hnot ⟨hboth.1, List.mem_append_left _ hboth.2⟩) hbytes)
    exact List.mem_append_right _ (List.mem_singleton.mpr hboth.2)
  · by_cases hat : vpn = ⟨number⟩
    · subst hat
      exact h.patched hstep hp hframe hload hstore
    · have hmem : vpn ∈ pages :=
        (List.mem_append.mp hvpn).resolve_right fun hlast => hat (List.mem_singleton.mp hlast)
      exact hstep.bears h.consistent (hne fun hboth => hat hboth.2) (by simp) (h.written vpn hmem)

/-- A write stores the parts of its data to their pages, one after the other. -/
theorem Stores.stored (hstores : Stores s data chunks m m')
    (hchunks : ∀ chunk ∈ chunks, ∃ number < userPages,
      chunk = Chunk.ofPage va (va.val + data.size) number)
    (h : Stored U s va data pages (m.view [] [])) :
    Stored U s va data (pages ++ chunks.map Chunk.page) (m'.view [] []) := by
  induction hstores generalizing pages with
  | nil =>
      rw [List.map_nil, List.append_nil]
      exact h
  | @cons chunk chunks m m₁ m' frame bytes pool access load store rest ih =>
      obtain ⟨number, hin, rfl⟩ := hchunks chunk List.mem_cons_self
      obtain ⟨hsteps, page, entry, hp, hframe, hentry, hdirty⟩ :=
        userFrame_accesses h.consistent hin access
      have h₁ := h.access hsteps
      obtain ⟨hallowed, hmarked⟩ := hdirty rfl
      have hstep : Step (.store s ⟨number⟩) (m₁.view [] []) { m₁.view [] [] with pool } :=
        Step.store hp hframe hentry hallowed hmarked store
      have hrest := ih (fun later hlater => hchunks later (List.mem_cons_of_mem _ hlater))
        (h₁.store hstep hp hframe load store)
      rwa [List.append_assoc] at hrest

end MachineM

end DemandPaging
