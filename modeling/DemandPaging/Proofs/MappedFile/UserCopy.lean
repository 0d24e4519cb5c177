import DemandPaging.Proofs.MappedFile.Invariant

/-! # Copies through a mapping

A write to pages of a mapping changes what is known of them, page by page as it gets to them, and
leaves the pages dirty. A read returns what is known.
-/

namespace DemandPaging

namespace FileMapping

variable {M : FileMapping} {memory : ℕ → Option UInt8} {U : View} {s : SpaceId} {va : VirtAddr}
  {data : Bytes} {pages : List VirtPage} {vpn : VirtPage} {addr : ℕ} {byte : UInt8}

/-- The bytes that were written through a mapping, after data was stored to some pages as well. The
pages that belonged to the mapping are those of a view. -/
def stored (M : FileMapping) (U : View) (s : SpaceId) (va : VirtAddr) (data : Bytes)
    (pages : List VirtPage) (memory : ℕ → Option UInt8) : ℕ → Option UInt8 := fun addr =>
  (if U.backing M.space (pageOf addr) = some M.backing ∧ s = M.space ∧ va.val ≤ addr ∧
      pageOf addr ∈ pages then data[addr - va.val]? else none).or (memory addr)

theorem stored_nil : M.stored U s va data [] memory = memory := by
  funext addr
  rw [stored, if_neg fun h => List.not_mem_nil h.2.2.2, Option.none_or]

theorem stored_append_of_ne (h : s = M.space → U.backing M.space vpn ≠ some M.backing) :
    M.stored U s va data (pages ++ [vpn]) memory = M.stored U s va data pages memory := by
  funext addr
  have hiff : (U.backing M.space (pageOf addr) = some M.backing ∧ s = M.space ∧ va.val ≤ addr ∧
      pageOf addr ∈ pages ++ [vpn]) ↔
      (U.backing M.space (pageOf addr) = some M.backing ∧ s = M.space ∧ va.val ≤ addr ∧
        pageOf addr ∈ pages) := by
    rw [List.mem_append, List.mem_singleton]
    refine and_congr_right fun hbacking => and_congr_right fun hs => and_congr_right fun _ => ?_
    refine or_iff_left ?_
    rintro rfl
    exact h hs hbacking
  simp only [stored, hiff]

theorem stored_append_elsewhere (h : pageOf addr ≠ vpn) :
    M.stored U s va data (pages ++ [vpn]) memory addr = M.stored U s va data pages memory addr := by
  simp only [stored, List.mem_append, List.mem_singleton, h, or_false]

theorem stored_append_same (hpage : U.backing M.space vpn = some M.backing)
    (hat : pageOf addr = vpn) :
    M.stored U M.space va data (pages ++ [vpn]) memory addr =
      (if va.val ≤ addr then data[addr - va.val]? else none).or
        (M.stored U M.space va data pages memory addr) := by
  have hmem : pageOf addr ∈ pages ++ [vpn] := by
    rw [hat]
    exact List.mem_append_right _ List.mem_cons_self
  simp only [stored, hat ▸ hpage, hmem, true_and, and_true]
  by_cases hin : va.val ≤ addr
  · rw [if_pos hin]
    cases data[addr - va.val]? with
    | some byte => rfl
    | none => simp only [ite_self, Option.none_or]
  · simp only [hin, false_and, if_false, Option.none_or]

theorem known_of_written (h : memory addr = some byte) (hlt : addr - M.start < M.mapped) :
    M.known memory addr = some byte := by
  rw [known, if_pos hlt, h, Option.some_or]

theorem eq_of_known (hknown : M.known memory addr = some byte) {written : UInt8}
    (h : memory addr = some written) : byte = written := by
  rw [known, h] at hknown
  split at hknown
  · exact (Option.some.inj hknown).symm
  · cases hknown

end FileMapping

section

variable {V W : View} {M : FileMapping} {memory more : ℕ → Option UInt8} {s : SpaceId}
  {vpn : VirtPage} {va : VirtAddr} {data : Bytes} {index : ℕ}

theorem View.Maps.exists_index (h : V.Maps M) (hpage : V.backing M.space vpn = some M.backing) :
    ∃ index, vpn = M.page index ∧ V.shared M.space vpn = some (M.segment index) := by
  obtain ⟨-, index, -, hat, hshared⟩ := h.placed hpage
  exact ⟨index, hat, hshared⟩

theorem View.Maps.backing_iff (h : V.Maps M) (h' : W.Maps M) (hsame : W.shared = V.shared) :
    W.backing M.space vpn = some M.backing ↔ V.backing M.space vpn = some M.backing := by
  constructor
  · intro hW
    obtain ⟨index, -, hshared⟩ := h'.exists_index hW
    exact View.backing_of_shared (hsame ▸ hshared)
  · intro hV
    obtain ⟨index, -, hshared⟩ := h.exists_index hV
    exact View.backing_of_shared (hsame ▸ hshared)

theorem Step.unsaved_of_store (hstep : Step (.store M.space (M.page index)) V W) (h : V.Maps M)
    (hshared : V.shared M.space (M.page index) = some (M.segment index)) : W.Unsaved M index := by
  have hc := hstep.consistent h.consistent
  cases hstep with
  | store found resident mapped allowed dirty stored =>
      obtain ⟨bytes, entry, -, hW⟩ :=
        hc.exists_resident found ((View.shared_of_page found).symm.trans hshared) resident
      obtain rfl := Option.some.inj (hW.mapped.symm.trans mapped)
      exact ⟨bytes, entry, hW, dirty⟩

/-- A page of the mapping that is stored to has the data where the data reaches, and what was known
of it elsewhere. -/
theorem View.Mirrors.stored (h : V.Mirrors M memory) {page : Page} {frame : Frame}
    {bytes : PageBytes} {pool : FramePool}
    (hstep : Step (.store M.space (M.page index)) V { V with pool })
    (hp : V.page M.space (M.page index) = some page) (hframe : page.frame = some frame)
    (hload : V.pool.load frame = .ok bytes)
    (hstore : V.pool.store frame
      (bytes.overlay (Chunk.ofPage va (va.val + data.size) (M.page index).number).offset
        (data.slice (Chunk.ofPage va (va.val + data.size) (M.page index).number).position
          (Chunk.ofPage va (va.val + data.size) (M.page index).number).length)) = .ok pool)
    (hshared : V.shared M.space (M.page index) = some (M.segment index))
    (hhere : ∀ {addr}, pageOf addr = M.page index →
      more addr = (if va.val ≤ addr then data[addr - va.val]? else none).or (memory addr))
    (helse : ∀ {addr}, pageOf addr ≠ M.page index → more addr = memory addr) :
    View.Mirrors { V with pool } M more := by
  have hafter := hstep.maps trivial h.toMaps
  have helsewhere : ∀ {other i}, i < pageSize → other ≠ index →
      more ((M.page other).number * pageSize + i) =
        memory ((M.page other).number * pageSize + i) := by
    intro other i hi hne
    refine helse fun hat => hne ?_
    exact FileMapping.page_inj ((pageOf_number_mul_add _ hi).symm.trans hat)
  refine ⟨hafter, fun {other after entry} hW i hi byte hknown => ?_,
    fun {other x i} hcovers hclean => ?_, h.others⟩
  · by_cases hat : other = index
    · subst hat
      obtain ⟨rfl, hV⟩ := hW.of_stored hp hframe hload hstore
      have hmore := hhere (pageOf_number_mul_add (M.page other) hi)
      rw [Chunk.getElem?_stored va _ bytes data hi]
      split
      · next hin =>
        have hlt : (M.page other).number * pageSize + i - va.val < data.size := by omega
        rw [if_pos hin.1, Array.getElem?_eq_getElem hlt, Option.some_or] at hmore
        rw [Array.getElem?_eq_getElem hlt, FileMapping.eq_of_known hknown hmore]
      · next hnot =>
        refine h.shown hV hi ((FileMapping.known_congr ?_).symm.trans hknown)
        rw [hmore]
        split
        · next hle => rw [Array.getElem?_eq_none (by omega), Option.none_or]
        · exact Option.none_or
    · rw [FileMapping.known_congr (helsewhere hi hat)] at hknown
      have hd : Deed.store M.space (M.page index) ≠ .store M.space (M.page other) := by
        intro he
        injection he with _ hpage
        exact hat (FileMapping.page_inj hpage.symm)
      cases hstep.origin h.consistent hd hW with
      | stayed hV => exact h.shown hV hi hknown
      | filled deed | copied deed | read deed => cases deed
  · have hne : other ≠ index := by
      rintro rfl
      exact hclean (hstep.unsaved_of_store h.toMaps hshared)
    rw [FileMapping.known_congr (helsewhere (FileMapping.covers_iff.mp hcovers).1 hne)]
    refine h.saved hcovers ?_
    rintro ⟨before, entry, hV, hdirty⟩
    obtain ⟨own, _, hown, -, hresident, -⟩ := hV.exists_page
    obtain ⟨after, entry', -, hW⟩ := hafter.consistent.exists_resident hown
      ((View.shared_of_page hown).symm.trans hV.shared_eq) hresident
    obtain rfl := Option.some.inj (hV.mapped.symm.trans hW.mapped)
    exact hclean ⟨after, entry, hW, hdirty⟩

end

namespace MachineM

variable {m : Machine} {M : FileMapping} {memory : ℕ → Option UInt8} {s : SpaceId} {d : Deed}
  {V W : View}

theorem respects_of_accessing (hd : d ∈ Deed.accessing s) : d.Respects M V := by
  rcases hd with (hd | ⟨u, rfl⟩ | ⟨u, rfl⟩) | ⟨u, write, rfl⟩
  · cases d <;> trivial
  · trivial
  · rintro ⟨⟩
  · trivial

theorem mirrors_of_accessing (hd : d ∈ Deed.accessing s) (hstep : Step d V W)
    (h : V.Mirrors M memory) : W.Mirrors M memory ∧ ∀ vpn,
      W.backing M.space vpn = some M.backing ↔ V.backing M.space vpn = some M.backing := by
  have hW := hstep.mirrors (respects_of_accessing hd)
    (fun vpn he => (ne_store_of_accessing hd _ vpn he).elim) h
  refine ⟨hW, fun vpn => h.backing_iff hW.toMaps ?_⟩
  exact hstep.shared_eq (Deed.keepsShared_of_accessing hd) h.consistent

theorem writeInvariant_mirrors (M : FileMapping) (memory : ℕ → Option UInt8) (U : View)
    (s : SpaceId) (va : VirtAddr) (data : Bytes) :
    WriteInvariant s va data fun pages V => V.Mirrors M (M.stored U s va data pages memory) ∧
      ∀ vpn, V.backing M.space vpn = some M.backing ↔ U.backing M.space vpn = some M.backing where
  consistent h := h.1.consistent
  access d hd V W hstep h := by
    obtain ⟨hW, hsame⟩ := mirrors_of_accessing hd hstep h.1
    exact ⟨hW, fun vpn => (hsame vpn).trans (h.2 vpn)⟩
  store {pages V number page frame bytes pool} h hstep hp hframe hload hstore := by
    obtain ⟨hmirrors, hsame⟩ := h
    refine ⟨?_, hsame⟩
    by_cases hin : s = M.space ∧ V.backing M.space ⟨number⟩ = some M.backing
    · obtain ⟨rfl, hpage⟩ := hin
      obtain ⟨index, hat, hshared⟩ := hmirrors.exists_index hpage
      obtain rfl : number = (M.page index).number := congrArg VirtPage.number hat
      exact hmirrors.stored hstep hp hframe hload hstore hshared
        (FileMapping.stored_append_same ((hsame _).mp hpage)) FileMapping.stored_append_elsewhere
    · rw [FileMapping.stored_append_of_ne fun hs hpage => hin ⟨hs, (hsame _).mpr hpage⟩]
      refine hstep.mirrors trivial (fun vpn he => ?_) hmirrors
      injection he with hs hvpn
      subst hvpn
      exact fun hpage => hin ⟨hs, hpage⟩

/-- A write changes what is known of the pages of the mapping that it gets to. -/
theorem writeUser_mirrors (h : (m.view [] []).Mirrors M memory) (va : VirtAddr) (data : Bytes) :
    Ends False (writeUser s va data) m
      (fun _ m' => (m'.view [] []).Mirrors M
        (M.stored (m.view [] []) s va data (writtenPages s va data m) memory))
      fun _ m' => (m'.view [] []).Mirrors M
        (M.stored (m.view [] []) s va data (writtenPages s va data m) memory) := by
  have hstart : (m.view [] []).Mirrors M (M.stored (m.view [] []) s va data [] memory) := by
    rwa [FileMapping.stored_nil]
  have hends := (writeInvariant_mirrors M memory (m.view [] []) s va data).writeUser
    ⟨hstart, fun _ => Iff.rfl⟩
  exact hends.mono (fun _ _ hdone => hdone.1) fun _ _ hdone => hdone.1

/-- What a read finds on the pages of the mapping is what is known of them. -/
theorem readInvariant_mirrors (M : FileMapping) (memory : ℕ → Option UInt8) (U : View) :
    ReadInvariant M.space (fun V => V.Mirrors M memory ∧ ∀ vpn,
        V.backing M.space vpn = some M.backing ↔ U.backing M.space vpn = some M.backing)
      fun addr byte => U.backing M.space (pageOf addr) = some M.backing →
        ∀ known, M.known memory addr = some known → byte = known where
  consistent h := h.1.consistent
  access d hd V W hstep h := by
    obtain ⟨hW, hsame⟩ := mirrors_of_accessing hd hstep h.1
    exact ⟨hW, fun vpn => (hsame vpn).trans (h.2 vpn)⟩
  good {V vpn page frame bytes} h hp hframe hload i hi byte hbyte hpage known hknown := by
    obtain ⟨hmirrors, hsame⟩ := h
    rw [pageOf_number_mul_add vpn hi, ← hsame] at hpage
    obtain ⟨index, rfl, hshared⟩ := hmirrors.exists_index hpage
    obtain ⟨other, entry, hother, hV⟩ := hmirrors.consistent.exists_resident hp
      ((View.shared_of_page hp).symm.trans hshared) hframe
    obtain rfl : bytes = other := Except.ok.inj (hload.symm.trans hother)
    exact Option.some.inj (hbyte.symm.trans (hmirrors.shown hV hi hknown))

end MachineM

end DemandPaging
