import DemandPaging.Proofs.Executable.Touching

/-! # Requests and a loaded segment

The file of a segment stays as it is unless it is changed directly or through other pages that show
it: no write to a page of the segment reaches it. A page of the segment that stays registered has
what it was loaded with, or what was written to it last.
-/

namespace DemandPaging

/-- No byte of a range of addresses is a byte of a file. -/
def View.Spares (V : View) (file : FileId) (s : SpaceId) (va : VirtAddr) (length : ℕ) : Prop :=
  ∀ vpn i, V.ShowsFile file s vpn i →
    ¬(va.val ≤ vpn.number * pageSize + i ∧ vpn.number * pageSize + i < va.val + length)

/-- Requests that change the file of a segment neither directly nor through pages that show it, and
leave the backing of the segment to its pages. -/
structure Op.Shelters (L : LoadedSegment) (m : Machine) (op : Op) : Prop where
  edits : ¬op.Edits L.file
  allocs : ∀ {s va writable segment target}, op = .alloc s va writable (.file segment) target →
    segment.backing ≠ L.backing
  releases : op ≠ .release L.backing
  writes : ∀ {s va data}, op = .write s va data →
    (m.view [] []).Spares L.file s va data.size

/-- Flat memory after the writes of a request. -/
def Flat.overwritten (memory : Flat) (op : Op) (m : Machine) : Flat := fun s addr =>
  (memory s addr).map fun byte => (op.stored? m s addr).getD byte

/-- Flat memory after the writes of a sequence of requests: each byte is the one that was written
last. -/
def Machine.lastWritten (m : Machine) (memory : Flat) : List (Visit × Op) → Flat
  | [] => memory
  | (visit, op) :: requests =>
    match m.step? visit op with
    | none => memory
    | some m' => m'.lastWritten (memory.overwritten op m) requests

section

variable {V W : View} {L : LoadedSegment} {d : Deed} {op : Op} {m : Machine} {child s t : SpaceId}
  {va : VirtAddr} {data : Bytes} {memory : Flat} {vpn : VirtPage} {i : ℕ} {file : FileId}

/-! ## Steps -/

theorem Flat.overwritten_of_not_write (hop : ∀ s va data, op ≠ .write s va data) :
    memory.overwritten op m = memory := by
  funext s addr
  have hnone : op.stored? m s addr = none := by
    cases op with
    | write s va data => exact (hop s va data rfl).elim
    | _ => rfl
  simp only [overwritten, hnone, Option.getD_none, Option.map_id']

theorem Op.Shelters.deed (hop : op.Shelters L m) (hd : d.BelongsTo op child) : d.Shelters L := by
  refine ⟨?_, fun _ => ?_⟩
  · rintro rfl
    exact hop.edits hd
  · cases d with
    | adopt s page =>
        obtain ⟨va, writable, segment, target, rfl, hsegment⟩ := hd
        intro hid
        rw [Page.backing?, hsegment] at hid
        exact hop.allocs rfl (Option.some.inj hid)
    | release id =>
        obtain rfl : op = .release id := hd
        rintro rfl
        exact hop.releases rfl
    | _ => trivial

/-- Only a step that adds pages to an address space makes a page of it registered. -/
theorem Step.page_eq_none_of_not_adds (hstep : Step d V W) (h : V.Consistent) (hadds : ¬d.Adds s)
    (hnone : V.page s vpn = none) : W.page s vpn = none := by
  cases hstep.pageChange h s vpn with
  | same hsame => exact hsame.trans hnone
  | moved hfound => cases hnone.symm.trans hfound
  | gone hnow => exact hnow
  | registered _ _ _ hdeed | inherited _ _ _ _ hdeed =>
      rcases hdeed with rfl | rfl <;> exact (hadds rfl).elim

theorem Step.nextBacking_eq_of_accessing (hstep : Step d V W) (hd : d ∈ Deed.accessing s) :
    W.files.nextBacking = V.files.nextBacking := by
  rcases hstep.recounted with hsame | ⟨file, base, pages, own, -, ⟨rfl, -⟩ | rfl⟩
  · exact hsame.nextBacking_eq
  · rcases hd with (hd | ⟨u, hu⟩ | ⟨u, hu⟩) | ⟨u, write, hu⟩
    · exact hd.elim
    · cases hu
    · cases hu
    · cases hu
  · rcases hd with (hd | ⟨u, hu⟩ | ⟨u, hu⟩) | ⟨u, write, hu⟩
    · exact hd.elim
    · cases hu
    · cases hu
    · cases hu

theorem Step.showsFile_of_accessing (hstep : Step d V W) (hd : d ∈ Deed.accessing s)
    (h : V.Consistent) (hn : V.Numbered) (hshows : W.ShowsFile file t vpn i) :
    V.ShowsFile file t vpn i := by
  obtain ⟨segment, hshared, hopen, hi⟩ := hshows
  rw [hstep.shared_eq (Deed.keepsShared_of_accessing hd) h] at hshared
  obtain ⟨backing, hbacking, -⟩ := id hopen
  have hlt := (hstep.viewNumbered h hn).files.lt_next hbacking
  rw [hstep.nextBacking_eq_of_accessing hd] at hlt
  exact ⟨segment, hshared, hstep.openOn_of_lt hlt hopen, hi⟩

/-! ## Writes -/

/-- What a write keeps that has stored to some pages: the segment has its file, and its pages have
the data where the data reached them. -/
structure View.SparedBy (V U : View) (L : LoadedSegment) (s : SpaceId) (va : VirtAddr)
    (data : Bytes) (pages : List VirtPage) : Prop extends V.Serves L where
  spares : V.Spares L.file s va data.size
  stands : ∀ {index memory}, U.Stands L index memory →
    V.Stands L index (memory.written s va data pages)

theorem MachineM.writeInvariant_sparedBy (U : View) (L : LoadedSegment) (s : SpaceId)
    (va : VirtAddr) (data : Bytes) :
    WriteInvariant s va data fun pages V => V.SparedBy U L s va data pages where
  consistent h := h.consistent
  access d hd V W hstep h := by
    have hstore := ne_store_of_accessing hd
    refine ⟨hstep.serves (Deed.shelters_of_accessing hd) hstore h.toServes, fun vpn i hshows => ?_,
      fun {index memory} hU => ?_⟩
    · exact h.spares vpn i (hstep.showsFile_of_accessing hd h.consistent h.numbered hshows)
    · exact hstep.stands h.toServes (hstore _ _) (ne_discard_of_accessing hd _ _)
        (h.stands hU)
  store {pages V number page frame bytes pool} h hstep hp hframe hload hstore := by
    refine ⟨h.toServes.stored hstep hp hframe hload hstore (h.spares ⟨number⟩), h.spares,
      fun {index memory} hU => ?_⟩
    exact (h.stands hU).stored hstep hp hframe hload hstore h.toServes

end

/-! ## Requests -/

namespace Machine

variable {m m' : Machine} {L : LoadedSegment} {visit : Visit} {op : Op}
  {requests : List (Visit × Op)} {memory : Flat} {index : ℕ} {s : SpaceId} {addr : ℕ}

/-- Whatever request spares its file leaves a segment its file, and the bytes of each page that is
registered after the request. -/
theorem stands_step (h : m.Sound) (hserves : (m.view [] []).Serves L) (hop : op.Shelters L m)
    (hstep : m.step? visit op = some m') :
    (m'.view [] []).Serves L ∧ ∀ {index memory}, m'.page? L.space (L.page index) ≠ none →
      (m.view [] []).Stands L index memory →
      (m'.view [] []).Stands L index (memory.overwritten op m) := by
  by_cases hwrite : ∃ s va data, op = .write s va data
  · obtain ⟨s, va, data, rfl⟩ := hwrite
    have hstart : (m.view [] []).SparedBy (m.view [] []) L s va data [] := by
      refine ⟨hserves, hop.writes rfl, fun {index memory} hV => ?_⟩
      rwa [Flat.written_nil]
    have hends := (MachineM.writeInvariant_sparedBy (m.view [] []) L s va data).writeUser hstart
    have hdone := (hends.reply fun _ => Reply.done).of_step? hstep
    exact ⟨hdone.toServes, fun _ hV => hdone.stands hV⟩
  · have hnot : ∀ s va data, op ≠ .write s va data := fun s va data he => hwrite ⟨s, va, data, he⟩
    -- a request that removes pages adds none, so a page that it removed is not registered after it
    have hdone : (m'.view [] []).Serves L ∧ ∀ {index memory}, (m.view [] []).Stands L index memory →
        (m'.view [] []).Stands L index (memory.overwritten op m) ∨
          m'.page? L.space (L.page index) = none ∧ op.Removes L.space (L.page index) := by
      refine (Op.finished h hstep).steps.invariant (fun V => V.Serves L ∧
        ∀ {index memory}, (m.view [] []).Stands L index memory →
          V.Stands L index (memory.overwritten op m) ∨
            V.page L.space (L.page index) = none ∧ op.Removes L.space (L.page index))
        (fun d hd V W hstep' hV => ?_) ⟨hserves, fun {index memory} hV => .inl ?_⟩
      · have hbelongs := Op.belongsTo_of_deeds hd
        have hstore : ∀ t vpn, d ≠ .store t vpn := by
          rintro t vpn rfl
          obtain ⟨va, data, rfl⟩ := hbelongs
          exact hnot _ _ _ rfl
        refine ⟨hstep'.serves (hop.deed hbelongs) hstore hV.1, fun {index memory} hm => ?_⟩
        rcases hV.2 hm with hstands | ⟨hnone, hremoves⟩
        · by_cases hdiscard : d = .discard L.space (L.page index)
          · subst hdiscard
            refine .inr ⟨hstep'.page_eq_none, hbelongs.resolve_right fun hchild => ?_⟩
            obtain ⟨page, hp, -⟩ := hm.exists_page
            have hnone : m.page? L.space (L.page index) = none := by
              rw [hchild.1]
              exact page?_eq_none (MachineM.space?_nextSpace h.fresh) _
            cases hnone.symm.trans hp
          · exact .inl (hstep'.stands hV.1 (hstore _ _) hdiscard hstands)
        · refine .inr ⟨?_, hremoves⟩
          exact hstep'.page_eq_none_of_not_adds hV.1.consistent
            (Op.not_adds_of_removes hremoves hd) hnone
      · rwa [Flat.overwritten_of_not_write hnot]
    exact ⟨hdone.1, fun hkept hm => (hdone.2 hm).resolve_right fun hgone => hkept hgone.1⟩

theorem stands_run (h : m.Sound) (hserves : (m.view [] []).Serves L)
    (halong : m.Along (Op.Shelters L) requests) (hrun : m.run? requests = some m') :
    (m'.view [] []).Serves L ∧ ∀ {index memory},
      m.Along (fun m _ => m.page? L.space (L.page index) ≠ none) requests →
      m'.page? L.space (L.page index) ≠ none →
      (m.view [] []).Stands L index memory →
      (m'.view [] []).Stands L index (m.lastWritten memory requests) := by
  induction requests generalizing m with
  | nil =>
      obtain rfl := Option.some.inj hrun
      exact ⟨hserves, fun _ _ hV => hV⟩
  | cons request requests ih =>
      rw [run?_cons] at hrun
      obtain ⟨m₁, hfirst, hrest⟩ := Option.bind_eq_some_iff.mp hrun
      obtain ⟨hop, hlater⟩ := halong
      obtain ⟨hserves₁, hstands⟩ := stands_step h hserves hop hfirst
      obtain ⟨hserves', hstands'⟩ :=
        ih (Op.finished h hfirst).sound hserves₁ (hlater m₁ hfirst) hrest
      refine ⟨hserves', fun {index memory} hkept hend hV => ?_⟩
      have hnext := hkept.2 m₁ hfirst
      have hregistered : m₁.page? L.space (L.page index) ≠ none := by
        cases requests with
        | nil =>
            obtain rfl := Option.some.inj hrest
            exact hend
        | cons => exact hnext.1
      simp only [lastWritten, hfirst]
      exact hstands' hnext hend (hstands hregistered hV)

theorem registered_run {vpn : VirtPage} (h : m.Sound) (hp : m.page? s vpn ≠ none)
    (hkept : m.Along (fun _ op => ¬op.Removes s vpn) requests)
    (hrun : m.run? requests = some m') :
    m.Along (fun m _ => m.page? s vpn ≠ none) requests ∧ m'.page? s vpn ≠ none := by
  induction requests generalizing m with
  | nil =>
      obtain rfl := Option.some.inj hrun
      exact ⟨trivial, hp⟩
  | cons request requests ih =>
      rw [run?_cons] at hrun
      obtain ⟨m₁, hfirst, hrest⟩ := Option.bind_eq_some_iff.mp hrun
      have hlater := ih (Op.finished h hfirst).sound
        (page_ne_none_of_step h hfirst hkept.1 hp) (hkept.2 m₁ hfirst) hrest
      refine ⟨⟨hp, fun m₂ hstep => ?_⟩, hlater.2⟩
      obtain rfl := Option.some.inj (hfirst.symm.trans hstep)
      exact hlater.1

theorem lastWritten_of_unwritten
    (hquiet : m.Along (fun m op => op.stored? m s addr = none) requests) :
    m.lastWritten memory requests s addr = memory s addr := by
  induction requests generalizing m memory with
  | nil => rfl
  | cons request requests ih =>
      obtain ⟨visit, op⟩ := request
      obtain ⟨hnone, hlater⟩ := hquiet
      rw [lastWritten]
      cases hfirst : m.step? visit op with
      | none => rfl
      | some m₁ =>
          refine (ih (hlater m₁ hfirst)).trans ?_
          rw [Flat.overwritten, hnone]
          exact Option.map_id'

end Machine

end DemandPaging
