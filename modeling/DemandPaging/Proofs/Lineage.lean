import DemandPaging.Proofs.Executable.Loading
import DemandPaging.Proofs.SharedPages

/-! # The lineage of pages

A page that is registered after a request was there before, or it was copied from the address space
whose pages the request copies, or the request registered it. The pages of a mapping are registered
by the request that maps the file, all with a backing that is new.
-/

namespace DemandPaging

namespace Page

variable {before page after : Page} {id : BackingId}

theorem Becomes.refl (page : Page) : page.Becomes page :=
  (Alike.refl page).becomes

theorem Becomes.trans (h : before.Becomes page) (h' : page.Becomes after) : before.Becomes after :=
  ⟨h'.writable_eq.trans h.writable_eq, h'.shared?_eq.trans h.shared?_eq,
    fun hid => h.backing?_of (h'.backing?_of hid)⟩

theorem mapping?_eq_map_shared? (page : Page) :
    page.mapping? = page.shared?.map Segment.backing := by
  unfold mapping? shared?
  cases page.type <;> rfl

theorem Becomes.mapping?_eq (h : before.Becomes after) : after.mapping? = before.mapping? := by
  rw [mapping?_eq_map_shared?, mapping?_eq_map_shared?, h.shared?_eq]

theorem backing?_of_mapping? (h : page.mapping? = some id) : page.backing? = some id := by
  unfold mapping? at h
  split at h
  · cases h
  · exact h

theorem exists_mapping?_of_file (h : page.type = .file) : ∃ id, page.mapping? = some id := by
  obtain ⟨vpn, writable, frame, kind⟩ := page
  cases kind with
  | uninit touch =>
      cases touch with
      | zero => cases h
      | copy segment => cases h
      | share segment => exact ⟨segment.backing, rfl⟩
  | anon slot => cases h
  | file segment => exact ⟨segment.backing, rfl⟩

theorem type_of_mapping? (h : page.mapping? = some id) : page.type = .file := by
  unfold mapping? at h
  split at h
  · cases h
  · next htype => exact htype

end Page

/-! ## Requests -/

/-- Steps that give an address space a page that it does not have. -/
def Deed.Adds (s : SpaceId) : Deed → Prop
  | .register t _ | .adopt t _ | .inherit t _ _ | .copy t _ _ => t = s
  | _ => False

/-- Whether a request maps a file or loads a segment of an executable. -/
def Op.Maps : Op → Prop
  | map .. | mapCall .. | loadExecutable .. => True
  | _ => False

/-- The backing of the mapping that a request makes; `next` is the number of the next backing. -/
def Op.newMapping? (next : BackingId) : Op → Option BackingId
  | map .. | mapCall .. => some next
  | _ => none

/-- Where a page that is registered after a request comes from. -/
inductive Machine.Descends (m : Machine) (op : Op) (s : SpaceId) (vpn : VirtPage) (page : Page) :
    Prop where
  /-- The page was there before. -/
  | kept {before : Page} (found : m.page? s vpn = some before) (becomes : before.Becomes page)
  /-- The page was copied from another address space. -/
  | inherited {src : SpaceId} {before : Page} (fresh : m.page? s vpn = none)
      (source : op.source? m s = some src) (found : m.page? src vpn = some before)
      (becomes : before.Becomes page)
  /-- The request registered the page. -/
  | registered (fresh : m.page? s vpn = none) (alone : ∀ t, op.source? m t = none)
      (mapping?_eq : page.mapping? = op.newMapping? m.files.nextBacking)

section

variable {m m' : Machine} {op : Op} {visit : Visit} {s t : SpaceId} {vpn : VirtPage}
  {page after : Page} {child : SpaceId} {d : Deed} {sound : Prop}

theorem Machine.Descends.becomes (h : m.Descends op s vpn page) (hbecomes : page.Becomes after) :
    m.Descends op s vpn after := by
  cases h with
  | kept found becomes => exact .kept found (becomes.trans hbecomes)
  | inherited fresh source found becomes =>
      exact .inherited fresh source found (becomes.trans hbecomes)
  | registered fresh alone mapping?_eq =>
      exact .registered fresh alone (hbecomes.mapping?_eq.trans mapping?_eq)

theorem Op.newMapping?_of_not_maps (hop : ¬op.Maps) (next : BackingId) :
    op.newMapping? next = none := by
  cases op with
  | map | mapCall => exact (hop trivial).elim
  | _ => rfl

/-- A request that removes pages adds none. -/
theorem Op.not_adds_of_removes (hop : op.Removes s vpn) (hd : d ∈ op.deeds child) :
    ¬d.Adds t := by
  cases op with
  | drop =>
      rcases hd with rfl | ⟨u, rfl⟩ <;> exact not_false
  | recycle | unmap | unmapCall =>
      obtain ⟨u, rfl⟩ := hd
      exact not_false
  | remove =>
      obtain rfl : d = _ := hd
      exact not_false
  | _ => exact hop.elim

/-- A request that maps nothing registers pages of zeros alone, and copies none. -/
theorem Op.zero_of_register (hop : ¬op.Maps) (hd : .register s page ∈ op.deeds child) :
    page.mapping? = none ∧ ∀ t, op.source? m t = none := by
  have hfaulting : Deed.register s page ∈ Deed.faulting s → page.mapping? = none := by
    rintro (hd | ⟨u, hd⟩ | ⟨u, hd⟩)
    · exact hd.elim
    · cases hd
    · cases hd
      rfl
  have haccessing : ∀ {t}, Deed.register s page ∈ Deed.accessing t → page.mapping? = none := by
    rintro t ((hd | ⟨u, hd⟩ | ⟨u, hd⟩) | ⟨u, write, hd⟩)
    · exact hd.elim
    · cases hd
    · cases hd
      rfl
    · cases hd
  cases op with
  | map | mapCall | loadExecutable => exact (hop trivial).elim
  | alloc t va writable loader target =>
      cases loader with
      | zero =>
          cases hd
          exact ⟨rfl, fun _ => rfl⟩
      | file segment =>
          obtain ⟨touch, -, hd⟩ := hd
          cases hd
  | fault => exact ⟨haccessing (.inl hd), fun _ => rfl⟩
  | setupStack =>
      rcases hd with hd | hd
      · cases hd
      · exact ⟨haccessing (.inl hd), fun _ => rfl⟩
  | read => exact ⟨haccessing hd, fun _ => rfl⟩
  | write =>
      rcases hd with hd | ⟨u, hd⟩
      · exact ⟨haccessing hd, fun _ => rfl⟩
      · cases hd
  | claim =>
      rcases hd with hd | hd
      · cases hd
      · exact hd.elim
  | create => rcases hd with hd | hd <;> cases hd
  | drop =>
      rcases hd with hd | ⟨u, hd⟩ <;> cases hd
  | fork =>
      rcases hd with (hd | ⟨u, hd⟩ | ⟨u, hd⟩) | (hd | ⟨u, hd⟩) | hd | hd
      · exact hd.elim
      all_goals cases hd
  | copy =>
      rcases hd with hd | ⟨u, hd⟩ | ⟨u, hd⟩
      · exact hd.elim
      all_goals cases hd
  | recycle | unmap | unmapCall =>
      obtain ⟨u, hd⟩ := hd
      cases hd
  | remove | setUserSp | access | setFlags | reopen | release | truncate | writeFile => cases hd

theorem Op.source?_of_copies {src dst : SpaceId}
    (hd : d.BelongsTo op m.nextSpace) (hcopies : d = .inherit dst src vpn ∨ d = .copy dst src vpn) :
    op.source? m dst = some src := by
  have hop : op = .fork src ∧ dst = m.nextSpace ∨ op = .copy dst src := by
    rcases hcopies with rfl | rfl <;> exact hd
  rcases hop with ⟨rfl, rfl⟩ | rfl <;> exact if_pos rfl

theorem Op.source?_unique {src other : SpaceId} (h : op.source? m s = some src)
    (h' : op.source? m t = some other) : s = t := by
  have hone : ∀ {u target source : SpaceId},
      (if u = target then some source else none) = some src ∨
        (if u = target then some source else none) = some other → u = target := by
    intro u target source heq
    by_contra hne
    simp only [if_neg hne, reduceCtorEq, or_self] at heq
  cases op with
  | fork => exact (hone (.inl h)).trans (hone (.inr h')).symm
  | copy => exact (hone (.inl h)).trans (hone (.inr h')).symm
  | _ => cases h

/-! ## Steps of a request -/

/-- A request that maps nothing registers pages that belong to no mapping, or copies pages. -/
theorem Op.descends_of_steps (h : m.Sound) (hmaps : ¬op.Maps)
    (hadopts : ∀ t other, .adopt t other ∉ op.deeds m.nextSpace) {W : View}
    (hsteps : Steps (op.deeds m.nextSpace) (m.view [] []) W) (hpage : W.page s vpn = some page) :
    m.Descends op s vpn page := by
  refine (hsteps.invariant (fun U => U.Consistent ∧
    (∀ s vpn page, U.page s vpn = some page → m.Descends op s vpn page) ∧
    ∀ s vpn, U.page s vpn = none → m.page? s vpn ≠ none → op.Removes s vpn)
    (fun d hd U U' hstep hU => ?_)
    ⟨h.consistent, fun s vpn page hp => .kept hp (.refl page),
      fun s vpn hgone hp => (hp hgone).elim⟩).2.1 s vpn page hpage
  obtain ⟨hc, hpages, hgone⟩ := hU
  have hbelongs := Op.belongsTo_of_deeds hd
  have hfresh : ∀ {s vpn}, U.page s vpn = none → d.Adds s → m.page? s vpn = none := by
    intro s vpn hnone hadds
    by_contra hp
    exact Op.not_adds_of_removes (hgone s vpn hnone hp) hd hadds
  refine ⟨hstep.consistent hc, fun s vpn page hp => ?_, fun s vpn hnow hp => ?_⟩
  · cases hstep.pageChange hc s vpn with
    | same hsame => exact hpages s vpn page (hsame.symm.trans hp)
    | moved hfound hnow hbecomes =>
        obtain rfl := Option.some.inj (hnow.symm.trans hp)
        exact (hpages s vpn _ hfound).becomes hbecomes
    | gone hnow => cases hnow.symm.trans hp
    | registered hnew hnow hvpn hdeed =>
        obtain rfl := Option.some.inj (hnow.symm.trans hp)
        rcases hdeed with rfl | rfl
        · obtain ⟨hmapping, halone⟩ := Op.zero_of_register hmaps hd
          exact .registered (hfresh hnew rfl) halone
            (hmapping.trans (Op.newMapping?_of_not_maps hmaps _).symm)
        · exact (hadopts _ _ hd).elim
    | inherited hnew hnow hfound hbecomes hdeed =>
        obtain rfl := Option.some.inj (hnow.symm.trans hp)
        have hsource := Op.source?_of_copies hbelongs hdeed
        have hadds : d.Adds s := by rcases hdeed with rfl | rfl <;> rfl
        cases hpages _ vpn _ hfound with
        | kept hbefore hlater =>
            exact .inherited (hfresh hnew hadds) hsource hbefore (hlater.trans hbecomes)
        | inherited _ hother =>
            obtain rfl := Op.source?_unique hsource hother
            cases hnew.symm.trans hfound
        | registered _ halone => cases (halone s).symm.trans hsource
  · cases hstep.pageChange hc s vpn with
    | same hsame => exact hgone s vpn (hsame.symm.trans hnow) hp
    | moved _ hafter => cases hafter.symm.trans hnow
    | gone _ hdeed =>
        subst hdeed
        rcases hbelongs with hremoves | ⟨rfl, -⟩
        · exact hremoves
        · exact (hp (Machine.page?_eq_none (MachineM.space?_nextSpace h.fresh) vpn)).elim
    | registered _ hafter => cases hafter.symm.trans hnow
    | inherited _ hafter => cases hafter.symm.trans hnow

/-! ## Mappings -/

/-- The range of a mapping, which lies in user space, has a page. -/
def FileStore.Hosts (store : FileStore) (id : BackingId) (vpn : VirtPage) : Prop :=
  ∃ backing, store.backing? id = some backing ∧ backing.base.number ≤ vpn.number ∧
    vpn.number < backing.base.number + backing.pages ∧
      backing.base.number + backing.pages ≤ userPages

/-- A machine before and after a request that maps a file, or is refused. -/
def Machine.MayGain (m m' : Machine) : Prop :=
  m'.view [] [] = m.view [] [] ∨ ∃ (m₁ : Machine) (s : SpaceId) (va : VirtAddr) (length : ℕ)
    (writable : Bool) (file : FileId) (offset : ℕ) (segment : ℕ → Segment),
      m₁.view [] [] = m.view [] [] ∧ m₁.AcceptsMapping s va length file offset ∧
      m₁.GainsMapping m' s va length writable file offset segment

theorem Op.mayGain (hop : op.newMapping? m.files.nextBacking = some m.files.nextBacking)
    (hstep : m.step? visit op = some m') : m.MayGain m' := by
  have hmap : ∀ (m₁ : Machine) s va length writable file offset, m₁.view [] [] = m.view [] [] →
      Ends False (MachineM.mapFile s va length writable file offset) m₁
        (fun _ m' => m.MayGain m') fun _ m' => m.MayGain m' := by
    intro m₁ s va length writable file offset hview
    refine (MachineM.mapFile_gains s va length writable file offset m₁).mono ?_ ?_
    · rintro - m' ⟨haccepts, segment, hgains⟩
      exact .inr ⟨m₁, s, va, length, writable, file, offset, segment, hview, haccepts, hgains⟩
    · rintro - m' rfl
      exact .inl hview
  cases op with
  | map s va length writable file offset =>
      exact ((hmap m s va length writable file offset rfl).reply fun va =>
        .address va.val).of_step? hstep
  | mapCall s descriptors addr length writable fd offset =>
      have hcall : Ends False (MachineM.mapCall s descriptors addr length writable fd offset) m
          (fun _ m' => m.MayGain m') fun _ m' => m.MayGain m' :=
        MachineM.mapCall_of_mapFile (fun _ hview => .inl hview) fun m₁ file hview _ =>
          hmap m₁ s ⟨addr⟩ length writable file offset hview
      have hexec : Ends False
          ((Op.mapCall s descriptors addr length writable fd offset).execBy visit) m
          (fun _ m' => m.MayGain m') fun _ m' => m.MayGain m' := Ends.map hcall
      exact hexec.of_step? hstep
  | _ => cases hop

/-- The pages of a mapping are new, and all other pages are what they were. -/
theorem Machine.GainsMapping.page_cases {va : VirtAddr} {length offset : ℕ} {writable : Bool}
    {file : FileId} {segment : ℕ → Segment} (haccepts : m.AcceptsMapping s va length file offset)
    (h : m.GainsMapping m' s va length writable file offset segment)
    (hpage : m'.page? t vpn = some page) :
    m.page? t vpn = some page ∨ m.page? t vpn = none ∧
      page.mapping? = some m.files.nextBacking ∧ m'.files.Hosts m.files.nextBacking vpn := by
  by_cases hin : t = s ∧ ∃ i < pagesFor length, vpn = ⟨va.page.number + i⟩
  · obtain ⟨rfl, i, hi, rfl⟩ := hin
    obtain rfl := Option.some.inj ((h.page i hi).symm.trans hpage)
    refine .inr ⟨haccepts.free i hi, congrArg some (h.backing i), _,
      (h.shared m.files.nextBacking).trans (if_pos rfl), Nat.le_add_right _ _,
      Nat.add_lt_add_left hi _, ?_⟩
    exact MachineM.add_pagesFor_le (decide_eq_true haccepts.address_aligned) haccepts.inside
  · refine .inl ((h.others t vpn fun hst i hi he => hin ⟨hst, i, hi, he⟩).symm.trans hpage)

theorem Machine.MayGain.page_cases (h : m.MayGain m') (hpage : m'.page? s vpn = some page) :
    m.page? s vpn = some page ∨ m.page? s vpn = none ∧
      page.mapping? = some m.files.nextBacking ∧ m'.files.Hosts m.files.nextBacking vpn := by
  rcases h with hview |
    ⟨m₁, t, va, length, writable, file, offset, segment, hview, haccepts, hgains⟩
  · have hsame : m'.page? = m.page? := congrArg View.page hview
    exact .inl (hsame ▸ hpage)
  · have hsame : m₁.page? = m.page? := congrArg View.page hview
    have hfiles : m₁.files = m.files := congrArg View.files hview
    rw [← hsame, ← hfiles]
    exact hgains.page_cases haccepts hpage

/-- Pages of a mapping are registered by requests that map files, and a reference to its backing is
dropped by nobody else. -/
def Machine.RespectsMappings (m : Machine) (op : Op) : Prop :=
  match op with
  | .alloc _ _ _ (.file segment) target =>
    target = .anon ∧ segment.backing < m.files.nextBacking ∧
      ∀ s vpn page, m.page? s vpn = some page → page.mapping? ≠ some segment.backing
  | .release id => ∀ s vpn page, m.page? s vpn = some page → page.mapping? ≠ some id
  | _ => True

/-- A page that is registered after a request descends from a page before, or is new. -/
theorem Op.descends (h : m.Sound) (hop : m.RespectsMappings op)
    (hstep : m.step? visit op = some m') (hpage : m'.page? s vpn = some page) :
    m.Descends op s vpn page := by
  have hkept : m.page? s vpn = some page → m.Descends op s vpn page := fun hp =>
    .kept hp (.refl page)
  have hother : ¬op.Maps → (∀ t other, .adopt t other ∉ op.deeds m.nextSpace) →
      m.Descends op s vpn page := fun hmaps hadopts =>
    Op.descends_of_steps h hmaps hadopts (Op.finished h hstep).steps hpage
  have hends : Ends False (op.execBy visit) m
      (fun _ m' => m'.page? s vpn = some page → m.Descends op s vpn page)
      (fun _ m' => m'.page? s vpn = some page → m.Descends op s vpn page) →
      m.Descends op s vpn page := fun h' => h'.of_step? hstep hpage
  cases op with
  | map | mapCall =>
      rcases (Op.mayGain rfl hstep).page_cases hpage with hp | ⟨hfresh, hmapping, -⟩
      · exact hkept hp
      · exact .registered hfresh (fun _ => rfl) hmapping
  | loadExecutable t va file offset readBytes zeroBytes writable =>
      have hload := MachineM.loadExecutable_gains (m := m) (s := t) False.elim va file offset
        readBytes zeroBytes writable
      refine hends ((hload.mono (fun _ m' hgains => ?_) fun _ m' he => ?_).reply fun _ => .done)
      · intro hp
        by_cases hin : s = t ∧ ∃ i < (readBytes + zeroBytes) / pageSize, vpn = ⟨va.page.number + i⟩
        · obtain ⟨rfl, i, hi, rfl⟩ := hin
          obtain rfl := Option.some.inj ((hgains.page i hi).symm.trans hp)
          refine .registered (hgains.free i hi) (fun _ => rfl) ?_
          exact MachineM.mapping?_segmentAt _ _ _ _ _ _
        · exact hkept ((hgains.others s vpn fun hst i hi he => hin ⟨hst, i, hi, he⟩).symm.trans hp)
      · rw [he]
        exact hkept
  | alloc t va writable loader target =>
      cases loader with
      | zero => exact hother not_false fun _ _ hd => by cases hd
      | file segment =>
          obtain ⟨rfl, -⟩ := hop
          have halloc := @MachineM.alloc_ends m t [] False False.elim va writable (.file segment)
            .anon
          refine hends ((halloc.mono (fun _ m' hok => ?_) fun _ m' he => ?_).reply fun _ => .done)
          · obtain ⟨touch, htouch, -, hfresh, -, hview⟩ := hok
            obtain rfl := Except.ok.inj htouch
            have hafter : m'.page? = setAt m.page? t va.page (some _) := congrArg View.page hview
            rw [hafter]
            intro hp
            by_cases hat : t = s ∧ va.page = vpn
            · obtain ⟨rfl, rfl⟩ := hat
              obtain rfl := Option.some.inj (setAt_same.symm.trans hp)
              exact .registered hfresh (fun _ => rfl) rfl
            · exact hkept ((setAt_of_ne hat).symm.trans hp)
          · rw [he.2]
            exact hkept
  | _ =>
      refine hother not_false fun t other hd => ?_
      obtain ⟨va, writable, segment, target, hfalse, -⟩ := Op.belongsTo_of_deeds hd
      cases hfalse

end

end DemandPaging
