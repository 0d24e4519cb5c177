import DemandPaging.Proofs.Claiming

/-! # References to backings

As long as backings are opened and closed by requests that map files and by their pages, every
backing counts the pages that refer to it and the references that an unfinished request holds. A
backing that is referred to stays open.
-/

namespace DemandPaging

/-- Two records of a backing that differ at most in the number of references. -/
structure Backing.SameMapping (before after : Backing) : Prop where
  file_eq : after.file = before.file
  base_eq : after.base = before.base
  pages_eq : after.pages = before.pages

theorem Backing.SameMapping.trans {before between after : Backing} (h : before.SameMapping between)
    (h' : between.SameMapping after) : before.SameMapping after :=
  ⟨h'.file_eq.trans h.file_eq, h'.base_eq.trans h.base_eq, h'.pages_eq.trans h.pages_eq⟩

namespace FileStore

variable {store changed : FileStore} {id other : BackingId} {backing : Backing}

def refs (store : FileStore) (id : BackingId) : ℕ :=
  (store.backing? id).elim 0 Backing.refs

/-- The backings that are open are referred to, and have numbers that were given out. -/
structure Numbered (store : FileStore) : Prop where
  pos : ∀ {id backing}, store.backing? id = some backing → 0 < backing.refs
  lt_next : ∀ {id backing}, store.backing? id = some backing → id < store.nextBacking

/-- The backings that are open are numbered, and lie in user space. -/
structure Orderly (store : FileStore) : Prop extends store.Numbered where
  inside : ∀ {id backing}, store.backing? id = some backing →
    backing.base.number + backing.pages ≤ userPages

theorem refs_pos_iff (h : store.Numbered) :
    0 < store.refs id ↔ ∃ backing, store.backing? id = some backing := by
  unfold refs
  cases hid : store.backing? id with
  | none => simp
  | some backing => simpa using h.pos hid

theorem refs_congr (h : changed.backings = store.backings) (id : BackingId) :
    changed.refs id = store.refs id := by
  simp only [refs, backing?, h]

/-! ## References that come and go -/

theorem nextBacking_retain (store : FileStore) (id : BackingId) :
    (store.retain id).nextBacking = store.nextBacking := by
  unfold retain
  split <;> rfl

theorem nextBacking_release (store : FileStore) (id : BackingId) :
    (store.release id).nextBacking = store.nextBacking := by
  unfold release
  split
  · rfl
  · split <;> rfl

theorem refs_retain (id : BackingId) (hopen : id = other → 0 < store.refs other) :
    (store.retain id).refs other = store.refs other + if id = other then 1 else 0 := by
  unfold refs at hopen ⊢
  rw [backing?_retain]
  split
  · next h =>
    subst h
    have hpos := hopen rfl
    cases hid : store.backing? id with
    | none => simp [hid] at hpos
    | some backing => rfl
  · rfl

theorem refs_release (h : store.Numbered) (id : BackingId)
    (hopen : id = other → 0 < store.refs other) :
    (store.release id).refs other + (if id = other then 1 else 0) = store.refs other := by
  unfold refs at hopen ⊢
  rw [backing?_release]
  split
  · next he =>
    subst he
    have hopened := hopen rfl
    cases hid : store.backing? id with
    | none => simp [hid] at hopened
    | some backing =>
        have hpos := h.pos hid
        rw [Option.bind_some]
        split
        · next hle => exact Nat.le_antisymm hpos hle
        · exact Nat.sub_add_cancel hpos
  · rfl

/-- Two stores with the same backings, but for the references that are counted. A backing that was
closed is not opened again. -/
structure Recounted (store changed : FileStore) : Prop where
  nextBacking_eq : changed.nextBacking = store.nextBacking
  exists_before : ∀ {id after}, changed.backing? id = some after →
    ∃ before, store.backing? id = some before ∧ before.SameMapping after ∧
      (0 < before.refs → 0 < after.refs)

theorem Recounted.of_eq (hbackings : changed.backings = store.backings)
    (hnext : changed.nextBacking = store.nextBacking) : store.Recounted changed := by
  refine ⟨hnext, fun {id after} hafter => ⟨after, ?_, ⟨rfl, rfl, rfl⟩, fun hpos => hpos⟩⟩
  simpa only [backing?, hbackings] using hafter

theorem Recounted.refl (store : FileStore) : store.Recounted store :=
  .of_eq rfl rfl

theorem Recounted.trans {last : FileStore} (h : store.Recounted changed)
    (h' : changed.Recounted last) : store.Recounted last := by
  refine ⟨h'.nextBacking_eq.trans h.nextBacking_eq, fun {id after} hafter => ?_⟩
  obtain ⟨between, hbetween, hsame', hpos'⟩ := h'.exists_before hafter
  obtain ⟨before, hbefore, hsame, hpos⟩ := h.exists_before hbetween
  exact ⟨before, hbefore, hsame.trans hsame', fun hp => hpos' (hpos hp)⟩

theorem recounted_retain (store : FileStore) (id : BackingId) :
    store.Recounted (store.retain id) := by
  refine ⟨nextBacking_retain store id, fun {other after} hafter => ?_⟩
  rw [backing?_retain] at hafter
  split at hafter
  · next he =>
    subst he
    obtain ⟨before, hbefore, rfl⟩ := Option.map_eq_some_iff.mp hafter
    exact ⟨before, hbefore, ⟨rfl, rfl, rfl⟩, fun _ => Nat.succ_pos _⟩
  · exact ⟨after, hafter, ⟨rfl, rfl, rfl⟩, fun hpos => hpos⟩

/-- A backing that stays open after a reference was dropped has references left. -/
theorem recounted_release (store : FileStore) (id : BackingId) :
    store.Recounted (store.release id) := by
  refine ⟨nextBacking_release store id, fun {other after} hafter => ?_⟩
  rw [backing?_release] at hafter
  split at hafter
  · next he =>
    subst he
    obtain ⟨before, hbefore, hleft⟩ := Option.bind_eq_some_iff.mp hafter
    split at hleft
    · cases hleft
    · next hgt =>
      obtain rfl := Option.some.inj hleft
      exact ⟨before, hbefore, ⟨rfl, rfl, rfl⟩, fun _ => Nat.sub_pos_of_lt (Nat.lt_of_not_le hgt)⟩
  · exact ⟨after, hafter, ⟨rfl, rfl, rfl⟩, fun hpos => hpos⟩

theorem Recounted.numbered (h : store.Recounted changed) (hn : store.Numbered) :
    changed.Numbered := by
  constructor
  · intro id after hafter
    obtain ⟨before, hbefore, -, hpos⟩ := h.exists_before hafter
    exact hpos (hn.pos hbefore)
  · intro id after hafter
    obtain ⟨before, hbefore, -⟩ := h.exists_before hafter
    rw [h.nextBacking_eq]
    exact hn.lt_next hbefore

theorem Recounted.orderly (h : store.Recounted changed) (ho : store.Orderly) : changed.Orderly := by
  refine ⟨h.numbered ho.toNumbered, fun {id after} hafter => ?_⟩
  obtain ⟨before, hbefore, hsame, -⟩ := h.exists_before hafter
  rw [hsame.base_eq, hsame.pages_eq]
  exact ho.inside hbefore

theorem backing?_reopen {file : FileId} {base : VirtPage} {pages : ℕ}
    (h : store.reopen file base pages = .ok (id, changed)) :
    id = store.nextBacking ∧ changed.nextBacking = store.nextBacking + 1 ∧
      ∀ other, changed.backing? other =
        if id = other then some ⟨file, base, pages, 1⟩ else store.backing? other := by
  unfold reopen at h
  split at h
  · cases h
  · obtain ⟨rfl, rfl⟩ := Prod.mk.inj (Except.ok.inj h)
    refine ⟨rfl, rfl, fun other => ?_⟩
    simp only [backing?, modifyFile, Std.TreeMap.getElem?_insert, Std.compare_eq_iff_eq]

theorem refs_reopen {file : FileId} {base : VirtPage} {pages : ℕ} (h : store.Numbered)
    (hopen : store.reopen file base pages = .ok (id, changed)) (other : BackingId) :
    changed.refs other = store.refs other + if id = other then 1 else 0 := by
  obtain ⟨rfl, -, hback⟩ := backing?_reopen hopen
  unfold refs
  rw [hback]
  split
  · next he =>
    subst he
    cases hid : store.backing? store.nextBacking with
    | none => rfl
    | some backing => exact absurd (h.lt_next hid) (lt_irrefl _)
  · rfl

theorem Numbered.reopen {file : FileId} {base : VirtPage} {pages : ℕ} (h : store.Numbered)
    (hopen : store.reopen file base pages = .ok (id, changed)) : changed.Numbered := by
  obtain ⟨rfl, hnext, hback⟩ := backing?_reopen hopen
  constructor
  · intro other backing hother
    rw [hback] at hother
    split at hother
    · obtain rfl := Option.some.inj hother
      exact Nat.one_pos
    · exact h.pos hother
  · intro other backing hother
    rw [hback] at hother
    rw [hnext]
    split at hother
    · next he => exact he ▸ Nat.lt_succ_self _
    · exact Nat.lt_succ_of_lt (h.lt_next hother)

theorem Orderly.reopen {file : FileId} {base : VirtPage} {pages : ℕ} (h : store.Orderly)
    (hinside : base.number + pages ≤ userPages)
    (hopen : store.reopen file base pages = .ok (id, changed)) : changed.Orderly := by
  refine ⟨h.toNumbered.reopen hopen, fun {other backing} hother => ?_⟩
  obtain ⟨rfl, -, hback⟩ := backing?_reopen hopen
  rw [hback] at hother
  split at hother
  · obtain rfl := Option.some.inj hother
    exact hinside
  · exact h.inside hother

end FileStore

/-! ## References of pages -/

namespace Page

variable {page : Page} {files : FileStore}

theorem recounted_retainedIn (page : Page) (files : FileStore) :
    files.Recounted (page.retainedIn files) := by
  unfold retainedIn
  cases page.backing? with
  | none => exact .refl files
  | some id => exact files.recounted_retain id

theorem recounted_releasedIn (page : Page) (files : FileStore) :
    files.Recounted (page.releasedIn files) := by
  unfold releasedIn
  cases page.backing? with
  | none => exact .refl files
  | some id => exact files.recounted_release id

theorem refs_retainedIn {id : BackingId} (hopen : page.backing? = some id → 0 < files.refs id) :
    (page.retainedIn files).refs id =
      files.refs id + if page.backing? = some id then 1 else 0 := by
  unfold retainedIn
  cases hid : page.backing? with
  | none => simp
  | some own =>
      simp only [Option.some.injEq]
      exact FileStore.refs_retain own fun he => hopen (he ▸ hid)

theorem refs_releasedIn {id : BackingId} (h : files.Numbered)
    (hopen : page.backing? = some id → 0 < files.refs id) :
    (page.releasedIn files).refs id + (if page.backing? = some id then 1 else 0) =
      files.refs id := by
  unfold releasedIn
  cases hid : page.backing? with
  | none => simp
  | some own =>
      simp only [Option.some.injEq]
      exact FileStore.refs_release h own fun he => hopen (he ▸ hid)

end Page

theorem PageKind.backings_savedIn (kind : PageKind) (bytes : PageBytes) (dirty : Bool)
    (files : FileStore) :
    (kind.savedIn bytes dirty files).backings = files.backings ∧
      (kind.savedIn bytes dirty files).nextBacking = files.nextBacking := by
  unfold savedIn
  split
  · split
    · next segment _ =>
      unfold Segment.writeBack
      split <;> exact ⟨rfl, rfl⟩
    · exact ⟨rfl, rfl⟩
  · exact ⟨rfl, rfl⟩

theorem PageKind.recounted_savedIn (kind : PageKind) (bytes : PageBytes) (dirty : Bool)
    (files : FileStore) : files.Recounted (kind.savedIn bytes dirty files) :=
  .of_eq (kind.backings_savedIn bytes dirty files).1 (kind.backings_savedIn bytes dirty files).2

theorem Fill.recounted {swap swap' : SwapArea} {files files' : FileStore} {kind kind' : PageKind}
    {bytes : PageBytes} (h : Fill swap files kind bytes kind' swap' files') :
    files.Recounted files' := by
  cases h with
  | copy => exact files.recounted_release _
  | zero | share | slot | file => exact .refl files

/-! ## Counting references -/

theorem exists_nat_of_add_eq {a : ℕ∞} {k n : ℕ} (h : a + k = n) : ∃ m : ℕ, a = m := by
  cases a with
  | top => cases h
  | coe m => exact ⟨m, rfl⟩

/-- A value that is replaced in one place is counted once less, and its successor once more. -/
theorem encard_setAt {α : Type} [DecidableEq α] (f : SpaceId → VirtPage → Option α) (s : SpaceId)
    (vpn : VirtPage) (new : Option α) (a : α) :
    {x : SpaceId × VirtPage | setAt f s vpn new x.1 x.2 = some a}.encard +
        (if f s vpn = some a then 1 else 0 : ℕ) =
      {x : SpaceId × VirtPage | f x.1 x.2 = some a}.encard +
        (if new = some a then 1 else 0 : ℕ) := by
  have hcount : ∀ g : SpaceId → VirtPage → Option α,
      {x : SpaceId × VirtPage | g x.1 x.2 = some a}.encard =
        ({x : SpaceId × VirtPage | g x.1 x.2 = some a} \ {(s, vpn)}).encard +
          (if g s vpn = some a then 1 else 0 : ℕ) := by
    intro g
    split
    · next hmem => exact (Set.encard_sdiff_singleton_add_one (Set.mem_ofPred_eq ▸ hmem)).symm
    · next hnot =>
      rw [Nat.cast_zero, add_zero, Set.sdiff_singleton_eq_self]
      exact hnot
  have hrest : {x : SpaceId × VirtPage | setAt f s vpn new x.1 x.2 = some a} \ {(s, vpn)} =
      {x : SpaceId × VirtPage | f x.1 x.2 = some a} \ {(s, vpn)} := by
    ext ⟨t, u⟩
    simp only [Set.mem_sdiff, Set.mem_ofPred_eq, Set.mem_singleton_iff, Prod.mk.injEq]
    refine and_congr_left fun hne => ?_
    rw [setAt_of_ne fun h => hne ⟨h.1.symm, h.2.symm⟩]
  rw [hcount (setAt f s vpn new), hcount f, hrest, setAt_same]
  exact add_right_comm _ _ _

namespace View

variable {V W : View} {s : SpaceId} {vpn : VirtPage} {id : BackingId}

noncomputable def references (V : View) (id : BackingId) : ℕ∞ :=
  {x : SpaceId × VirtPage | V.backing x.1 x.2 = some id}.encard + V.pins.count id

/-- A backing counts the references to it. -/
def Tallies (V : View) (id : BackingId) : Prop :=
  (V.files.refs id : ℕ∞) = V.references id

/-- Every backing counts the references to it. -/
structure Referenced (V : View) : Prop where
  orderly : V.files.Orderly
  refs_eq : ∀ id, (V.files.refs id : ℕ∞) = V.references id

theorem backing_of_page {page : Page} (h : V.page s vpn = some page) :
    V.backing s vpn = page.backing? := by
  rw [backing, h, Option.bind_some]

theorem backing_of_none (h : V.page s vpn = none) : V.backing s vpn = none := by
  rw [backing, h, Option.bind_none]

theorem tallies_next (hn : V.files.Numbered)
    (hpages : ∀ s vpn, V.backing s vpn ≠ some V.files.nextBacking) (hpins : V.pins = []) :
    V.Tallies V.files.nextBacking := by
  have hempty : {x : SpaceId × VirtPage | V.backing x.1 x.2 = some V.files.nextBacking} = ∅ :=
    Set.eq_empty_of_forall_notMem fun x => hpages x.1 x.2
  have hclosed : V.files.backing? V.files.nextBacking = none := by
    by_contra hne
    obtain ⟨backing, hother⟩ := Option.ne_none_iff_exists'.mp hne
    exact lt_irrefl _ (hn.lt_next hother)
  have hrefs : V.files.refs V.files.nextBacking = 0 := by
    rw [FileStore.refs, hclosed, Option.elim_none]
  rw [Tallies, references, hempty, Set.encard_empty, hrefs, hpins]
  rfl

namespace Tallies

theorem refs_pos (h : V.Tallies id) (hpage : V.backing s vpn = some id) : 0 < V.files.refs id := by
  have hne : {x : SpaceId × VirtPage | V.backing x.1 x.2 = some id}.encard ≠ 0 :=
    Set.encard_ne_zero_of_mem (a := (s, vpn)) hpage
  by_contra hzero
  unfold Tallies at h
  rw [Nat.eq_zero_of_not_pos hzero] at h
  exact hne (add_eq_zero.mp h.symm).1

theorem refs_pos_of_pin (h : V.Tallies id) (hpin : id ∈ V.pins) : 0 < V.files.refs id := by
  have hne : (V.pins.count id : ℕ∞) ≠ 0 := Nat.cast_ne_zero.mpr (List.count_pos_iff.mpr hpin).ne'
  by_contra hzero
  unfold Tallies at h
  rw [Nat.eq_zero_of_not_pos hzero] at h
  exact hne (add_eq_zero.mp h.symm).2

theorem congr (h : V.Tallies id) (hpage : W.page = V.page) (hpins : W.pins = V.pins)
    (hrefs : W.files.refs id = V.files.refs id) : W.Tallies id := by
  unfold Tallies references at h ⊢
  rw [hrefs, h, hpins]
  simp only [backing, hpage]

/-- A page is replaced, and the references of both pages are counted. -/
theorem putPage (h : V.Tallies id) {p : Option Page} (hpage : W.page = setAt V.page s vpn p)
    (hpins : W.pins = V.pins)
    (hrefs : W.files.refs id + (if V.backing s vpn = some id then 1 else 0) =
      V.files.refs id + if p.bind Page.backing? = some id then 1 else 0) : W.Tallies id := by
  have hbacking : W.backing = setAt V.backing s vpn (p.bind Page.backing?) := by
    change (fun t u => (W.page t u).bind Page.backing?) = _
    rw [hpage]
    exact comp_setAt fun q : Option Page => q.bind Page.backing?
  have hcount := encard_setAt V.backing s vpn (p.bind Page.backing?) id
  rw [← hbacking] at hcount
  unfold Tallies references at h ⊢
  rw [hpins]
  obtain ⟨before, hb⟩ := exists_nat_of_add_eq h.symm
  rw [hb] at hcount h
  obtain ⟨after, ha⟩ := exists_nat_of_add_eq (hcount.trans (Nat.cast_add _ _).symm)
  rw [ha] at hcount ⊢
  norm_cast at hcount h ⊢
  omega

theorem registered (h : V.Tallies id) {page : Page} (hfresh : V.page s page.vpn = none)
    (hopen : page.backing? = some id → 0 < V.files.refs id) :
    (V.registered s page).Tallies id := by
  refine h.putPage (p := some page) rfl rfl ?_
  rw [backing_of_none hfresh]
  change (page.retainedIn V.files).refs id + _ = _
  simpa using Page.refs_retainedIn hopen

theorem removed (h : V.Tallies id) (hn : V.files.Numbered) {page : Page}
    (hpage : V.page s vpn = some page) (hW : W.page = setAt V.page s vpn none)
    (hpins : W.pins = V.pins) {files : FileStore} (hbackings : files.backings = V.files.backings)
    (hnext : files.nextBacking = V.files.nextBacking) (hfiles : W.files = page.releasedIn files) :
    W.Tallies id := by
  refine h.putPage hW hpins ?_
  rw [hfiles, backing_of_page hpage, ← FileStore.refs_congr hbackings id]
  refine Page.refs_releasedIn ((FileStore.Recounted.of_eq hbackings hnext).numbered hn) ?_
  intro hown
  rw [FileStore.refs_congr hbackings]
  exact h.refs_pos ((backing_of_page hpage).trans hown)

theorem changed (h : V.Tallies id) {page after : Page} (hpage : V.page s vpn = some page)
    (hW : W.page = setAt V.page s vpn (some after)) (hsame : after.backing? = page.backing?)
    (hpins : W.pins = V.pins) (hbackings : W.files.backings = V.files.backings) : W.Tallies id := by
  refine h.putPage hW hpins ?_
  rw [FileStore.refs_congr hbackings, backing_of_page hpage, Option.bind_some, hsame]

end Tallies

theorem Referenced.refs_pos (h : V.Referenced) (hpage : V.backing s vpn = some id) :
    0 < V.files.refs id :=
  Tallies.refs_pos (h.refs_eq id) hpage

end View

/-! ## Steps -/

section

variable {d : Deed} {V W : View} {id : BackingId}

/-- Every step leaves the backings as they are, but for the references that are counted, or opens
one more. -/
theorem Step.recounted (hstep : Step d V W) :
    V.files.Recounted W.files ∨ ∃ file base pages own,
      V.files.reopen file base pages = .ok (own, W.files) ∧
        (d = .pin file ∧ base.number + pages ≤ userPages ∨ d = .reopen file) := by
  cases hstep with
  | evict full victim found mapped loaded spilled zeroed =>
      exact .inl (PageKind.recounted_savedIn _ _ _ _)
  | bring found absent first filled stored => exact .inl filled.recounted
  | register | adopt | inherit | copy => exact .inl (Page.recounted_retainedIn _ _)
  | discardResident found resident mapped loaded freed =>
      exact .inl ((PageKind.recounted_savedIn _ _ _ _).trans (Page.recounted_releasedIn _ _))
  | discardSlot | discardBare => exact .inl (Page.recounted_releasedIn _ _)
  | unpin | release => exact .inl (FileStore.recounted_release _ _)
  | pin inside opened => exact .inr ⟨_, _, _, _, opened, .inl ⟨rfl, inside⟩⟩
  | reopen opened => exact .inr ⟨_, _, _, _, opened, .inr rfl⟩
  | edit => exact .inl (.of_eq rfl rfl)
  | take | sweep | spoil | giveBack | touch | adjust | store | create | next | drop | setUserSp =>
      exact .inl (.refl _)

theorem Step.numbered (hstep : Step d V W) (h : V.files.Numbered) : W.files.Numbered := by
  rcases hstep.recounted with hsame | ⟨file, base, pages, own, hopen, -⟩
  · exact hsame.numbered h
  · exact h.reopen hopen

/-- Numbers of backings are not given out twice. -/
theorem Step.nextBacking_le (hstep : Step d V W) : V.files.nextBacking ≤ W.files.nextBacking := by
  rcases hstep.recounted with hsame | ⟨file, base, pages, own, hopen, -⟩
  · exact hsame.nextBacking_eq.ge
  · obtain ⟨-, hnext, -⟩ := FileStore.backing?_reopen hopen
    rw [hnext]
    exact Nat.le_succ _

/-- A backing whose number was given out is opened for no other mapping. -/
theorem Step.exists_sameMapping (hstep : Step d V W) (hlt : id < V.files.nextBacking)
    {after : Backing} (hafter : W.files.backing? id = some after) :
    ∃ before, V.files.backing? id = some before ∧ before.SameMapping after := by
  rcases hstep.recounted with hsame | ⟨file, base, pages, own, hopen, -⟩
  · obtain ⟨before, hbefore, hmapping, -⟩ := hsame.exists_before hafter
    exact ⟨before, hbefore, hmapping⟩
  · obtain ⟨rfl, -, hback⟩ := FileStore.backing?_reopen hopen
    rw [hback, if_neg hlt.ne'] at hafter
    exact ⟨after, hafter, ⟨rfl, rfl, rfl⟩⟩

theorem Steps.exists_sameMapping {deeds : Set Deed} (hsteps : Steps deeds V W)
    (hlt : id < V.files.nextBacking) {after : Backing}
    (hafter : W.files.backing? id = some after) :
    ∃ before, V.files.backing? id = some before ∧ before.SameMapping after := by
  refine (hsteps.invariant (fun U => id < U.files.nextBacking ∧ ∀ after,
    U.files.backing? id = some after → ∃ before, V.files.backing? id = some before ∧
      before.SameMapping after) (fun d _ U U' hstep hU => ?_)
    ⟨hlt, fun after hafter => ⟨after, hafter, ⟨rfl, rfl, rfl⟩⟩⟩).2 after hafter
  refine ⟨lt_of_lt_of_le hU.1 hstep.nextBacking_le, fun after hafter => ?_⟩
  obtain ⟨between, hbetween, hsame⟩ := hstep.exists_sameMapping hU.1 hafter
  obtain ⟨before, hbefore, hsame'⟩ := hU.2 between hbetween
  exact ⟨before, hbefore, hsame'.trans hsame⟩

theorem Step.backing?_of_lt (hstep : Step d V W) (hlt : id < V.files.nextBacking) {after : Backing}
    (hafter : W.files.backing? id = some after) :
    ∃ before, V.files.backing? id = some before ∧ before.file = after.file := by
  obtain ⟨before, hbefore, hsame⟩ := hstep.exists_sameMapping hlt hafter
  exact ⟨before, hbefore, hsame.file_eq.symm⟩

theorem Step.mem_pins_of_register {s : SpaceId} {page : Page} (hstep : Step (.register s page) V W)
    (hid : page.backing? = some id) : id ∈ V.pins := by
  cases hstep with
  | register live fresh inside pinned =>
      obtain ⟨segment, hsegment, rfl⟩ := Option.map_eq_some_iff.mp hid
      exact pinned segment hsegment

/-- A page that gets a frame keeps its reference, unless its first touch made it anonymous. -/
theorem View.Tallies.filled {s : SpaceId} {vpn : VirtPage} {page : Page}
    {bytes : PageBytes} {kind : PageKind} {swap : SwapArea} (h : V.Tallies id)
    (hn : V.files.Numbered) (frame : Option Frame) (hpage : V.page s vpn = some page)
    (hfill : Fill V.swap V.files page.kind bytes kind swap W.files)
    (hW : W.page = setAt V.page s vpn (some { page with frame, kind })) (hpins : W.pins = V.pins) :
    W.Tallies id := by
  generalize hk : page.kind = before at hfill
  generalize hfiles : W.files = files at hfill
  have hbackings : files = V.files → W.files.backings = V.files.backings := fun he => by
    rw [hfiles, he]
  cases hfill with
  | copy hload =>
      rename_i segment
      have hown : V.backing s vpn = some segment.backing := by
        rw [backing_of_page hpage]
        simp only [Page.backing?, Page.segment?, hk]
        rfl
      refine h.putPage hW hpins ?_
      rw [hfiles, hown]
      simpa [Page.backing?, Page.segment?] using FileStore.refs_release hn segment.backing
        fun he => h.refs_pos (hown.trans (congrArg some he))
  | zero | share | slot | file =>
      refine h.changed hpage hW ?_ hpins (hbackings rfl)
      simp [Page.backing?, Page.segment?, FirstTouch.segment?, hk]

/-- A reference to a backing comes and goes with a page, or the request holds it. -/
def Deed.Accounts (id : BackingId) : Deed → Prop
  | .adopt _ page => page.backing? ≠ some id
  | .release own => own ≠ id
  | _ => True

/-- A backing whose number was given out counts the references to it, as long as pages and requests
account for them. -/
theorem Step.tallies (hstep : Step d V W) (hc : V.Consistent) (hn : V.files.Numbered)
    (hd : d.Accounts id) (hnew : ∀ file, d = .reopen file → id < V.files.nextBacking)
    (h : V.Tallies id) : W.Tallies id := by
  cases hstep with
  | evict full victim found mapped loaded spilled zeroed =>
      exact h.changed found rfl spilled.alike.backing?_eq rfl (PageKind.backings_savedIn _ _ _ _).1
  | bring found absent first filled stored =>
      rename_i page frame rest bytes kind swap files pool
      have hvpn := (hc.settled found).vpn_eq
      refine h.filled hn (some frame) found filled ?_ rfl
      rw [← hvpn]
      rfl
  | register live fresh inside pinned =>
      rename_i vpn writable touch
      refine h.registered fresh fun hid => ?_
      obtain ⟨segment, hsegment, rfl⟩ := Option.map_eq_some_iff.mp hid
      exact h.refs_pos_of_pin (pinned segment hsegment)
  | adopt live fresh inside => exact h.registered fresh fun hid => absurd hid hd
  | inherit live found untouched fresh =>
      have hvpn := (hc.settled found).vpn_eq
      refine h.registered (hvpn.symm ▸ fresh) fun hid => ?_
      exact h.refs_pos ((View.backing_of_page found).trans hid)
  | copy live found touched fresh first copied stored =>
      rename_i page frame rest bytes pool
      refine h.putPage (p := some _) rfl rfl ?_
      have hvpn := (hc.settled found).vpn_eq
      subst hvpn
      have hcopied := (Page.alike_child touched (some frame)).backing?_eq
      rw [View.backing_of_none fresh, Option.bind_some, hcopied]
      have hopen : page.backing? = some id → 0 < V.files.refs id := fun hown =>
        h.refs_pos ((View.backing_of_page found).trans hown)
      simpa using Page.refs_retainedIn hopen
  | discardResident found resident mapped loaded freed =>
      obtain ⟨hbackings, hnext⟩ := PageKind.backings_savedIn _ _ _ V.files
      exact h.removed hn found rfl rfl hbackings hnext rfl
  | discardSlot found absent inSlot freed => exact h.removed hn found rfl rfl rfl rfl rfl
  | discardBare found absent bare => exact h.removed hn found rfl rfl rfl rfl rfl
  | pin inside opened =>
      rename_i file base pages own files
      have hrefs := FileStore.refs_reopen hn opened id
      unfold View.Tallies View.references at h ⊢
      rw [hrefs, Nat.cast_add, h, List.count_cons]
      simp only [beq_iff_eq, Nat.cast_add]
      exact add_assoc _ _ _
  | unpin first =>
      rename_i own rest
      have hopen : own = id → 0 < V.files.refs id := fun he =>
        h.refs_pos_of_pin (by simp [first, he])
      have hrefs := FileStore.refs_release hn own hopen
      unfold View.Tallies at h ⊢
      simp only [View.references, first, List.count_cons, beq_iff_eq] at h
      obtain ⟨n, hn⟩ := exists_nat_of_add_eq h.symm
      rw [hn] at h
      change ((V.files.release own).refs id : ℕ∞) =
        {x : SpaceId × VirtPage | V.backing x.1 x.2 = some id}.encard + (rest.count id : ℕ∞)
      rw [hn]
      norm_cast at h ⊢
      omega
  | reopen opened =>
      rename_i file base pages own files
      obtain ⟨rfl, -⟩ := FileStore.backing?_reopen opened
      refine h.congr rfl rfl ((FileStore.refs_reopen hn opened id).trans ?_)
      rw [if_neg (hnew file rfl).ne', Nat.add_zero]
  | release own =>
      have hne : own ≠ id := hd
      have hrefs := FileStore.refs_release hn own fun he => absurd he hne
      rw [if_neg hne, Nat.add_zero] at hrefs
      exact h.congr rfl rfl hrefs
  | take | sweep | spoil | giveBack | touch | adjust | store | create | next | drop | setUserSp
  | edit =>
      exact h.congr rfl rfl rfl

/-! ## All backings -/

/-- Backings are neither opened nor closed from outside, and pages are registered with references
that the request holds. -/
def Deed.CountsReferences : Deed → Prop
  | .adopt _ _ | .reopen _ | .release _ => False
  | _ => True

theorem Deed.CountsReferences.accounts (h : d.CountsReferences) (id : BackingId) :
    d.Accounts id := by
  cases d <;> trivial

theorem Step.referenced (hstep : Step d V W) (hd : d.CountsReferences) (hc : V.Consistent)
    (h : V.Referenced) : W.Referenced := by
  refine ⟨?_, fun id => ?_⟩
  · rcases hstep.recounted with hsame | ⟨file, base, pages, own, hopen, ⟨-, hinside⟩ | rfl⟩
    · exact hsame.orderly h.orderly
    · exact h.orderly.reopen hinside hopen
    · exact hd.elim
  · refine hstep.tallies hc h.orderly.toNumbered (hd.accounts id) ?_ (h.refs_eq id)
    rintro file rfl
    exact hd.elim

theorem Steps.referenced {deeds : Set Deed} (hsteps : Steps deeds V W)
    (hd : ∀ d ∈ deeds, d.CountsReferences) (hc : V.Consistent) (h : V.Referenced) :
    W.Referenced :=
  (hsteps.invariant (fun U => U.Consistent ∧ U.Referenced)
    (fun d hmem _ _ hstep hU => ⟨hstep.consistent hU.1, hstep.referenced (hd d hmem) hU.1 hU.2⟩)
    ⟨hc, h⟩).2

end

end DemandPaging
