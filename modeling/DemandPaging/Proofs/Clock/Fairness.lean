import DemandPaging.Proofs.Clock.Watch
import DemandPaging.Proofs.UntouchedCopies

/-! # Fairness of the clock

While frames are taken by claims alone, a page that is not accessed is evicted within one round of
the hand, if it is still ahead of the hand. A page that the hand has gone past shares the hand's way
with the pages that come in meanwhile, which are listed after it: if each of them is accessed before
a frame is taken for the next one, the hand passes them and reaches the page within the round; if
none of them is, the hand may take one after the other and never get to it.
-/

namespace DemandPaging

/-! ## Continuations -/

/-- Whether a request may claim pages. -/
def Op.claims : Op → Bool
  | claim _ _ | fault _ _ | setupStack _ | read _ _ _ | write _ _ _ => true
  | _ => false

/-- Whether a request accesses a page. -/
def Op.accesses (m : Machine) (s : SpaceId) (vpn : VirtPage) : Op → Bool
  | read t va buffer => t == s && isUserRange va buffer.size &&
    m.reaches (fun chunk => MachineM.userFrame t chunk.page false) vpn
      (Chunk.split va buffer.size)
  | write t va data => t == s && isUserRange va data.size &&
    m.reaches (MachineM.writeChunk t data) vpn (Chunk.split va data.size)
  | access t va isWrite => t == s && va.page == vpn &&
    (m.space? t).any fun space => (space.table.access va.page isWrite).isOk
  | setFlags t va (some true) _ => t == s && va.page == vpn
  | _ => false

/-- Whether a request takes back an access of a page. -/
def Op.clearsAccess (m : Machine) : Op → Bool
  | setFlags s va (some false) _ => (m.entryAt? s va.page).any (·.has .accessed)
  | _ => false

/-- The pages of parts of user memory that have frames, up to the first one that has none. -/
def Machine.residentFirst (m : Machine) (s : SpaceId) (chunks : List Chunk) : List VirtPage :=
  (chunks.map Chunk.page).takeWhile fun vpn => ((m.page? s vpn).bind Page.frame).isSome

/-- Whether a request comes to the page of an entry before it takes a frame. -/
def Op.accessesFirst (m : Machine) (f : FrameEntry) : Op → Bool
  | read s va buffer =>
    s == f.space && (m.residentFirst s (Chunk.split va buffer.size)).contains f.vpn
  | write s va data =>
    s == f.space && (m.residentFirst s (Chunk.split va data.size)).contains f.vpn
  | _ => false

namespace Machine

/-- Whether frames are taken by claims alone and no frame is released. -/
def claimsOnly : Machine → List (Visit × Op) → Bool
  | _, [] => true
  | m, (visit, op) :: requests => (m.step? visit op).any fun m' =>
    (op.claims || !op.copies m visit && m'.frames.size == m.frames.size) && m'.claimsOnly requests

/-- Whether no request accesses the page of an entry. -/
def leavesAlone (e : FrameEntry) : Machine → List (Visit × Op) → Bool
  | _, [] => true
  | m, (visit, op) :: requests => !op.accesses m e.space e.vpn &&
    (m.step? visit op).any fun m' => m'.leavesAlone e requests

/-- Whether the page that came in last was accessed, or is by a request before it takes a frame. -/
def lastUsed (m : Machine) (op : Op) : Bool :=
  (m.frames.entries.getLast?).any fun f => f.isAccessed m.spaces || op.accessesFirst m f

/-- Whether, as long as the hand is past an entry, each page that comes into a frame is accessed
before a frame is taken for the next one, and accesses are taken back by the hand alone; `start` is
how many pages had come into frames when the first request came. -/
def claimsUsed (e : FrameEntry) (start : ℕ) : Machine → List (Visit × Op) → Bool
  | _, [] => true
  | m, (visit, op) :: requests => (m.step? visit op).any fun m' =>
    (!(m.frames.entries.take m.frames.hand).contains e || !op.clearsAccess m &&
      (m'.frames.turnover == m.frames.turnover || m.frames.arrivals == start || m.lastUsed op)) &&
    m'.claimsUsed e start requests

end Machine

theorem PageTable.has_put (table : PageTable) (vpn u : VirtPage) (flag other : Flag) (on : Bool) :
    (table.put vpn flag on).has u other =
      if vpn = u ∧ flag = other then (table.lookup? u).any fun _ => on else table.has u other := by
  unfold has
  rw [lookup?_put]
  by_cases hvpn : vpn = u
  · subst hvpn
    cases table.lookup? vpn with
    | none => simp
    | some entry => simp [Entry.has_put, eq_comm]
  · simp [hvpn]

/-- Which accesses a table notes once the flags of a page were set in it: those it noted before, but
at the page what was asked for. -/
theorem PageTable.has_accessed_of_flags (table : PageTable) (vpn u : VirtPage)
    (accessed dirty : Option Bool) :
    (dirty.elim (accessed.elim table (table.setAccessed vpn))
      ((accessed.elim table (table.setAccessed vpn)).setDirty vpn)).has u .accessed =
      accessed.elim (table.has u .accessed) fun on =>
        if vpn = u then (table.lookup? u).any fun _ => on else table.has u .accessed := by
  cases dirty <;> cases accessed <;> simp [setAccessed, setDirty, has_put]

/-- Setting flags notes no access but one that is asked for, and takes none back unasked. -/
theorem PageTable.noted_of_flags {table table' : PageTable} {vpn u : VirtPage}
    {accessed dirty : Option Bool}
    (h : dirty.elim (accessed.elim table (table.setAccessed vpn))
      ((accessed.elim table (table.setAccessed vpn)).setDirty vpn) = table') :
    (table'.has u .accessed = true →
      table.has u .accessed = true ∨ accessed = some true ∧ vpn = u) ∧
    ((accessed = some false → vpn ≠ u) → table.has u .accessed = true →
      table'.has u .accessed = true) := by
  rw [← h, has_accessed_of_flags]
  rcases accessed with _ | _ | _
  · exact ⟨.inl, fun _ => id⟩
  · by_cases hat : vpn = u
    · exact ⟨fun h => by simp [hat] at h, fun hnot => (hnot rfl hat).elim⟩
    · simp only [Option.elim_some, if_neg hat]
      exact ⟨.inl, fun _ => id⟩
  · by_cases hat : vpn = u
    · refine ⟨fun _ => .inr ⟨rfl, hat⟩, fun _ h => ?_⟩
      obtain ⟨entry, hentry, -⟩ := (Option.any_eq_true _ _).mp h
      simp [hat, hentry]
    · simp only [Option.elim_some, if_neg hat]
      exact ⟨.inl, fun _ => id⟩

theorem FrameTable.size_removeFrame_le (table : FrameTable) (frame : Frame) :
    (table.removeFrame frame).size ≤ table.size := by
  unfold FrameTable.removeFrame
  split
  · exact Nat.le_refl _
  · exact List.length_eraseIdx_le _ _

theorem Step.size_le_of_dropping {d : Deed} {V W : View} {s : SpaceId} (hstep : Step d V W)
    (hd : d ∈ Deed.dropping s) : W.frames.size ≤ V.frames.size := by
  rcases hd with rfl | ⟨vpn, rfl⟩
  · generalize hd : Deed.drop s = d at hstep
    cases hstep with
    | drop => exact Nat.le_refl _
    | _ => cases hd
  · generalize hd : Deed.discard s vpn = d at hstep
    cases hstep with
    | discardResident => exact FrameTable.size_removeFrame_le _ _
    | discardSlot | discardBare => exact Nat.le_refl _
    | _ => cases hd

namespace Watch

variable {w : Watch} {V W : View} {d : Deed} {s : SpaceId} {vpn : VirtPage}

/-- As long as the page is watched, it may be watched under another condition, and for longer. -/
theorem Between.renew {orderly : Prop} (h : w.Between V) (hnot : ¬w.Over V)
    (horderly : w.orderly → w.entry ∈ V.frames.entries.take V.frames.hand → orderly)
    (horizon : ℕ) : Between { w with orderly, horizon } V := by
  obtain ⟨unsettled, hone, hc, hrests, hwaits⟩ := h
  refine ⟨unsettled, hone, hc, hrests, ?_⟩
  rcases hwaits with hlost | hawaits | hover
  · exact .inl hlost
  · exact .inr (.inl ⟨hawaits.idle, hawaits.due.of_orderly horderly, hawaits.arrivals⟩)
  · exact (hnot hover).elim

/-- The frames stay as they are, and the page waits or has lost its frame as before. -/
structure Stays (w : Watch) (V W : View) : Prop where
  between : w.Between W
  frames_eq : W.frames = V.frames

theorem Between.steps {deeds : Set Deed} (h : w.Between V) (hsteps : Steps deeds V W)
    (hd : ∀ d ∈ deeds, d.LeavesFrames w) : w.Stays V W :=
  hsteps.invariant (w.Stays V) (fun d hmem _ _ hstep hstays =>
    ⟨hstays.between.leaves hstep (hd d hmem),
      (hstep.frames_of_leaves (hd d hmem)).trans hstays.frames_eq⟩) ⟨h, rfl⟩

/-- A page that is removed gives back a frame, or leaves the frames alone. -/
theorem Holds.discard {unsettled : List FrameEntry} (h : w.Holds V unsettled)
    (hstep : Step (.discard s vpn) V W) :
    W.frames.size < V.frames.size ∨ W.frames = V.frames ∧ w.Holds W unsettled := by
  have hc := hstep.consistent h.consistent
  have hrests := hstep.rests h.rests
  have hlost : w.Lost V → w.Lost W := hstep.frame_eq_none h.consistent (by simp) (by simp)
  generalize hd : Deed.discard s vpn = d at hstep
  cases hstep with
  | @discardResident _ s vpn page frame entry bytes pool found resident =>
      have hmem : ⟨frame, s, vpn⟩ ∈ V.frames.entries :=
        (h.consistent.listed ⟨frame, s, vpn⟩).mpr ((View.frame_of_page found).trans resident)
      have hperm := (FrameTable.perm_removeFrame hmem h.consistent.frames_nodup).length_eq
      exact .inl (Nat.lt_of_lt_of_eq (Nat.lt_succ_self _) hperm.symm)
  | discardSlot | discardBare =>
      exact .inr ⟨rfl, hc, hrests, h.waits.imp hlost fun hwaits => hwaits.imp_left fun hawaits =>
        ⟨hawaits.idle, hawaits.due, hawaits.arrivals⟩⟩
  | _ => cases hd

theorem Between.discard {deeds : Set Deed} (h : w.Between V) (hsteps : Steps deeds V W)
    (hdeeds : deeds ⊆ Deed.dropping s) (hsize : W.frames.size = V.frames.size) : w.Stays V W := by
  obtain ⟨unsettled, hone, hholds⟩ := h
  have hkept : W.frames.size < V.frames.size ∨ W.frames = V.frames ∧ w.Holds W unsettled := by
    refine hsteps.invariant (fun U => U.frames.size < V.frames.size ∨
      U.frames = V.frames ∧ w.Holds U unsettled) (fun d hmem U U' hstep hinv => ?_)
      (.inr ⟨rfl, hholds⟩)
    rcases hinv with hless | ⟨hsame, hU⟩
    · exact .inl (Nat.lt_of_le_of_lt (hstep.size_le_of_dropping (hdeeds hmem)) hless)
    · rw [← hsame]
      rcases hdeeds hmem with rfl | ⟨vpn, rfl⟩
      · exact .inr ⟨hstep.frames_of_leaves (w := w) trivial, hU.leaves hstep trivial⟩
      · exact hU.discard hstep
  obtain ⟨hsame, hW⟩ := hkept.resolve_left (by omega)
  exact ⟨⟨unsettled, hone, hW⟩, hsame⟩

/-- The watch of an entry at a place in the frame table, for one round of the hand. -/
def ofEntry (m : Machine) (e : FrameEntry) (index : ℕ) : Watch :=
  ⟨e, index < m.frames.hand, m.frames.evictions + m.frames.size, m.frames.arrivals,
    m.frames.turnover⟩

/-- The watch of the same entry while a machine serves a request, which ends with the turnover that
the request leaves. It asks for accesses only as long as the hand is past the entry. -/
def renewed (w : Watch) (m m' : Machine) : Watch :=
  { w with
    orderly := w.orderly ∧ w.entry ∈ m.frames.entries.take m.frames.hand
    horizon := m'.frames.turnover }

theorem between_ofEntry {m : Machine} {e : FrameEntry} {index : ℕ}
    (hc : (m.view [] []).Consistent) (hrests : m.frames.Rests)
    (hlisted : m.frames.entries[index]? = some e) (hidle : e.isAccessed m.spaces = false) :
    (ofEntry m e index).Between (m.view [] []) := by
  have hindex : index < m.frames.size := (List.getElem?_eq_some_iff.mp hlisted).1
  have hhand := hrests.hand_lt (List.ne_nil_of_mem (List.mem_of_getElem? hlisted))
  have hdue : m.frames.Due (m.view [] []).Used (index < m.frames.hand) e
      (m.frames.evictions + m.frames.size) [] := by
    rcases Nat.lt_or_ge index m.frames.hand with hpassed | hahead
    · have hsplit : m.frames.entries = m.frames.entries ++ [] ++ [] := by simp
      refine .behind hpassed hlisted hpassed hsplit (fun f hf => by cases hf) ?_
      change m.frames.evictions + (m.frames.size - m.frames.hand) + index <
        m.frames.evictions + m.frames.size
      omega
    · refine .ahead hlisted hahead ?_
      omega
  refine ⟨[], Nat.zero_le _, hc, hrests, .inr (.inl ⟨fun hused => ?_, hdue, le_rfl⟩)⟩
  cases hidle.symm.trans (View.used_iff.mp hused)

theorem Stays.lost (h : w.Stays V W) (hc : V.Consistent) (hlost : w.Lost W) : w.Lost V := by
  by_contra hin
  obtain ⟨frame, hframe⟩ := Option.ne_none_iff_exists'.mp hin
  have hmem : ⟨frame, w.entry.space, w.entry.vpn⟩ ∈ V.frames.entries := (hc.listed _).mpr hframe
  rw [← h.frames_eq] at hmem
  have hkept : W.frame w.entry.space w.entry.vpn = some frame :=
    (h.between.consistent.listed _).mp hmem
  cases hlost.symm.trans hkept

end Watch

/-! ## Requests -/

namespace MachineM

variable {w : Watch} {m m' : Machine} {s : SpaceId}

theorem setupStack_holds (h : w.Ready (m.view [] [])) (hin : ¬w.Lost (m.view [] [])) :
    Ends False (setupStack s) m (fun _ m' => w.Between (m'.view [] []))
      fun _ m' => w.Between (m'.view [] []) := by
  have hlive : ∀ m : Machine, False → (m.view [] []).Live s := fun _ => False.elim
  rw [setupStack_eq]
  refine ((allocZero_holds h).mono (fun _ _ ha => ha) fun _ _ hr => hr.between).bind ?_
  intro _ m₁ hclaimed
  have hbetween := (hclaimed fun hlost => (hin hlost).elim).between
  refine (setUserSp_ends (hlive m₁) userStackTop).bind_total fun _ m₂ hstep => Ends.pure ?_
  exact hbetween.leaves hstep trivial

theorem readUser_holds {va : VirtAddr} {buffer : Bytes}
    (h : w.ReadyFor (m.view [] []) s ((Chunk.split va buffer.size).map Chunk.page))
    (hnot : isUserRange va buffer.size = true → w.entry.space = s →
      m.reaches (fun chunk => userFrame s chunk.page false) w.entry.vpn
        (Chunk.split va buffer.size) = false) :
    Ends False (readUser s va buffer) m (fun _ m' => w.Between (m'.view [] []))
      fun _ _ => False := by
  unfold readUser userChunks
  by_cases hrange : isUserRange va buffer.size = true
  · rw [if_pos hrange]
    refine Ends.bind_ok rfl (readChunks_holds h (fun chunk hc => ?_) (hnot hrange) buffer)
    exact Chunk.page_lt_of_mem_split hrange hc
  · rw [if_neg hrange]
    exact Ends.bind_ok rfl (Ends.pure h.between)

theorem writeUser_holds {va : VirtAddr} {data : Bytes}
    (h : w.ReadyFor (m.view [] []) s ((Chunk.split va data.size).map Chunk.page))
    (hnot : isUserRange va data.size = true → w.entry.space = s →
      m.reaches (writeChunk s data) w.entry.vpn (Chunk.split va data.size) = false) :
    Ends False (writeUser s va data) m (fun _ m' => w.Between (m'.view [] []))
      fun _ m' => w.Between (m'.view [] []) := by
  unfold writeUser userChunks
  by_cases hrange : isUserRange va data.size = true
  · rw [if_pos hrange]
    refine Ends.bind_ok rfl (writeChunks_holds h (fun chunk hc => ?_) (hnot hrange))
    exact Chunk.page_lt_of_mem_split hrange hc
  · rw [if_neg hrange]
    exact Ends.bind_failed rfl h.between

theorem processorAccess_of_refused {va : VirtAddr} {write : Bool}
    (hrefused : ((m.space? s).any fun space => (space.table.access va.page write).isOk) = false) :
    Ends False (processorAccess s va write) m (fun _ m' => m' = m) fun _ _ => False := by
  have hlive : False → (m.view [] []).Live s := False.elim
  unfold processorAccess
  refine Ends.space hlive fun space hspace => ?_
  rw [hspace, Option.any_some] at hrefused
  cases haccess : space.table.access va.page write with
  | error fault => exact Ends.pure rfl
  | ok result =>
      rw [haccess] at hrefused
      cases hrefused

/-- Setting the flags of a page notes an access, or takes one back, or neither. -/
theorem setFlags_used (s : SpaceId) (va : VirtAddr) (accessed dirty : Option Bool) :
    Ends False (setFlags s va accessed dirty) m
      (fun _ m' => m'.frames = m.frames ∧ m'.page? = m.page? ∧ ∀ f : FrameEntry,
        ((m'.view [] []).Used f →
          (m.view [] []).Used f ∨ accessed = some true ∧ f.place = (s, va.page)) ∧
        ((accessed = some false → f.place ≠ (s, va.page)) → (m.view [] []).Used f →
          (m'.view [] []).Used f))
      fun _ _ => False := by
  have hlive : False → (m.view [] []).Live s := False.elim
  unfold setFlags
  refine Ends.space hlive fun space hspace => Ends.of_ok rfl ?_
  generalize htable : (dirty.elim (accessed.elim space.table (space.table.setAccessed va.page))
    ((accessed.elim space.table (space.table.setAccessed va.page)).setDirty va.page)) = table
  have hview : (m.setSpace s { space with table }).view [] [] = { m.view [] [] with
      entry := fun t u => if s = t then table.lookup? u else m.entryAt? t u } := by
    have hpages : ∀ t u, m.page? t u = if s = t then space.pages[u]? else m.page? t u := by
      intro t u
      split
      · next hst => exact hst ▸ Machine.page?_of_space? hspace u
      · rfl
    exact Machine.view_setSpace hspace hpages (fun _ _ => rfl) rfl
  refine ⟨rfl, congrArg View.page hview, fun f => ?_⟩
  change (((m.setSpace s { space with table }).view [] []).Used f → _) ∧
    (_ → _ → ((m.setSpace s { space with table }).view [] []).Used f)
  simp only [View.Used, hview]
  by_cases hs : s = f.space
  · have hnew : (table.lookup? f.vpn).any (·.has .accessed) = table.has f.vpn .accessed := rfl
    have hold : (m.entryAt? f.space f.vpn).any (·.has .accessed) =
        space.table.has f.vpn .accessed := by
      rw [← hs, Machine.entryAt?_of_space? hspace]
      rfl
    obtain ⟨honly, hkept⟩ := PageTable.noted_of_flags (u := f.vpn) htable
    change (_ → (m.entryAt? f.space f.vpn).any _ = true ∨ _) ∧
      (_ → (m.entryAt? f.space f.vpn).any _ = true → _)
    rw [if_pos hs, hnew, hold]
    refine ⟨fun h => (honly h).imp_right fun hat => ⟨hat.1, Prod.ext hs.symm hat.2.symm⟩, ?_⟩
    exact fun hnot => hkept fun hoff hat => hnot hoff (Prod.ext hs.symm hat.symm)
  · rw [if_neg hs]
    exact ⟨.inl, fun _ => id⟩

theorem setFlags_stays {va : VirtAddr} {accessed dirty : Option Bool}
    (h : w.Between (m.view [] []))
    (hidle : accessed = some true → w.entry.place ≠ (s, va.page))
    (hkept : w.orderly → accessed = some false →
      (m.entryAt? s va.page).any (·.has .accessed) = false) :
    Ends False (setFlags s va accessed dirty) m
      (fun _ m' => w.Stays (m.view [] []) (m'.view [] [])) fun _ _ => False := by
  have hlive : False → (m.view [] []).Live s := False.elim
  refine ((setFlags_ends hlive va accessed dirty).and (setFlags_used s va accessed dirty)).mono ?_
    fun _ _ hf => hf.1
  rintro - m' ⟨hsteps, hframes, hpages, hused⟩
  obtain ⟨unsettled, hone, hc, hrests, hwaits⟩ := h
  refine ⟨⟨unsettled, hone, hsteps.consistent hc, ?_, ?_⟩, hframes⟩
  · change m'.frames.Rests
    rwa [hframes]
  rcases hwaits with hlost | hawaits | hover
  · refine .inl ?_
    change (m'.page? _ _).bind Page.frame = none
    rwa [hpages]
  · refine .inr (.inl ⟨fun hafter => ?_, ?_, ?_⟩)
    · rcases (hused w.entry).1 hafter with hbefore | ⟨hon, hat⟩
      · exact hawaits.idle hbefore
      · exact hidle hon hat
    · change m'.frames.Due _ _ _ _ _
      rw [hframes]
      refine hawaits.due.of_used fun horderly f _ hbefore => (hused f).2 ?_ hbefore
      intro hoff hat
      obtain ⟨rfl, hvpn⟩ := Prod.mk.inj hat
      have hnot := hkept horderly hoff
      rw [← hvpn] at hnot
      cases hnot.symm.trans hbefore
    · change _ ≤ m'.frames.arrivals
      rw [hframes]
      exact hawaits.arrivals
  · refine .inr (.inr ?_)
    change _ < m'.frames.turnover
    rwa [hframes]

/-! ## Whole requests -/

variable {op : Op} {visit : Visit}

/-- A request that claims pages brings the turn of the page that waits nearer, or takes its frame,
if all pages are accessed or the request accesses the last one before it takes a frame. -/
theorem claims_between (h : w.Ready (m.view [] []) ∨ w.Between (m.view [] []) ∧
      ∃ f, m.frames.entries.getLast? = some f ∧ op.accessesFirst m f = true)
    (hclaims : op.claims = true) (hin : ¬w.Lost (m.view [] []))
    (hunused : op.accesses m w.entry.space w.entry.vpn = false)
    (hstep : m.step? visit op = some m') : w.Between (m'.view [] []) := by
  have hclaimed : ∀ {m' : Machine} {s : SpaceId} {vpn : VirtPage},
      ((w.Lost (m.view [] []) → w.entry.place ≠ (s, vpn)) → w.Claimed (m'.view [] []) s vpn) →
        w.Between (m'.view [] []) := fun hc => (hc fun hlost => (hin hlost).elim).between
  have hready : (∀ f, op.accessesFirst m f = false) → w.Ready (m.view [] []) := by
    refine fun hnone => h.resolve_right ?_
    rintro ⟨-, f, -, hfirst⟩
    cases (hnone f).symm.trans hfirst
  have hparts : ∀ {s : SpaceId} {chunks : List Chunk},
      (∀ f, op.accessesFirst m f = (s == f.space && (m.residentFirst s chunks).contains f.vpn)) →
        w.ReadyFor (m.view [] []) s (chunks.map Chunk.page) := by
    refine fun hfirst => h.imp_right fun hlast => ⟨hlast.1, ?_⟩
    obtain ⟨-, f, hf, haccesses⟩ := hlast
    rw [hfirst, Bool.and_eq_true, beq_iff_eq, List.contains_iff_mem] at haccesses
    exact ⟨f, hf, haccesses.1.symm, haccesses.2⟩
  cases op with
  | claim s va =>
      have hclaim : Ends False (claimAt s va) m (fun _ m' => w.Between (m'.view [] []))
          fun _ m' => w.Between (m'.view [] []) :=
        (claimAt_holds (hready fun _ => rfl)).mono (fun _ _ => hclaimed) fun _ _ hr => hr.between
      exact (hclaim.reply fun _ => Reply.done).of_step? hstep
  | fault s f =>
      have hfault : Ends False (handleFault s f) m (fun _ m' => w.Between (m'.view [] []))
          fun _ m' => w.Between (m'.view [] []) :=
        (handleFault_holds (hready fun _ => rfl)).mono (fun _ _ => hclaimed)
          fun _ _ hr => hr.between
      exact (hfault.reply fun _ => Reply.done).of_step? hstep
  | setupStack s =>
      have hstack := setupStack_holds (s := s) (hready fun _ => rfl) hin
      exact Ends.of_step? (hstack.reply fun va => Reply.address va.val) hstep
  | read s va buffer =>
      have hread : Ends False ((Op.read s va buffer).execBy visit) m
          (fun _ m' => w.Between (m'.view [] [])) fun _ m' => w.Between (m'.view [] []) := by
        refine (readUser_holds (hparts fun _ => rfl) fun hrange hs => ?_).bind_total
          fun _ _ hbetween => Ends.pure hbetween
        simpa [Op.accesses, hs, hrange] using hunused
      exact hread.of_step? hstep
  | write s va data =>
      have hwrite := writeUser_holds (s := s) (hparts fun _ => rfl) fun hrange hs => by
        simpa [Op.accesses, hs, hrange] using hunused
      exact (hwrite.reply fun _ => Reply.done).of_step? hstep
  | _ => cases hclaims

/-- Any other request leaves the page waiting as it is, if it releases no frame. -/
theorem stays_of_size (hsound : m.Sound) (h : w.Between (m.view [] []))
    (hclaims : op.claims = false) (hcopies : op.copies m visit = false)
    (hsize : m'.frames.size = m.frames.size) (hkept : w.orderly → op.clearsAccess m = false)
    (hunused : op.accesses m w.entry.space w.entry.vpn = false)
    (hstep : m.step? visit op = some m') : w.Stays (m.view [] []) (m'.view [] []) := by
  have hsteps := (Op.finished hsound hstep).steps
  cases op with
  | claim | fault | setupStack | read | write => cases hclaims
  | fork s =>
      have hfork := forkBy_of_copies hsound hcopies
      have hends : Ends False ((Op.fork s).execBy visit) m
          (fun _ m' => w.Stays (m.view [] []) (m'.view [] []))
          fun _ m' => w.Stays (m.view [] []) (m'.view [] []) := by
        refine Ends.map (hfork.mono (fun _ _ hsteps => h.steps hsteps ?_) fun _ _ hf => hf.elim)
        rintro d (⟨vpn, rfl⟩ | rfl | rfl) <;> trivial
      exact hends.of_step? hstep
  | copy dst src =>
      have hcopy : Ends False (copySpaceBy visit dst src) m _ _ :=
        copySpaceBy_of_copies hsound.consistent hcopies
      refine h.steps ((hcopy.reply fun _ => Reply.done).of_step? hstep) ?_
      rintro d ⟨vpn, rfl⟩
      trivial
  | drop s => exact h.discard hsteps (Set.Subset.refl _) hsize
  | remove s va =>
      have hdeeds : Op.deeds m.nextSpace (.remove s va) ⊆ Deed.dropping s := by
        rintro d rfl
        exact .inr ⟨_, rfl⟩
      exact h.discard hsteps hdeeds hsize
  | recycle s | unmap s | unmapCall s =>
      exact h.discard hsteps (Set.subset_insert (Deed.drop s) _) hsize
  | setFlags s va accessed dirty =>
      have hflags : Ends False (setFlags s va accessed dirty) m
          (fun _ m' => w.Stays (m.view [] []) (m'.view [] [])) fun _ _ => False := by
        refine setFlags_stays h ?_ ?_
        · rintro rfl hat
          obtain ⟨hs, hvpn⟩ := Prod.mk.inj hat
          simp [Op.accesses, hs, hvpn] at hunused
        · rintro horderly rfl
          exact hkept horderly
      have hends : Ends False ((Op.setFlags s va accessed dirty).execBy visit) m
          (fun _ m' => w.Stays (m.view [] []) (m'.view [] []))
          fun _ m' => w.Stays (m.view [] []) (m'.view [] []) :=
        hflags.mono (fun _ _ hstays => hstays) fun _ _ hf => hf.elim
      exact hends.of_step? hstep
  | access s va isWrite =>
      by_cases hat : w.entry.place = (s, va.page)
      · obtain ⟨hs, hvpn⟩ := Prod.mk.inj hat
        have hrefused : Ends False ((Op.access s va isWrite).execBy visit) m
            (fun _ m' => m' = m) fun _ m' => m' = m := by
          refine (processorAccess_of_refused ?_).mono (fun _ _ hsame => hsame) fun _ _ hf => hf.elim
          simpa [Op.accesses, hs, hvpn] using hunused
        obtain rfl := hrefused.of_step? hstep
        exact ⟨h, rfl⟩
      · refine h.steps hsteps ?_
        rintro d rfl
        exact hat
  | alloc s va writable loader target =>
      refine h.steps hsteps fun d hd => ?_
      cases loader with
      | zero =>
          obtain rfl : d = _ := hd
          trivial
      | file segment =>
          obtain ⟨touch, -, rfl⟩ := hd
          trivial
  | map | loadExecutable =>
      refine h.steps hsteps ?_
      rintro d (⟨page, rfl⟩ | rfl | ⟨id, rfl⟩) <;> trivial
  | mapCall =>
      refine h.steps hsteps ?_
      rintro d ⟨file, -, ⟨page, rfl⟩ | rfl | ⟨id, rfl⟩⟩ <;> trivial
  | create =>
      refine h.steps hsteps ?_
      rintro d (rfl | rfl) <;> trivial
  | setUserSp | reopen | release | truncate | writeFile =>
      refine h.steps hsteps ?_
      rintro d rfl
      trivial

end MachineM

namespace Machine

variable {m m' : Machine} {w : Watch} {visit : Visit} {op : Op} {requests more : List (Visit × Op)}

open MachineM

/-- Before a request that takes a frame all pages are accessed, or it accesses the last of them
first. -/
theorem ready_or_first {m₁ : Machine} (h : w.Between (m.view [] []))
    (hhorizon : w.horizon = m₁.frames.turnover)
    (hused : w.orderly → (m₁.frames.turnover = m.frames.turnover ∨ m.frames.arrivals = w.start) ∨
      m.lastUsed op = true) :
    w.Ready (m.view [] []) ∨ w.Between (m.view [] []) ∧
      ∃ f, m.frames.entries.getLast? = some f ∧ op.accessesFirst m f = true := by
  by_cases hsame : m₁.frames.turnover = m.frames.turnover
  · exact .inl (.inr ⟨h, Nat.le_of_eq (hhorizon.trans hsame)⟩)
  by_cases hfirst : ∃ f, m.frames.entries.getLast? = some f ∧ op.accessesFirst m f = true
  · exact .inr ⟨h, hfirst⟩
  refine .inl (.inl (h.settled fun horderly => ?_))
  rcases hused horderly with (hturnover | harrivals) | hlast
  · exact (hsame hturnover).elim
  · exact .inl harrivals
  · refine .inr fun f hf => View.used_iff.mpr ?_
    rw [lastUsed, show m.frames.entries.getLast? = some f from hf, Option.any_some,
      Bool.or_eq_true] at hlast
    exact hlast.resolve_right fun haccesses => hfirst ⟨f, hf, haccesses⟩

/-- A request leaves the page waiting, or it claims pages and takes the frame. -/
theorem renewed_between (hsound : m.Sound) (h : w.Between (m.view [] []))
    (hwatched : ¬w.Over (m.view [] [])) (hin : ¬w.Lost (m.view [] []))
    (hallowed : op.claims = true ∨ op.copies m visit = false ∧ m'.frames.size = m.frames.size)
    (hunused : op.accesses m w.entry.space w.entry.vpn = false)
    (hused : (w.renewed m m').orderly → op.clearsAccess m = false ∧
      ((m'.frames.turnover = m.frames.turnover ∨ m.frames.arrivals = w.start) ∨
        m.lastUsed op = true))
    (hstep : m.step? visit op = some m') :
    (w.renewed m m').Between (m'.view [] []) ∧ (w.Lost (m'.view [] []) → op.claims = true) := by
  have hwatch : (w.renewed m m').Between (m.view [] []) := h.renew hwatched And.intro _
  rcases Bool.eq_false_or_eq_true op.claims with hclaims | hclaims
  · refine ⟨claims_between ?_ hclaims hin hunused hstep, fun _ => hclaims⟩
    exact ready_or_first hwatch rfl fun horderly => (hused horderly).2
  · obtain ⟨hcopies, hsize⟩ := hallowed.resolve_left (by simp [hclaims])
    have hstays := stays_of_size hsound hwatch hclaims hcopies hsize
      (fun horderly => (hused horderly).1) hunused hstep
    exact ⟨hstays.between, fun hlost => (hin (hstays.lost hsound.consistent hlost)).elim⟩

theorem ne_discard_of_claims {child s : SpaceId} {vpn : VirtPage} {d : Deed}
    (hclaims : op.claims = true) (hd : d ∈ op.deeds child) : d ≠ .discard s vpn := by
  rintro rfl
  rcases Op.belongsTo_of_deeds hd with hremoves | ⟨-, t, rfl⟩
  · cases op with
    | claim | fault | setupStack | read | write => exact hremoves
    | _ => cases hclaims
  · cases hclaims

/-- A page that loses its frame while pages are claimed stays registered. -/
theorem exists_page_of_lost (hsound : m.Sound) (hin : ¬w.Lost (m.view [] []))
    (hclaims : op.claims = true) (hstep : m.step? visit op = some m')
    (hlost : w.Lost (m'.view [] [])) :
    ∃ page, m'.page? w.entry.space w.entry.vpn = some page ∧ page.frame = none := by
  have hregistered : m'.page? w.entry.space w.entry.vpn ≠ none :=
    (Op.finished hsound hstep).steps.page_ne_none (fun d hd => ne_discard_of_claims hclaims hd)
      fun hnone => hin (View.frame_of_none hnone)
  obtain ⟨page, hp⟩ := Option.ne_none_iff_exists'.mp hregistered
  exact ⟨page, hp, (View.frame_of_page (V := m'.view [] []) hp).symm.trans hlost⟩

/-- While frames are taken by claims alone, the page that waits is evicted at some point, or there
were not yet as many evictions as it does not survive. -/
theorem evicted_or_early (hsound : m.Sound) (h : w.Between (m.view [] []))
    (hwatched : ¬w.Over (m.view [] [])) (hin : ¬w.Lost (m.view [] []))
    (honly : m.claimsOnly requests = true) (halone : m.leavesAlone w.entry requests = true)
    (hused : w.orderly → m.claimsUsed w.entry w.start requests = true)
    (hrun : m.run? requests = some m') :
    (∃ before after m₁ page, requests = before ++ after ∧ m.run? before = some m₁ ∧
      m₁.page? w.entry.space w.entry.vpn = some page ∧ page.frame = none) ∨
      m'.frames.evictions < w.limit := by
  induction requests generalizing m w with
  | nil =>
      obtain rfl : m = m' := Option.some.inj hrun
      obtain ⟨_, -, hholds⟩ := h
      exact .inr ((hholds.waits.resolve_left hin).resolve_right hwatched).due.evictions_lt
  | cons request requests ih =>
      obtain ⟨visit, op⟩ := request
      rw [run?_cons] at hrun
      obtain ⟨m₁, hstep, hrun⟩ := Option.bind_eq_some_iff.mp hrun
      simp only [claimsOnly, hstep, Option.any_some, Bool.and_eq_true, Bool.or_eq_true,
        Bool.not_eq_true', beq_iff_eq] at honly
      obtain ⟨hallowed, honly⟩ := honly
      simp only [leavesAlone, hstep, Option.any_some, Bool.and_eq_true, Bool.not_eq_true'] at halone
      obtain ⟨hunused, halone⟩ := halone
      simp only [claimsUsed, hstep, Option.any_some, Bool.and_eq_true, Bool.or_eq_true,
        Bool.not_eq_true', List.contains_eq_mem, decide_eq_false_iff_not, beq_iff_eq] at hused
      have hsound₁ := (Op.finished hsound hstep).sound
      have hcondition : (w.renewed m m₁).orderly → op.clearsAccess m = false ∧
          ((m₁.frames.turnover = m.frames.turnover ∨ m.frames.arrivals = w.start) ∨
            m.lastUsed op = true) := fun horderly =>
        (hused horderly.1).1.resolve_left (not_not_intro horderly.2)
      obtain ⟨hbetween, hclaims⟩ :=
        renewed_between hsound h hwatched hin hallowed hunused hcondition hstep
      by_cases hlost : w.Lost (m₁.view [] [])
      · obtain ⟨page, hp, hframe⟩ := exists_page_of_lost hsound hin (hclaims hlost) hstep hlost
        refine .inl ⟨[(visit, op)], requests, m₁, page, rfl, ?_, hp, hframe⟩
        rw [run?_cons, hstep]
        rfl
      · rcases ih hsound₁ hbetween (Nat.lt_irrefl _) hlost honly halone
          (fun horderly => (hused horderly.1).2) hrun with
          ⟨before, after, m₂, page, rfl, hbefore, hp, hframe⟩ | hearly
        · refine .inl ⟨(visit, op) :: before, after, m₂, page, rfl, ?_, hp, hframe⟩
          rw [run?_cons, hstep]
          exact hbefore
        · exact .inr hearly

/-- In every machine that was booted and served requests, a page in a frame that is not accessed is
evicted within as many evictions as there are frames in use, while frames are taken by claims alone
and none is released, if the hand has yet to come to it in this round, or if each page that is
claimed is accessed before the next one is. -/
theorem evicted_within_round {frames : ℕ} {disk : Disk} {files : FileStore} {e : FrameEntry}
    {index : ℕ} (hframes : frames ≤ PageTable.Entry.frameBound)
    (hboot : (boot frames disk files).run? requests = some m)
    (hlisted : m.frames.entries[index]? = some e) (hidle : e.isAccessed m.spaces = false)
    (hrun : m.run? more = some m') (honly : m.claimsOnly more = true)
    (halone : m.leavesAlone e more = true)
    (hturn : m.frames.hand ≤ index ∨ m.claimsUsed e m.frames.arrivals more = true)
    (hround : m.frames.evictions + m.frames.size ≤ m'.frames.evictions) :
    ∃ before after m₁ page, more = before ++ after ∧ m.run? before = some m₁ ∧
      m₁.page? e.space e.vpn = some page ∧ page.frame = none := by
  have hsound := sound_of_run hframes hboot
  have hrests : m.frames.Rests := rests_run (sound_boot hframes disk files) (.inl rfl) hboot
  have hin : (m.view [] []).frame e.space e.vpn = some e.frame :=
    (hsound.consistent.listed e).mp (List.mem_of_getElem? hlisted)
  have hbetween := Watch.between_ofEntry hsound.consistent hrests hlisted hidle
  have hheld : ¬(Watch.ofEntry m e index).Lost (m.view [] []) := by
    simp [Watch.Lost, Watch.ofEntry, hin]
  rcases evicted_or_early hsound hbetween (Nat.lt_irrefl _) hheld honly halone
    (fun hpassed => hturn.resolve_left (Nat.not_le_of_lt hpassed)) hrun with hevicted | hearly
  · exact hevicted
  · exact absurd hround (Nat.not_le_of_lt hearly)

/-- Four pages are claimed in three frames. The first of them was accessed, so that the hand passes
it and takes the second one. -/
def passedByHand : List (Visit × Op) :=
  [.create, .alloc 0 ⟨pageSize⟩ true .zero .anon, .alloc 0 ⟨2 * pageSize⟩ true .zero .anon,
    .alloc 0 ⟨3 * pageSize⟩ true .zero .anon, .alloc 0 ⟨4 * pageSize⟩ true .zero .anon,
    .alloc 0 ⟨5 * pageSize⟩ true .zero .anon, .alloc 0 ⟨6 * pageSize⟩ true .zero .anon,
    .alloc 0 ⟨7 * pageSize⟩ true .zero .anon, .claim 0 ⟨pageSize⟩, .claim 0 ⟨2 * pageSize⟩,
    .claim 0 ⟨3 * pageSize⟩, .access 0 ⟨pageSize⟩ false, .claim 0 ⟨4 * pageSize⟩].map
      (Visit.ascending, ·)

/-- Three more pages are claimed, and each page is accessed before the next one is claimed, by the
processor or by a read. -/
def claimsWithAccesses : List (Visit × Op) :=
  [.access 0 ⟨4 * pageSize⟩ false, .claim 0 ⟨5 * pageSize⟩, .read 0 ⟨5 * pageSize⟩ #[0],
    .claim 0 ⟨6 * pageSize⟩, .read 0 ⟨6 * pageSize⟩ #[0], .claim 0 ⟨7 * pageSize⟩].map
      (Visit.ascending, ·)

/-- Three more pages are claimed, and none is accessed. -/
def claimsWithoutAccesses : List (Visit × Op) :=
  [.claim 0 ⟨5 * pageSize⟩, .claim 0 ⟨6 * pageSize⟩, .claim 0 ⟨7 * pageSize⟩].map
    (Visit.ascending, ·)

/-- The hand comes back to a page that it has passed when the pages that come in are accessed. -/
theorem evicted_within_round_behind : ∃ m m' e,
    (boot 3 (.zeroed 64) (.ofFiles #[])).run? passedByHand = some m ∧
      m.frames.entries[0]? = some e ∧ e.vpn = ⟨1⟩ ∧ m.frames.hand = 1 ∧
      m.run? claimsWithAccesses = some m' ∧
      ∃ before after m₁ page, claimsWithAccesses = before ++ after ∧ m.run? before = some m₁ ∧
        m₁.page? e.space e.vpn = some page ∧ page.frame = none := by
  have hserved : ((boot 3 (.zeroed 64) (.ofFiles #[])).run? passedByHand).any (fun m =>
      (m.frames.entries[0]?).any (fun e => decide (e.vpn = ⟨1⟩) && !e.isAccessed m.spaces &&
        m.leavesAlone e claimsWithAccesses &&
        m.claimsUsed e m.frames.arrivals claimsWithAccesses) &&
      decide (m.frames.hand = 1) && m.claimsOnly claimsWithAccesses &&
      (m.run? claimsWithAccesses).any fun m' =>
        decide (m.frames.evictions + m.frames.size ≤ m'.frames.evictions)) = true := by
    decide +kernel
  simp only [Option.any_eq_true, Bool.and_eq_true, Bool.not_eq_true', decide_eq_true_eq]
    at hserved
  obtain ⟨m, hboot, ⟨⟨⟨e, hlisted, ⟨⟨hvpn, hidle⟩, halone⟩, hused⟩, hhand⟩, honly⟩, m', hrun,
    hround⟩ := hserved
  exact ⟨m, m', e, hboot, hlisted, hvpn, hhand, hrun, evicted_within_round (by decide) hboot hlisted
    hidle hrun honly halone (.inr hused) hround⟩

/-- Pages that come in and are not accessed take each other's frames, and a page that is not
accessed either stays where it is, behind the hand. -/
theorem keepsFrame_behind : ∃ m m' e,
    (boot 3 (.zeroed 64) (.ofFiles #[])).run? passedByHand = some m ∧
      m.frames.size = m.pool.total ∧ m.frames.entries[0]? = some e ∧
      e.isAccessed m.spaces = false ∧ m.run? claimsWithoutAccesses = some m' ∧
      m.claimsOnly claimsWithoutAccesses = true ∧
      m.leavesAlone e claimsWithoutAccesses = true ∧
      m.frames.evictions + m.frames.size ≤ m'.frames.evictions ∧
      m.keepsFrame e.space e.vpn claimsWithoutAccesses = true := by
  have hserved : ((boot 3 (.zeroed 64) (.ofFiles #[])).run? passedByHand).any (fun m =>
      decide (m.frames.size = m.pool.total) &&
      (m.frames.entries[0]?).any (fun e => !e.isAccessed m.spaces &&
        m.leavesAlone e claimsWithoutAccesses &&
        m.keepsFrame e.space e.vpn claimsWithoutAccesses) &&
      m.claimsOnly claimsWithoutAccesses &&
      (m.run? claimsWithoutAccesses).any fun m' =>
        decide (m.frames.evictions + m.frames.size ≤ m'.frames.evictions)) = true := by
    decide +kernel
  simp only [Option.any_eq_true, Bool.and_eq_true, Bool.not_eq_true', decide_eq_true_eq]
    at hserved
  obtain ⟨m, hboot, ⟨⟨hfull, e, hlisted, ⟨hidle, halone⟩, hkept⟩, honly⟩, m', hrun, hround⟩ :=
    hserved
  exact ⟨m, m', e, hboot, hfull, hlisted, hidle, hrun, honly, halone, hround, hkept⟩

end Machine

end DemandPaging
