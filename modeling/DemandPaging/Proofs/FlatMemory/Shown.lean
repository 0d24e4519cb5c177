import DemandPaging.Proofs.Contents
import DemandPaging.Proofs.FlatMemory.Basic
import DemandPaging.Proofs.Runs

/-! # Flat memory as pages show it

A machine shows flat memory if every registered page has the known bytes. Pages keep what they show
while others come and go, and a page that is registered anew shows zeros or what it was copied from.
-/

namespace DemandPaging

namespace View

variable {V W : View} {memory other : Flat} {s : SpaceId} {vpn : VirtPage}

/-- A page has the bytes that are known of its addresses. -/
def ShowsAt (V : View) (memory : Flat) (s : SpaceId) (vpn : VirtPage) : Prop :=
  ∀ i < pageSize, ∀ byte, memory s (vpn.number * pageSize + i) = some byte →
    ∃ bytes, V.contents s vpn = some bytes ∧ bytes[i]? = some byte

/-- The registered pages have the bytes that are known. -/
def Shows (V : View) (memory : Flat) : Prop :=
  ∀ s vpn, V.page s vpn ≠ none → V.ShowsAt memory s vpn

/-- Nothing but zeros is known of pages that are not registered. -/
def Blank (V : View) (memory : Flat) : Prop :=
  ∀ s vpn, V.page s vpn = none → ∀ i < pageSize, ∀ byte,
    memory s (vpn.number * pageSize + i) = some byte → byte = 0

/-- A machine whose records agree shows flat memory, and is ready to show zeros in other pages. -/
structure Refines (V : View) (memory : Flat) : Prop where
  consistent : V.Consistent
  shows : V.Shows memory
  blank : V.Blank memory

theorem ShowsAt.congr (h : V.ShowsAt memory s vpn)
    (hbytes : ∀ bytes, V.contents s vpn = some bytes → W.contents s vpn = some bytes) :
    W.ShowsAt memory s vpn := by
  intro i hi byte hbyte
  obtain ⟨bytes, hshown, hget⟩ := h i hi byte hbyte
  exact ⟨bytes, hbytes bytes hshown, hget⟩

theorem Shows.mono (h : V.Shows memory)
    (hle : ∀ s addr byte, other s addr = some byte → memory s addr = some byte) :
    V.Shows other := by
  intro s vpn hp i hi byte hbyte
  exact h s vpn hp i hi byte (hle s _ byte hbyte)

theorem showsAt_zero (hzero : V.contents s vpn = some PageBytes.zero)
    (hbytes : ∀ i < pageSize, ∀ byte, memory s (vpn.number * pageSize + i) = some byte → byte = 0) :
    V.ShowsAt memory s vpn := by
  intro i hi byte hbyte
  refine ⟨PageBytes.zero, hzero, ?_⟩
  rw [hbytes i hi byte hbyte]
  simp [PageBytes.zero, PageBytes.filled, hi]

theorem Shows.getElem?_load (hshows : V.Shows memory) (h : V.Consistent) {page : Page}
    {frame : Frame} {bytes : PageBytes} (hp : V.page s vpn = some page)
    (hframe : page.frame = some frame) (hload : V.pool.load frame = .ok bytes) {i : ℕ}
    (hi : i < pageSize) {byte : UInt8}
    (hbyte : memory s (vpn.number * pageSize + i) = some byte) :
    V.contents s vpn = some bytes ∧ bytes[i]? = some byte := by
  obtain ⟨shown, hshown, hget⟩ := hshows s vpn (by simp [hp]) i hi byte hbyte
  have hloaded := h.load_of_contents hp hframe hshown
  obtain rfl : bytes = shown := Except.ok.inj (hload.symm.trans hloaded)
  exact ⟨hshown, hget⟩

end View

/-! ## Single steps -/

section

variable {V W : View} {memory : Flat} {d : Deed}

/-- Old pages show what they showed, and new pages are for the caller to look at. -/
theorem Step.shows (hstep : Step d V W) (h : V.Consistent) (hshows : V.Shows memory)
    (hstore : ∀ s vpn, d ≠ .store s vpn)
    (hnew : ∀ s vpn page, V.page s vpn = none → W.page s vpn = some page →
      W.ShowsAt memory s vpn) : W.Shows memory := by
  intro s vpn hp
  cases hold : V.page s vpn with
  | none =>
      obtain ⟨page, hpage⟩ := Option.ne_none_iff_exists'.mp hp
      exact hnew s vpn page hold hpage
  | some page =>
      have hkept : d ≠ .discard s vpn := by
        intro hd
        subst hd
        exact hp hstep.page_eq_none
      apply (hshows s vpn (by simp [hold])).congr
      intro bytes hbytes
      exact hstep.contents_eq h (hstore s vpn) hkept hbytes

/-- Pages are registered to start as zeros, and nothing is stored to pages. -/
def Deed.OnlyZeros : Deed → Prop
  | .register _ page => page.kind = .uninit .zero
  | .adopt _ _ | .inherit _ _ _ | .copy _ _ _ | .discard _ _ | .store _ _ => False
  | _ => True

/-- No page is registered, and nothing is stored to pages. -/
def Deed.AddsNoPage : Deed → Prop
  | .register _ _ | .adopt _ _ | .inherit _ _ _ | .copy _ _ _ | .store _ _ => False
  | _ => True

theorem Deed.OnlyZeros.keepsPages (hd : d.OnlyZeros) : d.KeepsPages := by
  cases d <;> trivial

theorem Step.refines (hstep : Step d V W) (hd : d.OnlyZeros) (h : V.Refines memory) :
    W.Refines memory := by
  refine ⟨hstep.consistent h.consistent, ?_, ?_⟩
  · apply hstep.shows h.consistent h.shows
    · rintro s vpn rfl
      exact hd
    · intro s vpn page hnone hsome
      rcases hstep.page_new h.consistent hnone hsome with ⟨writable, touch, rfl, rfl | rfl⟩ |
        ⟨src, rfl | rfl, -⟩
      · obtain rfl : touch = .zero := PageKind.uninit.inj hd
        exact View.showsAt_zero (View.contents_untouched hsome) (h.blank s vpn hnone)
      · exact hd.elim
      · exact hd.elim
      · exact hd.elim
  · intro s vpn hnone
    apply h.blank s vpn
    by_contra hne
    exact hstep.page_ne_none (hd.keepsPages.ne_discard s vpn) hne hnone

theorem Step.shows_of_addsNoPage (hstep : Step d V W) (hd : d.AddsNoPage) (h : V.Consistent)
    (hshows : V.Shows memory) : W.Shows memory := by
  apply hstep.shows h hshows
  · intro s vpn he
    subst he
    exact hd
  · intro s vpn page hnone hsome
    rcases hstep.page_new h hnone hsome with ⟨writable, touch, -, rfl | rfl⟩ | ⟨src, rfl | rfl, -⟩
    · exact hd.elim
    · exact hd.elim
    · exact hd.elim
    · exact hd.elim

end

/-! ## Sequences of steps -/

section

variable {V W : View} {memory : Flat} {deeds : Set Deed}

theorem Steps.refines (hsteps : Steps deeds V W) (hd : ∀ d ∈ deeds, d.OnlyZeros)
    (h : V.Refines memory) : W.Refines memory :=
  hsteps.invariant (fun U => U.Refines memory)
    (fun d hmem _ _ hstep hU => hstep.refines (hd d hmem) hU) h

theorem Steps.shows_of_addsNoPage (hsteps : Steps deeds V W) (hd : ∀ d ∈ deeds, d.AddsNoPage)
    (h : V.Consistent) (hshows : V.Shows memory) : W.Shows memory := by
  have hinv : W.Consistent ∧ W.Shows memory := by
    apply hsteps.invariant (fun U => U.Consistent ∧ U.Shows memory)
    · intro d hmem U U' hstep hU
      exact ⟨hstep.consistent hU.1, hstep.shows_of_addsNoPage (hd d hmem) hU.1 hU.2⟩
    · exact ⟨h, hshows⟩
  exact hinv.2

end

/-! ## Pages of files -/

section

variable {U V W : View} {memory : Flat} {d : Deed} {deeds : Set Deed}

/-- Pages are registered, and nothing else happens to pages. -/
def Deed.Registers : Deed → Prop
  | .register _ _ | .adopt _ _ | .pin _ | .unpin _ => True
  | _ => False

/-- The old pages show what they showed, and the new ones were never touched. -/
structure View.Extends (U V : View) (memory : Flat) : Prop where
  old : ∀ s vpn, V.page s vpn ≠ none → U.page s vpn ≠ none ∧ U.ShowsAt memory s vpn
  new : ∀ s vpn page, V.page s vpn = none → U.page s vpn = some page →
    ∃ writable touch, page = .untouched vpn writable touch

theorem Step.extends (hstep : Step d U W) (hd : d.Registers) (h : U.Consistent)
    (hext : U.Extends V memory) : W.Extends V memory := by
  have hkeeps : d.KeepsPages := by
    cases d <;> trivial
  constructor
  · intro s vpn hold
    obtain ⟨hp, hshows⟩ := hext.old s vpn hold
    refine ⟨hstep.page_ne_none (hkeeps.ne_discard s vpn) hp, hshows.congr fun bytes hbytes => ?_⟩
    apply hstep.contents_eq h ?_ ?_ hbytes
    · rintro rfl
      exact hd
    · rintro rfl
      exact hd
  · intro s vpn page hold hsome
    cases hp : U.page s vpn with
    | some before =>
        have hpage : W.page s vpn = U.page s vpn := by
          cases hstep with
          | register live fresh =>
              apply setAt_of_ne
              rintro ⟨rfl, rfl⟩
              cases fresh.symm.trans hp
          | adopt live fresh =>
              apply setAt_of_ne
              rintro ⟨rfl, rfl⟩
              cases fresh.symm.trans hp
          | pin => rfl
          | unpin => rfl
          | _ => exact hd.elim
        exact hext.new s vpn page hold (hpage.symm.trans hsome)
    | none =>
        rcases hstep.page_new h hp hsome with ⟨writable, touch, rfl, -⟩ | ⟨src, rfl | rfl, -⟩
        · exact ⟨writable, touch, rfl⟩
        · exact hd.elim
        · exact hd.elim

theorem Steps.extends (hsteps : Steps deeds V W) (hd : ∀ d ∈ deeds, d.Registers)
    (h : V.Consistent) (hshows : V.Shows memory) : W.Extends V memory := by
  have hstart : V.Extends V memory := by
    refine ⟨fun s vpn hp => ⟨hp, hshows s vpn hp⟩, fun s vpn page hnone hsome => ?_⟩
    cases hnone.symm.trans hsome
  have hinv : W.Consistent ∧ W.Extends V memory := by
    apply hsteps.invariant (fun U => U.Consistent ∧ U.Extends V memory)
    · intro d hmem U U' hstep hU
      exact ⟨hstep.consistent hU.1, hstep.extends (hd d hmem) hU.1 hU.2⟩
    · exact ⟨h, hstart⟩
  exact hinv.2

/-! ## Pages of another address space -/

variable {dst src : SpaceId}

/-- New pages are copies of one address space in another, and only copies are removed. -/
def Deed.CopiesTo (dst src : SpaceId) : Deed → Prop
  | .inherit t u _ | .copy t u _ => t = dst ∧ u = src
  | .discard t _ => t = dst
  | .register _ _ | .adopt _ _ | .store _ _ => False
  | _ => True

/-- Flat memory in which an address space has the bytes of another where it had no page. -/
def Flat.copied (memory : Flat) (V : View) (dst src : SpaceId) : Flat := fun s addr =>
  if s = dst ∧ V.page s (pageOf addr) = none then memory src addr else memory s addr

/-- The copies show what the other address space shows. -/
structure View.Copies (U V : View) (memory : Flat) (dst src : SpaceId) : Prop where
  shows : U.Shows (memory.copied V dst src)
  kept : ∀ vpn, V.page dst vpn ≠ none → U.page dst vpn ≠ none
  others : ∀ s vpn, s ≠ dst → U.page s vpn ≠ none → V.page s vpn ≠ none

theorem Step.copies (hstep : Step d U W) (hd : d.CopiesTo dst src)
    (hkept : d.KeepsPages ∨ ∀ vpn, V.page dst vpn = none) (h : U.Consistent)
    (hcopies : U.Copies V memory dst src) : W.Copies V memory dst src := by
  constructor
  · apply hstep.shows h hcopies.shows
    · rintro s vpn rfl
      exact hd
    · intro s vpn page hnone hsome i hi byte hbyte
      rcases hstep.page_new h hnone hsome with ⟨writable, touch, -, rfl | rfl⟩ |
        ⟨source, hdeed, hp, hbytes⟩
      · exact hd.elim
      · exact hd.elim
      · obtain ⟨rfl, rfl⟩ : s = dst ∧ source = src := by
          rcases hdeed with rfl | rfl
          · exact hd
          · exact hd
        have hold : V.page s vpn = none := by
          by_contra hne
          exact hcopies.kept vpn hne hnone
        have hbyte' : memory source (vpn.number * pageSize + i) = some byte := by
          rwa [Flat.copied, pageOf_number_mul_add vpn hi, if_pos ⟨rfl, hold⟩] at hbyte
        have hfrom : memory.copied V s source source (vpn.number * pageSize + i) = some byte := by
          rwa [Flat.copied, ite_self]
        obtain ⟨bytes, hshown, hget⟩ := hcopies.shows source vpn hp i hi byte hfrom
        exact ⟨bytes, hbytes bytes hshown, hget⟩
  · intro vpn hold
    rcases hkept with hkeeps | hempty
    · exact hstep.page_ne_none (hkeeps.ne_discard dst vpn) (hcopies.kept vpn hold)
    · exact (hold (hempty vpn)).elim
  · intro s vpn hs hp hold
    have hnone : U.page s vpn = none := by
      by_contra hne
      exact hcopies.others s vpn hs hne hold
    obtain ⟨page, hsome⟩ := Option.ne_none_iff_exists'.mp hp
    rcases hstep.page_new h hnone hsome with ⟨writable, touch, -, rfl | rfl⟩ |
      ⟨source, rfl | rfl, -⟩
    · exact hd.elim
    · exact hd.elim
    · exact hs hd.1
    · exact hs hd.1

theorem Steps.copies (hsteps : Steps deeds V W) (hd : ∀ d ∈ deeds, d.CopiesTo dst src)
    (hkept : (∀ d ∈ deeds, d.KeepsPages) ∨ ∀ vpn, V.page dst vpn = none) (h : V.Consistent)
    (hshows : V.Shows memory) : W.Copies V memory dst src := by
  have hstart : V.Copies V memory dst src := by
    refine ⟨fun s vpn hp => ?_, fun vpn hp => hp, fun s vpn _ hp => hp⟩
    intro i hi byte hbyte
    rw [Flat.copied, pageOf_number_mul_add vpn hi, if_neg fun he => hp he.2] at hbyte
    exact hshows s vpn hp i hi byte hbyte
  have hinv : W.Consistent ∧ W.Copies V memory dst src := by
    apply hsteps.invariant (fun U => U.Consistent ∧ U.Copies V memory dst src)
    · intro d hmem U U' hstep hU
      have hkept' : d.KeepsPages ∨ ∀ vpn, V.page dst vpn = none :=
        hkept.imp_left fun hkeeps => hkeeps d hmem
      exact ⟨hstep.consistent hU.1, hstep.copies (hd d hmem) hkept' hU.1 hU.2⟩
    · exact ⟨h, hstart⟩
  exact hinv.2

end

/-! ## Requests -/

theorem Machine.page_ne_none_of_step {m m' : Machine} {visit : Visit} {op : Op} {s : SpaceId}
    {vpn : VirtPage} (h : m.Sound) (hstep : m.step? visit op = some m')
    (hkept : ¬op.Removes s vpn) (hp : m.page? s vpn ≠ none) : m'.page? s vpn ≠ none := by
  apply (Op.finished h hstep).steps.page_ne_none _ hp
  rintro d hd rfl
  rcases Op.belongsTo_of_deeds hd with hremoves | ⟨rfl, -⟩
  · exact hkept hremoves
  · exact hp (page?_eq_none (MachineM.space?_nextSpace h.fresh) _)

end DemandPaging
