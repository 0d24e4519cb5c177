import DemandPaging.Proofs.Consistent

/-! # How actions end

An action ends with a value or with an error, and a statement about it says what holds in either
case. There is one panic that a sound request may end with: the swap area has no slot for a page
that has to leave its frame.
-/

namespace DemandPaging

/-- The view without one page, whose frame is held. -/
def Machine.without (m : Machine) (e : FrameEntry) (pins : List BackingId) : View :=
  { m.view [e.frame] pins with page := setAt m.page? e.space e.vpn none }

/-- An eviction stopped at an anonymous page: it is still in its frame, but listed and mapped no
more. All else agrees. -/
structure Machine.Stranded (m : Machine) (e : FrameEntry) : Prop where
  page : ∃ page, m.page? e.space e.vpn = some page ∧ page.vpn = e.vpn ∧
    page.frame = some e.frame ∧ page.kind = .anon none
  others : ∃ pins, (m.without e pins).Consistent

/-- Every swap slot holds an anonymous page of its own, and one more such page has to leave its
frame. -/
structure Machine.SwapExhausted (m : Machine) (e : FrameEntry) : Prop where
  held : ∀ slot < m.swap.slotCount, ∃ s vpn page, m.page? s vpn = some page ∧
    page.frame = none ∧ page.kind = .anon (some slot)
  stranded : m.Stranded e

/-- An action ends with a value or an error as described. If the request is sound, it panics at most
for want of a swap slot. -/
def Ends {α : Type} (sound : Prop) (action : MachineM α) (m : Machine)
    (ok : α → Machine → Prop) (failed : Errno → Machine → Prop) : Prop :=
  match action m with
  | .ok a m' => ok a m'
  | .error (.failed e) m' => failed e m'
  | .error (.panicked p) m' => sound → p = .outOfSwapSlots ∧ ∃ e, m'.SwapExhausted e

namespace MachineM

variable {α β : Type} {action : MachineM α} {next : α → MachineM β} {m m' : Machine}

theorem bind_of_ok {a : α} (h : action m = .ok a m') : (action >>= next) m = next a m' := by
  simp only [Bind.bind, EStateM.bind, h]

theorem bind_of_error {stop : Stop} (h : action m = .error stop m') :
    (action >>= next) m = .error stop m' := by
  simp only [Bind.bind, EStateM.bind, h]

theorem bind_eq_panicked {p : Panic} (h : (action >>= next) m = .error (.panicked p) m') :
    action m = .error (.panicked p) m' ∨
      ∃ a m₁, action m = .ok a m₁ ∧ next a m₁ = .error (.panicked p) m' := by
  cases hfirst : action m with
  | ok a m₁ =>
      rw [bind_of_ok hfirst] at h
      exact .inr ⟨a, m₁, rfl, h⟩
  | error stop m₁ =>
      obtain ⟨rfl, rfl⟩ := EStateM.Result.error.inj ((bind_of_error hfirst).symm.trans h)
      exact .inl rfl

theorem panicked_of_bind {p : Panic} {a : α} {m₁ : Machine} (hfirst : action m = .ok a m₁)
    (h : (action >>= next) m = .error (.panicked p) m') : next a m₁ = .error (.panicked p) m' := by
  rwa [bind_of_ok hfirst] at h

end MachineM

namespace Ends

variable {α β : Type} {sound : Prop} {action : MachineM α} {next : α → MachineM β} {m m' : Machine}
  {ok ok' : α → Machine → Prop} {okNext : β → Machine → Prop}
  {failed failed' : Errno → Machine → Prop} {a : α} {e : Errno} {p : Panic}

/-! ## Outcomes -/

theorem of_ok (h : action m = .ok a m') (hok : ok a m') : Ends sound action m ok failed := by
  simp only [Ends, h]
  exact hok

theorem of_failed (h : action m = .error (.failed e) m') (hfailed : failed e m') :
    Ends sound action m ok failed := by
  simp only [Ends, h]
  exact hfailed

theorem of_panicked (h : action m = .error (.panicked p) m')
    (hp : sound → p = .outOfSwapSlots ∧ ∃ e, m'.SwapExhausted e) :
    Ends sound action m ok failed := by
  simp only [Ends, h]
  exact hp

theorem ok_of_eq (h : Ends sound action m ok failed) (he : action m = .ok a m') : ok a m' := by
  simpa only [Ends, he] using h

theorem failed_of_eq (h : Ends sound action m ok failed)
    (he : action m = .error (.failed e) m') : failed e m' := by
  simpa only [Ends, he] using h

theorem panicked_of_eq (h : Ends sound action m ok failed)
    (he : action m = .error (.panicked p) m') :
    sound → p = .outOfSwapSlots ∧ ∃ e, m'.SwapExhausted e := by
  simpa only [Ends, he] using h

theorem of_eq {action' : MachineM α} (he : action m = action' m')
    (h : Ends sound action' m' ok failed) : Ends sound action m ok failed := by
  unfold Ends at h ⊢
  rwa [he]

theorem pure (h : ok a m) : Ends sound (Pure.pure a) m ok failed :=
  of_ok rfl h

theorem fail (h : failed e m) : Ends sound (MachineM.fail e) m ok failed :=
  of_failed rfl h

theorem panic (h : sound → False) : Ends sound (MachineM.panic p) m ok failed :=
  of_panicked rfl fun hs => (h hs).elim

theorem mono (h : Ends sound action m ok failed) (hok : ∀ a m', ok a m' → ok' a m')
    (hfailed : ∀ e m', failed e m' → failed' e m') : Ends sound action m ok' failed' := by
  unfold Ends at h ⊢
  split
  · next a m' he => exact hok a m' (by simpa only [he] using h)
  · next e m' he => exact hfailed e m' (by simpa only [he] using h)
  · next p m' he => simpa only [he] using h

theorem with_eq (h : Ends sound action m ok failed) :
    Ends sound action m (fun a m' => action m = .ok a m' ∧ ok a m')
      fun e m' => action m = .error (.failed e) m' ∧ failed e m' := by
  unfold Ends at h ⊢
  split
  · next a m' he => exact ⟨he, by simpa only [he] using h⟩
  · next e m' he => exact ⟨he, by simpa only [he] using h⟩
  · next p m' he => simpa only [he] using h

theorem and (h : Ends sound action m ok failed) (h' : Ends sound action m ok' failed') :
    Ends sound action m (fun a m' => ok a m' ∧ ok' a m')
      fun e m' => failed e m' ∧ failed' e m' := by
  unfold Ends at h h' ⊢
  split
  · next a m' he => exact ⟨by simpa only [he] using h, by simpa only [he] using h'⟩
  · next e m' he => exact ⟨by simpa only [he] using h, by simpa only [he] using h'⟩
  · next p m' he => simpa only [he] using h

/-! ## Sequences -/

theorem failed_eq (e : Errno) (m : Machine) :
    (MachineM.fail e : MachineM α) m = .error (.failed e) m := rfl

theorem bind (h : Ends sound action m ok failed)
    (hnext : ∀ a m', ok a m' → Ends sound (next a) m' okNext failed) :
    Ends sound (action >>= next) m okNext failed := by
  unfold Ends at h
  split at h
  · next a m' he =>
    have hend := hnext a m' h
    unfold Ends at hend ⊢
    rw [MachineM.bind_of_ok he]
    exact hend
  · next he => exact of_failed (MachineM.bind_of_error he) h
  · next he => exact of_panicked (MachineM.bind_of_error he) h

theorem bind_total (h : Ends sound action m ok fun _ _ => False)
    (hnext : ∀ a m', ok a m' → Ends sound (next a) m' okNext failed) :
    Ends sound (action >>= next) m okNext failed :=
  (h.mono (fun _ _ ha => ha) fun _ _ hf => hf.elim).bind hnext

theorem bind_ok (h : action m = .ok a m') (hnext : Ends sound (next a) m' okNext failed) :
    Ends sound (action >>= next) m okNext failed :=
  have hone : Ends sound action m (fun b m'' => b = a ∧ m'' = m') failed := of_ok h ⟨rfl, rfl⟩
  hone.bind fun _ _ he => by
    rw [he.1, he.2]
    exact hnext

theorem bind_failed (h : action m = .error (.failed e) m') (hfailed : failed e m') :
    Ends sound (action >>= next) m okNext failed :=
  have hone : Ends sound action m (fun _ _ => False) failed := of_failed h hfailed
  hone.bind fun _ _ he => he.elim

theorem map {f : α → β} (h : Ends sound action m (fun a m' => okNext (f a) m') failed) :
    Ends sound (f <$> action) m okNext failed := by
  have hm : f <$> action = action >>= fun a => Pure.pure (f a) := map_eq_pure_bind f action
  rw [hm]
  exact bind h fun a m' ha => pure ha

/-- An error that is handed to the caller is a value for what comes next. -/
theorem attempt {okTry : Except Errno α → Machine → Prop}
    (h : Ends sound action m (fun a m' => okTry (.ok a) m') fun e m' => okTry (.error e) m') :
    Ends sound (MachineM.attempt action) m okTry failed := by
  unfold Ends at h
  split at h
  · next a m' he =>
    have ha : MachineM.attempt action m = .ok (.ok a) m' := by simp only [MachineM.attempt, he]
    exact of_ok ha h
  · next e m' he =>
    have ha : MachineM.attempt action m = .ok (.error e) m' := by simp only [MachineM.attempt, he]
    exact of_ok ha h
  · next p m' he =>
    have ha : MachineM.attempt action m = .error (.panicked p) m' := by
      simp only [MachineM.attempt, he]
    exact of_panicked ha h

/-- Each round of a loop leaves what is said of the rounds that are left. -/
theorem forM_rest {body : α → MachineM PUnit} {list : List α} (inv : List α → Machine → Prop)
    (hbody : ∀ a rest m, inv (a :: rest) m →
      Ends sound (body a) m (fun _ m' => inv rest m') failed)
    (hinv : inv list m) : Ends sound (list.forM body) m (fun _ m' => inv [] m') failed := by
  induction list generalizing m with
  | nil => exact pure hinv
  | cons a list ih =>
      change Ends sound (body a >>= fun _ => list.forM body) m _ failed
      exact bind (hbody a list m hinv) fun _ m' hm' => ih hm'

theorem forM_panicked {body : α → MachineM PUnit} {list : List α} (inv : List α → Machine → Prop)
    (hbody : ∀ a rest m, inv (a :: rest) m →
      Ends sound (body a) m (fun _ m' => inv rest m') failed)
    (hinv : inv list m) (h : list.forM body m = .error (.panicked p) m') :
    ∃ a rest m₁, inv (a :: rest) m₁ ∧ body a m₁ = .error (.panicked p) m' := by
  induction list generalizing m with
  | nil => cases h
  | cons a list ih =>
      change (body a >>= fun _ => list.forM body) m = _ at h
      rcases MachineM.bind_eq_panicked h with hfirst | ⟨_, m₁, hfirst, hrest⟩
      · exact ⟨a, list, m, hinv, hfirst⟩
      · exact ih ((hbody a list m hinv).ok_of_eq hfirst) hrest

/-- What every round of a loop keeps holds when the loop ends. -/
theorem forM {body : α → MachineM PUnit} {list : List α} {inv : Machine → Prop}
    (hbody : ∀ a ∈ list, ∀ m, inv m → Ends sound (body a) m (fun _ m' => inv m') failed)
    (hinv : inv m) : Ends sound (list.forM body) m (fun _ m' => inv m') failed := by
  refine (forM_rest (fun rest m' => rest ⊆ list ∧ inv m') (fun a rest m' h => ?_)
    ⟨List.Subset.refl list, hinv⟩).mono (fun _ _ h => h.2) fun _ _ h => h
  obtain ⟨ha, hsub⟩ := List.cons_subset.mp h.1
  exact (hbody a ha m' h.2).mono (fun _ _ hm => ⟨hsub, hm⟩) fun _ _ hm => hm

end Ends

end DemandPaging
