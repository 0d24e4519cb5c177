import DemandPaging.Panic
import Mathlib

/-! # Sessions

A component serves requests one after another until one panics. What every request keeps holds at
the end, and two components that end every request alike, from states that correspond, give the
same answers all along.
-/

namespace DemandPaging

/-- The answers to some requests, and the state that they leave. -/
structure Session (α σ : Type) where
  answers : List (Except Panic α)
  state : σ

namespace Session

variable {σ τ ρ α : Type} {serve : σ → ρ → Except Panic (α × σ)}
  {serve' : τ → ρ → Except Panic (α × τ)} {s : σ} {t : τ} {requests : List ρ}

/-- Serves requests one after another, up to the first that panics. -/
def run (serve : σ → ρ → Except Panic (α × σ)) (state : σ) : List ρ → Session α σ
  | [] => ⟨[], state⟩
  | request :: requests =>
    match serve state request with
    | .error panic => ⟨[.error panic], state⟩
    | .ok (answer, next) =>
      let rest := run serve next requests
      ⟨.ok answer :: rest.answers, rest.state⟩

/-- Every request is allowed in the state that it meets. -/
def Along (allowed : σ → ρ → Prop) (serve : σ → ρ → Except Panic (α × σ)) : σ → List ρ → Prop
  | _, [] => True
  | state, request :: requests =>
    allowed state request ∧
      match serve state request with
      | .error _ => True
      | .ok (_, next) => Along allowed serve next requests

instance Along.decidable {allowed : σ → ρ → Prop} [∀ state, DecidablePred (allowed state)] :
    ∀ (state : σ) (requests : List ρ), Decidable (Along allowed serve state requests)
  | _, [] => .isTrue trivial
  | state, request :: requests =>
    @instDecidableAnd _ _ inferInstance <|
      match serve state request with
      | .error _ => .isTrue trivial
      | .ok (_, next) => Along.decidable next requests

theorem run_cons_of_ok {request : ρ} {answer : α} {next : σ}
    (h : serve s request = .ok (answer, next)) (requests : List ρ) :
    run serve s (request :: requests) =
      ⟨.ok answer :: (run serve next requests).answers, (run serve next requests).state⟩ := by
  rw [run, h]

theorem run_cons_of_error {request : ρ} {panic : Panic} (h : serve s request = .error panic)
    (requests : List ρ) : run serve s (request :: requests) = ⟨[.error panic], s⟩ := by
  rw [run, h]

/-- What every request keeps is kept by a session. -/
theorem state_of_invariant (inv : σ → Prop)
    (hstep : ∀ {s request answer next}, inv s → serve s request = .ok (answer, next) → inv next)
    (requests : List ρ) (h : inv s) : inv (run serve s requests).state := by
  induction requests generalizing s with
  | nil => exact h
  | cons request requests ih =>
      cases hserve : serve s request with
      | error panic => rwa [run_cons_of_error hserve]
      | ok served =>
          rw [run_cons_of_ok hserve]
          exact ih (hstep h hserve)

/-- Two components end a request alike: with the same answer, in states that correspond, or with the
same panic. -/
inductive Alike (corresponds : σ → τ → Prop) :
    Except Panic (α × σ) → Except Panic (α × τ) → Prop where
  | answered (answer : α) {s : σ} {t : τ} (h : corresponds s t) :
      Alike corresponds (.ok (answer, s)) (.ok (answer, t))
  | panicked (panic : Panic) : Alike corresponds (.error panic) (.error panic)

/-- Components that end every request alike give the same answers all along. -/
theorem answers_eq_of_alike {corresponds : σ → τ → Prop}
    (hstep : ∀ {s t}, corresponds s t → ∀ request,
      Alike corresponds (serve s request) (serve' t request))
    (requests : List ρ) (h : corresponds s t) :
    (run serve s requests).answers = (run serve' t requests).answers ∧
      corresponds (run serve s requests).state (run serve' t requests).state := by
  induction requests generalizing s t with
  | nil => exact ⟨rfl, h⟩
  | cons request requests ih =>
      have halike := hstep h request
      generalize hserve : serve s request = first at halike
      generalize hserve' : serve' t request = first' at halike
      cases halike with
      | panicked panic =>
          rw [run_cons_of_error hserve, run_cons_of_error hserve']
          exact ⟨rfl, h⟩
      | answered answer hnext =>
          rw [run_cons_of_ok hserve, run_cons_of_ok hserve']
          obtain ⟨hanswers, hstate⟩ := ih hnext
          exact ⟨congrArg (.ok answer :: ·) hanswers, hstate⟩

end Session

end DemandPaging
