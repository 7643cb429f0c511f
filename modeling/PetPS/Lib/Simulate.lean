import Mathlib.Data.List.Basic
import Mathlib.Data.Option.Basic

/-!
# Simulation of machines with outputs

A machine performs actions, each of which may be impossible and otherwise gives an output. A
relation between the states of two machines is a simulation when related states can do the same
actions, with the same outputs and related states afterwards. Related machines then have the same
outputs for every list of actions, and stop at the same action.

## Main results

* `Simulates.exec` — a run of one machine is a run of the other
* `Simulates.outputs_eq` — the outputs are the same
* `Simulates.observe_eq` — so is what is observed, where related states look the same
-/

namespace Simulate

variable {σ τ α β γ : Type}

/-- Perform the actions from left to right and collect the outputs. -/
def exec (step : σ → α → Option (σ × β)) : σ → List α → Option (σ × List β)
  | s, [] => some (s, [])
  | s, a :: as => (step s a).bind fun r => (exec step r.1 as).map fun q => (q.1, r.2 :: q.2)

/-- What is observed where the actions are performed, as long as they are possible. -/
def observe (step : σ → α → Option (σ × β)) (obs : σ → α → List γ) : σ → List α → List γ
  | _, [] => []
  | s, a :: as => obs s a ++ (step s a).elim [] fun r => observe step obs r.1 as

/-- Related states do the same. -/
structure Simulates (step : σ → α → Option (σ × β)) (step' : τ → α → Option (τ × β))
    (R : σ → τ → Prop) : Prop where
  next : ∀ {s t a s' b}, R s t → step s a = some (s', b) → ∃ t', step' t a = some (t', b) ∧ R s' t'
  stuck : ∀ {s t a}, R s t → step s a = none → step' t a = none

variable {step : σ → α → Option (σ × β)} {step' : τ → α → Option (τ × β)} {R : σ → τ → Prop}

/-- A step of two related machines at once. -/
theorem simulates_of_step (h : ∀ s t a, R s t → (step s a = none ∧ step' t a = none) ∨
    ∃ s' t' b, step s a = some (s', b) ∧ step' t a = some (t', b) ∧ R s' t') :
    Simulates step step' R := by
  refine ⟨fun {s t a s' b} hR hs => ?_, fun {s t a} hR hs => ?_⟩
  · rcases h s t a hR with ⟨hnone, -⟩ | ⟨s₁, t₁, c, hsome, hsome', hR'⟩
    · rw [hnone] at hs
      cases hs
    · rw [hsome] at hs
      cases hs
      exact ⟨t₁, hsome', hR'⟩
  · rcases h s t a hR with ⟨-, hnone⟩ | ⟨s₁, t₁, c, hsome, -, -⟩
    · exact hnone
    · rw [hsome] at hs
      cases hs

theorem exec_cons {s s' : σ} {a : α} {as : List α} {bs : List β} :
    exec step s (a :: as) = some (s', bs) ↔
      ∃ s₁ b cs, step s a = some (s₁, b) ∧ exec step s₁ as = some (s', cs) ∧ bs = b :: cs := by
  rw [exec, Option.bind_eq_some_iff]
  constructor
  · rintro ⟨⟨s₁, b⟩, hstep, hrest⟩
    obtain ⟨⟨s₂, cs⟩, hexec, heq⟩ := Option.map_eq_some_iff.mp hrest
    obtain ⟨rfl, rfl⟩ := Prod.mk.inj heq
    exact ⟨s₁, b, cs, hstep, hexec, rfl⟩
  · rintro ⟨s₁, b, cs, hstep, hexec, rfl⟩
    exact ⟨(s₁, b), hstep, Option.map_eq_some_iff.mpr ⟨(s', cs), hexec, rfl⟩⟩

/-- **A run of one machine is a run of the other.** -/
theorem Simulates.exec (hsim : Simulates step step' R) {s s' : σ} {t : τ} {as : List α}
    {bs : List β} (hR : R s t) (h : exec step s as = some (s', bs)) :
    ∃ t', Simulate.exec step' t as = some (t', bs) ∧ R s' t' := by
  induction as generalizing s t bs with
  | nil =>
    cases h
    exact ⟨t, rfl, hR⟩
  | cons a as ih =>
    obtain ⟨s₁, b, cs, hstep, hrest, rfl⟩ := exec_cons.mp h
    obtain ⟨t₁, hstep', hR₁⟩ := hsim.next hR hstep
    obtain ⟨t', hrest', hR'⟩ := ih hR₁ hrest
    exact ⟨t', exec_cons.mpr ⟨t₁, b, cs, hstep', hrest', rfl⟩, hR'⟩

/-- A run that stops. -/
theorem Simulates.exec_eq_none (hsim : Simulates step step' R) {s : σ} {t : τ} {as : List α}
    (hR : R s t) (h : Simulate.exec step s as = none) : Simulate.exec step' t as = none := by
  induction as generalizing s t with
  | nil => cases h
  | cons a as ih =>
    rcases hstep : step s a with _ | ⟨s₁, b⟩
    · rw [Simulate.exec, hsim.stuck hR hstep]
      rfl
    · obtain ⟨t₁, hstep', hR₁⟩ := hsim.next hR hstep
      rw [Simulate.exec, hstep, Option.bind_some, Option.map_eq_none_iff] at h
      rw [Simulate.exec, hstep', Option.bind_some, Option.map_eq_none_iff]
      exact ih hR₁ h

/-- **The outputs are the same.** -/
theorem Simulates.outputs_eq (hsim : Simulates step step' R) {s : σ} {t : τ} (hR : R s t)
    (as : List α) :
    (Simulate.exec step s as).map Prod.snd = (Simulate.exec step' t as).map Prod.snd := by
  rcases h : Simulate.exec step s as with _ | ⟨s', bs⟩
  · rw [hsim.exec_eq_none hR h]
    rfl
  · obtain ⟨t', h', -⟩ := hsim.exec hR h
    rw [h']
    rfl

/-- **What is observed is the same.** -/
theorem Simulates.observe_eq (hsim : Simulates step step' R) {obs : σ → α → List γ}
    {obs' : τ → α → List γ} (hobs : ∀ s t a, R s t → obs s a = obs' t a) {s : σ} {t : τ}
    (hR : R s t) (as : List α) : observe step obs s as = observe step' obs' t as := by
  induction as generalizing s t with
  | nil => rfl
  | cons a as ih =>
    rw [observe, observe, hobs s t a hR]
    rcases hstep : step s a with _ | ⟨s₁, b⟩
    · rw [hsim.stuck hR hstep]
      rfl
    · obtain ⟨t₁, hstep', hR₁⟩ := hsim.next hR hstep
      rw [hstep']
      exact congrArg _ (ih hR₁)

end Simulate
