import Mathlib.Data.List.Basic
import Mathlib.Data.Option.Basic

/-!
# Runs of a partial step function

`step s a` is the state after action `a` in state `s`, or `none` when the action is not possible
there or does not return. `run step s as` performs the actions one after another. A call that may
fail is a step when its error is dropped, by `Except.toOption`.

Invariants of runs are stated over the state and the history of actions that led to it, so that what
an abstract specification says about the same actions is part of the invariant.
`Guarded step G s as` says that every action of a run meets a condition `G` in the state in which it
is performed; nothing is asked of a run after it has stopped.

## Main results

* `run_history` — a relation that each step preserves holds at the end of a run
* `run_total` — when each guarded step is also possible, the run completes
* `run_length_le` — a measure that every step lowers bounds the runs
* `exists_run_of_progress` — a run to a goal, from steps that come nearer to it
-/

namespace Run

/-! ### Calls that may fail -/

section Except

variable {ε α β : Type}

theorem eq_ok_of_toOption {r : Except ε α} {a : α} (h : r.toOption = some a) : r = .ok a := by
  cases r with
  | error e => simp [Except.toOption] at h
  | ok b => simpa [Except.toOption] using h

theorem ok_of_map_ok {f : α → β} {r : Except ε α} {b : β} (h : r.map f = .ok b) :
    ∃ a, r = .ok a ∧ f a = b := by
  cases r with
  | error e => cases h
  | ok a => exact ⟨a, rfl, Except.ok.inj h⟩

end Except

/-! ### Runs -/

variable {σ α : Type}

/-- Perform the actions from left to right. -/
def run (step : σ → α → Option σ) (s : σ) : List α → Option σ
  | [] => some s
  | a :: as => (step s a).bind fun s' => run step s' as

variable {step : σ → α → Option σ}

@[simp] theorem run_nil (s : σ) : run step s [] = some s := rfl

theorem run_cons (s : σ) (a : α) (as : List α) :
    run step s (a :: as) = (step s a).bind fun s' => run step s' as := rfl

theorem run_append (s : σ) (as bs : List α) :
    run step s (as ++ bs) = (run step s as).bind fun s' => run step s' bs := by
  induction as generalizing s with
  | nil => rfl
  | cons a as ih =>
    rw [List.cons_append, run_cons, run_cons, Option.bind_assoc]
    exact Option.bind_congr fun s' _ => ih s'

/-- A run that completes has completed its first part. -/
theorem exists_of_run_append {s s'' : σ} {as bs : List α} (h : run step s (as ++ bs) = some s'') :
    ∃ s', run step s as = some s' ∧ run step s' bs = some s'' := by
  rw [run_append] at h
  exact Option.bind_eq_some_iff.mp h

/-- A run that completes comes to each of its actions, in a state in which the action is
possible. -/
theorem exists_step_of_mem {s s' : σ} {as : List α} {a : α} (hrun : run step s as = some s')
    (ha : a ∈ as) : ∃ before after s₁ s₂, as = before ++ a :: after ∧
      run step s before = some s₁ ∧ step s₁ a = some s₂ := by
  obtain ⟨before, after, rfl⟩ := List.append_of_mem ha
  obtain ⟨s₁, hbefore, hafter⟩ := exists_of_run_append hrun
  obtain ⟨s₂, hstep, -⟩ := Option.bind_eq_some_iff.mp hafter
  exact ⟨before, after, s₁, s₂, rfl, hbefore, hstep⟩

theorem run_concat {s s' s'' : σ} {as : List α} {a : α} (h : run step s as = some s')
    (ha : step s' a = some s'') : run step s (as ++ [a]) = some s'' := by
  rw [run_append, h, Option.bind_some, run_cons, ha]
  rfl

/-- Every action of the run meets `G` in the state in which it is performed. -/
def Guarded (step : σ → α → Option σ) (G : σ → α → Prop) (s : σ) : List α → Prop
  | [] => True
  | a :: as => G s a ∧ ∀ s' ∈ step s a, Guarded step G s' as

variable {G : σ → α → Prop}

instance Guarded.decidable [∀ s a, Decidable (G s a)] :
    ∀ (s : σ) (as : List α), Decidable (Guarded step G s as)
  | _, [] => inferInstanceAs (Decidable True)
  | s, a :: as =>
    have : DecidablePred fun s' => Guarded step G s' as := fun s' => Guarded.decidable s' as
    inferInstanceAs (Decidable (G s a ∧ ∀ s' ∈ step s a, Guarded step G s' as))

/-- The guards of a run that comes to its second action. -/
theorem guarded_cons {s s' : σ} {a : α} {as : List α} (h : step s a = some s') :
    Guarded step G s (a :: as) ↔ G s a ∧ Guarded step G s' as := by
  simp only [Guarded, Option.mem_def, h, Option.some.injEq, forall_eq']

theorem Guarded.append {s : σ} {as bs : List α} (h : Guarded step G s (as ++ bs)) :
    Guarded step G s as ∧ ∀ s' ∈ run step s as, Guarded step G s' bs := by
  induction as generalizing s with
  | nil => exact ⟨trivial, fun s' hs' => Option.some.inj hs' ▸ h⟩
  | cons a as ih =>
    refine ⟨⟨h.1, fun s' hs' => (ih (h.2 s' hs')).1⟩, fun s'' hs'' => ?_⟩
    obtain ⟨s', hs', hrun⟩ := Option.bind_eq_some_iff.mp hs''
    exact (ih (h.2 s' hs')).2 s'' hrun

theorem guarded_concat {s s' : σ} {as : List α} (h : run step s as = some s') (a : α) :
    Guarded step G s (as ++ [a]) ↔ Guarded step G s as ∧ G s' a := by
  induction as generalizing s with
  | nil =>
    cases h
    exact ⟨fun hg => ⟨trivial, hg.1⟩, fun hg => ⟨hg.2, fun _ _ => trivial⟩⟩
  | cons b as ih =>
    obtain ⟨s₁, hs₁, hrun⟩ := Option.bind_eq_some_iff.mp h
    simp only [List.cons_append, Guarded, Option.mem_def, hs₁, Option.some.injEq,
      forall_eq', ih hrun,
      and_assoc]

theorem Guarded.mono {G' : σ → α → Prop} (hG : ∀ s a, G s a → G' s a) {s : σ} {as : List α}
    (h : Guarded step G s as) : Guarded step G' s as := by
  induction as generalizing s with
  | nil => trivial
  | cons a as ih => exact ⟨hG s a h.1, fun s' hs' => ih (h.2 s' hs')⟩

/-- A run that completes has come to each of its actions. -/
theorem Guarded.exists_of_mem {s s' : σ} {as : List α} (h : Guarded step G s as)
    (hrun : run step s as = some s') {a : α} (ha : a ∈ as) : ∃ s₁, G s₁ a := by
  induction as generalizing s with
  | nil => cases ha
  | cons b as ih =>
    obtain ⟨s₁, hs₁, hrun₁⟩ := Option.bind_eq_some_iff.mp hrun
    rcases List.mem_cons.mp ha with rfl | ha
    · exact ⟨s, h.1⟩
    · exact ih (h.2 s₁ hs₁) hrun₁ ha

/-- A condition on the actions alone can be added to a guard. -/
theorem Guarded.and_of_forall {Q : α → Prop} {s : σ} {as : List α} (h : Guarded step G s as)
    (hQ : ∀ a ∈ as, Q a) : Guarded step (fun s a => Q a ∧ G s a) s as := by
  induction as generalizing s with
  | nil => trivial
  | cons a as ih =>
    refine ⟨⟨hQ a List.mem_cons_self, h.1⟩, fun s' hs' => ?_⟩
    exact ih (h.2 s' hs') fun b hb => hQ b (List.mem_cons_of_mem a hb)

theorem guarded_of_forall (hG : ∀ s a, G s a) (s : σ) (as : List α) : Guarded step G s as := by
  induction as generalizing s with
  | nil => trivial
  | cons a as ih => exact ⟨hG s a, fun s' _ => ih s'⟩

/-- The last action on `k`, where `key` says what an action works on. -/
def lastOn {κ : Type} [BEq κ] (key : α → κ) (as : List α) (k : κ) : Option α :=
  as.reverse.find? fun a => key a == k

theorem lastOn_concat {κ : Type} [BEq κ] [LawfulBEq κ] [DecidableEq κ] (key : α → κ) (as : List α)
    (a : α) (k : κ) :
    lastOn key (as ++ [a]) k = if key a = k then some a else lastOn key as k := by
  simp only [lastOn, List.reverse_append, List.reverse_singleton, List.singleton_append,
    List.find?_cons]
  by_cases h : key a = k
  · rw [if_pos h, beq_iff_eq.mpr h]
  · rw [if_neg h, beq_false_of_ne h]

theorem lastOn_eq_none {κ : Type} [BEq κ] [LawfulBEq κ] {key : α → κ} {as : List α} {k : κ} :
    lastOn key as k = none ↔ ∀ a ∈ as, key a ≠ k := by
  simp [lastOn]

theorem key_of_lastOn {κ : Type} [BEq κ] [LawfulBEq κ] {key : α → κ} {as : List α} {k : κ} {a : α}
    (h : lastOn key as k = some a) : key a = k := by
  simpa using List.find?_some h

/-- **Invariants of runs.** A relation between the history and the state that every guarded step
preserves holds at the end of a guarded run. -/
theorem run_history {P : List α → σ → Prop}
    (hstep : ∀ hist s a s', P hist s → G s a → step s a = some s' → P (hist ++ [a]) s')
    (hist : List α) {s s' : σ} {as : List α} (h : P hist s) (hg : Guarded step G s as)
    (hrun : run step s as = some s') : P (hist ++ as) s' := by
  induction as generalizing hist s with
  | nil =>
    rw [List.append_nil]
    exact Option.some.inj hrun ▸ h
  | cons a as ih =>
    obtain ⟨s₁, hs₁, hrun₁⟩ := Option.bind_eq_some_iff.mp hrun
    have := ih _ (hstep _ _ _ _ h hg.1 hs₁) (hg.2 s₁ hs₁) hrun₁
    rwa [List.append_assoc] at this

/-- Invariants that need neither history nor guard. -/
theorem run_invariant {P : σ → Prop} (hstep : ∀ s a s', P s → step s a = some s' → P s') {s s' : σ}
    {as : List α} (h : P s) (hrun : run step s as = some s') : P s' :=
  run_history (P := fun _ => P) (G := fun _ _ => True)
    (fun _ s a s' hs _ => hstep s a s' hs) [] h
    (guarded_of_forall (fun _ _ => trivial) s as) hrun

/-- **Guards along a run.** An invariant of the actions that meet `Q`, which gives the guard
wherever such an action is performed, gives it along every run of such actions. -/
theorem guarded_of_run {P : σ → Prop} {Q : α → Prop}
    (hstep : ∀ s a s', P s → Q a → step s a = some s' → P s' ∧ G s a) {s s' : σ} {as : List α}
    (h : P s) (hQ : ∀ a ∈ as, Q a) (hrun : run step s as = some s') :
    P s' ∧ Guarded step G s as := by
  induction as generalizing s with
  | nil => exact ⟨Option.some.inj hrun ▸ h, trivial⟩
  | cons a as ih =>
    obtain ⟨s₁, hs₁, hrun₁⟩ := Option.bind_eq_some_iff.mp hrun
    obtain ⟨h₁, hg⟩ := hstep s a s₁ h (hQ a List.mem_cons_self) hs₁
    obtain ⟨h', hg'⟩ := ih h₁ (fun b hb => hQ b (List.mem_cons_of_mem a hb)) hrun₁
    refine ⟨h', hg, fun s₂ hs₂ => ?_⟩
    obtain rfl : s₁ = s₂ := Option.some.inj (hs₁.symm.trans hs₂)
    exact hg'

/-- **Runs that complete.** If moreover every guarded step is possible, the run completes. -/
theorem run_total {P : List α → σ → Prop}
    (hstep : ∀ hist s a, P hist s → G s a → ∃ s', step s a = some s' ∧ P (hist ++ [a]) s')
    (hist : List α) {s : σ} {as : List α} (h : P hist s) (hg : Guarded step G s as) :
    ∃ s', run step s as = some s' ∧ P (hist ++ as) s' := by
  induction as generalizing hist s with
  | nil => exact ⟨s, rfl, by rwa [List.append_nil]⟩
  | cons a as ih =>
    obtain ⟨s₁, hs₁, h₁⟩ := hstep hist s a h hg.1
    obtain ⟨s', hrun, hP⟩ := ih _ h₁ (hg.2 s₁ hs₁)
    refine ⟨s', ?_, ?_⟩
    · rw [run_cons, hs₁, Option.bind_some, hrun]
    · rwa [List.append_assoc] at hP

/-- **Runs are bounded** by a measure that every step lowers. -/
theorem run_length_le {P : σ → Prop} {m : σ → ℕ}
    (hstep : ∀ s a s', P s → step s a = some s' → P s' ∧ m s' < m s) {s s' : σ}
    {as : List α} (h : P s) (hrun : run step s as = some s') : as.length + m s' ≤ m s := by
  induction as generalizing s with
  | nil =>
    obtain rfl := Option.some.inj hrun
    simp
  | cons a as ih =>
    obtain ⟨s₁, hs₁, hrun₁⟩ := Option.bind_eq_some_iff.mp hrun
    obtain ⟨h₁, hlt⟩ := hstep s a s₁ h hs₁
    have hle := ih h₁ hrun₁
    rw [List.length_cons]
    omega

/-- **Goals that can be reached.** If from every state of an invariant some step reaches the goal or
comes nearer to it, then a run reaches the goal. -/
theorem exists_run_of_progress {P Q : σ → Prop} {m : σ → ℕ}
    (hstep : ∀ s, P s → Q s ∨ ∃ a s', step s a = some s' ∧ P s' ∧ (Q s' ∨ m s' < m s)) {s : σ}
    (h : P s) : ∃ as s', run step s as = some s' ∧ P s' ∧ Q s' := by
  induction hm : m s using Nat.strongRecOn generalizing s with
  | ind n ih =>
    subst hm
    rcases hstep s h with hgoal | ⟨a, s₁, ha, h₁, hgoal | hlt⟩
    · exact ⟨[], s, rfl, h, hgoal⟩
    · exact ⟨[a], s₁, by rw [run_cons, ha, Option.bind_some, run_nil], h₁, hgoal⟩
    · obtain ⟨as, s', hrun, h', hgoal⟩ := ih (m s₁) hlt h₁ rfl
      exact ⟨a :: as, s', by rw [run_cons, ha, Option.bind_some, hrun], h', hgoal⟩

end Run
