import Mathlib.Data.List.Basic
import Mathlib.Data.List.Infix

/-!
# Cutting a sequence of stores

A process that is killed leaves behind the effect of a first part of its stores.
`Always apply Q s as` says that `Q` holds of that part and of the state it leads to, wherever the
sequence `as` of stores from state `s` is cut. A sequence made of phases is analysed phase by phase:
`always_append` carries the stores of the phases before along.

## Main results

* `always_cons`, `always_append` — phases
* `always_of_step` — what each store preserves holds at every cut
-/

namespace Cut

variable {σ α β : Type} {apply : σ → α → σ} {Q R : List α → σ → Prop} {s : σ}

/-- The state after the stores `as`. -/
def exec (apply : σ → α → σ) (s : σ) (as : List α) : σ := as.foldl apply s

/-- Wherever the sequence is cut, `Q` holds. -/
def Always (apply : σ → α → σ) (Q : List α → σ → Prop) (s : σ) (as : List α) : Prop :=
  ∀ done, done <+: as → Q done (exec apply s done)

@[simp] theorem exec_nil : exec apply s [] = s := rfl

@[simp] theorem exec_cons (a : α) (as : List α) :
    exec apply s (a :: as) = exec apply (apply s a) as := rfl

theorem exec_append (as bs : List α) :
    exec apply s (as ++ bs) = exec apply (exec apply s as) bs := List.foldl_append

/-- One more store. -/
theorem exec_concat (as : List α) (a : α) :
    exec apply s (as ++ [a]) = apply (exec apply s as) a := exec_append as [a]

theorem Always.mono {as : List α} (h : Always apply Q s as)
    (hQ : ∀ done s', Q done s' → R done s') :
    Always apply R s as :=
  fun done hd => hQ _ _ (h done hd)

theorem Always.exec {as : List α} (h : Always apply Q s as) : Q as (exec apply s as) :=
  h as (List.prefix_refl as)

theorem always_nil : Always apply Q s [] ↔ Q [] s := by
  constructor
  · exact fun h => h.exec
  · rintro h done hd
    rw [List.prefix_nil.mp hd]
    exact h

theorem always_cons {a : α} {as : List α} :
    Always apply Q s (a :: as) ↔ Q [] s ∧ Always apply (fun done => Q (a :: done))
      (apply s a) as := by
  constructor
  · intro h
    exact ⟨h [] List.nil_prefix, fun done hd => h (a :: done) (List.cons_prefix_cons.mpr ⟨rfl, hd⟩)⟩
  · rintro ⟨hnil, hcons⟩ done hd
    cases done with
    | nil => exact hnil
    | cons b done =>
      obtain ⟨rfl, htail⟩ := List.cons_prefix_cons.mp hd
      exact hcons done htail

theorem always_append {as bs : List α} :
    Always apply Q s (as ++ bs) ↔
      Always apply Q s as ∧ Always apply (fun done => Q (as ++ done)) (exec apply s as) bs := by
  induction as generalizing s Q with
  | nil =>
    constructor
    · exact fun h => ⟨always_nil.mpr (h [] List.nil_prefix), h⟩
    · exact fun h => h.2
  | cons a as ih =>
    rw [List.cons_append, always_cons, ih, always_cons, and_assoc]
    rfl

/-- **What each store preserves holds at every cut.** -/
theorem always_of_step {P : σ → Prop} {as : List α} (hstep : ∀ s, ∀ a ∈ as, P s → P (apply s a))
    (h : P s) : Always apply (fun _ => P) s as := by
  induction as generalizing s with
  | nil => exact always_nil.mpr h
  | cons a as ih =>
    refine always_cons.mpr ⟨h, ih (fun s b hb => hstep s b (List.mem_cons_of_mem a hb)) ?_⟩
    exact hstep s a List.mem_cons_self h

/-- Stores into one part of the state. -/
theorem always_map {τ : Type} {apply' : τ → β → τ} {f : α → β} {g : σ → τ}
    {Q' : List β → τ → Prop} (hg : ∀ s a, apply' (g s) (f a) = g (apply s a)) {as : List α}
    (h : Always apply (fun done s' => Q' (done.map f) (g s')) s as) :
    Always apply' Q' (g s) (as.map f) := by
  induction as generalizing s Q' with
  | nil => exact always_nil.mpr h.exec
  | cons a as ih =>
    obtain ⟨hnil, hcons⟩ := always_cons.mp h
    rw [List.map_cons, always_cons, hg]
    exact ⟨hnil, ih hcons⟩

theorem exec_map {τ : Type} {apply' : τ → β → τ} {f : α → β} {g : σ → τ}
    (hg : ∀ s a, apply' (g s) (f a) = g (apply s a)) (as : List α) :
    Cut.exec apply' (g s) (as.map f) = g (Cut.exec apply s as) := by
  induction as generalizing s with
  | nil => rfl
  | cons a as ih => rw [List.map_cons, exec_cons, hg, ih, exec_cons]

end Cut
