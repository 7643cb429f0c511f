import Mathlib.Data.List.Basic
import Mathlib.Logic.Function.Basic
import PetPS.Lib.Run
import PetPS.Epoch.Manager

/-!
# Unlink, then retire

Readers and writers over one `EpochManager`, in atomic steps that interleave freely. A reader loads
the epoch, enters it in its table entry, obtains reachable blocks and leaves by popping the front of
its entry. A writer makes a block unreachable and hands it to its own `ShmEpochRecycle`: it
reads the epoch, pushes the pair, may bump the epoch and scan the table, and frees the queue fronts
that are safe.

A block stands for one allocation: an address that the pool hands out again is another block.
Threads are numbers, and a reader's number is that of its table entry.

## Main results

* `Inv.step` — every step keeps: a protection guards the removal epoch of each retired block
  obtained under it
* `freed_block_not_held` — a block that is freed is held by no reader
-/

namespace PetPS

namespace Reclaim

/-- Life of a block. -/
inductive Status
  | fresh
  | reachable
  | retired
  | freed
  deriving DecidableEq

/-- Where a writer is. -/
inductive Pc (B : Type)
  | idle
  /-- The block has been made unreachable. -/
  | unlinked (b : B)
  /-- `removal_epoch` has been read. -/
  | removal (epoch : ℕ) (b : B)
  /-- The pair has been pushed. -/
  | pushed
  /-- In `BumpCurrentEpoch`, after the increment. -/
  | bumping
  /-- At the condition of the freeing loop. -/
  | reclaiming
  /-- In the body of the freeing loop. -/
  | freeing
  deriving DecidableEq

/-- Everything the threads share, and where they are. -/
structure State (B : Type) where
  /-- The manager; a protection is annotated with the blocks obtained under it. -/
  mgr : EpochManager (List B)
  /-- The epoch a reader has loaded and not yet entered. -/
  loaded : ℕ → Option ℕ
  /-- What became of a block. -/
  status : B → Status
  /-- Where each writer is. -/
  pc : ℕ → Pc B
  /-- `recycle_ptr_` of each writer. -/
  queue : ℕ → List (ℕ × B)

/-- The atomic steps. -/
inductive Act (B : Type)
  /-- A reader loads `current_epoch_`. -/
  | load (r : ℕ)
  /-- A reader enters the epoch it has loaded. -/
  | enqueue (r : ℕ)
  /-- A reader obtains a block under its protection number `j`. -/
  | obtain (r j : ℕ) (b : B)
  /-- A reader pops its oldest protection. -/
  | pop (r : ℕ)
  /-- A block becomes reachable. -/
  | link (b : B)
  /-- A writer makes a block unreachable. -/
  | unlink (w : ℕ) (b : B)
  /-- A writer reads the removal epoch. -/
  | readEpoch (w : ℕ)
  /-- A writer pushes the pair. -/
  | push (w : ℕ)
  /-- A writer increments the epoch. -/
  | bump (w : ℕ)
  /-- A writer goes on without incrementing it. -/
  | skip (w : ℕ)
  /-- A writer scans one entry of the table. -/
  | scan (w : ℕ)
  /-- A writer stores the safe epoch. -/
  | store (w : ℕ)
  /-- A writer finds the front of its queue safe. -/
  | check (w : ℕ)
  /-- A writer frees the front of its queue. -/
  | free (w : ℕ)
  /-- A writer leaves `Recycle`. -/
  | finish (w : ℕ)

variable {B : Type}

/-- No thread has done anything; some blocks are reachable. -/
def initial (maxThreadNum : ℕ) (reachable : B → Bool) : State B where
  mgr := EpochManager.initial maxThreadNum
  loaded _ := none
  status b := if reachable b then .reachable else .fresh
  pc _ := .idle
  queue _ := []

/-- Writer `w` goes to `x`. -/
def State.goto (s : State B) (w : ℕ) (x : Pc B) : State B :=
  { s with pc := Function.update s.pc w x }

/-- One step, if it is possible. -/
def step [DecidableEq B] (s : State B) : Act B → Option (State B)
  | .load r =>
    if r < s.mgr.maxThreadNum ∧ s.loaded r = none then
      some { s with loaded := Function.update s.loaded r (some s.mgr.currentEpoch) }
    else none
  | .enqueue r =>
    match s.loaded r with
    | some epoch =>
      some { s with
        mgr := s.mgr.enqueProtect r epoch []
        loaded := Function.update s.loaded r none }
    | none => none
  | .obtain r j b =>
    if s.status b = .reachable ∧ j < (s.mgr.table r).length then
      some { s with mgr := s.mgr.annotate r j (b :: ·) }
    else none
  | .pop r =>
    if s.mgr.table r = [] then none
    else some { s with mgr := s.mgr.dequeUnProtect r }
  | .link b =>
    if s.status b = .fresh then
      some { s with status := Function.update s.status b .reachable }
    else none
  | .unlink w b =>
    if s.pc w = .idle ∧ s.status b = .reachable then
      some (State.goto { s with status := Function.update s.status b .retired } w (.unlinked b))
    else none
  | .readEpoch w =>
    match s.pc w with
    | .unlinked b => some (s.goto w (.removal s.mgr.currentEpoch b))
    | _ => none
  | .push w =>
    match s.pc w with
    | .removal epoch b =>
      let queue := Function.update s.queue w (s.queue w ++ [(epoch, b)])
      some (State.goto { s with queue } w .pushed)
    | _ => none
  | .bump w =>
    if s.pc w = .pushed then some (State.goto { s with mgr := s.mgr.bump w } w .bumping) else none
  | .skip w => if s.pc w = .pushed then some (s.goto w .reclaiming) else none
  | .scan w =>
    if s.pc w = .bumping then (s.mgr.scanEntry w).map fun mgr => { s with mgr } else none
  | .store w =>
    if s.pc w = .bumping then
      (s.mgr.storeSafe w).map fun mgr => State.goto { s with mgr } w .reclaiming
    else none
  | .check w =>
    match s.queue w with
    | (epoch, _) :: _ =>
      if s.pc w = .reclaiming ∧ s.mgr.isSafeToReclaim epoch then some (s.goto w .freeing) else none
    | [] => none
  | .free w =>
    match s.queue w with
    | (_, b) :: rest =>
      if s.pc w = .freeing then
        some (State.goto
          { s with
            status := Function.update s.status b .freed
            queue := Function.update s.queue w rest } w .reclaiming)
      else none
    | [] => none
  | .finish w => if s.pc w = .reclaiming then some (s.goto w .idle) else none

/-! ### The invariant -/

/-- A reader holds `b` under the protection `q`. -/
def Holds (s : State B) (r : ℕ) (q : ℕ × List B) (b : B) : Prop := q ∈ s.mgr.table r ∧ b ∈ q.2

/-- `b` has been retired at `epoch` and not yet freed. -/
def Retired (s : State B) (epoch : ℕ) (b : B) : Prop :=
  ∃ w, s.pc w = .removal epoch b ∨ (epoch, b) ∈ s.queue w

/-- Readers can no longer obtain `b`. -/
def Gone (s : State B) (b : B) : Prop := s.status b = .retired ∨ s.status b = .freed

/-- `b` has been freed, or its writer is about to. -/
def Doomed (s : State B) (b : B) : Prop :=
  s.status b = .freed ∨ ∃ w epoch rest, s.pc w = .freeing ∧ s.queue w = (epoch, b) :: rest

/-- What holds at all times. -/
structure Inv (s : State B) : Prop where
  /-- The manager is well formed. -/
  wf : s.mgr.Wf
  /-- A loaded epoch is not in the future. -/
  loaded : ∀ r e, s.loaded r = some e → r < s.mgr.maxThreadNum ∧ 1 ≤ e ∧ e ≤ s.mgr.currentEpoch
  /-- Blocks are made unreachable first. -/
  unlinked : ∀ w b, s.pc w = .unlinked b → Gone s b
  /-- And retired then. -/
  retired : ∀ e b, Retired s e b → Gone s b
  /-- A protection guards what was obtained under it. -/
  guards : ∀ r q b e, Holds s r q b → Retired s e b → s.mgr.Guards r q.1 e
  /-- What is freed is not held. -/
  doomed : ∀ b, Doomed s b → ∀ r q, ¬ Holds s r q b

theorem inv_initial (n : ℕ) (reachable : B → Bool) : Inv (initial n reachable) where
  wf := EpochManager.wf_initial n
  loaded r e h := by simp [initial] at h
  unlinked w b h := by simp [initial] at h
  retired e b := by
    rintro ⟨w, h | h⟩
    · simp [initial] at h
    · simp [initial] at h
  guards r q b e := by
    rintro ⟨hq, -⟩
    exact absurd hq List.not_mem_nil
  doomed b _ r q := by
    rintro ⟨hq, -⟩
    exact absurd hq List.not_mem_nil

/-- A step after which no more is held, retired or doomed than before. -/
structure Keeps (s s' : State B) : Prop where
  wf : s'.mgr.Wf
  loaded : ∀ r e, s'.loaded r = some e → r < s'.mgr.maxThreadNum ∧ 1 ≤ e ∧ e ≤ s'.mgr.currentEpoch
  unlinked : ∀ w b, s'.pc w = .unlinked b → s.pc w = .unlinked b
  retired : ∀ e b, Retired s' e b → Retired s e b
  gone : ∀ b, Gone s b → Gone s' b
  doomed : ∀ b, Doomed s' b → Doomed s b
  holds : ∀ r q b, Holds s' r q b → Holds s r q b
  guards : ∀ r q b e, Holds s r q b → s.mgr.Guards r q.1 e → s'.mgr.Guards r q.1 e

theorem Inv.keep {s s' : State B} (h : Inv s) (hk : Keeps s s') : Inv s' where
  wf := hk.wf
  loaded := hk.loaded
  unlinked w b hb := hk.gone b (h.unlinked w b (hk.unlinked w b hb))
  retired e b hb := hk.gone b (h.retired e b (hk.retired e b hb))
  guards r q b e hq hb :=
    have hq := hk.holds r q b hq
    hk.guards r q b e hq (h.guards r q b e hq (hk.retired e b hb))
  doomed b hb r q hq := h.doomed b (hk.doomed b hb) r q (hk.holds r q b hq)

/-! ### Writers that move on -/

/-- Positions without a block in hand. -/
def Pc.quiet : Pc B → Bool
  | .idle | .pushed | .bumping | .reclaiming => true
  | .unlinked _ | .removal _ _ | .freeing => false

theorem pc_goto {s : State B} {w w' : ℕ} {x y : Pc B} (h : (s.goto w x).pc w' = y) :
    w' = w ∧ x = y ∨ w' ≠ w ∧ s.pc w' = y := by
  by_cases hw : w' = w
  · subst hw
    simp only [State.goto, Function.update_self] at h
    exact Or.inl ⟨rfl, h⟩
  · simp only [State.goto, Function.update_of_ne hw] at h
    exact Or.inr ⟨hw, h⟩

theorem retired_goto {s : State B} {w : ℕ} {x : Pc B} {e : ℕ} {b : B}
    (h : Retired (s.goto w x) e b) : x = .removal e b ∨ Retired s e b := by
  obtain ⟨w', hw' | hw'⟩ := h
  · rcases pc_goto hw' with ⟨-, hx⟩ | ⟨-, hw'⟩
    exacts [Or.inl hx, Or.inr ⟨w', Or.inl hw'⟩]
  · exact Or.inr ⟨w', Or.inr hw'⟩

theorem doomed_goto {s : State B} {w : ℕ} {x : Pc B} {b : B} (h : Doomed (s.goto w x) b) :
    (x = .freeing ∧ ∃ e rest, s.queue w = (e, b) :: rest) ∨ Doomed s b := by
  obtain hb | ⟨w', e, rest, hw', hq⟩ := h
  · exact Or.inr (Or.inl hb)
  · rcases pc_goto hw' with ⟨rfl, hx⟩ | ⟨-, hw'⟩
    exacts [Or.inl ⟨hx, e, rest, hq⟩, Or.inr (Or.inr ⟨w', e, rest, hw', hq⟩)]

theorem Inv.goto {s : State B} (h : Inv s) (w : ℕ) {x : Pc B} (hx : x.quiet) :
    Inv (s.goto w x) := by
  refine h.keep ⟨h.wf, h.loaded, ?_, ?_, fun b hb => hb, ?_, fun r q b hq => hq,
    fun r q b e _ hg => hg⟩
  · intro w' b hb
    rcases pc_goto hb with ⟨-, rfl⟩ | ⟨-, hb⟩
    · cases hx
    · exact hb
  · intro e b hb
    rcases retired_goto hb with rfl | hb
    · cases hx
    · exact hb
  · intro b hb
    rcases doomed_goto hb with ⟨rfl, -⟩ | hb
    · cases hx
    · exact hb

theorem Inv.setMgr {s : State B} (h : Inv s) {mgr : EpochManager (List B)} (hwf : mgr.Wf)
    (hf : s.mgr.Frame mgr)
    (hg : ∀ r q e, q ∈ s.mgr.table r → s.mgr.Guards r q.1 e → mgr.Guards r q.1 e) :
    Inv { s with mgr } := by
  refine h.keep
    { wf := hwf
      loaded := ?_
      unlinked := fun w b hb => hb
      retired := fun e b hb => hb
      gone := fun b hb => hb
      doomed := fun b hb => hb
      holds := fun r q b hq => ⟨hf.table ▸ hq.1, hq.2⟩
      guards := fun r q b e hq hge => hg r q e hq.1 hge }
  intro r e hr
  obtain ⟨hlt, h1, hle⟩ := h.loaded r e hr
  exact ⟨hf.maxThreadNum ▸ hlt, h1, hle.trans hf.currentEpoch⟩

theorem Inv.bump {s : State B} (h : Inv s) (w : ℕ) : Inv { s with mgr := s.mgr.bump w } :=
  h.setMgr (h.wf.bump w) (EpochManager.frame_bump _ w) fun _ _ _ _ hg => hg.bump w

theorem Inv.scan {s : State B} (h : Inv s) {w : ℕ} {mgr : EpochManager (List B)}
    (hm : s.mgr.scanEntry w = some mgr) : Inv { s with mgr } :=
  h.setMgr (h.wf.scanEntry hm) (EpochManager.frame_scanEntry hm)
    fun _ _ _ hq hg => hg.scanEntry h.wf hq hm

theorem Inv.store {s : State B} (h : Inv s) {w : ℕ} {mgr : EpochManager (List B)}
    (hm : s.mgr.storeSafe w = some mgr) : Inv { s with mgr } :=
  h.setMgr (h.wf.storeSafe hm) (EpochManager.frame_storeSafe hm)
    fun r q _ hq hg => hg.storeSafe h.wf (h.wf.entry_lt r q hq) hm

/-! ### Readers -/

theorem Inv.load {s : State B} (h : Inv s) {r : ℕ} (hr : r < s.mgr.maxThreadNum) :
    Inv { s with loaded := Function.update s.loaded r (some s.mgr.currentEpoch) } := by
  refine h.keep ⟨h.wf, ?_, fun w b hb => hb, fun e b hb => hb, fun b hb => hb, fun b hb => hb,
    fun r q b hq => hq, fun r q b e _ hg => hg⟩
  intro r' e he
  by_cases hr' : r' = r
  · subst hr'
    simp only [Function.update_self, Option.some.injEq] at he
    exact ⟨hr, he ▸ Nat.one_le_of_lt h.wf.safe_lt, he ▸ le_rfl⟩
  · simp only [Function.update_of_ne hr'] at he
    exact h.loaded r' e he

/-- A new protection holds nothing yet. -/
theorem Inv.enqueue {s : State B} (h : Inv s) {r epoch : ℕ} (hr : s.loaded r = some epoch) :
    Inv { s with
      mgr := s.mgr.enqueProtect r epoch []
      loaded := Function.update s.loaded r none } := by
  obtain ⟨hlt, h1, hle⟩ := h.loaded r epoch hr
  refine h.keep ⟨h.wf.enqueProtect hlt h1 hle, ?_, fun w b hb => hb, fun e b hb => hb,
    fun b hb => hb, fun b hb => hb, ?_, fun r q b e _ hg => hg.congr rfl rfl⟩
  · intro r' e he
    by_cases hr' : r' = r
    · subst hr'
      simp at he
    · simp only [Function.update_of_ne hr'] at he
      exact h.loaded r' e he
  · rintro r' q b ⟨hq, hb⟩
    rcases EpochManager.mem_enqueProtect hq with hq | ⟨-, rfl⟩
    · exact ⟨hq, hb⟩
    · exact absurd hb List.not_mem_nil

theorem Inv.pop {s : State B} (h : Inv s) (r : ℕ) :
    Inv { s with mgr := s.mgr.dequeUnProtect r } :=
  h.keep ⟨h.wf.dequeUnProtect r, h.loaded, fun _ _ hb => hb, fun _ _ hb => hb, fun _ hb => hb,
    fun _ hb => hb, fun _ _ _ hq => ⟨EpochManager.mem_dequeUnProtect hq.1, hq.2⟩,
    fun _ _ _ _ _ hg => hg.congr rfl rfl⟩

/-- What is held after `b` has been obtained. -/
theorem holds_obtain {s : State B} {r j : ℕ} {b b' : B} {r' : ℕ} {q : ℕ × List B}
    (h : Holds { s with mgr := s.mgr.annotate r j (b :: ·) } r' q b') (hb : b' ≠ b) :
    ∃ q₀, q₀.1 = q.1 ∧ Holds s r' q₀ b' := by
  obtain ⟨hq, hb'⟩ := h
  rcases EpochManager.mem_annotate hq with hq | ⟨rfl, q₀, hq₀, rfl⟩
  · exact ⟨q, rfl, hq, hb'⟩
  · exact ⟨q₀, rfl, List.mem_of_getElem? hq₀, (List.mem_cons.mp hb').resolve_left hb⟩

/-- A reader obtains a block that is not retired, so there is nothing yet to guard. -/
theorem Inv.obtain {s : State B} (h : Inv s) {r j : ℕ} {b : B} (hb : s.status b = .reachable) :
    Inv { s with mgr := s.mgr.annotate r j (b :: ·) } := by
  have hgone : ∀ b', Gone s b' → b' ≠ b := by
    rintro b' hb' rfl
    rcases hb' with hb' | hb' <;> rw [hb] at hb' <;> cases hb'
  have hdoomed : ∀ b', Doomed s b' → Gone s b' := by
    rintro b' (hb' | ⟨w, e, rest, -, hq⟩)
    · exact Or.inr hb'
    · exact h.retired e b' ⟨w, Or.inr (hq ▸ List.mem_cons_self)⟩
  refine ⟨h.wf.annotate r j _, h.loaded, h.unlinked, h.retired, ?_, ?_⟩
  · intro r' q b' e hq he
    obtain ⟨q₀, hq₀, hold⟩ := holds_obtain hq (hgone b' (h.retired e b' he))
    have hg := h.guards r' q₀ b' e hold he
    rw [hq₀] at hg
    exact hg.congr rfl rfl
  · intro b' hb' r' q hq
    obtain ⟨q₀, -, hold⟩ := holds_obtain hq (hgone b' (hdoomed b' hb'))
    exact h.doomed b' hb' r' q₀ hold

/-! ### Writers -/

section Writers

variable [DecidableEq B]

theorem status_update {s : State B} {b b' : B} {x y : Status} (h : s.status b' = y)
    (hb : s.status b ≠ y) : Function.update s.status b x b' = y := by
  have hne : b' ≠ b := by
    rintro rfl
    exact hb h
  rw [Function.update_of_ne hne, h]

theorem Inv.link {s : State B} (h : Inv s) {b : B} (hb : s.status b = .fresh) :
    Inv { s with status := Function.update s.status b .reachable } := by
  refine h.keep ⟨h.wf, h.loaded, fun w b hb => hb, fun e b hb => hb, ?_, ?_, fun r q b hq => hq,
    fun r q b e _ hg => hg⟩
  · rintro b' (hb' | hb')
    · exact Or.inl (status_update hb' (by simp [hb]))
    · exact Or.inr (status_update hb' (by simp [hb]))
  · rintro b' (hb' | hb')
    · by_cases hne : b' = b
      · subst hne
        simp at hb'
      · simp only [Function.update_of_ne hne] at hb'
        exact Or.inl hb'
    · exact Or.inr hb'

theorem Inv.unlink {s : State B} (h : Inv s) {w : ℕ} {b : B} (hb : s.status b = .reachable) :
    Inv (State.goto { s with status := Function.update s.status b .retired } w (.unlinked b)) := by
  have hgone : ∀ b', Gone s b' →
      Gone { s with status := Function.update s.status b .retired } b' := by
    rintro b' (hb' | hb')
    · exact Or.inl (status_update hb' (by simp [hb]))
    · exact Or.inr (status_update hb' (by simp [hb]))
  refine ⟨h.wf, h.loaded, ?_, ?_, ?_, ?_⟩
  · intro w' b' hw'
    rcases pc_goto hw' with ⟨-, hx⟩ | ⟨-, hw'⟩
    · cases hx
      exact Or.inl (Function.update_self _ _ _)
    · exact hgone b' (h.unlinked w' b' hw')
  · intro e b' hb'
    rcases retired_goto hb' with hx | hb'
    · cases hx
    · exact hgone b' (h.retired e b' hb')
  · intro r q b' e hq hb'
    rcases retired_goto hb' with hx | hb'
    · cases hx
    · exact h.guards r q b' e hq hb'
  · intro b' hb'
    rcases doomed_goto hb' with ⟨hx, -⟩ | hb' | hb'
    · cases hx
    · refine h.doomed b' (Or.inl ?_)
      by_cases hne : b' = b
      · subst hne
        simp at hb'
      · simpa only [Function.update_of_ne hne] using hb'
    · exact h.doomed b' (Or.inr hb')

omit [DecidableEq B] in
/-- **A block is retired at an epoch that its holders guard**: they entered no later than now. -/
theorem Inv.readEpoch {s : State B} (h : Inv s) {w : ℕ} {b : B} (hb : s.pc w = .unlinked b) :
    Inv (s.goto w (.removal s.mgr.currentEpoch b)) := by
  refine ⟨h.wf, h.loaded, ?_, ?_, ?_, ?_⟩
  · intro w' b' hw'
    rcases pc_goto hw' with ⟨-, hx⟩ | ⟨-, hw'⟩
    · cases hx
    · exact h.unlinked w' b' hw'
  · intro e b' hb'
    rcases retired_goto hb' with hx | hb'
    · cases hx
      exact h.unlinked w b hb
    · exact h.retired e b' hb'
  · intro r q b' e hq hb'
    rcases retired_goto hb' with hx | hb'
    · cases hx
      exact h.wf.guards hq.1
    · exact h.guards r q b' e hq hb'
  · intro b' hb'
    rcases doomed_goto hb' with ⟨hx, -⟩ | hb'
    · cases hx
    · exact h.doomed b' hb'

omit [DecidableEq B] in
theorem Inv.push {s : State B} (h : Inv s) {w epoch : ℕ} {b : B} (hb : s.pc w = .removal epoch b) :
    Inv { s with queue := Function.update s.queue w (s.queue w ++ [(epoch, b)]) } := by
  refine h.keep ⟨h.wf, h.loaded, fun w b hb => hb, ?_, fun b hb => hb, ?_, fun r q b hq => hq,
    fun r q b e _ hg => hg⟩
  · rintro e b' ⟨w', hw' | hw'⟩
    · exact ⟨w', Or.inl hw'⟩
    · by_cases hw : w' = w
      · subst hw
        simp only [Function.update_self, List.mem_append, List.mem_singleton] at hw'
        rcases hw' with hw' | hw'
        · exact ⟨w', Or.inr hw'⟩
        · cases hw'
          exact ⟨w', Or.inl hb⟩
      · simp only [Function.update_of_ne hw] at hw'
        exact ⟨w', Or.inr hw'⟩
  · rintro b' (hb' | ⟨w', e, rest, hw', hq⟩)
    · exact Or.inl hb'
    · have hw : w' ≠ w := by
        rintro rfl
        rw [show s.pc w' = .freeing from hw'] at hb
        cases hb
      simp only [Function.update_of_ne hw] at hq
      exact Or.inr ⟨w', e, rest, hw', hq⟩

omit [DecidableEq B] in
/-- **Only blocks that nobody holds are found safe**: a holder keeps the safe epoch below. -/
theorem Inv.check {s : State B} (h : Inv s) {w epoch : ℕ} {b : B} {rest : List (ℕ × B)}
    (hq : s.queue w = (epoch, b) :: rest) (hsafe : s.mgr.isSafeToReclaim epoch) :
    Inv (s.goto w .freeing) := by
  have hret : ∀ e b', Retired (s.goto w .freeing) e b' → Retired s e b' := by
    intro e b' hb'
    rcases retired_goto hb' with hx | hb'
    · cases hx
    · exact hb'
  refine ⟨h.wf, h.loaded, ?_, fun e b' hb' => h.retired e b' (hret e b' hb'),
    fun r q b' e hq' hb' => h.guards r q b' e hq' (hret e b' hb'), ?_⟩
  · intro w' b' hw'
    rcases pc_goto hw' with ⟨-, hx⟩ | ⟨-, hw'⟩
    · cases hx
    · exact h.unlinked w' b' hw'
  · intro b' hb'
    rcases doomed_goto hb' with ⟨-, e, rest', hq'⟩ | hb'
    · cases hq.symm.trans hq'
      intro r q hold
      have hlt := (h.guards r q b epoch hold ⟨w, Or.inr (hq ▸ List.mem_cons_self)⟩).safe_lt
      rw [EpochManager.isSafeToReclaim, decide_eq_true_eq] at hsafe
      omega
    · exact h.doomed b' hb'

theorem Inv.free {s : State B} (h : Inv s) {w epoch : ℕ} {b : B} {rest : List (ℕ × B)}
    (hpc : s.pc w = .freeing) (hq : s.queue w = (epoch, b) :: rest) :
    Inv (State.goto
      { s with
        status := Function.update s.status b .freed
        queue := Function.update s.queue w rest } w .reclaiming) := by
  have hgone : ∀ b', Gone s b' →
    Gone { s with status := Function.update s.status b .freed } b' := by
    intro b' hb'
    by_cases hne : b' = b
    · subst hne
      exact Or.inr (Function.update_self _ _ _)
    · simp only [Gone, Function.update_of_ne hne]
      exact hb'
  have hret : ∀ e b', Retired (State.goto
      { s with
        status := Function.update s.status b .freed
        queue := Function.update s.queue w rest } w .reclaiming) e b' → Retired s e b' := by
    intro e b' hb'
    rcases retired_goto hb' with hx | ⟨w', hw' | hw'⟩
    · cases hx
    · exact ⟨w', Or.inl hw'⟩
    · by_cases hw : w' = w
      · subst hw
        simp only [Function.update_self] at hw'
        exact ⟨w', Or.inr (hq ▸ List.mem_cons_of_mem _ hw')⟩
      · simp only [Function.update_of_ne hw] at hw'
        exact ⟨w', Or.inr hw'⟩
  refine ⟨h.wf, h.loaded, ?_, fun e b' hb' => hgone b' (h.retired e b' (hret e b' hb')),
    fun r q b' e hq' hb' => h.guards r q b' e hq' (hret e b' hb'), ?_⟩
  · intro w' b' hw'
    rcases pc_goto hw' with ⟨-, hx⟩ | ⟨-, hw'⟩
    · cases hx
    · exact hgone b' (h.unlinked w' b' hw')
  · rintro b' (hb' | ⟨w', e, rest', hw', hq'⟩)
    · by_cases hne : b' = b
      · subst hne
        exact h.doomed b' (Or.inr ⟨w, epoch, rest, hpc, hq⟩)
      · simp only [State.goto, Function.update_of_ne hne] at hb'
        exact h.doomed b' (Or.inl hb')
    · rcases pc_goto hw' with ⟨-, hx⟩ | ⟨hw, hw'⟩
      · cases hx
      · simp only [State.goto, Function.update_of_ne hw] at hq'
        exact h.doomed b' (Or.inr ⟨w', e, rest', hw', hq'⟩)

/-! ### Runs -/

/-- **Every step keeps the invariant.** -/
theorem Inv.step {s s' : State B} (h : Inv s) {a : Act B} (hs : Reclaim.step s a = some s') :
    Inv s' := by
  cases a with
  | load r =>
    simp only [Reclaim.step] at hs
    split_ifs at hs with hr
    cases hs
    exact h.load hr.1
  | enqueue r =>
    simp only [Reclaim.step] at hs
    split at hs
    case h_1 epoch hr => cases hs; exact h.enqueue hr
    case h_2 => cases hs
  | obtain r j b =>
    simp only [Reclaim.step] at hs
    split_ifs at hs with hb
    cases hs
    exact h.obtain hb.1
  | pop r =>
    simp only [Reclaim.step] at hs
    split_ifs at hs
    cases hs
    exact h.pop r
  | link b =>
    simp only [Reclaim.step] at hs
    split_ifs at hs with hb
    cases hs
    exact h.link hb
  | unlink w b =>
    simp only [Reclaim.step] at hs
    split_ifs at hs with hb
    cases hs
    exact h.unlink hb.2
  | readEpoch w =>
    simp only [Reclaim.step] at hs
    split at hs
    case h_1 b hb => cases hs; exact h.readEpoch hb
    case h_2 => cases hs
  | push w =>
    simp only [Reclaim.step] at hs
    split at hs
    case h_1 epoch b hb => cases hs; exact (h.push hb).goto w rfl
    case h_2 => cases hs
  | bump w =>
    simp only [Reclaim.step] at hs
    split_ifs at hs
    cases hs
    exact (h.bump w).goto w rfl
  | skip w =>
    simp only [Reclaim.step] at hs
    split_ifs at hs
    cases hs
    exact h.goto w rfl
  | scan w =>
    simp only [Reclaim.step] at hs
    split_ifs at hs
    obtain ⟨mgr, hm, rfl⟩ := Option.map_eq_some_iff.mp hs
    exact h.scan hm
  | store w =>
    simp only [Reclaim.step] at hs
    split_ifs at hs
    obtain ⟨mgr, hm, rfl⟩ := Option.map_eq_some_iff.mp hs
    exact (h.store hm).goto w rfl
  | check w =>
    simp only [Reclaim.step] at hs
    split at hs
    case h_1 epoch b rest hq =>
      split_ifs at hs with hc
      cases hs
      exact h.check hq hc.2
    case h_2 => cases hs
  | free w =>
    simp only [Reclaim.step] at hs
    split at hs
    case h_1 epoch b rest hq =>
      split_ifs at hs with hc
      cases hs
      exact h.free hc hq
    case h_2 => cases hs
  | finish w =>
    simp only [Reclaim.step] at hs
    split_ifs at hs
    cases hs
    exact h.goto w rfl

/-- **No block is freed while it is held.** In every state that any number of readers and writers
reach in any interleaving, the block that a writer is about to free, and every block freed
before, is under no protection that has not been popped. -/
theorem freed_block_not_held {n : ℕ} {reachable : B → Bool} {acts : List (Act B)} {s : State B}
    (hrun : Run.run step (initial n reachable) acts = some s) :
    (∀ w s' epoch b rest, step s (.free w) = some s' → s.queue w = (epoch, b) :: rest →
      ∀ r q, ¬ Holds s r q b) ∧
    ∀ b, s.status b = .freed → ∀ r q, ¬ Holds s r q b := by
  have h : Inv s := Run.run_invariant (fun s a s' hs => hs.step) (inv_initial n reachable) hrun
  refine ⟨fun w s' epoch b rest hfree hq => ?_, fun b hb => h.doomed b (Or.inl hb)⟩
  simp only [step, hq] at hfree
  split_ifs at hfree with hpc
  exact h.doomed b (Or.inr ⟨w, epoch, rest, hpc, hq⟩)

end Writers

/-- A reader holds block 0 while it is retired at epoch 1; it leaves, and the second bump frees
it. -/
theorem freed_block_not_held_two_bumps :
    ∃ s, Run.run step (initial 1 fun b : ℕ => b < 2)
        [.load 0, .enqueue 0, .obtain 0 0 0, .unlink 5 0, .readEpoch 5, .push 5, .bump 5, .scan 5,
          .store 5, .finish 5, .pop 0, .unlink 5 1, .readEpoch 5, .push 5, .bump 5,
            .scan 5, .store 5,
          .check 5, .free 5] = some s ∧
      s.status 0 = .freed ∧ ∀ b, s.status b = .freed → ∀ r q, ¬ Holds s r q b := by
  have heval : ((Run.run step (initial 1 fun b : ℕ => b < 2)
      [.load 0, .enqueue 0, .obtain 0 0 0, .unlink 5 0, .readEpoch 5, .push 5, .bump 5, .scan 5,
        .store 5, .finish 5, .pop 0, .unlink 5 1, .readEpoch 5, .push 5, .bump 5, .scan 5, .store 5,
        .check 5, .free 5]).any fun s => s.status 0 = .freed) = true := by
    decide +kernel
  simp only [Option.any_eq_true, decide_eq_true_eq] at heval
  obtain ⟨s, hrun, hfreed⟩ := heval
  exact ⟨s, hrun, hfreed, (freed_block_not_held hrun).2⟩

end Reclaim

end PetPS
