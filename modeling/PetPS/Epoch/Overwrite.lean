import Mathlib.Data.List.Basic
import Mathlib.Data.List.Range
import Mathlib.Logic.Function.Basic
import PetPS.Lib.Run
import PetPS.Epoch.Manager

/-!
# Retire, then unlink

Readers of `PetKV` under epoch protection, and `PetKV::Update` of keys that exist. `Update`
allocates a block for the new value, hands the old one to `ShmEpochRecycle::Recycle` and only then
installs the new offset: while `Recycle` reads the epoch, pushes, bumps and frees, readers still
obtain the old block. Shards have a lock and a recycler of their own and share one `EpochManager`.

A block stands for one allocation, as in `Reclaim`. What has been retired and freed is kept in the
state, with removal epochs, to speak about it.

## Main results

* `Inv.step` — a step whose `Get` does not return a block retired before the reader's epoch
  keeps the invariant
* `overwritten_block_not_freed` — in a run of such steps no block is freed while it is held
* `overwritten_block_freed` — a reader that enters inside the window loses its block
-/

namespace PetPS

namespace Overwrite

/-- Where a shard's `Update` is. -/
inductive Pc (K B : Type)
  | idle
  /-- `New` has returned. -/
  | allocated (key : K) (new : B)
  /-- `removal_epoch` of the old block has been read. -/
  | removal (key : K) (new : B) (epoch : ℕ) (old : B)
  /-- The pair has been pushed. -/
  | pushed (key : K) (new : B)
  /-- In `BumpCurrentEpoch`, after the increment. -/
  | bumping (key : K) (new : B)
  /-- At the condition of the freeing loop. -/
  | reclaiming (key : K) (new : B)
  /-- In the body of the freeing loop. -/
  | freeing (key : K) (new : B)
  deriving DecidableEq

/-- The shards and their shared epoch manager. -/
structure State (K B : Type) where
  /-- The manager; a protection is annotated with the blocks obtained under it. -/
  mgr : EpochManager (List B)
  /-- The block that the offset word of a key leads to. -/
  dict : K → Option B
  /-- Where each shard is. -/
  pc : ℕ → Pc K B
  /-- `recycle_ptr_` of each shard. -/
  queue : ℕ → List (ℕ × B)
  /-- `recycled_count` of each shard. -/
  recycledCount : ℕ → ℕ
  /-- Allocated at some time. -/
  used : B → Bool
  /-- Retired so far, with the removal epoch. -/
  retired : List (ℕ × B)
  /-- Passed to `PersistMemoryPool::Free` so far, with the removal epoch. -/
  freed : List (ℕ × B)

/-- The atomic steps. -/
inductive Act (K B : Type)
  /-- `EpochManager::Protect`. -/
  | protect (r : ℕ)
  /-- `PetKV::Get` under the reader's protection number `j`. -/
  | get (r j : ℕ) (key : K)
  /-- The reader reads a block it obtained. -/
  | use (r : ℕ) (b : B)
  /-- `EpochManager::UnProtect`. -/
  | unProtect (r : ℕ)
  /-- `Update` of an existing key has allocated its block. -/
  | alloc (w : ℕ) (key : K) (new : B)
  /-- `Recycle` of the old block reads the removal epoch. -/
  | readEpoch (w : ℕ)
  /-- `Recycle` pushes the pair. -/
  | push (w : ℕ)
  /-- Every 1000th `Recycle` increments the epoch. -/
  | bump (w : ℕ)
  /-- The others do not. -/
  | skip (w : ℕ)
  /-- The bumping shard scans one entry of the table. -/
  | scan (w : ℕ)
  /-- The bumping shard stores the safe epoch. -/
  | store (w : ℕ)
  /-- The front of the queue is found safe. -/
  | check (w : ℕ)
  /-- The front of the queue is freed. -/
  | free (w : ℕ)
  /-- The front is not safe or there is none; `SetShmMallocOffset` installs the new block. -/
  | install (w : ℕ)

variable {K B : Type}

/-- No thread has done anything; the keys have been loaded. -/
def initial (maxThreadNum : ℕ) (dict : K → Option B) (used : B → Bool) : State K B where
  mgr := EpochManager.initial maxThreadNum
  dict
  pc _ := .idle
  queue _ := []
  recycledCount _ := 0
  used
  retired := []
  freed := []

/-- Shard `w` goes to `x`. -/
def State.goto (s : State K B) (w : ℕ) (x : Pc K B) : State K B :=
  { s with pc := Function.update s.pc w x }

/-- The condition of the freeing loop. -/
def frontSafe (s : State K B) (w : ℕ) : Bool :=
  match s.queue w with
  | [] => false
  | (epoch, _) :: _ => s.mgr.isSafeToReclaim epoch

/-- One step, if it is possible; `shardOf` is the shard of a key. -/
def step [DecidableEq K] [DecidableEq B] (shardOf : K → ℕ) (s : State K B) :
    Act K B → Option (State K B)
  | .protect r =>
    if r < s.mgr.maxThreadNum then
      some { s with mgr := s.mgr.enqueProtect r s.mgr.currentEpoch [] }
    else none
  | .get r j key =>
    if j < (s.mgr.table r).length then
      match s.dict key with
      | some b => some { s with mgr := s.mgr.annotate r j (b :: ·) }
      | none => some s
    else none
  | .use r b => if ∃ q ∈ s.mgr.table r, b ∈ q.2 then some s else none
  | .unProtect r =>
    if s.mgr.table r = [] then none
    else some { s with mgr := s.mgr.dequeUnProtect r }
  | .alloc w key new =>
    if s.pc w = .idle ∧ shardOf key = w ∧ (s.dict key).isSome ∧ s.used new = false then
      some (State.goto { s with used := Function.update s.used new true } w (.allocated key new))
    else none
  | .readEpoch w =>
    match s.pc w with
    | .allocated key new =>
      match s.dict key with
      | some old =>
        let epoch := s.mgr.currentEpoch
        let recycledCount := Function.update s.recycledCount w (s.recycledCount w + 1)
        some (State.goto { s with recycledCount, retired := s.retired ++ [(epoch, old)] } w
          (.removal key new epoch old))
      | none => none
    | _ => none
  | .push w =>
    match s.pc w with
    | .removal key new epoch old =>
      let queue := Function.update s.queue w (s.queue w ++ [(epoch, old)])
      some (State.goto { s with queue } w (.pushed key new))
    | _ => none
  | .bump w =>
    match s.pc w with
    | .pushed key new =>
      if s.recycledCount w % 1000 = 0 then
        some (State.goto { s with mgr := s.mgr.bump w } w (.bumping key new))
      else none
    | _ => none
  | .skip w =>
    match s.pc w with
    | .pushed key new =>
      if s.recycledCount w % 1000 = 0 then none else some (s.goto w (.reclaiming key new))
    | _ => none
  | .scan w =>
    match s.pc w with
    | .bumping _ _ => (s.mgr.scanEntry w).map fun mgr => { s with mgr }
    | _ => none
  | .store w =>
    match s.pc w with
    | .bumping key new =>
      (s.mgr.storeSafe w).map fun mgr => State.goto { s with mgr } w (.reclaiming key new)
    | _ => none
  | .check w =>
    match s.pc w with
    | .reclaiming key new => if frontSafe s w then some (s.goto w (.freeing key new)) else none
    | _ => none
  | .free w =>
    match s.pc w, s.queue w with
    | .freeing key new, front :: rest =>
      let queue := Function.update s.queue w rest
      some (State.goto { s with queue, freed := s.freed ++ [front] } w (.reclaiming key new))
    | _, _ => none
  | .install w =>
    match s.pc w with
    | .reclaiming key new =>
      if frontSafe s w then none
      else some (State.goto { s with dict := Function.update s.dict key (some new) } w .idle)
    | _ => none

/-! ### The invariant -/

/-- A reader holds `b` under the protection `q`. -/
def Holds (s : State K B) (r : ℕ) (q : ℕ × List B) (b : B) : Prop := q ∈ s.mgr.table r ∧ b ∈ q.2

/-- The pair has been freed, or its shard is about to. -/
def Doomed (s : State K B) (x : ℕ × B) : Prop :=
  x ∈ s.freed ∨ ∃ w key new rest, s.pc w = .freeing key new ∧ s.queue w = x :: rest

/-- What holds as long as no reader obtains a block retired before its epoch. -/
structure Inv (s : State K B) : Prop where
  /-- The manager is well formed. -/
  wf : s.mgr.Wf
  /-- A protection guards its own epoch. -/
  guards : ∀ r q, q ∈ s.mgr.table r → s.mgr.Guards r q.1 q.1
  /-- What is queued has been retired. -/
  queued : ∀ w x, x ∈ s.queue w → x ∈ s.retired
  /-- What is about to be queued has been retired. -/
  removal : ∀ w key new e b, s.pc w = .removal key new e b → (e, b) ∈ s.retired
  /-- A holder entered no later than the block was retired. -/
  holds : ∀ r q b e, Holds s r q b → (e, b) ∈ s.retired → q.1 ≤ e
  /-- Freed blocks were retired, before every protection there is. -/
  doomed : ∀ x, Doomed s x → x ∈ s.retired ∧ x.1 < s.mgr.currentEpoch ∧
    ∀ r q, q ∈ s.mgr.table r → x.1 < q.1

/-- **What is freed is not held**: its holders would have entered both before and after. -/
theorem Inv.not_held {s : State K B} (h : Inv s) {x : ℕ × B} (hx : Doomed s x) (r : ℕ)
    (q : ℕ × List B) : ¬ Holds s r q x.2 := by
  intro hq
  obtain ⟨hret, -, hlt⟩ := h.doomed x hx
  exact absurd (h.holds r q x.2 x.1 hq hret) (not_le.mpr (hlt r q hq.1))

theorem inv_initial (n : ℕ) (dict : K → Option B) (used : B → Bool) :
    Inv (initial n dict used) where
  wf := EpochManager.wf_initial n
  guards r q hq := absurd hq List.not_mem_nil
  queued w x hx := absurd hx List.not_mem_nil
  removal w key new e b h := by simp [initial] at h
  holds r q b e hq := absurd hq.1 List.not_mem_nil
  doomed x hx := by
    rcases hx with hx | ⟨w, key, new, rest, hpc, -⟩
    · exact absurd hx List.not_mem_nil
    · simp [initial] at hpc

/-! ### Shards that move on -/

/-- Positions without an old block in hand. -/
def Pc.quiet : Pc K B → Bool
  | .removal _ _ _ _ | .freeing _ _ => false
  | _ => true

theorem pc_goto {s : State K B} {w w' : ℕ} {x y : Pc K B} (h : (s.goto w x).pc w' = y) :
    w' = w ∧ x = y ∨ w' ≠ w ∧ s.pc w' = y := by
  by_cases hw : w' = w
  · subst hw
    simp only [State.goto, Function.update_self] at h
    exact Or.inl ⟨rfl, h⟩
  · simp only [State.goto, Function.update_of_ne hw] at h
    exact Or.inr ⟨hw, h⟩

theorem doomed_goto {s : State K B} {w : ℕ} {x : Pc K B} {y : ℕ × B} (h : Doomed (s.goto w x) y) :
    (∃ key new rest, x = .freeing key new ∧ s.queue w = y :: rest) ∨ Doomed s y := by
  obtain hy | ⟨w', key, new, rest, hw', hq⟩ := h
  · exact Or.inr (Or.inl hy)
  · rcases pc_goto hw' with ⟨rfl, hx⟩ | ⟨-, hw'⟩
    · exact Or.inl ⟨key, new, rest, hx, hq⟩
    · exact Or.inr (Or.inr ⟨w', key, new, rest, hw', hq⟩)

theorem Inv.goto {s : State K B} (h : Inv s) (w : ℕ) {x : Pc K B} (hx : x.quiet) :
    Inv (s.goto w x) := by
  refine ⟨h.wf, h.guards, h.queued, ?_, h.holds, ?_⟩
  · intro w' key new e b hw'
    rcases pc_goto hw' with ⟨-, rfl⟩ | ⟨-, hw'⟩
    · cases hx
    · exact h.removal w' key new e b hw'
  · intro y hy
    rcases doomed_goto hy with ⟨key, new, rest, rfl, -⟩ | hy
    · cases hx
    · exact h.doomed y hy

theorem Inv.setMgr {s : State K B} (h : Inv s) {mgr : EpochManager (List B)} (hwf : mgr.Wf)
    (hf : s.mgr.Frame mgr)
    (hg : ∀ r q, q ∈ s.mgr.table r → s.mgr.Guards r q.1 q.1 → mgr.Guards r q.1 q.1) :
    Inv { s with mgr } where
  wf := hwf
  guards r q hq :=
    have hq : q ∈ s.mgr.table r := hf.table ▸ hq
    hg r q hq (h.guards r q hq)
  queued := h.queued
  removal := h.removal
  holds r q b e hq := h.holds r q b e ⟨hf.table ▸ hq.1, hq.2⟩
  doomed x hx := by
    obtain ⟨hret, hlt, hprot⟩ := h.doomed x hx
    exact ⟨hret, hlt.trans_le hf.currentEpoch, fun r q hq => hprot r q (hf.table ▸ hq)⟩

theorem Inv.bump {s : State K B} (h : Inv s) (w : ℕ) : Inv { s with mgr := s.mgr.bump w } :=
  h.setMgr (h.wf.bump w) (EpochManager.frame_bump _ w) fun _ _ _ hg => hg.bump w

theorem Inv.scan {s : State K B} (h : Inv s) {w : ℕ} {mgr : EpochManager (List B)}
    (hm : s.mgr.scanEntry w = some mgr) : Inv { s with mgr } :=
  h.setMgr (h.wf.scanEntry hm) (EpochManager.frame_scanEntry hm)
    fun _ _ hq hg => hg.scanEntry h.wf hq hm

theorem Inv.store {s : State K B} (h : Inv s) {w : ℕ} {mgr : EpochManager (List B)}
    (hm : s.mgr.storeSafe w = some mgr) : Inv { s with mgr } :=
  h.setMgr (h.wf.storeSafe hm) (EpochManager.frame_storeSafe hm)
    fun r q hq hg => hg.storeSafe h.wf (h.wf.entry_lt r q hq) hm

/-! ### Readers -/

/-- A reader enters after everything freed was retired. -/
theorem Inv.protect {s : State K B} (h : Inv s) {r : ℕ} (hr : r < s.mgr.maxThreadNum) :
    Inv { s with mgr := s.mgr.enqueProtect r s.mgr.currentEpoch [] } := by
  have hwf := h.wf.enqueProtect (x := []) hr (Nat.one_le_of_lt h.wf.safe_lt) le_rfl
  refine ⟨hwf, ?_, h.queued, h.removal, ?_, ?_⟩
  · intro r' q hq
    rcases EpochManager.mem_enqueProtect hq with hq' | ⟨-, rfl⟩
    · exact (h.guards r' q hq').congr rfl rfl
    · exact hwf.guards hq
  · rintro r' q b e ⟨hq, hb⟩ he
    rcases EpochManager.mem_enqueProtect hq with hq | ⟨-, rfl⟩
    · exact h.holds r' q b e ⟨hq, hb⟩ he
    · exact absurd hb List.not_mem_nil
  · intro x hx
    obtain ⟨hret, hlt, hprot⟩ := h.doomed x hx
    refine ⟨hret, hlt, fun r' q hq => ?_⟩
    rcases EpochManager.mem_enqueProtect hq with hq | ⟨-, rfl⟩
    exacts [hprot r' q hq, hlt]

/-- A reader obtains a block that was not retired before it entered. -/
theorem Inv.get {s : State K B} (h : Inv s) {r j : ℕ} {b : B}
    (hb : ∀ q ∈ (s.mgr.table r)[j]?, ∀ e, (e, b) ∈ s.retired → q.1 ≤ e) :
    Inv { s with mgr := s.mgr.annotate r j (b :: ·) } := by
  refine ⟨h.wf.annotate r j _, ?_, h.queued, h.removal, ?_, ?_⟩
  · intro r' q hq
    rcases EpochManager.mem_annotate hq with hq | ⟨rfl, q₀, hq₀, rfl⟩
    · exact (h.guards r' q hq).congr rfl rfl
    · exact (h.guards r' q₀ (List.mem_of_getElem? hq₀)).congr rfl rfl
  · rintro r' q b' e ⟨hq, hb'⟩ he
    rcases EpochManager.mem_annotate hq with hq | ⟨rfl, q₀, hq₀, rfl⟩
    · exact h.holds r' q b' e ⟨hq, hb'⟩ he
    · rcases List.mem_cons.mp hb' with rfl | hb'
      · exact hb q₀ hq₀ e he
      · exact h.holds r' q₀ b' e ⟨List.mem_of_getElem? hq₀, hb'⟩ he
  · intro x hx
    obtain ⟨hret, hlt, hprot⟩ := h.doomed x hx
    refine ⟨hret, hlt, fun r' q hq => ?_⟩
    rcases EpochManager.mem_annotate hq with hq | ⟨rfl, q₀, hq₀, rfl⟩
    exacts [hprot r' q hq, hprot r' q₀ (List.mem_of_getElem? hq₀)]

theorem Inv.unProtect {s : State K B} (h : Inv s) (r : ℕ) :
    Inv { s with mgr := s.mgr.dequeUnProtect r } where
  wf := h.wf.dequeUnProtect r
  guards r' q hq := (h.guards r' q (EpochManager.mem_dequeUnProtect hq)).congr rfl rfl
  queued := h.queued
  removal := h.removal
  holds r' q b e hq := h.holds r' q b e ⟨EpochManager.mem_dequeUnProtect hq.1, hq.2⟩
  doomed x hx := by
    obtain ⟨hret, hlt, hprot⟩ := h.doomed x hx
    exact ⟨hret, hlt, fun r' q hq => hprot r' q (EpochManager.mem_dequeUnProtect hq)⟩

/-! ### Updates -/

theorem Inv.congr {s s' : State K B} (h : Inv s) (hmgr : s'.mgr = s.mgr) (hpc : s'.pc = s.pc)
    (hqueue : s'.queue = s.queue) (hretired : s'.retired = s.retired)
    (hfreed : s'.freed = s.freed) :
    Inv s' := by
  obtain ⟨mgr, dict, pc, queue, count, used, retired, freed⟩ := s
  obtain ⟨mgr', dict', pc', queue', count', used', retired', freed'⟩ := s'
  cases hmgr
  cases hpc
  cases hqueue
  cases hretired
  cases hfreed
  exact ⟨h.wf, h.guards, h.queued, h.removal, h.holds, h.doomed⟩

/-- The old block is retired now, and its holders entered no later. -/
theorem Inv.readEpoch {s : State K B} (h : Inv s) (old : B) :
    Inv { s with retired := s.retired ++ [(s.mgr.currentEpoch, old)] } where
  wf := h.wf
  guards := h.guards
  queued w x hx := List.mem_append_left _ (h.queued w x hx)
  removal w key new e b hw := List.mem_append_left _ (h.removal w key new e b hw)
  holds r q b e hq he := by
    rcases List.mem_append.mp he with he | he
    · exact h.holds r q b e hq he
    · cases List.mem_singleton.mp he
      exact (h.wf.prot r q hq.1).2
  doomed x hx := by
    obtain ⟨hret, hlt⟩ := h.doomed x hx
    exact ⟨List.mem_append_left _ hret, hlt⟩

theorem Inv.goto_removal {s : State K B} (h : Inv s) (w : ℕ) (key : K) (new : B) {e : ℕ} {b : B}
    (hret : (e, b) ∈ s.retired) : Inv (s.goto w (.removal key new e b)) := by
  refine ⟨h.wf, h.guards, h.queued, ?_, h.holds, ?_⟩
  · intro w' key' new' e' b' hw'
    rcases pc_goto hw' with ⟨-, hx⟩ | ⟨-, hw'⟩
    · cases hx
      exact hret
    · exact h.removal w' key' new' e' b' hw'
  · intro y hy
    rcases doomed_goto hy with ⟨key', new', rest, hx, -⟩ | hy
    · cases hx
    · exact h.doomed y hy

theorem Inv.push {s : State K B} (h : Inv s) {w : ℕ} {key : K} {new : B} {epoch : ℕ} {old : B}
    (hpc : s.pc w = .removal key new epoch old) :
    Inv { s with queue := Function.update s.queue w (s.queue w ++ [(epoch, old)]) } := by
  refine ⟨h.wf, h.guards, ?_, h.removal, h.holds, ?_⟩
  · intro w' x hx
    by_cases hw : w' = w
    · subst hw
      simp only [Function.update_self, List.mem_append, List.mem_singleton] at hx
      rcases hx with hx | rfl
      exacts [h.queued w' x hx, h.removal w' key new epoch old hpc]
    · simp only [Function.update_of_ne hw] at hx
      exact h.queued w' x hx
  · rintro x (hx | ⟨w', key', new', rest, hw', hq⟩)
    · exact h.doomed x (Or.inl hx)
    · have hw : w' ≠ w := by
        rintro rfl
        cases hpc.symm.trans hw'
      simp only [Function.update_of_ne hw] at hq
      exact h.doomed x (Or.inr ⟨w', key', new', rest, hw', hq⟩)

/-- **Only blocks retired before every protection are found safe.** -/
theorem Inv.check {s : State K B} (h : Inv s) {w : ℕ} (key : K) (new : B) (hsafe : frontSafe s w) :
    Inv (s.goto w (.freeing key new)) := by
  refine ⟨h.wf, h.guards, h.queued, ?_, h.holds, ?_⟩
  · intro w' key' new' e b hw'
    rcases pc_goto hw' with ⟨-, hx⟩ | ⟨-, hw'⟩
    · cases hx
    · exact h.removal w' key' new' e b hw'
  · intro x hx
    rcases doomed_goto hx with ⟨key', new', rest, -, hq⟩ | hx
    · simp only [frontSafe, hq, EpochManager.isSafeToReclaim, decide_eq_true_eq] at hsafe
      exact ⟨h.queued w x (hq ▸ List.mem_cons_self), hsafe.trans_lt h.wf.safe_lt,
        fun r q hq' => hsafe.trans_lt (h.guards r q hq').safe_lt⟩
    · exact h.doomed x hx

theorem Inv.free {s : State K B} (h : Inv s) {w : ℕ} {key : K} {new : B} {front : ℕ × B}
    {rest : List (ℕ × B)} (hpc : s.pc w = .freeing key new) (hq : s.queue w = front :: rest) :
    Inv (State.goto
      { s with queue := Function.update s.queue w rest, freed := s.freed ++ [front] } w
      (.reclaiming key new)) := by
  refine ⟨h.wf, h.guards, ?_, ?_, h.holds, ?_⟩
  · intro w' x hx
    by_cases hw : w' = w
    · subst hw
      simp only [State.goto, Function.update_self] at hx
      exact h.queued w' x (hq ▸ List.mem_cons_of_mem _ hx)
    · simp only [State.goto, Function.update_of_ne hw] at hx
      exact h.queued w' x hx
  · intro w' key' new' e b hw'
    rcases pc_goto hw' with ⟨-, hx⟩ | ⟨-, hw'⟩
    · cases hx
    · exact h.removal w' key' new' e b hw'
  · rintro x (hx | ⟨w', key', new', rest', hw', hq'⟩)
    · rcases List.mem_append.mp hx with hx | hx
      · exact h.doomed x (Or.inl hx)
      · cases List.mem_singleton.mp hx
        exact h.doomed front (Or.inr ⟨w, key, new, rest, hpc, hq⟩)
    · rcases pc_goto hw' with ⟨-, hx⟩ | ⟨hw, hw'⟩
      · cases hx
      · simp only [State.goto, Function.update_of_ne hw] at hq'
        exact h.doomed x (Or.inr ⟨w', key', new', rest', hw', hq'⟩)

/-! ### Runs -/

/-- A `Get` does not return a block that was retired at an epoch before that of the protection it is
called under. -/
def Fresh (s : State K B) : Act K B → Prop
  | .get r j key => ∀ b ∈ s.dict key, ∀ q ∈ (s.mgr.table r)[j]?, ∀ x ∈ s.retired,
    x.2 = b → q.1 ≤ x.1
  | _ => True

variable [DecidableEq K] [DecidableEq B]

instance (s : State K B) : ∀ a, Decidable (Fresh s a)
  | .get r j key => inferInstanceAs (Decidable (∀ b ∈ s.dict key, ∀ q ∈ (s.mgr.table r)[j]?,
      ∀ x ∈ s.retired, x.2 = b → q.1 ≤ x.1))
  | .protect _ | .use _ _ | .unProtect _ | .alloc _ _ _ | .readEpoch _ | .push _ | .bump _ | .skip _
  | .scan _ | .store _ | .check _ | .free _ | .install _ => inferInstanceAs (Decidable True)

/-- **Every step whose `Get` is fresh keeps the invariant.** -/
theorem Inv.step {shardOf : K → ℕ} {s s' : State K B} (h : Inv s) {a : Act K B} (ha : Fresh s a)
    (hs : Overwrite.step shardOf s a = some s') : Inv s' := by
  cases a with
  | protect r =>
    simp only [Overwrite.step] at hs
    split_ifs at hs with hr
    cases hs
    exact h.protect hr
  | get r j key =>
    simp only [Overwrite.step] at hs
    split_ifs at hs
    split at hs
    case h_1 b hb => cases hs; exact h.get fun q hq e he => ha b hb q hq (e, b) he rfl
    case h_2 => cases hs; exact h
  | use r b =>
    simp only [Overwrite.step] at hs
    split_ifs at hs
    cases hs
    exact h
  | unProtect r =>
    simp only [Overwrite.step] at hs
    split_ifs at hs
    cases hs
    exact h.unProtect r
  | alloc w key new =>
    simp only [Overwrite.step] at hs
    split_ifs at hs
    cases hs
    refine Inv.goto ?_ w rfl
    exact h.congr rfl rfl rfl rfl rfl
  | readEpoch w =>
    simp only [Overwrite.step] at hs
    split at hs
    case h_1 key new hpc =>
      split at hs
      case h_1 old hold =>
        cases hs
        refine Inv.goto_removal ?_ w key new (List.mem_append_right _ (List.mem_singleton_self _))
        exact (h.readEpoch old).congr rfl rfl rfl rfl rfl
      case h_2 => cases hs
    case h_2 => cases hs
  | push w =>
    simp only [Overwrite.step] at hs
    split at hs
    case h_1 key new epoch old hpc => cases hs; exact (h.push hpc).goto w rfl
    case h_2 => cases hs
  | bump w =>
    simp only [Overwrite.step] at hs
    split at hs
    case h_1 key new hpc =>
      split_ifs at hs
      cases hs
      exact (h.bump w).goto w rfl
    case h_2 => cases hs
  | skip w =>
    simp only [Overwrite.step] at hs
    split at hs
    case h_1 key new hpc =>
      split_ifs at hs
      cases hs
      exact h.goto w rfl
    case h_2 => cases hs
  | scan w =>
    simp only [Overwrite.step] at hs
    split at hs
    case h_1 key new hpc =>
      obtain ⟨mgr, hm, rfl⟩ := Option.map_eq_some_iff.mp hs
      exact h.scan hm
    case h_2 => cases hs
  | store w =>
    simp only [Overwrite.step] at hs
    split at hs
    case h_1 key new hpc =>
      obtain ⟨mgr, hm, rfl⟩ := Option.map_eq_some_iff.mp hs
      exact (h.store hm).goto w rfl
    case h_2 => cases hs
  | check w =>
    simp only [Overwrite.step] at hs
    split at hs
    case h_1 key new hpc =>
      split_ifs at hs with hsafe
      cases hs
      exact h.check key new hsafe
    case h_2 => cases hs
  | free w =>
    simp only [Overwrite.step] at hs
    split at hs
    case h_1 key new front rest hpc hq => cases hs; exact h.free hpc hq
    case h_2 => cases hs
  | install w =>
    simp only [Overwrite.step] at hs
    split at hs
    case h_1 key new hpc =>
      split_ifs at hs
      cases hs
      refine Inv.goto ?_ w rfl
      exact h.congr rfl rfl rfl rfl rfl
    case h_2 => cases hs

/-- **No block is freed while it is held, if every `Get` is fresh.** In every state that readers and
updates reach in any interleaving, the block that a shard is about to free, and every block freed
before, is under no protection that has not ended. -/
theorem overwritten_block_not_freed {shardOf : K → ℕ} {n : ℕ} {dict : K → Option B}
    {used : B → Bool} {acts : List (Act K B)} {s : State K B}
    (hfresh : Run.Guarded (step shardOf) Fresh (initial n dict used) acts)
    (hrun : Run.run (step shardOf) (initial n dict used) acts = some s) :
    (∀ w s' front rest, step shardOf s (.free w) = some s' → s.queue w = front :: rest →
      ∀ r q, ¬ Holds s r q front.2) ∧
    ∀ x ∈ s.freed, ∀ r q, ¬ Holds s r q x.2 := by
  have h : Inv s := Run.run_history (P := fun _ => Inv)
    (fun _ s a s' hs ha hstep => hs.step ha hstep) [] (inv_initial n dict used) hfresh hrun
  refine ⟨fun w s' front rest hfree hq => ?_, fun x hx => h.not_held (Or.inl hx)⟩
  simp only [step] at hfree
  split at hfree
  case h_1 key new front' rest' hpc hq' =>
    cases hq.symm.trans hq'
    exact h.not_held (Or.inr ⟨w, key, new, rest, hpc, hq⟩)
  case h_2 => cases hfree

/-- A reader that got block 0 first uses it after it has been overwritten. -/
theorem overwritten_block_not_freed_one_update :
    ∃ s, Run.run (step fun _ => 0) (initial 64 (fun _ : ℕ => some 0) fun b : ℕ => b = 0)
        [.protect 3, .get 3 0 8, .alloc 0 8 1, .readEpoch 0, .push 0, .skip 0, .install 0,
          .use 3 0] = some s ∧
      (1, 0) ∈ s.retired ∧ ∀ x ∈ s.freed, ∀ r q, ¬ Holds s r q x.2 := by
  have hfresh : Run.Guarded (step fun _ => 0) Fresh
      (initial 64 (fun _ : ℕ => some 0) fun b : ℕ => b = 0)
      [.protect 3, .get 3 0 8, .alloc 0 8 1, .readEpoch 0, .push 0, .skip 0, .install 0,
        .use 3 0] := by
    decide +kernel
  have heval : ((Run.run (step fun _ => 0) (initial 64 (fun _ : ℕ => some 0) fun b : ℕ => b = 0)
      [.protect 3, .get 3 0 8, .alloc 0 8 1, .readEpoch 0, .push 0, .skip 0, .install 0,
        .use 3 0]).any fun s => (1, 0) ∈ s.retired) = true := by
    decide +kernel
  simp only [Option.any_eq_true, decide_eq_true_eq] at heval
  obtain ⟨s, hrun, hret⟩ := heval
  exact ⟨s, hrun, hret, (overwritten_block_not_freed hfresh hrun).2⟩

/-! ### The window

One shard, one key, overwritten again and again; block `n` is the one installed by update `n`. -/

section Window

/-- The shard between two updates: `n` are done, and of the blocks they retired `queue` are left. -/
def calm (mgr : EpochManager (List ℕ)) (queue : List (ℕ × ℕ)) (n : ℕ) : State ℕ ℕ where
  mgr
  dict := Function.update (fun _ => none) 0 (some n)
  pc _ := .idle
  queue := Function.update (fun _ => []) 0 queue
  recycledCount := Function.update (fun _ => 0) 0 n
  used b := b ≤ n
  retired := queue
  freed := []

/-- An update that does not bump. -/
def quietUpdate (n : ℕ) : List (Act ℕ ℕ) :=
  [.alloc 0 0 n, .readEpoch 0, .push 0, .skip 0, .install 0]

/-- The part of the 1000th update, or the 2000th, up to the bump. -/
def bumpingUpdate (n : ℕ) : List (Act ℕ ℕ) :=
  [.alloc 0 0 n, .readEpoch 0, .push 0, .bump 0] ++ List.replicate 64 (.scan 0) ++ [.store 0]

theorem used_update (n : ℕ) :
    Function.update (fun b : ℕ => decide (b ≤ n)) (n + 1) true = fun b => decide (b ≤ n + 1) := by
  funext b
  by_cases hb : b = n + 1
  · subst hb
    simp
  · rw [Function.update_of_ne hb]
    exact decide_eq_decide.mpr (by omega)

/-- The shard in the freeing loop of update `n + 1`, before the new block is installed. -/
def window (mgr : EpochManager (List ℕ)) (queue retired freed : List (ℕ × ℕ)) (n : ℕ) :
    State ℕ ℕ where
  mgr
  dict := Function.update (fun _ => none) 0 (some n)
  pc := Function.update (fun _ => .idle) 0 (.reclaiming 0 (n + 1))
  queue := Function.update (fun _ => []) 0 queue
  recycledCount := Function.update (fun _ => 0) 0 (n + 1)
  used b := b ≤ n + 1
  retired
  freed

theorem frontSafe_window {mgr : EpochManager (List ℕ)} {queue retired freed : List (ℕ × ℕ)} {n : ℕ}
    (hq : ∀ x ∈ queue, mgr.safeToReclaimEpoch < x.1) :
    frontSafe (window mgr queue retired freed n) 0 = false := by
  cases queue with
  | nil => rfl
  | cons x l => exact decide_eq_false (not_le.mpr (hq x List.mem_cons_self))

theorem step_install {mgr : EpochManager (List ℕ)} {queue : List (ℕ × ℕ)} {n : ℕ}
    (hq : ∀ x ∈ queue, mgr.safeToReclaimEpoch < x.1) :
    step (fun _ => 0) (window mgr queue queue [] n) (.install 0) =
      some (calm mgr queue (n + 1)) := by
  have hfront : frontSafe (window mgr queue queue [] n) 0 = false := frontSafe_window hq
  have hpc : (window mgr queue queue [] n).pc 0 = .reclaiming 0 (n + 1) := rfl
  simp only [step, hpc, hfront]
  simp [window, calm, State.goto]

theorem run_quietUpdate {mgr : EpochManager (List ℕ)} {queue : List (ℕ × ℕ)} {n : ℕ}
    (hn : (n + 1) % 1000 ≠ 0) (hq : ∀ x ∈ queue, mgr.safeToReclaimEpoch < x.1)
    (hcur : mgr.safeToReclaimEpoch < mgr.currentEpoch) :
    Run.run (step fun _ => 0) (calm mgr queue n) (quietUpdate (n + 1)) =
      some (calm mgr (queue ++ [(mgr.currentEpoch, n)]) (n + 1)) := by
  have hretire : Run.run (step fun _ => 0) (calm mgr queue n)
      [.alloc 0 0 (n + 1), .readEpoch 0, .push 0, .skip 0] =
      some (window mgr (queue ++ [(mgr.currentEpoch, n)])
        (queue ++ [(mgr.currentEpoch, n)]) [] n) := by
    simp [Run.run, step, calm, window, State.goto, hn, used_update]
  refine Run.run_concat hretire (step_install fun x hx => ?_)
  rcases List.mem_append.mp hx with hx | hx
  · exact hq x hx
  · rw [List.mem_singleton.mp hx]
    exact hcur

theorem run_quietUpdates {mgr : EpochManager (List ℕ)}
    (hcur : mgr.safeToReclaimEpoch < mgr.currentEpoch) (k : ℕ) {queue : List (ℕ × ℕ)} {n : ℕ}
    (hn : ∀ m, n < m → m ≤ n + k → m % 1000 ≠ 0)
    (hq : ∀ x ∈ queue, mgr.safeToReclaimEpoch < x.1) :
    Run.run (step fun _ => 0) (calm mgr queue n) ((List.range' (n + 1) k).flatMap quietUpdate) =
      some (calm mgr (queue ++ (List.range' n k).map fun b => (mgr.currentEpoch, b)) (n + k)) := by
  induction k generalizing queue n with
  | zero => simp
  | succ k ih =>
    rw [List.range'_succ, List.flatMap_cons, Run.run_append,
      run_quietUpdate (hn (n + 1) (by omega) (by omega)) hq hcur, Option.bind_some, ih]
    · rw [List.range'_succ, List.map_cons, List.append_assoc, List.singleton_append,
        Nat.add_right_comm, Nat.add_assoc]
    · intro m hlt hle
      exact hn m (by omega) (by omega)
    · intro x hx
      rcases List.mem_append.mp hx with hx | hx
      · exact hq x hx
      · rw [List.mem_singleton.mp hx]
        exact hcur

/-- A scan over `k` entries. -/
theorem run_scan {K B : Type} [DecidableEq K] [DecidableEq B] {shardOf : K → ℕ} {w f : ℕ} {key : K}
    {new : B} (k : ℕ) {s : State K B} {o i : ℕ} (hpc : s.pc w = .bumping key new)
    (hscan : s.mgr.scan w = some ⟨f, o, i⟩) (hk : i + k ≤ s.mgr.maxThreadNum) :
    Run.run (step shardOf) s (List.replicate k (.scan w)) =
      some { s with
        mgr := s.mgr.setScan w (some ⟨f, (List.range' i k).foldl
          (fun o i => EpochManager.lower o (EpochManager.minEpoch (s.mgr.table i))) o,
            i + k⟩) } := by
  induction k generalizing s o i with
  | zero =>
    have hself : s.mgr.setScan w (some ⟨f, o, i⟩) = s.mgr := by
      rw [EpochManager.setScan, ← hscan, Function.update_eq_self]
    simp [hself]
  | succ k ih =>
    obtain ⟨s', hs'⟩ : ∃ s' : State K B, s' = { s with
        mgr := s.mgr.setScan w
          (some ⟨f, EpochManager.lower o (EpochManager.minEpoch (s.mgr.table i)),
            i + 1⟩) } := ⟨_, rfl⟩
    have hturn : step shardOf s (.scan w) = some s' := by
      have hi : i < s.mgr.maxThreadNum := by omega
      simp only [step, hpc, EpochManager.scanEntry, hscan, if_pos hi, Option.map_some, hs']
    have hscan' : s'.mgr.scan w =
        some ⟨f, EpochManager.lower o (EpochManager.minEpoch (s.mgr.table i)), i + 1⟩ := by
      rw [hs']
      exact Function.update_self _ _ _
    have hk' : i + 1 + k ≤ s'.mgr.maxThreadNum := by
      rw [hs']
      change i + 1 + k ≤ s.mgr.maxThreadNum
      omega
    rw [List.replicate_succ, Run.run_cons, hturn, Option.bind_some,
      ih (by rw [hs']; exact hpc) hscan' hk', hs']
    simp [EpochManager.setScan, List.range'_succ, Nat.add_right_comm, Nat.add_assoc]

/-- What a bump with its scan leaves. -/
def bumped (mgr : EpochManager (List ℕ)) (safe : ℕ) : EpochManager (List ℕ) :=
  { mgr with currentEpoch := mgr.currentEpoch + 1, safeToReclaimEpoch := safe }

theorem run_bumpingUpdate {mgr : EpochManager (List ℕ)} {queue queue' : List (ℕ × ℕ)} {n safe : ℕ}
    (hn : (n + 1) % 1000 = 0) (hmax : mgr.maxThreadNum = 64) (hscan : mgr.scan = fun _ => none)
    (hqueue : queue ++ [(mgr.currentEpoch, n)] = queue')
    (hsafe : (List.range' 0 64).foldl
      (fun o i => EpochManager.lower o (EpochManager.minEpoch (mgr.table i)))
      mgr.currentEpoch - 1 = safe) :
    Run.run (step fun _ => 0) (calm mgr queue n) (bumpingUpdate (n + 1)) =
      some (window (bumped mgr safe) queue' queue' [] n) := by
  subst hqueue hsafe
  have hretire : Run.run (step fun _ => 0) (calm mgr queue n)
      [.alloc 0 0 (n + 1), .readEpoch 0, .push 0, .bump 0] =
      some (State.goto (window (mgr.bump 0) (queue ++ [(mgr.currentEpoch, n)])
        (queue ++ [(mgr.currentEpoch, n)]) [] n) 0 (.bumping 0 (n + 1))) := by
    simp [Run.run, step, calm, window, State.goto, hn, used_update]
  obtain ⟨s, hs⟩ : ∃ s, s = State.goto (window (mgr.bump 0) (queue ++ [(mgr.currentEpoch, n)])
    (queue ++ [(mgr.currentEpoch, n)]) [] n) 0 (.bumping 0 (n + 1)) := ⟨_, rfl⟩
  have hpc : s.pc 0 = .bumping 0 (n + 1) := by simp [hs, State.goto]
  have hbump : s.mgr.scan 0 = some ⟨mgr.currentEpoch, mgr.currentEpoch, 0⟩ := by
    simp [hs, State.goto, window, EpochManager.bump]
  have hlen : 0 + 64 ≤ s.mgr.maxThreadNum := by
    simp [hs, State.goto, window, EpochManager.bump, hmax]
  rw [bumpingUpdate, Run.run_append, Run.run_append, hretire, Option.bind_some, ← hs,
    run_scan 64 hpc hbump hlen, hs]
  simp [Run.run, step, State.goto, window, EpochManager.storeSafe, EpochManager.setScan,
    EpochManager.bump, hmax, bumped, hscan]

/-- The freeing loop frees the part of the queue that is safe. -/
theorem run_reclaim {mgr : EpochManager (List ℕ)} {rest retired : List (ℕ × ℕ)} {n : ℕ}
    (l : List (ℕ × ℕ)) {freed : List (ℕ × ℕ)} (hl : ∀ x ∈ l, x.1 ≤ mgr.safeToReclaimEpoch) :
    Run.run (step fun _ => 0) (window mgr (l ++ rest) retired freed n)
        (List.replicate l.length [.check 0, .free 0]).flatten =
      some (window mgr rest retired (freed ++ l) n) := by
  induction l generalizing freed with
  | nil => simp
  | cons x l ih =>
    have hfree : Run.run (step fun _ => 0) (window mgr (x :: l ++ rest) retired freed n)
        [.check 0, .free 0] = some (window mgr (l ++ rest) retired (freed ++ [x]) n) := by
      simp [Run.run, step, window, State.goto, frontSafe, EpochManager.isSafeToReclaim,
        hl x List.mem_cons_self]
    rw [List.length_cons, List.replicate_succ, List.flatten_cons, Run.run_append, hfree,
      Option.bind_some, ih fun y hy => hl y (List.mem_cons_of_mem x hy), List.append_assoc,
      List.singleton_append]

/-- 999 quiet updates; the 1000th retires block 999 at epoch 1 and bumps; before it installs block
1000, a reader enters at epoch 2 and gets block 999; 999 more quiet updates; the 2000th bumps, finds
the reader's epoch 2, and frees what was retired at epoch 1. -/
def lossSchedule : List (Act ℕ ℕ) :=
  (List.range' 1 999).flatMap quietUpdate ++ bumpingUpdate 1000 ++
    [.protect 0, .get 0 0 0, .install 0] ++
    (List.range' 1001 999).flatMap quietUpdate ++ bumpingUpdate 2000 ++
    (List.replicate 1000 [.check 0, .free 0]).flatten

/-- The manager after the first bump, with the reader's protection. -/
def entered : EpochManager (List ℕ) where
  maxThreadNum := 64
  currentEpoch := 2
  safeToReclaimEpoch := 0
  table := Function.update (fun _ => []) 0 [(2, [999])]
  scan _ := none

/-- The blocks of the first 1000 updates, retired at epoch 1. -/
def firstRetired : List (ℕ × ℕ) := (List.range' 0 1000).map fun b => (1, b)

theorem retired_concat (e n k : ℕ) :
    (List.range' n k).map (fun b => (e, b)) ++ [(e, n + k)] =
      (List.range' n (k + 1)).map fun b => (e, b) := by
  rw [List.range'_concat, List.map_append, Nat.one_mul]
  rfl

theorem run_first : Run.run (step fun _ => 0) (calm (EpochManager.initial 64) [] 0)
    ((List.range' 1 999).flatMap quietUpdate ++ bumpingUpdate 1000 ++
      [.protect 0, .get 0 0 0, .install 0]) = some (calm entered firstRetired 1000) := by
  have hquiet : Run.run (step fun _ => 0) (calm (EpochManager.initial 64) [] 0)
      ((List.range' 1 999).flatMap quietUpdate) =
      some (calm (EpochManager.initial 64) ((List.range' 0 999).map fun b => (1, b)) 999) := by
    refine run_quietUpdates Nat.zero_lt_one 999 (fun m hlt hle => ?_) fun x hx => ?_
    · omega
    · exact absurd hx List.not_mem_nil
  have hbump : Run.run (step fun _ => 0)
      (calm (EpochManager.initial 64) ((List.range' 0 999).map fun b => (1, b)) 999)
      (bumpingUpdate 1000) =
      some (window (bumped (EpochManager.initial 64) 0) firstRetired firstRetired [] 999) := by
    refine run_bumpingUpdate (by decide) rfl rfl ?_ (by decide +kernel)
    have hret := retired_concat 1 0 999
    rwa [Nat.zero_add] at hret
  have henter : Run.run (step fun _ => 0)
      (window (bumped (EpochManager.initial 64) 0) firstRetired firstRetired [] 999)
      [.protect 0, .get 0 0 0] = some (window entered firstRetired firstRetired [] 999) := by
    simp [Run.run, step, window, bumped, entered, EpochManager.initial, EpochManager.enqueProtect,
      EpochManager.annotate]
  rw [Run.run_append, Run.run_append, hquiet, Option.bind_some, hbump, Option.bind_some]
  refine Run.run_concat henter (step_install fun x hx => ?_)
  obtain ⟨b, -, rfl⟩ := List.mem_map.mp hx
  exact Nat.zero_lt_one

theorem run_second : Run.run (step fun _ => 0) (calm entered firstRetired 1000)
    ((List.range' 1001 999).flatMap quietUpdate ++ bumpingUpdate 2000) =
      some (window (bumped entered 1) (firstRetired ++ (List.range' 1000 1000).map fun b => (2, b))
        (firstRetired ++ (List.range' 1000 1000).map fun b => (2, b)) [] 1999) := by
  have hquiet : Run.run (step fun _ => 0) (calm entered firstRetired 1000)
      ((List.range' 1001 999).flatMap quietUpdate) =
      some (calm entered (firstRetired ++ (List.range' 1000 999).map fun b => (2, b)) 1999) := by
    refine run_quietUpdates Nat.zero_lt_two 999 (fun m hlt hle => ?_) fun x hx => ?_
    · omega
    · obtain ⟨b, -, rfl⟩ := List.mem_map.mp hx
      exact Nat.zero_lt_one
  rw [Run.run_append, hquiet, Option.bind_some]
  refine run_bumpingUpdate (by decide) rfl rfl ?_ (by decide +kernel)
  rw [List.append_assoc]
  exact congrArg (firstRetired ++ ·) (retired_concat 2 1000 999)

/-- **A reader that enters between retiring and unlinking loses its block**: block 999 is freed
while it is held under a protection that has not ended. -/
theorem overwritten_block_freed :
    ∃ s, Run.run (step fun _ => 0)
        (initial 64 (Function.update (fun _ => none) 0 (some 0)) fun b => decide (b ≤ 0))
        lossSchedule = some s ∧
      (1, 999) ∈ s.freed ∧ Holds s 0 (2, [999]) 999 := by
  have hinit : initial 64 (Function.update (fun _ => none) 0 (some 0)) (fun b => decide (b ≤ 0)) =
      calm (EpochManager.initial 64) [] 0 := by
    simp [initial, calm]
  have hlen : firstRetired.length = 1000 := by
    rw [firstRetired, List.length_map, List.length_range']
  have hfree : Run.run (step fun _ => 0)
      (window (bumped entered 1) (firstRetired ++ (List.range' 1000 1000).map fun b => (2, b))
        (firstRetired ++ (List.range' 1000 1000).map fun b => (2, b)) [] 1999)
      (List.replicate 1000 [.check 0, .free 0]).flatten =
      some (window (bumped entered 1) ((List.range' 1000 1000).map fun b => (2, b))
        (firstRetired ++ (List.range' 1000 1000).map fun b => (2, b)) firstRetired 1999) := by
    rw [← hlen]
    refine run_reclaim firstRetired fun x hx => ?_
    obtain ⟨b, -, rfl⟩ := List.mem_map.mp hx
    exact le_rfl
  refine ⟨window (bumped entered 1) ((List.range' 1000 1000).map fun b => (2, b))
    (firstRetired ++ (List.range' 1000 1000).map fun b => (2, b)) firstRetired 1999, ?_, ?_, ?_⟩
  · rw [hinit, lossSchedule, Run.run_append, List.append_assoc, Run.run_append, run_first,
      Option.bind_some, run_second, Option.bind_some, hfree]
  · exact List.mem_map.mpr ⟨999, List.mem_range'_1.mpr ⟨Nat.zero_le _, by decide⟩, rfl⟩
  · exact ⟨List.mem_singleton_self _, List.mem_singleton_self _⟩

end Window

end Overwrite

end PetPS
