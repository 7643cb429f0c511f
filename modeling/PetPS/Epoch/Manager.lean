import Mathlib.Data.List.MinMax
import Mathlib.Data.List.Basic
import Mathlib.Logic.Function.Basic
import Mathlib.Order.Basic
import PetPS.Lib.Threads

/-!
# `EpochManager`

`epoch_manager.h`: a global epoch, a table with one queue of protection epochs per thread, and the
safe epoch, up to which retired blocks may be freed. A bump increments the epoch and then scans the
table entry by entry for the oldest protection; several threads may be scanning at once, so a
scan in progress is part of the state.

A protection carries a value of type `β` that the code does not have: what its reader obtained under
it. Epochs are natural numbers; the code's 64-bit counter would have to be bumped `2 ^ 64` times to
come round.

`Guards m r p e` says that the protection `p` in entry `r` keeps the safe epoch below `e`: it is
below now, and every scan under way started too early to pass `e`, or has still to come to `r`, or
has seen something as old as `p`.

## Main results

* `Wf.guards` — a protection guards the current epoch
* `Guards.bump`, `Guards.scanEntry`, `Guards.storeSafe` — and goes on to do so
-/

namespace PetPS

/-- A call of `ComputeNewSafeToReclaimEpoch` under way. -/
structure Scan where
  /-- Its argument. -/
  currentEpoch : ℕ
  /-- `oldest_call`. -/
  oldestCall : ℕ
  /-- The next entry to look at. -/
  i : ℕ
  deriving DecidableEq

/-- `EpochManager`. -/
structure EpochManager (β : Type) where
  /-- `max_thread_num_`: entries of the table, each reserved by one thread. -/
  maxThreadNum : ℕ
  /-- `current_epoch_`. -/
  currentEpoch : ℕ
  /-- `safe_to_reclaim_epoch_`. -/
  safeToReclaimEpoch : ℕ
  /-- The `epoch_list_` of each entry of the table. -/
  table : ℕ → List (ℕ × β)
  /-- The scan a thread is in. -/
  scan : ℕ → Option Scan

namespace EpochManager

variable {β : Type}

/-- The constructor. -/
def initial (maxThreadNum : ℕ) : EpochManager β where
  maxThreadNum
  currentEpoch := 1
  safeToReclaimEpoch := 0
  table _ := []
  scan _ := none

/-- `Entry::MinEpoch`. -/
def minEpoch (epochList : List (ℕ × β)) : ℕ := ((epochList.map Prod.fst).min?).getD 0

/-- `EnqueProtect`. -/
def enqueProtect (m : EpochManager β) (r epoch : ℕ) (x : β) : EpochManager β :=
  { m with table := Function.update m.table r (m.table r ++ [(epoch, x)]) }

/-- `DequeUnProtect`. -/
def dequeUnProtect (m : EpochManager β) (r : ℕ) : EpochManager β :=
  { m with table := Function.update m.table r (m.table r).tail }

/-- Note `f x` under protection `j` of entry `r`. -/
def annotate (m : EpochManager β) (r j : ℕ) (f : β → β) : EpochManager β :=
  { m with table := Function.update m.table r ((m.table r).modify j fun q => (q.1, f q.2)) }

/-- `BumpCurrentEpoch` by thread `w`, up to the first entry: `fetch_add` returns the old epoch. -/
def bump (m : EpochManager β) (w : ℕ) : EpochManager β :=
  { m with
    currentEpoch := m.currentEpoch + 1
    scan := Function.update m.scan w (some ⟨m.currentEpoch, m.currentEpoch, 0⟩) }

/-- Set the scan of thread `w`. -/
def setScan (m : EpochManager β) (w : ℕ) (s : Option Scan) : EpochManager β :=
  { m with scan := Function.update m.scan w s }

/-- The body of the scan loop. -/
def lower (oldestCall entryEpoch : ℕ) : ℕ :=
  if entryEpoch ≠ 0 ∧ entryEpoch < oldestCall then entryEpoch else oldestCall

/-- One turn of the scan of thread `w`. -/
def scanEntry (m : EpochManager β) (w : ℕ) : Option (EpochManager β) :=
  match m.scan w with
  | none => none
  | some s =>
    if s.i < m.maxThreadNum then
      some (m.setScan w
        (some ⟨s.currentEpoch, lower s.oldestCall (minEpoch (m.table s.i)), s.i + 1⟩))
    else none

/-- The end of the scan of thread `w`: `safe_to_reclaim_epoch_.store(oldest_call - 1)`. -/
def storeSafe (m : EpochManager β) (w : ℕ) : Option (EpochManager β) :=
  match m.scan w with
  | none => none
  | some s =>
    if s.i < m.maxThreadNum then none
    else
      some { m with
        safeToReclaimEpoch := s.oldestCall - 1
        scan := Function.update m.scan w none }

/-- `IsSafeToReclaim`. -/
def isSafeToReclaim (m : EpochManager β) (epoch : ℕ) : Bool := epoch ≤ m.safeToReclaimEpoch

/-! ### Well-formed managers -/

/-- What holds of the manager at all times. -/
structure Wf (m : EpochManager β) : Prop where
  /-- The safe epoch is in the past. -/
  safe_lt : m.safeToReclaimEpoch < m.currentEpoch
  /-- Protections are not in the future. -/
  prot : ∀ r q, q ∈ m.table r → 1 ≤ q.1 ∧ q.1 ≤ m.currentEpoch
  /-- Only entries of the table are used. -/
  entry_lt : ∀ r q, q ∈ m.table r → r < m.maxThreadNum
  /-- Scans started in the past. -/
  scan : ∀ w s, m.scan w = some s →
    s.currentEpoch < m.currentEpoch ∧ 1 ≤ s.oldestCall ∧ s.oldestCall ≤ s.currentEpoch

theorem wf_initial (n : ℕ) : (initial n : EpochManager β).Wf where
  safe_lt := Nat.zero_lt_one
  prot r q hq := absurd hq List.not_mem_nil
  entry_lt r q hq := absurd hq List.not_mem_nil
  scan w s hs := by simp [initial] at hs

/-- The protection `p` of entry `r` keeps the safe epoch below `e`. -/
structure Guards (m : EpochManager β) (r p e : ℕ) : Prop where
  /-- The protection is not younger. -/
  le : p ≤ e
  /-- The safe epoch is below `e`. -/
  safe_lt : m.safeToReclaimEpoch < e
  /-- No scan under way will raise it to `e`. -/
  scan : ∀ w s, m.scan w = some s → s.currentEpoch ≤ e ∨ s.i ≤ r ∨ s.oldestCall ≤ p

/-- **A protection guards the current epoch.** -/
theorem Wf.guards {m : EpochManager β} (h : m.Wf) {r : ℕ} {q : ℕ × β} (hq : q ∈ m.table r) :
    m.Guards r q.1 m.currentEpoch :=
  ⟨(h.prot r q hq).2, h.safe_lt, fun w s hs => Or.inl (h.scan w s hs).1.le⟩

/-- Guards do not depend on the table. -/
theorem Guards.congr {β' : Type} {m : EpochManager β} {m' : EpochManager β'} {r p e : ℕ}
    (h : m.Guards r p e) (hsafe : m'.safeToReclaimEpoch = m.safeToReclaimEpoch)
    (hscan : m'.scan = m.scan) : m'.Guards r p e :=
  ⟨h.le, hsafe ▸ h.safe_lt, fun w s hs => h.scan w s (hscan ▸ hs)⟩

/-! ### The table -/

theorem mem_enqueProtect {m : EpochManager β} {r r' epoch : ℕ} {x : β} {q : ℕ × β}
    (hq : q ∈ (m.enqueProtect r epoch x).table r') :
    q ∈ m.table r' ∨ r' = r ∧ q = (epoch, x) := by
  by_cases hr : r' = r
  · subst hr
    simp only [enqueProtect, Function.update_self, List.mem_append, List.mem_singleton] at hq
    exact hq.imp id fun h => ⟨rfl, h⟩
  · simp only [enqueProtect, Function.update_of_ne hr] at hq
    exact Or.inl hq

theorem mem_dequeUnProtect {m : EpochManager β} {r r' : ℕ} {q : ℕ × β}
    (hq : q ∈ (m.dequeUnProtect r).table r') : q ∈ m.table r' := by
  by_cases hr : r' = r
  · subst hr
    simp only [dequeUnProtect, Function.update_self] at hq
    exact List.mem_of_mem_tail hq
  · simpa only [dequeUnProtect, Function.update_of_ne hr] using hq

theorem mem_annotate {m : EpochManager β} {r r' j : ℕ} {f : β → β} {q : ℕ × β}
    (hq : q ∈ (m.annotate r j f).table r') :
    q ∈ m.table r' ∨ r' = r ∧ ∃ q₀, (m.table r)[j]? = some q₀ ∧ q = (q₀.1, f q₀.2) := by
  by_cases hr : r' = r
  · subst hr
    simp only [annotate, Function.update_self] at hq
    exact (Threads.mem_modify hq).imp id fun h => ⟨rfl, h⟩
  · simp only [annotate, Function.update_of_ne hr] at hq
    exact Or.inl hq

/-- A protection is entered with an epoch read no later than now. -/
theorem Wf.enqueProtect {m : EpochManager β} (h : m.Wf) {r epoch : ℕ} {x : β}
    (hr : r < m.maxThreadNum) (h1 : 1 ≤ epoch) (hle : epoch ≤ m.currentEpoch) :
    (m.enqueProtect r epoch x).Wf where
  safe_lt := h.safe_lt
  prot r' q hq := by
    rcases mem_enqueProtect hq with hq | ⟨-, rfl⟩
    exacts [h.prot r' q hq, ⟨h1, hle⟩]
  entry_lt r' q hq := by
    rcases mem_enqueProtect hq with hq | ⟨rfl, -⟩
    exacts [h.entry_lt r' q hq, hr]
  scan := h.scan

theorem Wf.dequeUnProtect {m : EpochManager β} (h : m.Wf) (r : ℕ) : (m.dequeUnProtect r).Wf where
  safe_lt := h.safe_lt
  prot r' q hq := h.prot r' q (mem_dequeUnProtect hq)
  entry_lt r' q hq := h.entry_lt r' q (mem_dequeUnProtect hq)
  scan := h.scan

theorem Wf.annotate {m : EpochManager β} (h : m.Wf) (r j : ℕ) (f : β → β) :
    (m.annotate r j f).Wf where
  safe_lt := h.safe_lt
  prot r' q hq := by
    rcases mem_annotate hq with hq | ⟨-, q₀, hq₀, rfl⟩
    exacts [h.prot r' q hq, h.prot r q₀ (List.mem_of_getElem? hq₀)]
  entry_lt r' q hq := by
    rcases mem_annotate hq with hq | ⟨rfl, q₀, hq₀, -⟩
    exacts [h.entry_lt r' q hq, h.entry_lt r' q₀ (List.mem_of_getElem? hq₀)]
  scan := h.scan

/-! ### Bumping -/

theorem minEpoch_le {l : List (ℕ × β)} {q : ℕ × β} (hq : q ∈ l) (h1 : ∀ q ∈ l, 1 ≤ q.1) :
    minEpoch l ≠ 0 ∧ minEpoch l ≤ q.1 := by
  have hmem : q.1 ∈ l.map Prod.fst := List.mem_map.mpr ⟨q, hq, rfl⟩
  cases hmin : (l.map Prod.fst).min? with
  | none =>
    rw [List.min?_eq_none_iff] at hmin
    rw [hmin] at hmem
    simp at hmem
  | some a =>
    obtain ⟨ha, hle⟩ := List.min?_eq_some_iff.mp hmin
    obtain ⟨q', hq', rfl⟩ := List.mem_map.mp ha
    rw [minEpoch, hmin, Option.getD_some]
    exact ⟨Nat.one_le_iff_ne_zero.mp (h1 q' hq'), hle _ hmem⟩

theorem lower_le (oldestCall entryEpoch : ℕ) : lower oldestCall entryEpoch ≤ oldestCall := by
  rw [lower]
  split_ifs <;> omega

theorem lower_le_right {oldestCall entryEpoch : ℕ} (h : entryEpoch ≠ 0) :
    lower oldestCall entryEpoch ≤ entryEpoch := by
  rw [lower]
  split_ifs <;> omega

theorem one_le_lower {oldestCall entryEpoch : ℕ} (h : 1 ≤ oldestCall) :
    1 ≤ lower oldestCall entryEpoch := by
  rw [lower]
  split_ifs <;> omega

theorem Wf.bump {m : EpochManager β} (h : m.Wf) (w : ℕ) : (m.bump w).Wf where
  safe_lt := h.safe_lt.trans (Nat.lt_succ_self _)
  prot r q hq := ⟨(h.prot r q hq).1, (h.prot r q hq).2.trans (Nat.le_succ _)⟩
  entry_lt := h.entry_lt
  scan w' s hs := by
    by_cases hw : w' = w
    · subst hw
      simp only [EpochManager.bump, Function.update_self, Option.some.injEq] at hs
      rw [← hs]
      exact ⟨Nat.lt_succ_self _, Nat.one_le_of_lt h.safe_lt, le_rfl⟩
    · simp only [EpochManager.bump, Function.update_of_ne hw] at hs
      obtain ⟨hlt, h1, hle⟩ := h.scan w' s hs
      exact ⟨hlt.trans (Nat.lt_succ_self _), h1, hle⟩

/-- A new scan has still to come to every entry. -/
theorem Guards.bump {m : EpochManager β} {r p e : ℕ} (h : m.Guards r p e) (w : ℕ) :
    (m.bump w).Guards r p e where
  le := h.le
  safe_lt := h.safe_lt
  scan w' s hs := by
    by_cases hw : w' = w
    · subst hw
      simp only [EpochManager.bump, Function.update_self, Option.some.injEq] at hs
      rw [← hs]
      exact Or.inr (Or.inl (Nat.zero_le _))
    · simp only [EpochManager.bump, Function.update_of_ne hw] at hs
      exact h.scan w' s hs

/-- What one turn of a scan does. -/
theorem scanEntry_eq {m m' : EpochManager β} {w : ℕ} (h : m.scanEntry w = some m') :
    ∃ s, m.scan w = some s ∧ s.i < m.maxThreadNum ∧
      m' = m.setScan w
        (some ⟨s.currentEpoch, lower s.oldestCall (minEpoch (m.table s.i)), s.i + 1⟩) := by
  rw [scanEntry] at h
  cases hs : m.scan w with
  | none => rw [hs] at h; simp at h
  | some s =>
    rw [hs] at h
    simp only at h
    split_ifs at h with hlt
    exact ⟨s, rfl, hlt, (Option.some.inj h).symm⟩

/-- What the end of a scan does. -/
theorem storeSafe_eq {m m' : EpochManager β} {w : ℕ} (h : m.storeSafe w = some m') :
    ∃ s, m.scan w = some s ∧ m.maxThreadNum ≤ s.i ∧
      m' = { m with
        safeToReclaimEpoch := s.oldestCall - 1
        scan := Function.update m.scan w none } := by
  rw [storeSafe] at h
  cases hs : m.scan w with
  | none => rw [hs] at h; simp at h
  | some s =>
    rw [hs] at h
    simp only at h
    split_ifs at h with hlt
    exact ⟨s, rfl, not_lt.mp hlt, (Option.some.inj h).symm⟩

/-- Bumps and scans leave the table alone, and the epoch does not go back. -/
structure Frame (m m' : EpochManager β) : Prop where
  maxThreadNum : m'.maxThreadNum = m.maxThreadNum
  currentEpoch : m.currentEpoch ≤ m'.currentEpoch
  table : m'.table = m.table

theorem frame_bump (m : EpochManager β) (w : ℕ) : m.Frame (m.bump w) :=
  ⟨rfl, Nat.le_succ _, rfl⟩

theorem frame_scanEntry {m m' : EpochManager β} {w : ℕ} (hm : m.scanEntry w = some m') :
    m.Frame m' := by
  obtain ⟨s, -, -, rfl⟩ := scanEntry_eq hm
  exact ⟨rfl, le_rfl, rfl⟩

theorem frame_storeSafe {m m' : EpochManager β} {w : ℕ} (hm : m.storeSafe w = some m') :
    m.Frame m' := by
  obtain ⟨s, -, -, rfl⟩ := storeSafe_eq hm
  exact ⟨rfl, le_rfl, rfl⟩

theorem Wf.scanEntry {m m' : EpochManager β} (h : m.Wf) {w : ℕ} (hm : m.scanEntry w = some m') :
    m'.Wf := by
  obtain ⟨s, hs, -, rfl⟩ := scanEntry_eq hm
  refine ⟨h.safe_lt, h.prot, h.entry_lt, fun w' s' hs' => ?_⟩
  by_cases hw : w' = w
  · subst hw
    simp only [setScan, Function.update_self, Option.some.injEq] at hs'
    obtain ⟨hlt, h1, hle⟩ := h.scan w' s hs
    rw [← hs']
    exact ⟨hlt, one_le_lower h1, (lower_le _ _).trans hle⟩
  · simp only [setScan, Function.update_of_ne hw] at hs'
    exact h.scan w' s' hs'

/-- A scan that comes to the entry of a protection sees something as old. -/
theorem Guards.scanEntry {m m' : EpochManager β} {r e : ℕ} {q : ℕ × β} (h : m.Guards r q.1 e)
    (hwf : m.Wf) (hq : q ∈ m.table r) {w : ℕ} (hm : m.scanEntry w = some m') :
    m'.Guards r q.1 e := by
  obtain ⟨s, hs, -, rfl⟩ := scanEntry_eq hm
  refine ⟨h.le, h.safe_lt, fun w' s' hs' => ?_⟩
  by_cases hw : w' = w
  · subst hw
    simp only [setScan, Function.update_self, Option.some.injEq] at hs'
    rw [← hs']
    rcases h.scan w' s hs with hle | hle | hle
    · exact Or.inl hle
    · rcases Nat.eq_or_lt_of_le hle with rfl | hlt
      · obtain ⟨hne, hmin⟩ := minEpoch_le hq fun q' hq' => (hwf.prot s.i q' hq').1
        exact Or.inr (Or.inr ((lower_le_right hne).trans hmin))
      · exact Or.inr (Or.inl hlt)
    · exact Or.inr (Or.inr ((lower_le _ _).trans hle))
  · simp only [setScan, Function.update_of_ne hw] at hs'
    exact h.scan w' s' hs'

theorem Wf.storeSafe {m m' : EpochManager β} (h : m.Wf) {w : ℕ} (hm : m.storeSafe w = some m') :
    m'.Wf := by
  obtain ⟨s, hs, -, rfl⟩ := storeSafe_eq hm
  obtain ⟨hlt, h1, hle⟩ := h.scan w s hs
  refine ⟨?_, h.prot, h.entry_lt, fun w' s' hs' => ?_⟩
  · change s.oldestCall - 1 < m.currentEpoch
    omega
  · by_cases hw : w' = w
    · subst hw
      simp at hs'
    · simp only [Function.update_of_ne hw] at hs'
      exact h.scan w' s' hs'

/-- **The stored epoch stays below what is guarded**: the scan is past every entry, so it
started too early or has seen the protection. -/
theorem Guards.storeSafe {m m' : EpochManager β} {r p e : ℕ} (h : m.Guards r p e) (hwf : m.Wf)
    (hr : r < m.maxThreadNum) {w : ℕ} (hm : m.storeSafe w = some m') : m'.Guards r p e := by
  obtain ⟨s, hs, hend, rfl⟩ := storeSafe_eq hm
  obtain ⟨hlt, h1, hold⟩ := hwf.scan w s hs
  refine ⟨h.le, ?_, fun w' s' hs' => ?_⟩
  · change s.oldestCall - 1 < e
    have hle := h.le
    rcases h.scan w s hs with hx | hx | hx <;> omega
  · by_cases hw : w' = w
    · subst hw
      simp at hs'
    · simp only [Function.update_of_ne hw] at hs'
      exact h.scan w' s' hs'

end EpochManager

end PetPS
