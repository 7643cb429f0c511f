import Mathlib.Data.List.Nodup
import PetPS.Lib.Threads

/-!
# The barrier

`DSMKeeper.cpp`: the nodes of the cluster wait for each other at a counter in memcached. Node `0`
sets the counter to `0`, adds one and waits until it has the value that it was told. Every other
node waits until the counter is there, waits until it is at least `1`, adds one and waits for the
same value. The last two branches of the function do the same and are one branch here.

Node `0` only does so when it is a server, that is when its number is below the number of servers,
and that number is the number of all nodes without the clients that are expected. A node that is not
node `0` never creates the counter. And nothing ever removes it: the counter of an earlier barrier
with the same name is still there.

Each read and each write of the counter is one step, and steps of different nodes interleave in any
way. A node that reads a value it does not want reads again later; it is a node that does not move.

## Main results

* `Counted.step` — the counter has the number of nodes that have arrived
* `barrier_safe` — with a new counter, no node passes before enough nodes have arrived
* `barrier_live` — and all nodes pass, or none ever moves
* `barrier_stale` — with an old counter, all nodes may wait forever
-/

namespace PetPS

namespace Mayfly

/-! ### The protocol -/

/-- Where a caller of `barrier` is. -/
inductive BarrierPc
  | enter
  | waitOne
  | add
  | waitAll
  | passed
  deriving DecidableEq

/-- A node that calls `barrier`. -/
structure Caller where
  nodeID : ℕ
  pc : BarrierPc

/-- `should_initialize`. -/
def shouldInitialize (serverCount nodeID : ℕ) : Bool :=
  decide (nodeID < serverCount) && decide (nodeID = 0)

/-- The next access of a caller to the counter. -/
def barrierMove (serverCount k : ℕ) (key : Option ℕ) (c : Caller) :
    Option (Option ℕ × Caller) :=
  match c.pc with
  | .enter =>
    if shouldInitialize serverCount c.nodeID then some (some 0, { c with pc := .add })
    else key.map fun v => (some v, { c with pc := .waitOne })
  | .waitOne =>
    match key with
    | none => none
    | some v => if v ≥ 1 then some (some v, { c with pc := .add }) else none
  | .add => key.map fun v => (some (v + 1), { c with pc := .waitAll })
  | .waitAll => if key = some k then some (key, { c with pc := .passed }) else none
  | .passed => none

/-- The counter and the callers. -/
abbrev BarrierState : Type := Option ℕ × List Caller

/-- A step of one of the callers. -/
def barrierStep (serverCount k : ℕ) : BarrierState → ℕ → Option BarrierState :=
  Threads.step (barrierMove serverCount k)

/-- The nodes call `barrier`. -/
def callers (ids : List ℕ) : List Caller := ids.map fun id => ⟨id, .enter⟩

/-- The node has added one. -/
def BarrierPc.arrived : BarrierPc → Bool
  | .waitAll | .passed => true
  | _ => false

/-- The number of nodes that have arrived. -/
def arrivedCount (cs : List Caller) : ℕ := cs.countP fun c => c.pc.arrived

/-- The node has still to create the counter. -/
def Caller.unset (serverCount : ℕ) (c : Caller) : Bool :=
  shouldInitialize serverCount c.nodeID && decide (c.pc = .enter)

/-- The number of nodes that have still to create the counter. -/
def unsetCount (serverCount : ℕ) (cs : List Caller) : ℕ := cs.countP (Caller.unset serverCount)

/-! ### What a step does -/

section Steps

variable {serverCount k : ℕ} {key key' : Option ℕ} {c c' : Caller}

/-- **The steps of a caller.** -/
inductive BarrierMoved (serverCount k : ℕ) (c : Caller) :
    Option ℕ → Option ℕ → BarrierPc → Prop
  | set (old : Option ℕ) (hpc : c.pc = .enter)
      (hinit : shouldInitialize serverCount c.nodeID = true) :
      BarrierMoved serverCount k c old (some 0) .add
  | seen (v : ℕ) (hpc : c.pc = .enter) (hinit : shouldInitialize serverCount c.nodeID = false) :
      BarrierMoved serverCount k c (some v) (some v) .waitOne
  | one (v : ℕ) (hpc : c.pc = .waitOne) (hv : 1 ≤ v) :
      BarrierMoved serverCount k c (some v) (some v) .add
  | add (v : ℕ) (hpc : c.pc = .add) : BarrierMoved serverCount k c (some v) (some (v + 1)) .waitAll
  | pass (hpc : c.pc = .waitAll) : BarrierMoved serverCount k c (some k) (some k) .passed

theorem barrierMove_cases (h : barrierMove serverCount k key c = some (key', c')) :
    c' = { c with pc := c'.pc } ∧ BarrierMoved serverCount k c key key' c'.pc := by
  cases hpc : c.pc with
  | enter =>
    simp only [barrierMove, hpc] at h
    split_ifs at h with hinit
    · cases h
      exact ⟨rfl, .set key hpc hinit⟩
    · obtain ⟨v, rfl, heq⟩ := Option.map_eq_some_iff.mp h
      cases heq
      exact ⟨rfl, .seen v hpc (Bool.eq_false_of_not_eq_true hinit)⟩
  | waitOne =>
    simp only [barrierMove, hpc] at h
    cases key with
    | none => cases h
    | some v =>
      simp only at h
      split_ifs at h with hv
      cases h
      exact ⟨rfl, .one v hpc hv⟩
  | add =>
    simp only [barrierMove, hpc] at h
    obtain ⟨v, rfl, heq⟩ := Option.map_eq_some_iff.mp h
    cases heq
    exact ⟨rfl, .add v hpc⟩
  | waitAll =>
    simp only [barrierMove, hpc] at h
    split_ifs at h with hkey
    cases h
    subst hkey
    exact ⟨rfl, .pass hpc⟩
  | passed =>
    simp only [barrierMove, hpc] at h
    cases h

/-- A step of the system. -/
theorem barrierStep_cases {s s' : BarrierState} {i : ℕ}
    (h : barrierStep serverCount k s i = some s') :
    ∃ c pc, s.2[i]? = some c ∧ s'.2 = s.2.set i { c with pc := pc } ∧
      BarrierMoved serverCount k c s.1 s'.1 pc := by
  obtain ⟨c, c', hc, hmove, hset⟩ := Threads.step_cases h
  obtain ⟨heq, hmoved⟩ := barrierMove_cases hmove
  exact ⟨c, c'.pc, hc, heq ▸ hset, hmoved⟩

end Steps

/-! ### The counter -/

section Counter

variable {serverCount k lost : ℕ} {s s' : BarrierState} {i : ℕ}

/-- The counter is there and will not be set again. It has the number of nodes that have arrived,
but for those whose arrival was lost. -/
structure Counted (serverCount lost : ℕ) (s : BarrierState) : Prop where
  unset : unsetCount serverCount s.2 = 0
  value : ∃ v, s.1 = some v ∧ v + lost = arrivedCount s.2

theorem arrivedCount_set {cs : List Caller} {c : Caller} (hc : cs[i]? = some c) (pc : BarrierPc) :
    arrivedCount (cs.set i { c with pc := pc }) + (if c.pc.arrived then 1 else 0) =
      arrivedCount cs + if pc.arrived then 1 else 0 :=
  Threads.countP_set (fun c : Caller => c.pc.arrived) hc { c with pc := pc }

theorem unsetCount_set {cs : List Caller} {c : Caller} (hc : cs[i]? = some c) {pc : BarrierPc}
    (hpc : pc ≠ .enter) :
    unsetCount serverCount (cs.set i { c with pc := pc }) +
      (if c.unset serverCount then 1 else 0) = unsetCount serverCount cs := by
  have hset := Threads.countP_set (Caller.unset serverCount) hc { c with pc := pc }
  rw [show Caller.unset serverCount { c with pc := pc } = false by simp [Caller.unset, hpc]] at hset
  exact hset

theorem not_enter_of_unset {cs : List Caller} (h : unsetCount serverCount cs = 0) {c : Caller}
    (hc : c ∈ cs) (hinit : shouldInitialize serverCount c.nodeID = true) : c.pc ≠ .enter := by
  intro hpc
  refine List.countP_eq_zero.mp h c hc ?_
  rw [Caller.unset, hinit, hpc]
  rfl

theorem BarrierMoved.ne_enter {c : Caller} {key key' : Option ℕ} {pc : BarrierPc}
    (h : BarrierMoved serverCount k c key key' pc) : pc ≠ .enter := by
  cases h <;> decide

theorem BarrierMoved.ne_waitOne {c : Caller} {key key' : Option ℕ} {pc : BarrierPc}
    (h : BarrierMoved serverCount k c key key' pc)
    (hinit : shouldInitialize serverCount c.nodeID = true) : pc ≠ .waitOne := by
  cases h with
  | seen _ _ hnot => rw [hnot] at hinit; cases hinit
  | set _ _ _ | one _ _ _ | add _ _ | pass _ => decide

/-- A step when the counter is there. -/
theorem Counted.step (h : Counted serverCount lost s)
    (hs : barrierStep serverCount k s i = some s') :
    Counted serverCount lost s' ∧ arrivedCount s.2 ≤ arrivedCount s'.2 := by
  obtain ⟨key, cs⟩ := s
  obtain ⟨key', cs'⟩ := s'
  obtain ⟨c, pc, hc, rfl, hmoved⟩ := barrierStep_cases hs
  obtain ⟨v, rfl, hcount⟩ := h.value
  have harrived := arrivedCount_set hc pc
  have hunset : unsetCount serverCount (cs.set i { c with pc := pc }) = 0 :=
    Nat.eq_zero_of_le_zero ((Nat.le_of_add_right_le (unsetCount_set hc hmoved.ne_enter).le).trans
      h.unset.le)
  cases hmoved with
  | set _ hpc hinit =>
    exact absurd hpc (not_enter_of_unset h.unset (List.mem_of_getElem? hc) hinit)
  | seen _ hpc _ | one _ hpc _ | pass hpc =>
    rw [hpc] at harrived
    replace harrived := Nat.add_right_cancel harrived
    exact ⟨⟨hunset, _, rfl, hcount.trans harrived.symm⟩, harrived.ge⟩
  | add _ hpc =>
    rw [hpc] at harrived
    replace harrived : arrivedCount _ = arrivedCount cs + 1 := harrived
    exact ⟨⟨hunset, _, rfl, (Nat.succ_add v lost).trans ((congrArg (· + 1) hcount).trans
      harrived.symm)⟩, (Nat.le_succ _).trans harrived.ge⟩

/-- A node that passes has read the value that it was told. -/
theorem Counted.passed (h : Counted serverCount lost s)
    (hs : barrierStep serverCount k s i = some s') {c : Caller} (hc : c ∈ s'.2)
    (hpc : c.pc = .passed) : c ∈ s.2 ∨ k + lost = arrivedCount s.2 := by
  obtain ⟨key, cs⟩ := s
  obtain ⟨key', cs'⟩ := s'
  obtain ⟨d, pc, hd, rfl, hmoved⟩ := barrierStep_cases hs
  obtain ⟨v, rfl, hcount⟩ := h.value
  rcases List.mem_or_eq_of_mem_set hc with hin | rfl
  · exact Or.inl hin
  · obtain rfl : pc = .passed := hpc
    cases hmoved with
    | pass _ => exact Or.inr hcount

/-- No node passes after more arrivals were lost than the barrier can miss. -/
theorem Counted.never_passed (h : Counted serverCount lost s) (hlen : s.2.length < k + lost)
    (hpassed : ∀ c ∈ s.2, c.pc ≠ .passed) {sched : List ℕ}
    (hrun : Run.run (barrierStep serverCount k) s sched = some s') :
    ∀ c ∈ s'.2, c.pc ≠ .passed := by
  refine (Run.run_invariant (P := fun t : BarrierState => Counted serverCount lost t ∧
    t.2.length < k + lost ∧ ∀ c ∈ t.2, c.pc ≠ .passed) ?_ ⟨h, hlen, hpassed⟩ hrun).2.2
  rintro t i t' ⟨ht, hlt, hnone⟩ hstep
  refine ⟨(ht.step hstep).1, ?_, fun c hc hpc => ?_⟩
  · obtain ⟨c, pc, -, hset, -⟩ := barrierStep_cases hstep
    rwa [hset, List.length_set]
  · rcases ht.passed hstep hc hpc with hin | heq
    · exact hnone c hin hpc
    · have hle : arrivedCount t.2 ≤ t.2.length := List.countP_le_length
      omega

end Counter

/-! ### A barrier with a new counter -/

section Fresh

variable {serverCount k i : ℕ} {ids : List ℕ} {s s' : BarrierState} {sched : List ℕ}

/-- Nothing has happened yet, and at most one node will create the counter. -/
structure Waiting (serverCount : ℕ) (s : BarrierState) : Prop where
  key : s.1 = none
  enter : ∀ c ∈ s.2, c.pc = .enter
  unset : unsetCount serverCount s.2 ≤ 1

theorem Waiting.arrivedCount_eq_zero (h : Waiting serverCount s) : arrivedCount s.2 = 0 := by
  refine List.countP_eq_zero.mpr fun c hc => ?_
  rw [h.enter c hc]
  decide

/-- The first step creates the counter. -/
theorem Waiting.step (h : Waiting serverCount s) (hs : barrierStep serverCount k s i = some s') :
    Counted serverCount 0 s' ∧ ∀ c ∈ s'.2, c.pc ≠ .passed := by
  obtain ⟨key, cs⟩ := s
  obtain ⟨key', cs'⟩ := s'
  have hzero := h.arrivedCount_eq_zero
  obtain ⟨c, pc, hc, rfl, hmoved⟩ := barrierStep_cases hs
  obtain rfl : key = none := h.key
  cases hmoved with
  | set _ hpc hinit =>
    have hunset : unsetCount serverCount (cs.set i { c with pc := .add }) +
        (if c.unset serverCount then 1 else 0) = unsetCount serverCount cs :=
      unsetCount_set hc (by decide)
    rw [if_pos (by simp [Caller.unset, hinit, hpc])] at hunset
    have harrived := arrivedCount_set hc .add
    rw [hpc] at harrived
    refine ⟨⟨?_, 0, rfl, ?_⟩, Threads.forall_set (fun d hd => ?_) BarrierPc.noConfusion⟩
    · exact Nat.le_zero.mp (Nat.le_of_succ_le_succ (hunset.le.trans h.unset))
    · exact (harrived.trans hzero).symm
    · rw [h.enter d hd]
      decide

/-- **A barrier on the way.** The callers are the nodes, the node that creates the counter does not
wait for it, and what is there is counted. -/
structure Fresh (serverCount k : ℕ) (ids : List ℕ) (s : BarrierState) : Prop where
  nodes : s.2.map Caller.nodeID = ids
  waitOne : ∀ c ∈ s.2, shouldInitialize serverCount c.nodeID = true → c.pc ≠ .waitOne
  counter : Waiting serverCount s ∨
    Counted serverCount 0 s ∧ ∀ c ∈ s.2, c.pc = .passed → k ≤ arrivedCount s.2

theorem unsetCount_callers (hids : ids.Nodup) : unsetCount serverCount (callers ids) ≤ 1 := by
  have hle : unsetCount serverCount (callers ids) ≤ ids.count 0 := by
    rw [unsetCount, callers, List.countP_map, List.count]
    refine List.countP_mono_left fun id _ hunset => ?_
    simp only [Function.comp_apply, Caller.unset, shouldInitialize, Bool.and_eq_true,
      decide_eq_true_eq] at hunset
    exact beq_iff_eq.mpr hunset.1.2
  exact hle.trans (List.nodup_iff_count_le_one.mp hids 0)

theorem waiting_callers (hids : ids.Nodup) : Waiting serverCount (none, callers ids) := by
  refine ⟨rfl, fun c hc => ?_, unsetCount_callers hids⟩
  obtain ⟨id, -, rfl⟩ := List.mem_map.mp hc
  rfl

theorem fresh_callers (hids : ids.Nodup) : Fresh serverCount k ids (none, callers ids) := by
  refine ⟨?_, fun c hc _ => ?_, Or.inl (waiting_callers hids)⟩
  · rw [callers, List.map_map]
    exact List.map_id ids
  · have hwait : Waiting serverCount (none, callers ids) := waiting_callers hids
    rw [hwait.enter c hc]
    decide

theorem Fresh.step (h : Fresh serverCount k ids s) (hs : barrierStep serverCount k s i = some s') :
    Fresh serverCount k ids s' := by
  obtain ⟨c, pc, hc, hset, hmoved⟩ := barrierStep_cases hs
  refine ⟨?_, ?_, Or.inr ?_⟩
  · rw [hset, List.map_set, ← h.nodes]
    obtain ⟨hi, rfl⟩ := List.getElem?_eq_some_iff.mp hc
    refine List.ext_getElem (by simp) fun j hj _ => ?_
    rw [List.getElem_set]
    split_ifs with hij
    · subst hij
      exact (List.getElem_map Caller.nodeID).symm
    · rfl
  · rw [hset]
    exact Threads.forall_set h.waitOne hmoved.ne_waitOne
  · rcases h.counter with hwait | ⟨hcounted, hpassed⟩
    · obtain ⟨hcounted, hnone⟩ := hwait.step hs
      exact ⟨hcounted, fun d hd hpc => absurd hpc (hnone d hd)⟩
    · obtain ⟨hcounted', hle⟩ := hcounted.step hs
      refine ⟨hcounted', fun d hd hpc => ?_⟩
      rcases hcounted.passed hs hd hpc with hin | heq
      · exact (hpassed d hin hpc).trans hle
      · exact heq.le.trans hle

theorem fresh_run (hids : ids.Nodup)
    (hrun : Run.run (barrierStep serverCount k) (none, callers ids) sched = some s) :
    Fresh serverCount k ids s :=
  Run.run_invariant (P := Fresh serverCount k ids) (fun _ _ _ h hs => h.step hs)
    (fresh_callers hids) hrun

/-- **The barrier is safe.** When each node calls the barrier once and its counter is new, then in
every interleaving a node that has passed has waited for as many nodes as it was told. -/
theorem barrier_safe (hids : ids.Nodup)
    (hrun : Run.run (barrierStep serverCount k) (none, callers ids) sched = some s) {c : Caller}
    (hc : c ∈ s.2) (hpc : c.pc = .passed) : k ≤ arrivedCount s.2 := by
  have hfresh := fresh_run hids hrun
  rcases hfresh.counter with hwait | ⟨-, hpassed⟩
  · rw [hwait.enter c hc] at hpc
    cases hpc
  · exact hpassed c hc hpc

/-- Three nodes, the second of them the last to arrive. -/
theorem barrier_safe_three : ∃ s, Run.run (barrierStep 2 3) (none, callers [0, 1, 2])
    [0, 0, 2, 2, 2, 1, 1, 1, 0] = some s ∧ (∃ c ∈ s.2, c.pc = .passed) ∧ 3 ≤ arrivedCount s.2 := by
  have hrun : Run.run (barrierStep 2 3) (none, callers [0, 1, 2]) [0, 0, 2, 2, 2, 1, 1, 1, 0] =
      some (some 3, [⟨0, .passed⟩, ⟨1, .waitAll⟩, ⟨2, .waitAll⟩]) := rfl
  exact ⟨_, hrun, ⟨⟨0, .passed⟩, List.mem_cons_self, rfl⟩,
    barrier_safe (by decide) hrun List.mem_cons_self rfl⟩

/-! ### Progress -/

/-- The steps that a caller has still to take. -/
def BarrierPc.rank : BarrierPc → ℕ
  | .enter => 4
  | .waitOne => 3
  | .add => 2
  | .waitAll => 1
  | .passed => 0

/-- The steps that all callers have still to take. -/
def barrierRank (s : BarrierState) : ℕ := (s.2.map fun c => c.pc.rank).sum

theorem BarrierMoved.rank_lt {c : Caller} {key key' : Option ℕ} {pc : BarrierPc}
    (h : BarrierMoved serverCount k c key key' pc) : pc.rank < c.pc.rank := by
  cases h with
  | set _ hpc _ | seen _ hpc _ | one _ hpc _ | add _ hpc | pass hpc => rw [hpc]; decide

theorem barrierRank_lt (hs : barrierStep serverCount k s i = some s') :
    barrierRank s' < barrierRank s := by
  obtain ⟨c, pc, hc, hset, hmoved⟩ := barrierStep_cases hs
  obtain ⟨rest, hsum, hsum'⟩ := Threads.sum_set (fun c : Caller => c.pc.rank) hc
  rw [barrierRank, barrierRank, hset, hsum, hsum']
  exact Nat.add_lt_add_right hmoved.rank_lt rest

theorem barrierRank_callers (ids : List ℕ) : barrierRank (none, callers ids) = 4 * ids.length := by
  induction ids with
  | nil => rfl
  | cons id ids ih =>
    rw [List.length_cons, Nat.mul_succ, ← ih, Nat.add_comm]
    rfl

/-- A caller that does not move waits for something that is not there. -/
theorem stuck_cases {c : Caller} {key : Option ℕ} (h : barrierMove serverCount k key c = none) :
    match c.pc with
    | .enter => shouldInitialize serverCount c.nodeID = false ∧ key = none
    | .waitOne => ∀ v, key = some v → v = 0
    | .add => key = none
    | .waitAll => key ≠ some k
    | .passed => True := by
  obtain ⟨id, pc⟩ := c
  cases pc with
  | enter =>
    simp only [barrierMove] at h ⊢
    split_ifs at h with hinit
    exact ⟨Bool.eq_false_of_not_eq_true hinit, Option.map_eq_none_iff.mp h⟩
  | waitOne =>
    rintro v rfl
    simp only [barrierMove] at h
    split_ifs at h with hv
    exact Nat.lt_one_iff.mp (not_le.mp hv)
  | add => exact Option.map_eq_none_iff.mp h
  | waitAll =>
    simp only [barrierMove] at h ⊢
    split_ifs at h with hkey
    exact hkey
  | passed => trivial

/-- When nobody can move, all nodes have arrived. -/
theorem Counted.arrived_of_stuck (h : Counted serverCount 0 s)
    (hstuck : ∀ c ∈ s.2, barrierMove serverCount k s.1 c = none) {c₀ : Caller} (hc₀ : c₀ ∈ s.2)
    (hwait : c₀.pc ≠ .waitOne) : ∀ c ∈ s.2, c.pc.arrived = true := by
  obtain ⟨v, hkey, hcount⟩ := h.value
  -- all but a caller that waits for the value `1` have arrived, the one that creates the counter
  -- among them
  have hmost : ∀ c ∈ s.2, c.pc ≠ .waitOne → c.pc.arrived = true := by
    intro c hc hne
    have hcase := stuck_cases (hstuck c hc)
    rw [hkey] at hcase
    cases hpc : c.pc with
    | enter => simp [hpc] at hcase
    | waitOne => exact absurd hpc hne
    | add => simp [hpc] at hcase
    | waitAll | passed => rfl
  have hpos : 0 < v := by
    rw [← Nat.add_zero v, hcount]
    exact List.countP_pos_iff.mpr ⟨c₀, hc₀, hmost c₀ hc₀ hwait⟩
  intro c hc
  refine hmost c hc fun hpc => ?_
  have hcase := stuck_cases (hstuck c hc)
  rw [hpc] at hcase
  exact hpos.ne' (hcase v hkey)

/-- **A barrier that stops has been passed.** -/
theorem Fresh.passed_of_stuck (h : Fresh serverCount ids.length ids s) (hzero : 0 ∈ ids)
    (hserver : 0 < serverCount)
    (hstuck : ∀ c ∈ s.2, barrierMove serverCount ids.length s.1 c = none) :
    ∀ c ∈ s.2, c.pc = .passed := by
  obtain ⟨c₀, hc₀, hid⟩ := List.mem_map.mp (h.nodes.symm ▸ hzero : 0 ∈ s.2.map Caller.nodeID)
  have hinit : shouldInitialize serverCount c₀.nodeID = true := by
    rw [hid, shouldInitialize, decide_eq_true hserver]
    rfl
  rcases h.counter with hwait | ⟨hcounted, -⟩
  · have hcase := stuck_cases (hstuck c₀ hc₀)
    rw [hwait.enter c₀ hc₀] at hcase
    exact absurd hinit (by rw [hcase.1]; decide)
  · have harrived := hcounted.arrived_of_stuck hstuck hc₀ (h.waitOne c₀ hc₀ hinit)
    obtain ⟨v, hkey, hcount⟩ := hcounted.value
    have hall : v = ids.length := by
      rw [← Nat.add_zero v, hcount, ← h.nodes, List.length_map]
      exact List.countP_eq_length.mpr harrived
    intro c hc
    have hcase := stuck_cases (hstuck c hc)
    have hdone := harrived c hc
    cases hpc : c.pc with
    | enter | waitOne | add => rw [hpc] at hdone; cases hdone
    | waitAll =>
      rw [hpc] at hcase
      exact absurd (hkey.trans (congrArg some hall)) hcase
    | passed => rfl

/-- Without node `0`, or without a server, nobody moves. -/
theorem Waiting.stuck (h : Waiting serverCount s)
    (hnone : ∀ c ∈ s.2, shouldInitialize serverCount c.nodeID = false) :
    barrierStep serverCount k s i = none := by
  refine Option.eq_none_iff_forall_ne_some.mpr fun s' hs => ?_
  obtain ⟨key, cs⟩ := s
  obtain ⟨key', cs'⟩ := s'
  obtain ⟨c, pc, hc, -, hmoved⟩ := barrierStep_cases hs
  obtain rfl : key = none := h.key
  cases hmoved with
  | set _ _ hinit =>
    have hnot := hnone c (List.mem_of_getElem? hc)
    exact absurd (hinit.symm.trans hnot) (by decide)

/-- **The barrier is live, or dead from the start.** When the nodes wait for all of them and the
counter is new, every interleaving is finite. If node `0` is among them and is a server, an
interleaving that cannot go on has passed all nodes. Otherwise no node ever moves: this is so for
every barrier between clients only. -/
theorem barrier_live (hids : ids.Nodup)
    (hrun : Run.run (barrierStep serverCount ids.length) (none, callers ids) sched = some s) :
    sched.length ≤ 4 * ids.length ∧
      (0 ∈ ids → 0 < serverCount → (∀ i, barrierStep serverCount ids.length s i = none) →
        ∀ c ∈ s.2, c.pc = .passed) ∧
      (0 ∉ ids ∨ serverCount = 0 → sched = []) := by
  refine ⟨?_, fun hzero hserver hstuck => ?_, fun hno => ?_⟩
  · have hle := Run.run_length_le (P := fun _ => True) (m := barrierRank)
      (fun _ _ _ _ hs => ⟨trivial, barrierRank_lt hs⟩) trivial hrun
    rw [barrierRank_callers] at hle
    exact Nat.le_of_add_right_le hle
  · exact (fresh_run hids hrun).passed_of_stuck hzero hserver (Threads.stuck_iff.mp hstuck)
  · have hnone : ∀ c ∈ callers ids, shouldInitialize serverCount c.nodeID = false := by
      intro c hc
      obtain ⟨id, hid, rfl⟩ := List.mem_map.mp hc
      refine Bool.eq_false_iff.mpr fun hinit => ?_
      simp only [shouldInitialize, Bool.and_eq_true, decide_eq_true_eq] at hinit
      rcases hno with hzero | rfl
      · exact hzero (hinit.2 ▸ hid)
      · exact Nat.not_lt_zero _ hinit.1
    cases sched with
    | nil => rfl
    | cons i sched =>
      rw [Run.run_cons, (waiting_callers hids).stuck hnone] at hrun
      cases hrun

/-- A server and a client, and the barrier of two clients. -/
theorem barrier_live_two :
    (∀ sched s, Run.run (barrierStep 1 2) (none, callers [0, 1]) sched = some s →
      (∀ i, barrierStep 1 2 s i = none) → ∀ c ∈ s.2, c.pc = .passed) ∧
    ∀ sched s, Run.run (barrierStep 1 2) (none, callers [1, 2]) sched = some s → sched = [] :=
  ⟨fun _ _ hrun hstuck => (barrier_live (show [0, 1].Nodup by decide) hrun).2.1 (by decide)
      (by decide) hstuck,
    fun _ _ hrun => (barrier_live (show [1, 2].Nodup by decide) hrun).2.2 (Or.inl (by decide))⟩

end Fresh

/-! ### A barrier with an old counter -/

/-- **An old counter breaks the barrier.** When the counter of an earlier barrier of the same name
is still there, a node that does not set it may arrive before node `0` sets it to `0`. This arrival
is lost, and from then on no interleaving lets any node pass. -/
theorem barrier_stale {serverCount old id : ℕ} {ids : List ℕ} (hserver : 0 < serverCount)
    (hold : 1 ≤ old) (hids : (0 :: id :: ids).Nodup) :
    ∃ s, Run.run (barrierStep serverCount (ids.length + 2)) (some old, callers (0 :: id :: ids))
        [1, 1, 1, 0] = some s ∧
      ∀ sched s', Run.run (barrierStep serverCount (ids.length + 2)) s sched = some s' →
        ∀ c ∈ s'.2, c.pc ≠ .passed := by
  have hinit : shouldInitialize serverCount 0 = true := by
    rw [shouldInitialize, decide_eq_true hserver]
    rfl
  have hid : id ≠ 0 := fun h => (List.nodup_cons.mp hids).1 (h ▸ List.mem_cons_self)
  have hnot : shouldInitialize serverCount id = false := by
    rw [shouldInitialize, decide_eq_false hid, Bool.and_false]
  have hwait : Waiting serverCount (none, callers ids) :=
    waiting_callers (List.nodup_cons.mp (List.nodup_cons.mp hids).2).2
  refine ⟨(some 0, ⟨0, .add⟩ :: ⟨id, .waitAll⟩ :: callers ids), ?_, fun sched s' hrun => ?_⟩
  · simp [Run.run_cons, barrierStep, Threads.step, callers, barrierMove, hinit, hnot, hold]
  refine Counted.never_passed (show Counted serverCount 1 _ from ⟨?_, 0, rfl, ?_⟩) ?_ ?_ hrun
  · rw [unsetCount, List.countP_cons_of_neg (by simp [Caller.unset]),
      List.countP_cons_of_neg (by simp [Caller.unset])]
    refine List.countP_eq_zero.mpr fun c hc => ?_
    obtain ⟨j, hj, rfl⟩ := List.mem_map.mp hc
    have hne : j ≠ 0 := fun h => (List.nodup_cons.mp hids).1 (h ▸ List.mem_cons_of_mem id hj)
    simp [Caller.unset, shouldInitialize, hne]
  · rw [arrivedCount, List.countP_cons_of_neg Bool.false_ne_true, List.countP_cons_of_pos rfl]
    exact congrArg (· + 1) hwait.arrivedCount_eq_zero.symm
  · simp [callers]
  · intro c hc
    rcases List.mem_cons.mp hc with rfl | hc
    · decide
    rcases List.mem_cons.mp hc with rfl | hc
    · exact BarrierPc.noConfusion
    · rw [hwait.enter c hc]
      decide

/-- The second barrier of three nodes under one name. -/
theorem barrier_stale_three : ∃ s, Run.run (barrierStep 2 3) (some 3, callers [0, 1, 2])
      [1, 1, 1, 0] = some s ∧
    ∀ sched s', Run.run (barrierStep 2 3) s sched = some s' → ∀ c ∈ s'.2, c.pc ≠ .passed :=
  barrier_stale (show 0 < 2 by decide) (show 1 ≤ 3 by decide) (show [0, 1, 2].Nodup by decide)

end Mayfly

end PetPS
