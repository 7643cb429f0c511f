import PetPS.Memory.PoolThreads

/-!
# A pool that is out of memory, and calls that return

When the free queue is empty, `NewInternal` looks at the chunks of the size one after another while
other threads free slabs of them, and gives up when each was full when it was looked at. The chunks
need not have been full all at once for that. But only a thread that holds `lock_` allocates, and
`NewInternal` holds it, so a chunk that is full when it is looked at was full when the scan began:
then all of them were full. A pool that is reported to be out of memory was out of memory.

It is not so for the chunk that is chosen. A chunk that was looked at may have got room when a later
one is taken, so there need not be a moment at which a single thread would have taken that one.

Calls wait for `lock_` and for the lock of one chunk. The lock of a chunk is given back by a step
that waits for nothing, and so `lock_` is given back too.

## Main results

* `pool_threads_oom` — the moment at which the pool was out of memory
* `pool_threads_return` — calls return, unless the process is stopped
-/

namespace PetPS

namespace PersistMemoryPool

section Scan

variable {n i : ℕ} {s s' s₀ : ThreadsState} {t t' : ThreadPc} {sh : Shared}

/-! ### The scan of a class -/

/-- A chunk that says that it is full is full. -/
theorem ThreadsInv.allocated_of_full (h : ThreadsInv n s) {c : ℕ} (hc : c < s.1.pool.nrChunks)
    (hfree : c ∉ s.1.pool.freeChunks) (hfull : s.1.pool.full c = true) {j : ℕ}
    (hj : j < (s.1.pool.header c).nrEntries) : s.1.pool.Allocated c j := by
  have hused := h.run.inv.used c hc hfree
  have hunlocked : s.1.chunkLock c = false := by
    by_contra hlocked
    -- the count of a chunk in which a slab is being freed is too small by one
    have hcount := hused.count
    rw [show (settled s).chunks c = _ from
      settle_chunks_of_true (Bool.eq_true_of_not_eq_false hlocked)] at hcount
    change (s.1.pool.chunks c).allocatedEntries + 1 =
      ((s.1.pool.header c).bitmap.ones.card : ℤ) at hcount
    have hle : (s.1.pool.header c).bitmap.ones.card ≤ (s.1.pool.header c).nrEntries :=
      hused.card_le
    rw [full, beq_iff_eq] at hfull
    omega
  exact (hused.full_iff hc).mp ((settle_full_of_false hunlocked).trans hfull) j hj

/-- Since `s₀`, nothing was allocated. -/
structure Since (s₀ s : ThreadsState) : Prop where
  allocated : ∀ c j, s.1.pool.Allocated c j → s₀.1.pool.Allocated c j
  entries : ∀ c, (s.1.pool.header c).nrEntries = (s₀.1.pool.header c).nrEntries

theorem Since.trans (h : Since s₀ s) (h' : Since s s') : Since s₀ s' :=
  ⟨fun c j ha => h.allocated c j (h'.allocated c j ha),
    fun c => (h'.entries c).trans (h.entries c)⟩

theorem Since.outer (h : Since s₀ s) (ho : Outer s.1.pool s'.1.pool) : Since s₀ s' :=
  h.trans ⟨ho.allocated, ho.entries⟩

/-- The chunks that were looked at since `s₀` were full then. -/
structure Looked (slabSize : ℕ) (chunks : List ℕ) (s₀ s : ThreadsState) : Prop where
  since : Since s₀ s
  empty : s₀.1.pool.freeChunks = []
  full : ∃ done, s₀.1.pool.sizeToChunks slabSize = some (done ++ chunks) ∧
    ∀ c ∈ done, ∀ j < (s₀.1.pool.header c).nrEntries, s₀.1.pool.Allocated c j

theorem Looked.next (h : ThreadsInv n s) {slabSize c : ℕ} {chunks : List ℕ}
    (hl : Looked slabSize (c :: chunks) s₀ s) (hc : s.1.pool.InClass slabSize c)
    (hfull : s.1.pool.full c = true) : Looked slabSize chunks s₀ s := by
  obtain ⟨done, hclass, hdone⟩ := hl.full
  refine ⟨hl.since, hl.empty, done ++ [c], ?_, fun c' hc' j hj => ?_⟩
  · rw [hclass, List.append_assoc, List.singleton_append]
  · rcases List.mem_append.mp hc' with hold | hnew
    · exact hdone c' hold j hj
    · obtain rfl := List.mem_singleton.mp hnew
      rw [← hl.since.entries] at hj
      exact hl.since.allocated _ j (h.allocated_of_full hc.1 hc.2.1 hfull hj)

theorem Looked.exhausted {slabSize : ℕ} (hl : Looked slabSize [] s₀ s) :
    s₀.1.pool.Exhausted slabSize := by
  obtain ⟨done, hclass, hdone⟩ := hl.full
  refine ⟨hl.empty, fun chunks hchunks c hc => hdone c ?_⟩
  rw [hclass, List.append_nil, Option.some.injEq] at hchunks
  exact hchunks ▸ hc

/-! ### The call in which a thread is -/

/-- The slab size that `New` chooses. -/
def slabFor (p : PersistMemoryPool) (memorySize : ℕ) : Option ℕ :=
  if p.perfectFit then some memorySize else p.lowerBound (kMetaDataSize + memorySize)

theorem slabFor_congr {p p' : PersistMemoryPool} (hmode : p'.perfectFit = p.perfectFit)
    (hsizes : p'.allocatedSlabSizes = p.allocatedSlabSizes) : p'.slabFor = p.slabFor := by
  funext memorySize
  rw [slabFor, slabFor, lowerBound, lowerBound, hmode, hsizes]

variable {init : ThreadsState} {history : List (ℕ × Turn)} {memorySize slabSize : ℕ}

/-- The last call of thread `i` is one of `New`. -/
def InCall (init : ThreadsState) (history : List (ℕ × Turn)) (i memorySize slabSize : ℕ) : Prop :=
  init.1.pool.slabFor memorySize = some slabSize ∧
    ∃ before since, history = before ++ (i, .call (.new memorySize)) :: since ∧
      ∀ call, (i, .call call) ∉ since

/-- In `s₀`, since its last call, thread `i` was about to look at the free queue. -/
def Began (init : ThreadsState) (history : List (ℕ × Turn)) (i memorySize slabSize : ℕ)
    (s₀ : ThreadsState) : Prop :=
  init.1.pool.slabFor memorySize = some slabSize ∧
    ∃ before mid after, history = before ++ (i, .call (.new memorySize)) :: (mid ++ after) ∧
      (∀ call, (i, .call call) ∉ mid ++ after) ∧
      Run.run threadStep init (before ++ (i, .call (.new memorySize)) :: mid) = some s₀ ∧
      s₀.2[i]? = some (.fresh memorySize slabSize)

/-- The history goes on with a step that is no call of the thread. -/
theorem InCall.snoc (h : InCall init history i memorySize slabSize) {b : ℕ × Turn}
    (hb : ∀ call, (i, .call call) ≠ b) : InCall init (history ++ [b]) i memorySize slabSize := by
  obtain ⟨hslab, before, since, rfl, hnone⟩ := h
  refine ⟨hslab, before, since ++ [b], List.append_assoc .., fun call hmem => ?_⟩
  rcases List.mem_append.mp hmem with hold | hnew
  · exact hnone call hold
  · exact hb call (List.mem_singleton.mp hnew)

theorem Began.snoc (h : Began init history i memorySize slabSize s₀) {b : ℕ × Turn}
    (hb : ∀ call, (i, .call call) ≠ b) : Began init (history ++ [b]) i memorySize slabSize s₀ := by
  obtain ⟨hslab, before, mid, after, rfl, hnone, hrun, hget⟩ := h
  refine ⟨hslab, before, mid, after ++ [b], ?_, fun call hmem => ?_, hrun, hget⟩
  · rw [List.append_assoc, List.cons_append, List.append_assoc]
  · rw [← List.append_assoc] at hmem
    rcases List.mem_append.mp hmem with hold | hnew
    · exact hnone call hold
    · exact hb call (List.mem_singleton.mp hnew)

/-- The thread is about to look at the free queue. -/
theorem InCall.began (h : InCall init history i memorySize slabSize)
    (hrun : Run.run threadStep init history = some s)
    (hget : s.2[i]? = some (.fresh memorySize slabSize)) :
    Began init history i memorySize slabSize s := by
  obtain ⟨hslab, before, since, rfl, hnone⟩ := h
  refine ⟨hslab, before, since, [], ?_, ?_, hrun, hget⟩
  · rw [List.append_nil]
  · rwa [List.append_nil]

/-- **What the history says of a thread** in `NewInternal`: it is in its last call, and where it
looks at chunks there was a state in this call since which it has done so. -/
def Reported (init : ThreadsState) (history : List (ℕ × Turn)) (s : ThreadsState) (i : ℕ) :
    ThreadPc → Prop
  | .enter memorySize slabSize | .last memorySize slabSize | .fresh memorySize slabSize =>
    InCall init history i memorySize slabSize
  | .scan memorySize slabSize chunks =>
    ∃ s₀, Began init history i memorySize slabSize s₀ ∧ Looked slabSize chunks s₀ s
  | .failed (.oom memorySize slabSize) =>
    ∃ s₀, Began init history i memorySize slabSize s₀ ∧ s₀.1.pool.Exhausted slabSize
  | _ => True

/-- A step of another thread. -/
theorem Reported.other {b : ℕ × Turn} (h : Reported init history s i t) (hb : b.1 ≠ i)
    (ho : t.inside = true → Outer s.1.pool s'.1.pool) : Reported init (history ++ [b]) s' i t := by
  have hne : ∀ call, (i, .call call) ≠ b := fun call heq => hb (congrArg Prod.fst heq).symm
  cases t with
  | enter | last | fresh => exact h.snoc hne
  | scan memorySize slabSize chunks =>
    obtain ⟨s₀, hbegan, hl⟩ := h
    exact ⟨s₀, hbegan.snoc hne, hl.since.outer (ho rfl), hl.empty, hl.full⟩
  | failed why =>
    cases why with
    | oom memorySize slabSize =>
      obtain ⟨s₀, hbegan, hex⟩ := h
      exact ⟨s₀, hbegan.snoc hne, hex⟩
    | _ => trivial
  | _ => trivial

/-- The thread begins a call. -/
theorem reported_call {call : Call} (hslab : s.1.pool.slabFor = init.1.pool.slabFor)
    (hcall : s.1.call call = some (sh, t')) :
    Reported init (history ++ [(i, .call call)]) s' i t' := by
  cases call with
  | new memorySize =>
    have hin : ∀ slabSize, s.1.pool.slabFor memorySize = some slabSize →
        InCall init (history ++ [(i, .call (.new memorySize))]) i memorySize slabSize :=
      fun slabSize hfor => ⟨hslab ▸ hfor, history, [], rfl, fun _ => List.not_mem_nil⟩
    rw [slabFor] at hin
    rw [Shared.call] at hcall
    split_ifs at hcall with hmode
    · cases hcall
      exact hin _ (if_pos hmode)
    · rw [if_neg hmode] at hin
      cases hlb : s.1.pool.lowerBound (kMetaDataSize + memorySize) with
      | none =>
        simp only [hlb] at hcall
        cases hcall
        trivial
      | some slabSize =>
        simp only [hlb] at hcall
        cases hcall
        exact hin _ hlb
  | free b | write b data =>
    rw [Shared.call] at hcall
    split_ifs at hcall
    cases hcall
    trivial

/-- The next step of the thread itself. -/
theorem Reported.next (hinv : ThreadsInv n s) (hrun : Run.run threadStep init history = some s)
    (hget : s.2[i]? = some t) (h : Reported init history s i t)
    (hnext : s.1.next t = some (sh, t')) (hsh : s'.1 = sh) :
    Reported init (history ++ [(i, .next)]) s' i t' := by
  have hne : ∀ call, (i, Turn.call call) ≠ (i, .next) := fun call heq => by cases heq
  have hsame : s'.1 = s.1 → Since s s' := fun heq =>
    ⟨fun c j ha => by rwa [heq] at ha, fun c => by rw [heq]⟩
  cases next_cases hnext with
  | enter | lastFull => exact h.snoc hne
  | scan hempty hclass =>
    exact ⟨s, (h.began hrun hget).snoc hne, hsame hsh, hempty, [], hclass,
      fun c hc => absurd hc List.not_mem_nil⟩
  | @scanFull memorySize slabSize c chunks hfull =>
    obtain ⟨s₀, hbegan, hl⟩ := h
    have hin := (hinv.threads _ (List.mem_of_getElem? hget)).2.1 c List.mem_cons_self
    have hnext := hl.next hinv hin hfull
    exact ⟨s₀, hbegan.snoc hne, hnext.since.trans (hsame hsh), hnext.empty, hnext.full⟩
  | scanEnd =>
    obtain ⟨s₀, hbegan, hl⟩ := h
    exact ⟨s₀, hbegan.snoc hne, hl.exhausted⟩
  | freshFails hwhy => rcases hwhy with rfl | rfl <;> trivial
  | _ => trivial

/-- A step of the thread itself. -/
theorem Reported.self (hinv : ThreadsInv n s) (hslab : s.1.pool.slabFor = init.1.pool.slabFor)
    (hrun : Run.run threadStep init history = some s) (hget : s.2[i]? = some t)
    (h : Reported init history s i t) {a : Turn} (hturn : Shared.turn a s.1 t = some (s'.1, t')) :
    Reported init (history ++ [(i, a)]) s' i t' := by
  cases a with
  | call call =>
    cases t with
    | idle => exact reported_call hslab hturn
    | _ => cases hturn
  | next => exact h.next hinv hrun hget hturn rfl

end Scan

section Runs

variable {perfectFit : Bool} {memorySize n : ℕ} {slabSizes : List ℕ} {p₀ : PersistMemoryPool}
  {s : ThreadsState}

/-- **What the history says of every thread.** -/
theorem reported_run (hcreate : create perfectFit memorySize slabSizes = .ok p₀)
    {schedule : List (ℕ × Turn)}
    (hrun : Run.run threadStep (newThreads p₀ n) schedule = some s) {i : ℕ} {t : ThreadPc}
    (hget : s.2[i]? = some t) : Reported (newThreads p₀ n) schedule s i t := by
  have hreported : ThreadsInv (memorySize / kChunkSize) s ∧ s.1.pool.slabFor = p₀.slabFor ∧
      Run.run threadStep (newThreads p₀ n) ([] ++ schedule) = some s ∧
      ∀ i t, s.2[i]? = some t → Reported (newThreads p₀ n) ([] ++ schedule) s i t := by
    refine Run.run_history (G := fun _ _ => True) (P := fun history s =>
      ThreadsInv (memorySize / kChunkSize) s ∧ s.1.pool.slabFor = p₀.slabFor ∧
        Run.run threadStep (newThreads p₀ n) history = some s ∧
        ∀ i t, s.2[i]? = some t → Reported (newThreads p₀ n) history s i t)
      (fun history s a s' h _ hs => ?_) [] ⟨threadsInv_new hcreate n, rfl, rfl, fun i t ht => ?_⟩
      (Run.guarded_of_forall (fun _ _ => trivial) _ _) hrun
    · obtain ⟨hinv, hslab, hrun, hrep⟩ := h
      obtain ⟨t, t', hget, hturn, hset, hmoved⟩ := hinv.step_cases hs
      refine ⟨hinv.step hs, ?_, Run.run_concat hrun hs, fun j u hu => ?_⟩
      · rw [← hslab]
        exact slabFor_congr hmoved.ext.perfectFit hmoved.ext.slabSizes
      by_cases hij : a.1 = j
      · subst hij
        rw [hset, List.getElem?_set_self (List.getElem?_eq_some_iff.mp hget).1] at hu
        obtain rfl := Option.some.inj hu
        exact (hrep _ t hget).self hinv hslab hrun hget hturn
      · rw [hset, List.getElem?_set_ne hij] at hu
        exact (hrep j u hu).other hij fun hin =>
          hinv.outer_of_inside hget hset hmoved hij hu hin
    · have hidle := List.eq_of_mem_replicate (List.mem_of_getElem? ht)
      subst hidle
      trivial
  exact hreported.2.2.2 i t hget

/-- **A pool that is reported to be out of memory was out of memory.** The thread that stops the
process is in its last call, one of `New`, and has chosen a slab size for it. In this call, before
it stopped the process, there was a state in which the free queue was empty and all slabs of the
size were allocated. -/
theorem pool_threads_oom (hcreate : create perfectFit memorySize slabSizes = .ok p₀)
    {schedule : List (ℕ × Turn)}
    (hrun : Run.run threadStep (newThreads p₀ n) schedule = some s) {i requested slabSize : ℕ}
    (hoom : s.2[i]? = some (.failed (.oom requested slabSize))) :
    p₀.slabFor requested = some slabSize ∧ ∃ before mid after s₀,
      schedule = before ++ (i, .call (.new requested)) :: (mid ++ after) ∧
      (∀ call, (i, .call call) ∉ mid ++ after) ∧
      Run.run threadStep (newThreads p₀ n) (before ++ (i, .call (.new requested)) :: mid) =
        some s₀ ∧
      s₀.2[i]? = some (.fresh requested slabSize) ∧ s₀.1.pool.Exhausted slabSize := by
  obtain ⟨s₀, ⟨hslab, before, mid, after, hsplit, hnone, hbefore, hfresh⟩, hex⟩ :=
    reported_run hcreate hrun hoom
  exact ⟨hslab, before, mid, after, s₀, hsplit, hnone, hbefore, hfresh, hex⟩

/-- One thread that allocates the 64 slabs of the only chunk, and then one more. -/
def fillSchedule : List (ℕ × Turn) :=
  (0, .call (.new 32767)) :: List.replicate 6 (0, .next) ++
    (List.replicate 64 ((0, .call (.new 32767)) :: List.replicate 5 (0, .next))).flatten

theorem pool_threads_oom_one_chunk : ∃ p₀ before mid after s₀,
    create true kChunkSize [32767] = .ok p₀ ∧
      fillSchedule = before ++ (0, .call (.new 32767)) :: (mid ++ after) ∧
      (∀ call, (0, .call call) ∉ mid ++ after) ∧
      Run.run threadStep (newThreads p₀ 1) (before ++ (0, .call (.new 32767)) :: mid) = some s₀ ∧
      s₀.1.pool.Exhausted 32767 := by
  have heval : ((create true kChunkSize [32767]).toOption.any fun p₀ =>
      (Run.run threadStep (newThreads p₀ 1) fillSchedule).any fun s =>
        decide (s.2[0]? = some (.failed (.oom 32767 32767)))) = true := by
    decide +kernel
  simp only [Option.any_eq_true, decide_eq_true_eq] at heval
  obtain ⟨p₀, hcreate, s, hrun, hoom⟩ := heval
  have hok := eq_ok_of_toOption hcreate
  obtain ⟨-, before, mid, after, s₀, hsplit, hnone, hbefore, -, hex⟩ :=
    pool_threads_oom hok hrun hoom
  exact ⟨p₀, before, mid, after, s₀, hok, hsplit, hnone, hbefore, hex⟩

end Runs

/-! ### Calls return -/

section Progress

variable {n i : ℕ} {s s' : ThreadsState} {t t' : ThreadPc} {sh : Shared}

/-- The steps that a thread has at most before it, in a pool of `n` chunks. -/
def ThreadPc.rank (n : ℕ) : ThreadPc → ℕ
  | .enter .. => n + 8
  | .last .. => n + 7
  | .fresh .. => n + 6
  | .scan _ _ chunks => chunks.length + 5
  | .malloc .. => 4
  | .count .. | .free _ => 3
  | .finish .. | .clear _ => 2
  | .discount => 1
  | .idle | .failed _ => 0

/-- The steps that the threads have at most before them. -/
def threadsRank (n : ℕ) (s : ThreadsState) : ℕ := (s.2.map (ThreadPc.rank n)).sum

/-- **Every step of a call** brings its thread nearer to its end. -/
theorem ThreadsInv.rank_lt (h : ThreadsInv n s) (hnext : s.1.next t = some (sh, t')) :
    t'.rank n < t.rank n := by
  cases next_cases hnext with
  | scan hfree hclass =>
    have hle := h.run.inv.length_class_le hclass
    rw [h.run.nrChunks] at hle
    simp only [ThreadPc.rank]
    omega
  | _ =>
    simp only [ThreadPc.rank, List.length_cons]
    omega

/-- **A thread that does not move** is idle, has stopped the process, or waits for a lock. -/
theorem next_eq_none (h : s.1.next t = none) : t = .idle ∨ (∃ why, t = .failed why) ∨
    ((∃ memorySize slabSize, t = .enter memorySize slabSize) ∧ s.1.lock = true) ∨
    ∃ c, s.1.chunkLock c = true := by
  cases t with
  | idle => exact Or.inl rfl
  | failed why => exact Or.inr (Or.inl ⟨why, rfl⟩)
  | enter memorySize slabSize =>
    rw [Shared.next] at h
    split_ifs at h with hlock
    exact Or.inr (Or.inr (Or.inl ⟨⟨memorySize, slabSize, rfl⟩, hlock⟩))
  | malloc memorySize c =>
    rw [Shared.next] at h
    split_ifs at h with hlock
    · exact Or.inr (Or.inr (Or.inr ⟨c, hlock⟩))
    · split at h <;> cases h
  | free memoryData =>
    rw [Shared.next] at h
    split_ifs at h with hlt hlock
    exact Or.inr (Or.inr (Or.inr ⟨_, hlock⟩))
  | last =>
    rw [Shared.next] at h
    split at h <;> cases h
  | fresh =>
    rw [Shared.next] at h
    split at h <;> split at h <;> cases h
  | scan memorySize slabSize chunks =>
    cases chunks with
    | nil => cases h
    | cons c chunks =>
      rw [Shared.next] at h
      split_ifs at h
  | count | finish | clear | discount => cases h

/-- **No deadlock.** -/
theorem ThreadsInv.idle_of_stuck (h : ThreadsInv n s) (hstuck : ∀ t ∈ s.2, s.1.next t = none)
    (hfailed : ∀ why, .failed why ∉ s.2) : ∀ t ∈ s.2, t = .idle := by
  have hchunk : ∀ c, s.1.chunkLock c ≠ true := fun c hlocked => by
    -- the thread that holds the lock of a chunk waits for nothing
    have hcount := h.chunkLock c
    rw [hlocked, Bool.toNat_true] at hcount
    obtain ⟨u, hu, hclears⟩ := List.countP_pos_iff.mp (hcount.symm ▸ Nat.one_pos)
    cases u with
    | clear => cases hstuck _ hu
    | _ => cases hclears
  have hlock : s.1.lock ≠ true := fun hlocked => by
    -- nor does the thread that holds the lock of the pool, when the chunks are not locked
    have hcount := h.lock
    rw [hlocked, Bool.toNat_true] at hcount
    obtain ⟨u, hu, hin⟩ := List.countP_pos_iff.mp (hcount.symm ▸ Nat.one_pos)
    rcases next_eq_none (hstuck u hu) with rfl | ⟨why, rfl⟩ | ⟨⟨_, _, rfl⟩, -⟩ | ⟨c, hc⟩
    · cases hin
    · exact hfailed why hu
    · cases hin
    · exact hchunk c hc
  intro t ht
  rcases next_eq_none (hstuck t ht) with rfl | ⟨why, rfl⟩ | ⟨-, hl⟩ | ⟨c, hc⟩
  · rfl
  · exact absurd ht (hfailed why)
  · exact absurd hl hlock
  · exact absurd hc (hchunk c)

theorem ThreadsInv.threadsRank_lt (h : ThreadsInv n s)
    (hs : threadStep s (i, .next) = some s') : threadsRank n s' < threadsRank n s := by
  obtain ⟨t, t', hget, hturn, hset, -⟩ := h.step_cases hs
  obtain ⟨rest, hsum, hsum'⟩ := Threads.sum_set (ThreadPc.rank n) hget
  rw [threadsRank, threadsRank, hset, hsum, hsum']
  exact Nat.add_lt_add_right (h.rank_lt hturn) rest

theorem ThreadsInv.rank_le (h : ThreadsInv n s) (ht : t ∈ s.2) : t.rank n ≤ n + 8 := by
  have hok := h.threads t ht
  cases t with
  | scan memorySize slabSize chunks =>
    have hle : chunks.length ≤ n := h.run.nrChunks ▸ hok.2.2
    rw [ThreadPc.rank]
    omega
  | _ =>
    simp only [ThreadPc.rank]
    omega

theorem ThreadsInv.threadsRank_le (h : ThreadsInv n s) :
    threadsRank n s ≤ s.2.length * (n + 8) := by
  have hle := List.sum_le_card_nsmul (s.2.map (ThreadPc.rank n)) (n + 8) fun x hx => by
    obtain ⟨t, ht, rfl⟩ := List.mem_map.mp hx
    exact h.rank_le ht
  rwa [List.length_map] at hle

theorem length_threadStep {a : ℕ × Turn} (hs : threadStep s a = some s') :
    s'.2.length = s.2.length := by
  obtain ⟨t, t', -, -, hset⟩ := Threads.step_cases hs
  rw [hset, List.length_set]

/-- **Calls return.** From every state of every interleaving the calls that are under way take a
bounded number of steps, in whatever order the threads move. When none of them can move any more,
all have returned, or one has stopped the process. -/
theorem pool_threads_return {perfectFit : Bool} {memorySize : ℕ} {slabSizes : List ℕ}
    {p₀ : PersistMemoryPool} (hcreate : create perfectFit memorySize slabSizes = .ok p₀)
    {schedule : List (ℕ × Turn)}
    (hrun : Run.run threadStep (newThreads p₀ n) schedule = some s) {moves : List ℕ}
    (hmoves : Run.run (fun s i => threadStep s (i, .next)) s moves = some s') :
    moves.length ≤ n * (memorySize / kChunkSize + 8) ∧
      ((∀ i, threadStep s' (i, .next) = none) →
        (∀ t ∈ s'.2, t = .idle) ∨ ∃ why, .failed why ∈ s'.2) := by
  have hinv := threadsInv_run hcreate hrun
  have hlen : s.2.length = n :=
    Run.run_invariant (P := fun s => s.2.length = n)
      (fun _ _ _ hs hstep => (length_threadStep hstep).trans hs) (List.length_replicate ..) hrun
  constructor
  · have hbound := Run.run_length_le (P := ThreadsInv (memorySize / kChunkSize))
      (m := threadsRank (memorySize / kChunkSize))
      (fun _ _ _ h hs => ⟨h.step hs, h.threadsRank_lt hs⟩) hinv hmoves
    have hle := hinv.threadsRank_le
    rw [hlen] at hle
    omega
  · intro hstuck
    have hinv' : ThreadsInv (memorySize / kChunkSize) s' :=
      Run.run_invariant (fun _ _ _ h hs => h.step hs) hinv hmoves
    by_cases hfailed : ∃ why, .failed why ∈ s'.2
    · exact Or.inr hfailed
    · refine Or.inl (hinv'.idle_of_stuck ?_ fun why hmem => hfailed ⟨why, hmem⟩)
      exact Threads.stuck_iff.mp hstuck

/-- Two threads in their first calls. -/
theorem pool_threads_return_two : ∃ p₀ s,
    create false (2 * kChunkSize) [40] = .ok p₀ ∧
      Run.run threadStep (newThreads p₀ 2) [(0, .call (.new 30)), (1, .call (.new 20))] = some s ∧
      ∀ moves s', Run.run (fun s i => threadStep s (i, .next)) s moves = some s' →
        moves.length ≤ 20 := by
  have heval : ((create false (2 * kChunkSize) [40]).toOption.any fun p₀ =>
      (Run.run threadStep (newThreads p₀ 2)
        [(0, .call (.new 30)), (1, .call (.new 20))]).isSome) = true := by
    decide +kernel
  simp only [Option.any_eq_true] at heval
  obtain ⟨p₀, hcreate, hsome⟩ := heval
  obtain ⟨s, hrun⟩ := Option.isSome_iff_exists.mp hsome
  have hok := eq_ok_of_toOption hcreate
  refine ⟨p₀, s, hok, hrun, fun moves s' hmoves => ?_⟩
  exact (pool_threads_return hok hrun hmoves).1

end Progress

end PersistMemoryPool

end PetPS
