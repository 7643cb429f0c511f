import PetPS.Epoch.Manager
import PetPS.Ps.Server

/-!
# The polling threads of the server

`PollingThread` and the control flow of the handlers it calls, for any number of threads that
interleave freely. A thread polls its completion queue: a message starts a handler, and a completion
tells that a write it posted is done. `RpcPsGet` protects the epoch, looks the keys up, copies the
values, unprotects and posts a write. What it copies and posts is the subject of `PetPS.Ps.Server`;
here only the number of values counts. A signaled write may complete at any later time or never. So
the one that is posted here for an empty gather list, where the source posts what stands behind an
array without elements, covers both a completion and none.

The handler has left its protection by the time it posts the write, in both branches.
`PollingThread` still calls `UnProtect` for every completion of a gather list, as it would have to
if the write read the values from the store. So each such completion pops a protection that nobody
has entered.

## Main results

* `Balanced.step` — what one event does to the epoch lists
* `protect_balanced_iff` — the runs in which `Protect` and `UnProtect` are balanced
-/

namespace PetPS

namespace Polling

/-- The work request ids of `petps_magic.h`. -/
inductive WrId
  | default
  | get
  | sgGet
  | put
  deriving DecidableEq

/-- A message, with the number of keys in its payload. -/
inductive Message
  | getServerThreadIds
  | put (count : ℕ)
  | get (count : ℕ)
  deriving DecidableEq

/-- Where a thread is. -/
inductive Pc
  /-- In the loop around `rpc_fast_wait`. -/
  | polling
  /-- At the start of the handler of a message; of the keys of a `PUT`, `count` are left. -/
  | serving (message : Message)
  /-- In `Protect`, with the epoch loaded. -/
  | protecting (count epoch : ℕ)
  /-- In `RpcPsGet`, before the lookup of the keys. -/
  | entered (count : ℕ)
  /-- In the copying loop, with `left` values to copy. -/
  | copying (left : ℕ)
  /-- Behind `UnProtect`, before the write. -/
  | copied
  deriving DecidableEq

/-- The server. Thread `r` has entry `r` of the epoch table. -/
structure State where
  flags : Flags
  epochs : EpochManager Unit
  pc : ℕ → Pc
  /-- The signaled writes of each thread whose completions it has not polled. -/
  posted : ℕ → List WrId

/-- All threads are polling. -/
def initial (flags : Flags) (maxThreadNum : ℕ) : State where
  flags
  epochs := EpochManager.initial maxThreadNum
  pc _ := .polling
  posted _ := []

/-- Thread `r` goes to `x`. -/
def State.goto (s : State) (r : ℕ) (x : Pc) : State := { s with pc := Function.update s.pc r x }

/-- Thread `r` posts a signaled write. -/
def State.post (s : State) (r : ℕ) (wrId : WrId) : State :=
  { s with posted := Function.update s.posted r (wrId :: s.posted r) }

/-- What happens next. -/
inductive Event
  /-- `rpc_fast_wait` of thread `r` returns a message. -/
  | receive (r : ℕ) (message : Message)
  /-- `rpc_fast_wait` of thread `r` returns `nullptr` and the id of a completed write. -/
  | complete (r : ℕ) (wrId : WrId)
  /-- The handler that thread `r` is in goes on. -/
  | handle (r : ℕ)
  /-- A thread that recycles blocks bumps the epoch, scans an entry or stores the safe epoch. -/
  | bump (w : ℕ)
  | scan (w : ℕ)
  | store (w : ℕ)
  deriving DecidableEq

/-- The next statement of the handler of thread `r`. A failed `CHECK` ends the process. -/
def handle (s : State) (r : ℕ) : Option State :=
  match s.pc r with
  | .polling => none
  | .serving .getServerThreadIds => some (s.goto r .polling)
  | .serving (.put 0) => some ((s.post r .put).goto r .polling)
  | .serving (.put (count + 1)) => some (s.goto r (.serving (.put count)))
  | .serving (.get count) => some (s.goto r (.protecting count s.epochs.currentEpoch))
  | .protecting count epoch =>
    some (State.goto { s with epochs := s.epochs.enqueProtect r epoch () } r (.entered count))
  | .entered count =>
    -- `CHECK_LE(count, max_kv_num_per_request)`, and `CHECK_EQ(values.size(), count)` behind
    -- `BatchGet`
    if count ≤ s.flags.maxKvNumPerRequest ∧ (s.flags.prefetchMethod ≤ 1 ∨ count = 0) then
      some (s.goto r (.copying count))
    else none
  | .copying (left + 1) => some (s.goto r (.copying left))
  | .copying 0 => some (State.goto { s with epochs := s.epochs.dequeUnProtect r } r .copied)
  | .copied => some ((s.post r (if s.flags.useSglist then .sgGet else .get)).goto r .polling)

/-- One event, if it is possible. -/
def step (s : State) : Event → Option State
  | .receive r message =>
    if r < s.epochs.maxThreadNum ∧ s.pc r = .polling then
      some (s.goto r (.serving message))
    else none
  | .complete r wrId =>
    if s.pc r = .polling ∧ wrId ∈ s.posted r then
      let s := { s with posted := Function.update s.posted r ((s.posted r).erase wrId) }
      some (if wrId = .sgGet then { s with epochs := s.epochs.dequeUnProtect r } else s)
    else none
  | .handle r => handle s r
  | .bump w => some { s with epochs := s.epochs.bump w }
  | .scan w => (s.epochs.scanEntry w).map fun epochs => { s with epochs }
  | .store w => (s.epochs.storeSafe w).map fun epochs => { s with epochs }

/-! ### Balance -/

/-- How many requests of a thread may still read values from the store: they have called `Protect`
and not finished copying. -/
def Pc.reading : Pc → ℕ
  | .entered _ => 1
  | .copying _ => 1
  | _ => 0

/-- The threads whose epoch list an event pops. -/
def pops (s : State) : Event → List ℕ
  | .complete r .sgGet => [r]
  | .handle r => if s.pc r = .copying 0 then [r] else []
  | _ => []

/-- The event pops no empty list. -/
def PopsProtection (s : State) (e : Event) : Prop := ∀ r ∈ pops s e, s.epochs.table r ≠ []

instance (s : State) (e : Event) : Decidable (PopsProtection s e) :=
  inferInstanceAs (Decidable (∀ _ ∈ _, _))

/-- Every epoch list has the length it should have. -/
def Balanced (s : State) : Prop := ∀ r, (s.epochs.table r).length = (s.pc r).reading

theorem balanced_initial (flags : Flags) (maxThreadNum : ℕ) :
    Balanced (initial flags maxThreadNum) :=
  fun _ => rfl

/-- Thread `r` moves and its list with it; the other threads and their lists stay. -/
theorem Balanced.move {s s' : State} (h : Balanced s) {r : ℕ} {x : Pc}
    (hpc : s'.pc = Function.update s.pc r x)
    (hother : ∀ r', r' ≠ r → s'.epochs.table r' = s.epochs.table r')
    (hself : (s'.epochs.table r).length = x.reading) : Balanced s' := by
  intro r'
  by_cases hr : r' = r
  · rw [hr, hpc, Function.update_self, hself]
  · rw [hother r' hr, hpc, Function.update_of_ne hr, h r']

/-- What is posted does not matter. -/
theorem Balanced.congr {s s' : State} (h : Balanced s) (hpc : s'.pc = s.pc)
    (htable : s'.epochs.table = s.epochs.table) : Balanced s' := by
  intro r
  rw [htable, hpc, h r]

/-- **What a statement of a handler does** to the thread and to its epoch list. -/
theorem handle_cases {s s' : State} {r : ℕ} (h : handle s r = some s') :
    ∃ x, s'.pc = Function.update s.pc r x ∧
      ((s'.epochs = s.epochs ∧ x.reading = (s.pc r).reading ∧ s.pc r ≠ .copying 0) ∨
        (∃ epoch, s'.epochs = s.epochs.enqueProtect r epoch () ∧ x.reading = 1 ∧
          (s.pc r).reading = 0 ∧ s.pc r ≠ .copying 0) ∨
        (s'.epochs = s.epochs.dequeUnProtect r ∧ x.reading = 0 ∧ s.pc r = .copying 0)) := by
  rw [handle] at h
  split at h
  case h_1 => cases h
  case h_6 count epoch hpc =>
    cases h
    exact ⟨_, rfl, Or.inr (Or.inl ⟨epoch, rfl, rfl, by rw [hpc]; rfl, by simp [hpc]⟩)⟩
  case h_7 count hpc =>
    split_ifs at h
    cases h
    exact ⟨_, rfl, Or.inl ⟨rfl, by rw [hpc]; rfl, by simp [hpc]⟩⟩
  case h_8 left hpc =>
    cases h
    exact ⟨_, rfl, Or.inl ⟨rfl, by rw [hpc]; rfl, by simp [hpc]⟩⟩
  case h_9 hpc =>
    cases h
    exact ⟨_, rfl, Or.inr (Or.inr ⟨rfl, rfl, hpc⟩)⟩
  all_goals
    cases h
    rename_i hpc
    exact ⟨_, rfl, Or.inl ⟨rfl, by rw [hpc]; rfl, by simp [hpc]⟩⟩

theorem Balanced.handle {s s' : State} {r : ℕ} (h : Balanced s) (hstep : handle s r = some s') :
    Balanced s' ∧ PopsProtection s (.handle r) := by
  have hlen := h r
  obtain ⟨x, hpc, ⟨hep, hx, hne⟩ | ⟨epoch, hep, hx, hzero, hne⟩ | ⟨hep, hx, hlast⟩⟩ :=
    handle_cases hstep
  · refine ⟨h.move hpc (fun _ _ => by rw [hep]) (by rw [hep, hlen, hx]), ?_⟩
    simp [PopsProtection, pops, hne]
  · refine ⟨h.move hpc (fun r' hr => ?_) ?_, ?_⟩
    · rw [hep]
      exact Function.update_of_ne hr _ _
    · simp only [hep, EpochManager.enqueProtect, Function.update_self, List.length_append, hlen,
        hzero, hx, List.length_singleton]
    · simp [PopsProtection, pops, hne]
  · rw [hlast] at hlen
    refine ⟨h.move hpc (fun r' hr => ?_) ?_, fun r' hr' hempty => ?_⟩
    · rw [hep]
      exact Function.update_of_ne hr _ _
    · rw [hx]
      simp only [hep, EpochManager.dequeUnProtect, Function.update_self, List.length_tail, hlen,
        Pc.reading, Nat.sub_self]
    · rw [pops, if_pos hlast, List.mem_singleton] at hr'
      rw [hr'] at hempty
      rw [hempty] at hlen
      cases hlen

/-- The scans of the manager leave the epoch lists alone. -/
theorem table_scanEntry {m m' : EpochManager Unit} {w : ℕ} (h : m.scanEntry w = some m') :
    m'.table = m.table := by
  rw [EpochManager.scanEntry] at h
  split at h
  · cases h
  · split_ifs at h
    cases h
    rfl

theorem table_storeSafe {m m' : EpochManager Unit} {w : ℕ} (h : m.storeSafe w = some m') :
    m'.table = m.table := by
  rw [EpochManager.storeSafe] at h
  split at h
  · cases h
  · split_ifs at h
    cases h
    rfl

/-- The event is the completion of a gather list. -/
def Event.IsSgGet : Event → Prop
  | .complete _ .sgGet => True
  | _ => False

instance (e : Event) : Decidable e.IsSgGet :=
  match e with
  | .complete _ .sgGet => isTrue trivial
  | .complete _ .default => isFalse id
  | .complete _ .get => isFalse id
  | .complete _ .put => isFalse id
  | .receive .. | .handle _ | .bump _ | .scan _ | .store _ => isFalse id

/-- **Every other event** keeps the balance, and pops only what has been entered. -/
theorem Balanced.step {s s' : State} {e : Event} (h : Balanced s) (hsg : ¬ e.IsSgGet)
    (hstep : step s e = some s') : Balanced s' ∧ PopsProtection s e := by
  cases e with
  | receive r message =>
    rw [Polling.step] at hstep
    split_ifs at hstep with hpoll
    cases hstep
    refine ⟨h.move rfl (fun _ _ => rfl) ?_, List.forall_mem_nil _⟩
    exact (h r).trans (by rw [hpoll.2]; rfl)
  | complete r wrId =>
    have hne : wrId ≠ .sgGet := by
      rintro rfl
      exact hsg trivial
    rw [Polling.step] at hstep
    split_ifs at hstep with hposted
    cases hstep
    refine ⟨h.congr rfl rfl, ?_⟩
    cases wrId with
    | sgGet => exact absurd rfl hne
    | default | get | put => exact List.forall_mem_nil _
  | handle r => exact h.handle hstep
  | bump w =>
    cases hstep
    exact ⟨h.congr rfl rfl, List.forall_mem_nil _⟩
  | scan w =>
    obtain ⟨epochs, hscan, rfl⟩ := Option.map_eq_some_iff.mp hstep
    exact ⟨h.congr rfl (table_scanEntry hscan), List.forall_mem_nil _⟩
  | store w =>
    obtain ⟨epochs, hstore, rfl⟩ := Option.map_eq_some_iff.mp hstep
    exact ⟨h.congr rfl (table_storeSafe hstore), List.forall_mem_nil _⟩

/-- **A completion of a gather list** finds nothing to pop. -/
theorem Balanced.not_popsProtection {s s' : State} {e : Event} (h : Balanced s) (hsg : e.IsSgGet)
    (hstep : Polling.step s e = some s') : ¬ PopsProtection s e := by
  obtain ⟨r, rfl⟩ : ∃ r, e = .complete r .sgGet := by
    cases e with
    | complete r wrId =>
      cases wrId with
      | sgGet => exact ⟨r, rfl⟩
      | default | get | put => exact hsg.elim
    | receive | handle | bump | scan | store => exact hsg.elim
  have hpoll : s.pc r = .polling := by
    rw [Polling.step] at hstep
    by_contra hne
    rw [if_neg fun hposted => hne hposted.1] at hstep
    cases hstep
  have hlen := h r
  rw [hpoll] at hlen
  exact fun hpops => hpops r List.mem_cons_self (List.length_eq_zero_iff.mp hlen)

/-! ### Without gather lists -/

theorem mem_post {s : State} {r r' : ℕ} {w wrId : WrId} (h : w ∈ (s.post r wrId).posted r') :
    w = wrId ∨ w ∈ s.posted r' := by
  by_cases hr : r' = r
  · subst hr
    simpa only [State.post, Function.update_self, List.mem_cons] using h
  · simp only [State.post, Function.update_of_ne hr] at h
    exact Or.inr h

/-- No gather list is posted with `use_sglist` off. -/
structure Plain (s : State) : Prop where
  off : s.flags.useSglist = false
  posted : ∀ r, .sgGet ∉ s.posted r

theorem Plain.handle {s s' : State} {r : ℕ} (h : Plain s) (hstep : handle s r = some s') :
    Plain s' := by
  rw [Polling.handle] at hstep
  split at hstep
  case h_1 => cases hstep
  case h_3 hpc =>
    cases hstep
    exact ⟨h.off, fun r' hr' => (mem_post hr').elim (by simp) (h.posted r')⟩
  case h_7 hpc =>
    split_ifs at hstep
    cases hstep
    exact ⟨h.off, h.posted⟩
  case h_10 hpc =>
    cases hstep
    refine ⟨h.off, fun r' hr' => (mem_post hr').elim ?_ (h.posted r')⟩
    rw [h.off]
    simp
  all_goals
    cases hstep
    exact ⟨h.off, h.posted⟩

theorem Plain.step {s s' : State} {e : Event} (h : Plain s) (hstep : step s e = some s') :
    Plain s' ∧ ¬ e.IsSgGet := by
  cases e with
  | receive r message =>
    rw [Polling.step] at hstep
    split_ifs at hstep
    cases hstep
    exact ⟨⟨h.off, h.posted⟩, id⟩
  | complete r wrId =>
    rw [Polling.step] at hstep
    split_ifs at hstep with hposted hsg
    · exact absurd (hsg ▸ hposted.2) (h.posted r)
    · cases hstep
      refine ⟨⟨h.off, fun r' hr' => ?_⟩, ?_⟩
      · by_cases hr : r' = r
        · subst hr
          simp only [Function.update_self] at hr'
          exact h.posted r' (List.mem_of_mem_erase hr')
        · simp only [Function.update_of_ne hr] at hr'
          exact h.posted r' hr'
      · cases wrId with
        | sgGet => exact absurd rfl hsg
        | default | get | put => exact id
  | handle r => exact ⟨h.handle hstep, id⟩
  | bump w =>
    cases hstep
    exact ⟨⟨h.off, h.posted⟩, id⟩
  | scan w =>
    obtain ⟨epochs, -, rfl⟩ := Option.map_eq_some_iff.mp hstep
    exact ⟨⟨h.off, h.posted⟩, id⟩
  | store w =>
    obtain ⟨epochs, -, rfl⟩ := Option.map_eq_some_iff.mp hstep
    exact ⟨⟨h.off, h.posted⟩, id⟩

/-! ### Whole runs -/

/-- Runs without a completion of a gather list. -/
theorem balanced_run {flags : Flags} {maxThreadNum : ℕ} {events : List Event} {s : State}
    (hno : ∀ e ∈ events, ¬ e.IsSgGet)
    (hrun : Run.run step (initial flags maxThreadNum) events = some s) :
    Balanced s ∧ Run.Guarded step PopsProtection (initial flags maxThreadNum) events :=
  Run.guarded_of_run (fun _ _ _ h hsg hstep => h.step hsg hstep)
    (balanced_initial flags maxThreadNum) hno hrun

/-- **`Protect` and `UnProtect` are balanced exactly in the runs without a completion of a gather
list**: every epoch list has at every point one element for each request that may still read
from the store, and is never popped when it is empty. With `use_sglist` off every run is such a
run. -/
theorem protect_balanced_iff {flags : Flags} {maxThreadNum : ℕ} {events : List Event} {s : State}
    (hrun : Run.run step (initial flags maxThreadNum) events = some s) :
    ((∀ done rest, events = done ++ rest →
          ∀ s₁ ∈ Run.run step (initial flags maxThreadNum) done, ∀ r,
            (s₁.epochs.table r).length = (s₁.pc r).reading) ∧
        Run.Guarded step PopsProtection (initial flags maxThreadNum) events ↔
      ∀ e ∈ events, ¬ e.IsSgGet) ∧
    (flags.useSglist = false → ∀ e ∈ events, ¬ e.IsSgGet) := by
  refine ⟨⟨?_, ?_⟩, ?_⟩
  · rintro ⟨hbal, hpops⟩ e he hsg
    obtain ⟨done, rest, s₁, s₂, rfl, hdone, hstep⟩ := Run.exists_step_of_mem hrun he
    have hbal₁ : Balanced s₁ := hbal done (e :: rest) rfl s₁ hdone
    exact hbal₁.not_popsProtection hsg hstep ((hpops.append.2 s₁ hdone).1)
  · intro hno
    refine ⟨?_, (balanced_run hno hrun).2⟩
    rintro done rest rfl s₁ hdone
    exact (balanced_run (fun e he => hno e (List.mem_append_left _ he)) hdone).1
  · intro hoff e he
    obtain ⟨done, rest, s₁, s₂, rfl, hdone, hstep⟩ := Run.exists_step_of_mem hrun he
    have hplain : Plain s₁ := Run.run_invariant (P := Plain) (fun _ _ _ h hstep => (h.step hstep).1)
      ⟨hoff, fun _ => List.not_mem_nil⟩ hdone
    exact (hplain.step hstep).2

/-- A `GET` of one key, up to its write. -/
def getOne (r : ℕ) : List Event := .receive r (.get 1) :: List.replicate 6 (.handle r)

/-- With `use_sglist` off the thread polls the completion of the write and is balanced. -/
theorem protect_balanced_plain : ∃ s, Run.run step (initial ⟨false, 0, 500⟩ 64)
      (getOne 0 ++ [.complete 0 .get]) = some s ∧
    Run.Guarded step PopsProtection (initial ⟨false, 0, 500⟩ 64)
      (getOne 0 ++ [.complete 0 .get]) := by
  obtain ⟨s, hrun⟩ : ∃ s, Run.run step (initial ⟨false, 0, 500⟩ 64)
      (getOne 0 ++ [.complete 0 .get]) = some s := Option.isSome_iff_exists.mp (by decide)
  have h := protect_balanced_iff hrun
  exact ⟨s, hrun, (h.1.mpr (h.2 rfl)).2⟩

/-- With `use_sglist` on the completion of the gather list pops an empty list. -/
theorem completion_pops_empty :
    ∃ s s', Run.run step (initial ⟨true, 0, 500⟩ 64) (getOne 0) = some s ∧
    s.epochs.table 0 = [] ∧ step s (.complete 0 .sgGet) = some s' ∧
    ¬ PopsProtection s (.complete 0 .sgGet) := by
  obtain ⟨s, hrun⟩ : ∃ s, Run.run step (initial ⟨true, 0, 500⟩ 64) (getOne 0) = some s :=
    Option.isSome_iff_exists.mp (by decide)
  have heval : ((Run.run step (initial ⟨true, 0, 500⟩ 64) (getOne 0)).any fun s =>
      decide (s.epochs.table 0 = []) && (step s (.complete 0 .sgGet)).isSome &&
        decide (¬ PopsProtection s (.complete 0 .sgGet))) = true := by
    decide
  simp only [hrun, Option.any_some, Bool.and_eq_true, decide_eq_true_eq] at heval
  obtain ⟨⟨hempty, hsome⟩, hpops⟩ := heval
  obtain ⟨s', hstep⟩ := Option.isSome_iff_exists.mp hsome
  exact ⟨s, s', hrun, hempty, hstep, hpops⟩

end Polling

end PetPS
