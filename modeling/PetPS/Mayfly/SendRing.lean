import PetPS.Lib.Run
import PetPS.Mayfly.MessageRing

/-!
# The ring of send buffers

`AbstractMessageConnection.cpp`, `RawMessageConnection.cpp`, `DSM.h`: `rpc_call` takes the next
buffer of a pool of `messageNR`, fills it and posts it to the network card, which reads the buffer
at some later time. Nothing waits for a send by itself. Every thirty-second send is signalled, and
before such a send, except for the first, the completion of the signalled send before it is polled.

The network card completes the sends in order, so a completion says that all sends before it are
complete too. The completion that is polled is an old one: when a buffer is taken, up to `63` sends
may be in flight. That is what the size of the pool has to be compared with.

`messageNR` and `curSend` are `uint16_t` and `sendCounter` is a `uint64_t` in the source. The model
has natural numbers, which is the same for a pool of less than `2 ^ 16` buffers and less than
`2 ^ 64` sends.

## Main results

* `Sent` — the sends that are in flight, in any reachable state
* `send_ring` — a buffer that is taken is never in flight exactly when there are at least `64`, and
  no send waits for ever
-/

namespace PetPS

namespace Mayfly

/-! ### The ring -/

/-- `SIGNAL_BATCH`. -/
def signalBatch : ℕ := 31

/-- The buffer that the thread fills, the sends that are in flight with whether they are signalled,
oldest first, and the completions that were not polled. -/
structure SendRing where
  curSend : ℕ
  sendCounter : ℕ
  held : Option ℕ
  inFlight : List (ℕ × Bool)
  sendCq : ℕ
  deriving DecidableEq

/-- `rpc_call` takes a buffer and then sends it; the network card completes the oldest send. -/
inductive SendEvent
  | getSendPool
  | sendRawMessage
  | complete

/-- A connection on which nothing was sent. -/
def SendRing.init : SendRing := ⟨0, 0, none, [], 0⟩

/-- Whether the send is signalled, and, if it is not the first, preceded by a poll. -/
def signaled (sendCounter : ℕ) : Bool := sendCounter &&& signalBatch == 0

/-- A step. `sendRawMessage` does not return while there is no completion to poll. -/
def sendStep (messageNR : ℕ) (s : SendRing) : SendEvent → Option SendRing
  | .getSendPool =>
    match s.held with
    | none => some { s with curSend := addRound s.curSend messageNR, held := some s.curSend }
    | some _ => none
  | .sendRawMessage =>
    match s.held with
    | none => none
    | some slot =>
      let polls := signaled s.sendCounter && decide (s.sendCounter > 0)
      if polls && s.sendCq == 0 then none
      else
        some { s with
          sendCounter := s.sendCounter + 1
          held := none
          inFlight := s.inFlight ++ [(slot, signaled s.sendCounter)]
          sendCq := if polls then s.sendCq - 1 else s.sendCq }
  | .complete =>
    match s.inFlight with
    | [] => none
    | (_, sig) :: rest =>
      some { s with inFlight := rest, sendCq := if sig then s.sendCq + 1 else s.sendCq }

/-- The buffer that is being filled is not in flight. -/
def SendRing.Safe (s : SendRing) : Prop :=
  ∀ slot ∈ s.held, slot ∉ s.inFlight.map Prod.fst

instance (s : SendRing) : Decidable s.Safe :=
  inferInstanceAs (Decidable (∀ slot ∈ s.held, slot ∉ s.inFlight.map Prod.fst))

/-! ### The sends in flight -/

theorem signaled_eq (n : ℕ) : signaled n = decide (n % 32 = 0) := by
  rw [signaled, show signalBatch = 2 ^ 5 - 1 from rfl, Nat.and_two_pow_sub_one_eq_mod]
  rfl

/-- The first `completed` sends are complete, the others are in flight. The completions that were
polled are those of all signalled sends before the last one. -/
structure Sent (messageNR completed : ℕ) (s : SendRing) : Prop where
  le : completed ≤ s.sendCounter
  held : ∀ slot ∈ s.held, slot = s.sendCounter % messageNR
  cur : s.curSend = (s.sendCounter + s.held.toList.length) % messageNR
  inFlight : s.inFlight = (List.range' completed (s.sendCounter - completed)).map
    fun i => (i % messageNR, decide (i % 32 = 0))
  polled : s.sendCq + (s.sendCounter - 1) / 32 = (completed + 31) / 32

section Steps

variable {messageNR completed : ℕ} {s s' : SendRing}

theorem sent_init : Sent messageNR 0 SendRing.init := by
  refine ⟨le_rfl, ?_, (Nat.zero_mod _).symm, rfl, rfl⟩
  rintro slot ⟨⟩

/-- A poll before a signalled send. -/
theorem polled_send {q n c : ℕ} (h : q + (n - 1) / 32 = (c + 31) / 32)
    (hpoll : n % 32 = 0 → 0 < n → 0 < q) :
    (if n % 32 = 0 ∧ 0 < n then q - 1 else q) + n / 32 = (c + 31) / 32 := by
  split_ifs with hcond
  · have hq := hpoll hcond.1 hcond.2
    omega
  · omega

/-- A completion of a signalled send. -/
theorem polled_complete {q n c : ℕ} (h : q + (n - 1) / 32 = (c + 31) / 32) :
    (if decide (c % 32 = 0) then q + 1 else q) + (n - 1) / 32 = (c + 1 + 31) / 32 := by
  simp only [decide_eq_true_eq]
  split_ifs <;> omega

theorem Sent.getSendPool (h : Sent messageNR completed s)
    (hs : sendStep messageNR s .getSendPool = some s') : Sent messageNR completed s' := by
  rw [sendStep] at hs
  rcases hheld : s.held with _ | slot
  · rw [hheld] at hs
    cases hs
    have hcur := h.cur
    rw [hheld] at hcur
    refine ⟨h.le, fun slot hslot => ?_, ?_, h.inFlight, h.polled⟩
    · rw [← Option.some.inj hslot, hcur]
      rfl
    · rw [hcur]
      exact addRound_mod _ _
  · rw [hheld] at hs
    cases hs

/-- What a send needs. -/
theorem sendRawMessage_eq {slot : ℕ} (hheld : s.held = some slot)
    (hpoll : s.sendCounter % 32 = 0 → 0 < s.sendCounter → 0 < s.sendCq) :
    sendStep messageNR s .sendRawMessage = some { s with
      sendCounter := s.sendCounter + 1
      held := none
      inFlight := s.inFlight ++ [(slot, decide (s.sendCounter % 32 = 0))]
      sendCq :=
        if s.sendCounter % 32 = 0 ∧ 0 < s.sendCounter then s.sendCq - 1 else s.sendCq } := by
  have hcond : ((decide (s.sendCounter % 32 = 0) && decide (s.sendCounter > 0)) &&
      s.sendCq == 0) = false := by
    by_contra hne
    simp only [Bool.not_eq_false, Bool.and_eq_true, decide_eq_true_eq, beq_iff_eq] at hne
    have := hpoll hne.1.1 hne.1.2
    omega
  rw [sendStep, hheld]
  simp only [signaled_eq, hcond]
  simp

theorem poll_of_sendRawMessage (hs : sendStep messageNR s .sendRawMessage = some s') :
    ∃ slot, s.held = some slot ∧
      (s.sendCounter % 32 = 0 → 0 < s.sendCounter → 0 < s.sendCq) := by
  rw [sendStep] at hs
  rcases hheld : s.held with _ | slot
  · rw [hheld] at hs
    cases hs
  · refine ⟨slot, rfl, fun hmod hpos => Nat.pos_of_ne_zero fun h0 => ?_⟩
    rw [hheld] at hs
    simp [signaled_eq, hmod, hpos, h0] at hs

theorem Sent.sendRawMessage (h : Sent messageNR completed s)
    (hs : sendStep messageNR s .sendRawMessage = some s') : Sent messageNR completed s' := by
  obtain ⟨slot, hheld, hpoll⟩ := poll_of_sendRawMessage hs
  rw [sendRawMessage_eq hheld hpoll] at hs
  cases hs
  have hle := h.le
  have hslot := h.held slot hheld
  have hcur := h.cur
  rw [hheld] at hcur
  refine ⟨hle.trans (Nat.le_succ _), fun _ hnone => (by cases hnone), hcur, ?_, ?_⟩
  · show s.inFlight ++ _ = (List.range' completed (s.sendCounter + 1 - completed)).map _
    rw [Nat.succ_sub hle, List.range'_concat, List.map_append, ← h.inFlight, hslot, Nat.one_mul,
      Nat.add_sub_of_le hle]
    rfl
  · exact polled_send h.polled hpoll

theorem Sent.complete (h : Sent messageNR completed s)
    (hs : sendStep messageNR s .complete = some s') : Sent messageNR (completed + 1) s' := by
  have hle := h.le
  rw [sendStep] at hs
  rcases hn : s.sendCounter - completed with _ | k
  · rw [h.inFlight, hn] at hs
    cases hs
  · have hflight := h.inFlight
    rw [hn, List.range'_succ, List.map_cons] at hflight
    rw [hflight] at hs
    cases hs
    refine ⟨show completed + 1 ≤ s.sendCounter by omega, h.held, h.cur, ?_, ?_⟩
    · show _ = (List.range' (completed + 1) (s.sendCounter - (completed + 1))).map _
      rw [Nat.sub_add_eq, hn]
      rfl
    · exact polled_complete h.polled

theorem Sent.step (h : Sent messageNR completed s) {e : SendEvent}
    (hs : sendStep messageNR s e = some s') : ∃ completed', Sent messageNR completed' s' := by
  cases e with
  | getSendPool => exact ⟨completed, h.getSendPool hs⟩
  | sendRawMessage => exact ⟨completed, h.sendRawMessage hs⟩
  | complete => exact ⟨completed + 1, h.complete hs⟩

theorem sent_of_run {events : List SendEvent}
    (hrun : Run.run (sendStep messageNR) .init events = some s) :
    ∃ completed, Sent messageNR completed s :=
  Run.run_invariant (P := fun s => ∃ completed, Sent messageNR completed s)
    (fun _ _ _ ⟨_, h⟩ hs => h.step hs) ⟨0, sent_init⟩ hrun

/-! ### What follows for the buffers -/

/-- The completion that was polled last is at most `63` sends old. -/
theorem Sent.sendCounter_le (h : Sent messageNR completed s) : s.sendCounter ≤ completed + 63 := by
  have hpolled := h.polled
  omega

theorem Sent.length_inFlight (h : Sent messageNR completed s) :
    s.inFlight.length = s.sendCounter - completed := by
  rw [h.inFlight, List.length_map, List.length_range']

/-- The buffer that was taken is not in flight. -/
theorem Sent.safe (h : Sent messageNR completed s) (hNR : 64 ≤ messageNR) : s.Safe := by
  intro slot hslot hmem
  obtain ⟨p, hp, rfl⟩ := List.mem_map.mp hmem
  rw [h.inFlight] at hp
  obtain ⟨i, hi, rfl⟩ := List.mem_map.mp hp
  obtain ⟨hlo, hhi⟩ := List.mem_range'_1.mp hi
  have hle := h.sendCounter_le
  have hne : i % messageNR ≠ s.sendCounter % messageNR := mod_ne_mod (by omega) (by omega)
  exact hne (h.held _ hslot)

/-- The network card completes all sends. -/
theorem Sent.complete_all (h : Sent messageNR completed s) {k : ℕ}
    (hk : s.sendCounter - completed = k) :
    ∃ s', Run.run (sendStep messageNR) s (List.replicate k .complete) = some s' ∧
      Sent messageNR s.sendCounter s' ∧ s'.held = s.held ∧ s'.sendCounter = s.sendCounter := by
  induction k generalizing s completed with
  | zero =>
    have heq : completed = s.sendCounter := by have := h.le; omega
    exact ⟨s, rfl, heq ▸ h, rfl, rfl⟩
  | succ k ih =>
    have hflight := h.inFlight
    rw [hk, List.range'_succ, List.map_cons] at hflight
    obtain ⟨s₁, hs₁, hheld, hcounter⟩ : ∃ s₁, sendStep messageNR s .complete = some s₁ ∧
        s₁.held = s.held ∧ s₁.sendCounter = s.sendCounter := by
      rw [sendStep, hflight]
      exact ⟨_, rfl, rfl, rfl⟩
    obtain ⟨s', hrun, hsent, hheld', hcounter'⟩ := ih (h.complete hs₁) (by rw [hcounter]; omega)
    refine ⟨s', ?_, hcounter ▸ hsent, hheld'.trans hheld, hcounter'.trans hcounter⟩
    rw [List.replicate_succ, Run.run_cons, hs₁, Option.bind_some, hrun]

/-- Then the buffer that was taken can be sent. -/
theorem Sent.progress (h : Sent messageNR completed s) {slot : ℕ} (hheld : s.held = some slot) :
    ∃ s', Run.run (sendStep messageNR) s
      (List.replicate s.inFlight.length .complete ++ [.sendRawMessage]) = some s' := by
  obtain ⟨s₁, hrun, hsent, hheld₁, hcounter⟩ := h.complete_all h.length_inFlight.symm
  have hpolled := hsent.polled
  rw [hcounter] at hpolled
  have hpoll : s₁.sendCounter % 32 = 0 → 0 < s₁.sendCounter → 0 < s₁.sendCq := by
    intro hmod hpos
    rw [hcounter] at hmod hpos
    omega
  exact ⟨_, Run.run_concat hrun (sendRawMessage_eq (hheld₁.trans hheld) hpoll)⟩

end Steps

/-! ### Too few buffers -/

/-- Take and send `k` buffers. -/
def takeAndSend (k : ℕ) : List SendEvent :=
  (List.replicate k [SendEvent.getSendPool, .sendRawMessage]).flatten

section TakeAndSend

variable {messageNR completed : ℕ} {s : SendRing}

theorem Sent.exists_getSendPool (h : Sent messageNR completed s) (hheld : s.held = none) :
    ∃ s', sendStep messageNR s .getSendPool = some s' ∧ Sent messageNR completed s' ∧
      s'.sendCounter = s.sendCounter ∧ ∃ slot, s'.held = some slot := by
  obtain ⟨s', hs'⟩ : ∃ s', sendStep messageNR s .getSendPool = some s' := by
    rw [sendStep, hheld]
    exact ⟨_, rfl⟩
  refine ⟨s', hs', h.getSendPool hs', ?_⟩
  rw [sendStep, hheld] at hs'
  cases hs'
  exact ⟨rfl, _, rfl⟩

/-- One buffer. A poll does not wait while the last signalled send but one is complete. -/
theorem Sent.exists_takeAndSend_one (h : Sent messageNR completed s) (hheld : s.held = none)
    (hpoll : s.sendCounter < 32 * ((completed + 31) / 32 + 1)) :
    ∃ s', Run.run (sendStep messageNR) s [.getSendPool, .sendRawMessage] = some s' ∧
      Sent messageNR completed s' ∧ s'.held = none ∧ s'.sendCounter = s.sendCounter + 1 := by
  obtain ⟨s₁, hs₁, hsent, hcounter, slot, hslot⟩ := h.exists_getSendPool hheld
  have hpolled := hsent.polled
  have hs₂ : sendStep messageNR s₁ .sendRawMessage = some _ :=
    sendRawMessage_eq hslot fun _ _ => by omega
  refine ⟨_, ?_, hsent.sendRawMessage hs₂, rfl, congrArg (· + 1) hcounter⟩
  rw [Run.run_cons, hs₁, Option.bind_some, Run.run_cons, hs₂, Option.bind_some, Run.run_nil]

/-- Several. -/
theorem Sent.exists_takeAndSend (h : Sent messageNR completed s) (hheld : s.held = none) {k : ℕ}
    (hpoll : s.sendCounter + k ≤ 32 * ((completed + 31) / 32 + 1)) :
    ∃ s', Run.run (sendStep messageNR) s (takeAndSend k) = some s' ∧
      Sent messageNR completed s' ∧ s'.held = none ∧ s'.sendCounter = s.sendCounter + k := by
  induction k generalizing s with
  | zero => exact ⟨s, rfl, h, hheld, rfl⟩
  | succ k ih =>
    obtain ⟨s₁, hrun, hsent, hheld₁, hcounter⟩ := h.exists_takeAndSend_one hheld (by omega)
    obtain ⟨s₂, hrest, hsent₂, hheld₂, hcounter₂⟩ := ih hsent hheld₁ (by omega)
    refine ⟨s₂, ?_, hsent₂, hheld₂, by omega⟩
    rw [takeAndSend, List.replicate_succ, List.flatten_cons, Run.run_append, hrun,
      Option.bind_some]
    exact hrest

end TakeAndSend

/-- The first send completes, and then as many are made as there are buffers; the next buffer is
that of the second send. -/
def overrun (messageNR : ℕ) : List SendEvent :=
  takeAndSend 1 ++ (List.replicate 1 .complete ++ (takeAndSend messageNR ++ [.getSendPool]))

/-- **Too few buffers**: the second send is in flight, and its buffer is taken. -/
theorem overrun_unsafe {messageNR : ℕ} (hlt : messageNR < 64) (hpos : 0 < messageNR) :
    ∃ s, Run.run (sendStep messageNR) .init (overrun messageNR) = some s ∧ ¬ s.Safe := by
  obtain ⟨s₁, hrun₁, hsent₁, hheld₁, hcounter₁⟩ :=
    (sent_init : Sent messageNR 0 .init).exists_takeAndSend rfl (k := 1) (by decide)
  have hone : s₁.sendCounter = 1 := hcounter₁
  obtain ⟨s₂, hrun₂, hsent₂, hheld₂, hcounter₂⟩ := hsent₁.complete_all (k := 1) (by omega)
  rw [hone] at hsent₂ hcounter₂
  obtain ⟨s₃, hrun₃, hsent₃, hheld₃, hcounter₃⟩ :=
    hsent₂.exists_takeAndSend (hheld₂.trans hheld₁) (k := messageNR) (by omega)
  obtain ⟨s₄, hs₄, hsent₄, hcounter₄, slot, hslot⟩ := hsent₃.exists_getSendPool hheld₃
  refine ⟨s₄, ?_, fun hsafe => hsafe slot hslot ?_⟩
  · rw [overrun, Run.run_append, hrun₁, Option.bind_some, Run.run_append, hrun₂, Option.bind_some,
      Run.run_append, hrun₃, Option.bind_some, Run.run_cons, hs₄, Option.bind_some, Run.run_nil]
  · have hcounter : s₄.sendCounter = 1 + messageNR := by omega
    rw [hsent₄.held slot hslot, hsent₄.inFlight, hcounter, Nat.add_mod_right]
    refine List.mem_map.mpr ⟨(1 % messageNR, decide (1 % 32 = 0)), ?_, rfl⟩
    exact List.mem_map.mpr ⟨1, List.mem_range'_1.mpr (by omega), rfl⟩

/-- **The send buffers.** The buffer that `rpc_call` fills is in flight in no order of sends and
completions exactly when the pool has at least `64` buffers. At most `63` sends are in flight, and
the poll of `sendRawMessage` waits for completions of sends that are in flight: when all of them
have completed, the buffer can be sent. -/
theorem send_ring {messageNR : ℕ} (hpos : 0 < messageNR) :
    ((∀ events s, Run.run (sendStep messageNR) .init events = some s → s.Safe) ↔
      64 ≤ messageNR) ∧
    ∀ events s, Run.run (sendStep messageNR) .init events = some s → s.inFlight.length ≤ 63 ∧
      ∀ slot, s.held = some slot → ∃ s', Run.run (sendStep messageNR) s
        (List.replicate s.inFlight.length .complete ++ [.sendRawMessage]) = some s' := by
  refine ⟨⟨fun hsafe => ?_, fun hNR events s hrun => ?_⟩, fun events s hrun => ?_⟩
  · by_contra hlt
    obtain ⟨s, hrun, hunsafe⟩ := overrun_unsafe (by omega) hpos
    exact hunsafe (hsafe _ s hrun)
  · obtain ⟨completed, hsent⟩ := sent_of_run hrun
    exact hsent.safe hNR
  · obtain ⟨completed, hsent⟩ := sent_of_run hrun
    refine ⟨?_, fun slot hheld => hsent.progress hheld⟩
    have hle := hsent.sendCounter_le
    rw [hsent.length_inFlight]
    omega

/-- The pool of the program has `512`. -/
theorem send_ring_rpc : 64 ≤ 512 ∧
    ∀ events s, Run.run (sendStep 512) .init events = some s → s.Safe :=
  ⟨by decide, (send_ring (by decide)).1.mpr (by decide)⟩

end Mayfly

end PetPS
