import Mathlib.Data.List.Range
import Mathlib.Data.Nat.Count
import Mathlib.Tactic.Ring
import PetPS.Lib.Simulate

/-!
# The ring of received messages

`AbstractMessageConnection.cpp`, `DSM.h`: a thread receives messages in a pool of `messageNR` slots.
A receive request for each slot is posted to the network card, in four batches. A message that
arrives takes the first request and is written to its slot; when no request is posted it is lost.
`getMessage` goes around the pool, and whenever it has come to the end of a batch it posts the batch
again, with the slot that it is about to return.

`rpc_fast_wait` polls up to `16` completions at a time and keeps them, together with a cursor, in
variables of the thread. A completion is that of a received message or that of another request, of
which the caller gets the id. What the completions say is not which slot was filled: the thread
relies on the slots being filled in the order in which it goes around.

The ring is related to a `Mailbox`, in which messages have numbers and nothing is ever overwritten.
It says what the ring is for: messages are returned in the order of their arrival, each once, and
one is lost only when too many are waiting. The slot of a message is its number modulo `messageNR`,
and it is the number of messages that have been fetched, rounded down to whole batches, that says
how many requests are posted.

`messageNR` and `curMessage` are `uint16_t` in the source, and natural numbers here, which is the
same for a pool of less than `2 ^ 16` slots. That of the program has `APP_MESSAGE_NR`, that is 512,
and its completion queue as many places (`RPC_QUEUE_SIZE`). The completion queue has no bound here,
and a poll never returns an error.

## Main results

* `follows_step` — the ring does what the mailbox does
* `ring_results` — the results of every run are those of the mailbox
* `ring_fifo` — messages are returned in order, and when one is lost
* `held_message` — how long the message that was returned is intact
-/

namespace PetPS

namespace Mayfly

/-! ### The ring -/

/-- `kBatchCount`. -/
def kBatchCount : ℕ := 4

/-- `ADD_ROUND`. -/
def addRound (x n : ℕ) : ℕ := (x + 1) % n

/-- A completion, as far as its opcode is looked at. -/
inductive Completion
  | recv
  | other (wrID : ℕ)
  deriving DecidableEq

/-- What belongs to a thread: the receive requests and the completions at the network card, the
pool, and the variables of `rpc_fast_wait`. -/
structure RecvRing (M : Type) where
  posted : List ℕ
  messagePool : ℕ → Option M
  curMessage : ℕ
  cq : List Completion
  wc : List Completion
  wcCur : ℕ

/-- What can happen: a message arrives, another request completes, or the thread waits. A poll
returns some of the completions, at most the given number and one. -/
inductive RecvEvent (M : Type)
  | arrive (m : M)
  | complete (wrID : ℕ)
  | wait (polled : ℕ)

/-- What the caller of `rpc_fast_wait` gets. -/
inductive RecvResult (M : Type)
  | nothing
  | message (m : Option M)
  | wrID (wrID : ℕ)

section Ring

variable {M : Type} (messageNR : ℕ)

/-- `subNR`. -/
def subNR : ℕ := messageNR / kBatchCount

/-- The slots of `recvs[k]`. -/
def recvs (k : ℕ) : List ℕ := (List.range (subNR messageNR)).map fun i => k * subNR messageNR + i

/-- `initRecv`, on a new connection. -/
def initRecv : RecvRing M :=
  ⟨(List.range kBatchCount).flatMap (recvs messageNR), fun _ => none, 0, [], [], 0⟩

/-- `getMessage`: the slot that is returned. -/
def getMessage (s : RecvRing M) : ℕ × RecvRing M :=
  let curMessage := addRound s.curMessage messageNR
  let posted :=
    if curMessage % subNR messageNR = 0 then
      s.posted ++ recvs messageNR
        ((curMessage / subNR messageNR + (kBatchCount - 1)) % kBatchCount)
    else s.posted
  (s.curMessage, { s with curMessage := curMessage, posted := posted })

/-- A message arrives at the network card. -/
def arrive (m : M) (s : RecvRing M) : RecvRing M :=
  match s.posted with
  | [] => s
  | slot :: posted =>
    { s with
      posted := posted
      messagePool := Function.update s.messagePool slot (some m)
      cq := s.cq ++ [.recv] }

/-- The poll of `rpc_fast_wait`, when there are no completions left. -/
def poll (polled : ℕ) (s : RecvRing M) : RecvRing M :=
  if s.wcCur ≥ s.wc.length then
    let n := min (polled + 1) 16
    { s with wc := s.cq.take n, wcCur := 0, cq := s.cq.drop n }
  else s

/-- `rpc_fast_wait`. Without a completion it goes on polling. -/
def rpcFastWait (polled : ℕ) (s : RecvRing M) : Option (RecvRing M × RecvResult M) :=
  let s := poll polled s
  match s.wc[s.wcCur]? with
  | none => none
  | some .recv =>
    let r := getMessage messageNR { s with wcCur := s.wcCur + 1 }
    some (r.2, .message (r.2.messagePool r.1))
  | some (.other wrID) => some ({ s with wcCur := s.wcCur + 1 }, .wrID wrID)

/-- The message that arrives, if a request is posted for it. -/
def RecvRing.accepts (s : RecvRing M) : RecvEvent M → List M
  | .arrive m => if s.posted = [] then [] else [m]
  | _ => []

/-- The completions that the caller has not seen. -/
def RecvRing.unseen (s : RecvRing M) : List Completion := s.wc.drop s.wcCur ++ s.cq

/-- A step of the ring. -/
def recvStep (s : RecvRing M) : RecvEvent M → Option (RecvRing M × RecvResult M)
  | .arrive m => some (arrive m s, .nothing)
  | .complete wrID => some ({ s with cq := s.cq ++ [.other wrID] }, .nothing)
  | .wait polled => rpcFastWait messageNR polled s

/-- The messages that have found a request, since the ring was made. -/
def acceptedSince (events : List (RecvEvent M)) : List M :=
  Simulate.observe (recvStep messageNR) RecvRing.accepts (initRecv messageNR) events

/-! ### The mailbox -/

/-- All messages that were accepted, the number of those that were fetched, and the completions that
the thread has not seen. -/
structure Mailbox (M : Type) where
  accepted : List M
  fetched : ℕ
  waiting : List Completion

namespace Mailbox

/-- The requests that have been posted from the beginning. -/
def capacity (t : Mailbox M) : ℕ := t.fetched / subNR messageNR * subNR messageNR + messageNR

/-- The message that arrives, if there is a request for it. -/
def accepts (t : Mailbox M) : RecvEvent M → List M
  | .arrive m => if t.accepted.length < t.capacity messageNR then [m] else []
  | _ => []

/-- A message is accepted when there is a request for it; the thread gets the messages in order. -/
def step (t : Mailbox M) : RecvEvent M → Option (Mailbox M × RecvResult M)
  | .arrive m =>
    if t.accepted.length < t.capacity messageNR then
      some ({ t with accepted := t.accepted ++ [m], waiting := t.waiting ++ [.recv] }, .nothing)
    else some (t, .nothing)
  | .complete wrID => some ({ t with waiting := t.waiting ++ [.other wrID] }, .nothing)
  | .wait _ =>
    match t.waiting with
    | [] => none
    | .recv :: waiting =>
      some ({ t with fetched := t.fetched + 1, waiting := waiting },
        .message t.accepted[t.fetched]?)
    | .other wrID :: waiting => some ({ t with waiting := waiting }, .wrID wrID)

/-- The mailbox in the beginning. -/
def empty : Mailbox M := ⟨[], 0, []⟩

end Mailbox

/-- The ring is in the state of the mailbox. -/
structure Follows (s : RecvRing M) (t : Mailbox M) : Prop where
  cur : s.curMessage = t.fetched % messageNR
  completions : s.wc.drop s.wcCur ++ s.cq = t.waiting
  backlog : t.fetched + t.waiting.count .recv = t.accepted.length
  fits : t.accepted.length ≤ t.capacity messageNR
  posted : s.posted = (List.range' t.accepted.length
    (t.capacity messageNR - t.accepted.length)).map (· % messageNR)
  pool : ∀ j, j < t.accepted.length → t.accepted.length ≤ j + messageNR →
    s.messagePool (j % messageNR) = t.accepted[j]?

end Ring

/-! ### Slots -/

/-- Two numbers of one turn have two slots. -/
theorem mod_ne_mod {i j n : ℕ} (hlt : i < j) (hle : j < i + n) : i % n ≠ j % n := by
  intro heq
  have hmod := Nat.sub_mod_eq_zero_of_mod_eq heq.symm
  rw [Nat.mod_eq_of_lt (by omega)] at hmod
  omega

section Batches

variable {M : Type} {messageNR : ℕ} (hNR : messageNR % kBatchCount = 0)
include hNR

theorem messageNR_eq : messageNR = kBatchCount * subNR messageNR := by
  have hdiv := Nat.div_add_mod messageNR kBatchCount
  rw [hNR] at hdiv
  exact hdiv.symm

/-- The slots of batch `q`, counted from the beginning. -/
theorem recvs_mod (q : ℕ) : recvs messageNR (q % kBatchCount) =
    (List.range' (q * subNR messageNR) (subNR messageNR)).map (· % messageNR) := by
  have heq := messageNR_eq hNR
  generalize hsub : subNR messageNR = sub at heq
  rw [recvs, hsub, List.range'_eq_map_range, List.map_map]
  refine List.map_congr_left fun i hi => ?_
  have hi' := List.mem_range.mp hi
  have hlt : q % kBatchCount * sub + i < kBatchCount * sub := by
    have hmul := Nat.mul_le_mul_right sub (show q % kBatchCount ≤ 3 by rw [kBatchCount]; omega)
    rw [kBatchCount] at hmul ⊢
    omega
  have hq : q * sub = kBatchCount * sub * (q / kBatchCount) + q % kBatchCount * sub := by
    conv_lhs => rw [← Nat.div_add_mod q kBatchCount]
    ring
  rw [Function.comp_apply, heq, hq, Nat.add_assoc, Nat.mul_add_mod, Nat.mod_eq_of_lt hlt]

theorem subNR_dvd : subNR messageNR ∣ messageNR :=
  ⟨kBatchCount, by rw [Nat.mul_comm]; exact messageNR_eq hNR⟩

theorem subNR_pos (hpos : 0 < messageNR) : 0 < subNR messageNR := by
  have heq := messageNR_eq hNR
  rw [kBatchCount] at heq
  omega

/-- The first batches. -/
theorem flatMap_recvs {k : ℕ} (hk : k ≤ kBatchCount) : (List.range k).flatMap (recvs messageNR) =
    (List.range' 0 (k * subNR messageNR)).map (· % messageNR) := by
  induction k with
  | zero => simp
  | succ k ih =>
    have hrecvs := recvs_mod hNR k
    rw [Nat.mod_eq_of_lt hk] at hrecvs
    have happ := List.range'_append_1 (s := 0) (m := k * subNR messageNR) (n := subNR messageNR)
    rw [Nat.zero_add] at happ
    rw [List.range_succ, List.flatMap_append, ih (by omega), List.flatMap_singleton, hrecvs,
      ← List.map_append, happ, Nat.succ_mul]

omit hNR in
theorem capacity_empty : (Mailbox.empty : Mailbox M).capacity messageNR = messageNR := by
  rw [Mailbox.capacity, Mailbox.empty, Nat.zero_div, Nat.zero_mul, Nat.zero_add]

theorem follows_init : Follows messageNR (initRecv messageNR) (Mailbox.empty : Mailbox M) := by
  refine ⟨(Nat.zero_mod _).symm, rfl, rfl, Nat.zero_le _, ?_,
    fun j hj => absurd hj (Nat.not_lt_zero j)⟩
  rw [capacity_empty, initRecv, flatMap_recvs hNR le_rfl, ← messageNR_eq hNR]
  rfl

end Batches

/-! ### The steps -/

section Steps

variable {M : Type} {messageNR : ℕ} {s : RecvRing M} {t : Mailbox M}

theorem arrive_eq {slot : ℕ} {posted : List ℕ} (h : s.posted = slot :: posted) (m : M) :
    arrive m s = { s with
      posted := posted
      messagePool := Function.update s.messagePool slot (some m)
      cq := s.cq ++ [.recv] } := by
  rw [arrive, h]

/-- A message that is accepted. -/
theorem Follows.accept (h : Follows messageNR s t) (m : M)
    (hroom : t.accepted.length < t.capacity messageNR) :
    Follows messageNR (arrive m s)
      { t with accepted := t.accepted ++ [m], waiting := t.waiting ++ [.recv] } := by
  obtain ⟨k, hk⟩ : ∃ k, t.capacity messageNR - t.accepted.length = k + 1 :=
    ⟨t.capacity messageNR - t.accepted.length - 1, by omega⟩
  have hposted := h.posted
  rw [hk, List.range'_succ, List.map_cons] at hposted
  have hlength : (t.accepted ++ [m]).length = t.accepted.length + 1 := by simp
  rw [arrive_eq hposted]
  refine ⟨h.cur, ?_, ?_, ?_, ?_, fun j hj hle => ?_⟩
  · rw [← h.completions, List.append_assoc]
  · have := h.backlog
    simp only [List.count_append, List.count_singleton_self, hlength]
    omega
  · rw [hlength]
    exact hroom
  · have hcap : t.capacity messageNR - (t.accepted.length + 1) = k := by omega
    show _ = (List.range' (t.accepted ++ [m]).length
      (t.capacity messageNR - (t.accepted ++ [m]).length)).map _
    rw [hlength, hcap]
  · rw [hlength] at hj hle
    show Function.update s.messagePool (t.accepted.length % messageNR) (some m) (j % messageNR) =
      (t.accepted ++ [m])[j]?
    rcases Nat.lt_succ_iff_lt_or_eq.mp hj with hlt | rfl
    · -- the slot is that of an older message
      have hne : j % messageNR ≠ t.accepted.length % messageNR := mod_ne_mod hlt (by omega)
      rw [Function.update_of_ne hne, List.getElem?_append_left hlt]
      exact h.pool j hlt (by omega)
    · rw [Function.update_self, List.getElem?_concat_length]

/-- A message that is lost. -/
theorem Follows.lose (h : Follows messageNR s t) (m : M)
    (hfull : ¬ t.accepted.length < t.capacity messageNR) : arrive m s = s := by
  have hposted := h.posted
  rw [Nat.sub_eq_zero_of_le (Nat.not_lt.mp hfull), List.range'_zero, List.map_nil] at hposted
  rw [arrive, hposted]

/-- The completions that are left. -/
theorem poll_completions (polled : ℕ) (s : RecvRing M) :
    (poll polled s).wc.drop (poll polled s).wcCur ++ (poll polled s).cq =
      s.wc.drop s.wcCur ++ s.cq := by
  rw [poll]
  split_ifs with hend
  · rw [List.drop_zero, List.take_append_drop, List.drop_eq_nil_of_le hend, List.nil_append]
  · rfl

/-- The poll changes nothing else. -/
theorem Follows.poll (h : Follows messageNR s t) (polled : ℕ) :
    Follows messageNR (poll polled s) t := by
  refine ⟨?_, (poll_completions polled s).trans h.completions, h.backlog, h.fits, ?_, ?_⟩
  all_goals
    rw [Mayfly.poll]
    split_ifs
  · exact h.cur
  · exact h.cur
  · exact h.posted
  · exact h.posted
  · exact h.pool
  · exact h.pool

/-- After the poll the next completion is the first that is waiting. -/
theorem Follows.next_completion (h : Follows messageNR s t) (polled : ℕ) :
    (Mayfly.poll polled s).wc[(Mayfly.poll polled s).wcCur]? = t.waiting.head? := by
  have hnonempty : (Mayfly.poll polled s).wcCur < (Mayfly.poll polled s).wc.length ∨
      (Mayfly.poll polled s).wc.drop (Mayfly.poll polled s).wcCur = [] ∧
        (Mayfly.poll polled s).cq = [] := by
    rw [Mayfly.poll]
    split_ifs with hend
    · rcases s.cq with _ | ⟨c, cq⟩
      · exact Or.inr ⟨by simp, by simp⟩
      · refine Or.inl ?_
        simp only [List.length_take, List.length_cons]
        omega
    · exact Or.inl (by omega)
  rw [← (h.poll polled).completions]
  rcases hnonempty with hlt | ⟨hwc, hcq⟩
  · rw [List.drop_eq_getElem_cons hlt, List.getElem?_eq_getElem hlt]
    rfl
  · rw [hwc, hcq, List.getElem?_eq_none (List.drop_eq_nil_iff.mp hwc)]
    rfl

/-- Another completion that is taken. -/
theorem Follows.take (h : Follows messageNR s t) {c : Completion} {waiting : List Completion}
    (hlt : s.wcCur < s.wc.length) (hwaiting : t.waiting = c :: waiting) :
    s.wc.drop (s.wcCur + 1) ++ s.cq = waiting := by
  have hcompletions := h.completions
  rw [hwaiting, List.drop_eq_getElem_cons hlt, List.cons_append] at hcompletions
  exact (List.cons.inj hcompletions).2

theorem capacity_le (messageNR : ℕ) (t : Mailbox M) :
    t.capacity messageNR ≤ t.fetched + messageNR :=
  Nat.add_le_add_right (Nat.div_mul_le_self _ _) _

/-- The message that is fetched. -/
theorem Follows.pool_cur (h : Follows messageNR s t) {waiting : List Completion}
    (hwaiting : t.waiting = .recv :: waiting) :
    s.messagePool s.curMessage = t.accepted[t.fetched]? := by
  have hbacklog := h.backlog
  rw [hwaiting, List.count_cons_self] at hbacklog
  rw [h.cur]
  exact h.pool _ (by omega) (h.fits.trans (capacity_le messageNR t))

/-- The place behind the last message that is fetched. -/
theorem addRound_mod (f n : ℕ) : addRound (f % n) n = (f + 1) % n := Nat.mod_add_mod f n 1

/-- The requests that are posted with the last message of a batch. -/
theorem range'_capacity (hNR : messageNR % kBatchCount = 0) {f a : ℕ}
    (hdvd : subNR messageNR ∣ f + 1)
    (ha : a ≤ f / subNR messageNR * subNR messageNR + messageNR) :
    (List.range' a (f / subNR messageNR * subNR messageNR + messageNR - a)).map (· % messageNR) ++
      recvs messageNR (((f + 1) % messageNR / subNR messageNR + (kBatchCount - 1)) % kBatchCount) =
    (List.range' a ((f + 1) / subNR messageNR * subNR messageNR + messageNR - a)).map
      (· % messageNR) := by
  have hbatch : ((f + 1) % messageNR / subNR messageNR + (kBatchCount - 1)) % kBatchCount =
      f / subNR messageNR % kBatchCount := by
    have hturn : ∀ sub, messageNR = kBatchCount * sub →
        (f + 1) % messageNR / sub = (f + 1) / sub % kBatchCount := fun sub h => by
      rw [h, Nat.mod_mul_left_div_self]
    rw [hturn _ (messageNR_eq hNR), Nat.succ_div_of_dvd hdvd, kBatchCount]
    omega
  rw [hbatch, recvs_mod hNR, Nat.succ_div_of_dvd hdvd, Nat.succ_mul]
  generalize f / subNR messageNR * subNR messageNR = base at ha ⊢
  generalize subNR messageNR = sub
  have hsplit : base + sub + messageNR - a = base + messageNR - a + sub := by omega
  have hturn : (List.range' (base + messageNR) sub).map (· % messageNR) =
      (List.range' base sub).map (· % messageNR) := by
    rw [List.range'_eq_map_range, List.range'_eq_map_range, List.map_map, List.map_map]
    refine List.map_congr_left fun i _ => ?_
    rw [Function.comp_apply, Function.comp_apply, Nat.add_right_comm, Nat.add_mod_right]
  rw [hsplit, ← List.range'_append_1, List.map_append, Nat.add_sub_of_le ha, hturn]

/-- A message that is fetched. -/
theorem Follows.fetch (hNR : messageNR % kBatchCount = 0) (h : Follows messageNR s t)
    {waiting : List Completion} (hwaiting : t.waiting = .recv :: waiting)
    (hlt : s.wcCur < s.wc.length) :
    Follows messageNR (getMessage messageNR { s with wcCur := s.wcCur + 1 }).2
      { t with fetched := t.fetched + 1, waiting := waiting } := by
  have hbacklog := h.backlog
  rw [hwaiting, List.count_cons_self] at hbacklog
  have hcur : addRound s.curMessage messageNR = (t.fetched + 1) % messageNR := by
    rw [h.cur, addRound_mod]
  have hmono : t.capacity messageNR ≤
      (t.fetched + 1) / subNR messageNR * subNR messageNR + messageNR :=
    Nat.add_le_add_right (Nat.mul_le_mul_right _ (Nat.div_le_div_right (Nat.le_succ _))) _
  refine ⟨hcur, h.take hlt hwaiting, ?_, h.fits.trans hmono, ?_, h.pool⟩
  · show t.fetched + 1 + waiting.count .recv = t.accepted.length
    omega
  · show (if addRound s.curMessage messageNR % subNR messageNR = 0 then _ else s.posted) =
      (List.range' t.accepted.length ((t.fetched + 1) / subNR messageNR * subNR messageNR +
        messageNR - t.accepted.length)).map (· % messageNR)
    rw [hcur, Nat.mod_mod_of_dvd _ (subNR_dvd hNR)]
    split_ifs with hend
    · rw [← range'_capacity hNR (Nat.dvd_of_mod_eq_zero hend) h.fits]
      exact congrArg (· ++ _) h.posted
    · have hnot : ¬ subNR messageNR ∣ t.fetched + 1 := fun hd => hend (Nat.mod_eq_zero_of_dvd hd)
      rw [Nat.succ_div_of_not_dvd hnot]
      exact h.posted

theorem rpcFastWait_none (h : Follows messageNR s t) (hwaiting : t.waiting = []) (polled : ℕ) :
    rpcFastWait messageNR polled s = none := by
  have hnext := h.next_completion polled
  rw [hwaiting, List.head?_nil] at hnext
  simp only [rpcFastWait, hnext]

theorem rpcFastWait_recv (h : Follows messageNR s t) {waiting : List Completion}
    (hwaiting : t.waiting = .recv :: waiting) (polled : ℕ) :
    rpcFastWait messageNR polled s =
      some ((getMessage messageNR { poll polled s with wcCur := (poll polled s).wcCur + 1 }).2,
        .message t.accepted[t.fetched]?) := by
  have hnext := h.next_completion polled
  rw [hwaiting, List.head?_cons] at hnext
  simp only [rpcFastWait, hnext]
  exact congrArg (fun m => some (_, RecvResult.message m)) ((h.poll polled).pool_cur hwaiting)

theorem rpcFastWait_other (h : Follows messageNR s t) {wrID : ℕ} {waiting : List Completion}
    (hwaiting : t.waiting = .other wrID :: waiting) (polled : ℕ) :
    rpcFastWait messageNR polled s =
      some ({ poll polled s with wcCur := (poll polled s).wcCur + 1 }, .wrID wrID) := by
  have hnext := h.next_completion polled
  rw [hwaiting, List.head?_cons] at hnext
  simp only [rpcFastWait, hnext]

/-- **The ring does what the mailbox does.** -/
theorem follows_step (M : Type) (hNR : messageNR % kBatchCount = 0) :
    Simulate.Simulates (recvStep messageNR) (Mailbox.step messageNR (M := M))
      (Follows messageNR) := by
  refine Simulate.simulates_of_step fun s t a h => ?_
  cases a with
  | arrive m =>
    by_cases hroom : t.accepted.length < t.capacity messageNR
    · exact Or.inr ⟨_, _, _, rfl, if_pos hroom, h.accept m hroom⟩
    · refine Or.inr ⟨_, _, _, rfl, if_neg hroom, ?_⟩
      rw [h.lose m hroom]
      exact h
  | complete wrID =>
    refine Or.inr ⟨_, _, _, rfl, rfl, h.cur, ?_, ?_, h.fits, h.posted, h.pool⟩
    · rw [← h.completions, List.append_assoc]
    · rw [List.count_append]
      exact h.backlog
  | wait polled =>
    have hp := h.poll polled
    rcases hwaiting : t.waiting with _ | ⟨c, waiting⟩
    · refine Or.inl ⟨rpcFastWait_none h hwaiting polled, ?_⟩
      simp only [Mailbox.step, hwaiting]
    have hlt : (poll polled s).wcCur < (poll polled s).wc.length := by
      have hnext := h.next_completion polled
      rw [hwaiting, List.head?_cons] at hnext
      exact (List.getElem?_eq_some_iff.mp hnext).1
    cases c with
    | recv =>
      refine Or.inr ⟨_, _, _, rpcFastWait_recv h hwaiting polled, ?_, hp.fetch hNR hwaiting hlt⟩
      simp only [Mailbox.step, hwaiting]
    | other wrID =>
      refine Or.inr ⟨_, { t with waiting := waiting }, _, rpcFastWait_other h hwaiting polled, ?_,
        hp.cur, hp.take hlt hwaiting, ?_, h.fits, hp.posted, hp.pool⟩
      · simp only [Mailbox.step, hwaiting]
      · have hbacklog := h.backlog
        rw [hwaiting] at hbacklog
        exact hbacklog

end Steps

/-! ### Runs -/

section Runs

variable {M : Type} {messageNR : ℕ}

/-- The messages that are returned. -/
def returned (results : List (RecvResult M)) : List (Option M) :=
  results.filterMap fun
    | .message m => some m
    | _ => none

/-- The completions are those of the messages that were not fetched. -/
def Mailbox.Balanced (t : Mailbox M) : Prop :=
  t.fetched + t.waiting.count .recv = t.accepted.length

theorem Mailbox.balanced_empty : (Mailbox.empty : Mailbox M).Balanced := rfl

/-- A step of the mailbox: what is accepted and what is returned. -/
theorem Mailbox.step_spec {t t' : Mailbox M} {e : RecvEvent M} {r : RecvResult M}
    (ht : t.Balanced) (h : t.step messageNR e = some (t', r)) :
    t'.Balanced ∧ t'.accepted = t.accepted ++ t.accepts messageNR e ∧
      returned [r] = ((t'.accepted.take t'.fetched).drop t.fetched).map some ∧
      t.fetched ≤ t'.fetched := by
  have hnone : ∀ l : List M, ((l.take t.fetched).drop t.fetched).map some = [] := fun l => by
    rw [List.drop_eq_nil_of_le (List.length_take_le _ _), List.map_nil]
  rw [Balanced] at ht
  cases e with
  | arrive m =>
    rw [Mailbox.step] at h
    rw [Mailbox.accepts]
    split_ifs at h with hroom
    · cases h
      rw [if_pos hroom]
      refine ⟨?_, rfl, (hnone _).symm, le_rfl⟩
      simp only [Balanced, List.count_append, List.count_singleton_self, List.length_append,
        List.length_singleton]
      omega
    · cases h
      rw [if_neg hroom]
      exact ⟨ht, (List.append_nil _).symm, (hnone _).symm, le_rfl⟩
  | complete wrID =>
    cases h
    refine ⟨?_, (List.append_nil _).symm, (hnone _).symm, le_rfl⟩
    rw [Balanced, List.count_append]
    exact ht
  | wait polled =>
    rw [Mailbox.step] at h
    rcases hwaiting : t.waiting with _ | ⟨_ | wrID, waiting⟩
    · simp only [hwaiting] at h
      cases h
    · simp only [hwaiting] at h
      cases h
      rw [hwaiting, List.count_cons_self] at ht
      have hlt : t.fetched < t.accepted.length := by omega
      refine ⟨?_, (List.append_nil _).symm, ?_, Nat.le_succ _⟩
      · show t.fetched + 1 + waiting.count .recv = t.accepted.length
        omega
      · rw [List.getElem?_eq_getElem hlt, List.take_add_one, List.getElem?_eq_getElem hlt,
          List.drop_left' (List.length_take_of_le hlt.le)]
        rfl
    · simp only [hwaiting] at h
      cases h
      rw [hwaiting] at ht
      exact ⟨ht, (List.append_nil _).symm, (hnone _).symm, le_rfl⟩

/-- A run of the mailbox. -/
theorem Mailbox.exec_spec {t t' : Mailbox M} {events : List (RecvEvent M)}
    {results : List (RecvResult M)} (ht : t.Balanced)
    (h : Simulate.exec (Mailbox.step messageNR) t events = some (t', results)) :
    t'.Balanced ∧ t'.accepted = t.accepted ++
        Simulate.observe (Mailbox.step messageNR) (Mailbox.accepts messageNR) t events ∧
      returned results = ((t'.accepted.take t'.fetched).drop t.fetched).map some ∧
      t.fetched ≤ t'.fetched := by
  induction events generalizing t results with
  | nil =>
    cases h
    refine ⟨ht, (List.append_nil _).symm, ?_, le_rfl⟩
    rw [List.drop_eq_nil_of_le (List.length_take_le _ _)]
    rfl
  | cons e events ih =>
    obtain ⟨t₁, r, rs, hstep, hrest, rfl⟩ := Simulate.exec_cons.mp h
    obtain ⟨ht₁, hnew₁, hret₁, hle₁⟩ := step_spec ht hstep
    obtain ⟨ht', hnew₂, hret₂, hle₂⟩ := ih ht₁ hrest
    refine ⟨ht', ?_, ?_, hle₁.trans hle₂⟩
    · rw [Simulate.observe, hstep, hnew₂, hnew₁, List.append_assoc]
      rfl
    · have happ : returned (r :: rs) = returned [r] ++ returned rs := by
        rw [returned, returned, returned, ← List.filterMap_append]
        rfl
      -- what the first step returns is accepted already
      have hfetched : t₁.fetched ≤ t₁.accepted.length := ht₁ ▸ Nat.le_add_right _ _
      have hfirst : t₁.accepted.take t₁.fetched =
          (t'.accepted.take t'.fetched).take t₁.fetched := by
        rw [List.take_take, min_eq_left hle₂, hnew₂, List.take_append_of_le_length hfetched]
      have hlength : ((t'.accepted.take t'.fetched).take t₁.fetched).length = t₁.fetched := by
        rw [← hfirst, List.length_take_of_le hfetched]
      rw [happ, hret₁, hret₂, ← List.map_append, hfirst]
      refine congrArg (List.map some) ?_
      conv_rhs => rw [← List.take_append_drop t₁.fetched (t'.accepted.take t'.fetched)]
      rw [List.drop_append_of_le_length (hle₁.trans_eq hlength.symm)]

/-- One wait for each completion. -/
theorem Mailbox.exec_waits (messageNR : ℕ) {t : Mailbox M} {polls : List ℕ}
    (hlen : polls.length = t.waiting.length) : ∃ t' results,
      Simulate.exec (Mailbox.step messageNR) t (polls.map .wait) = some (t', results) ∧
        t'.waiting = [] ∧ t'.accepted = t.accepted := by
  induction polls generalizing t with
  | nil => exact ⟨t, [], rfl, List.eq_nil_of_length_eq_zero hlen.symm, rfl⟩
  | cons polled polls ih =>
    rcases hwaiting : t.waiting with _ | ⟨c, waiting⟩
    · rw [hwaiting] at hlen
      cases hlen
    rw [hwaiting, List.length_cons, List.length_cons, Nat.succ_inj] at hlen
    obtain ⟨t₁, r, hstep, hrest, hsame⟩ : ∃ t₁ r,
        t.step messageNR (.wait polled) = some (t₁, r) ∧ t₁.waiting = waiting ∧
          t₁.accepted = t.accepted := by
      cases c with
      | recv | other =>
        simp only [Mailbox.step, hwaiting]
        exact ⟨_, _, rfl, rfl, rfl⟩
    obtain ⟨t', results, hexec, hnil, hacc⟩ := ih (hrest ▸ hlen)
    exact ⟨t', r :: results, Simulate.exec_cons.mpr ⟨t₁, r, results, hstep, hexec, rfl⟩, hnil,
      hacc.trans hsame⟩

theorem Follows.posted_eq_nil_iff {s : RecvRing M} {t : Mailbox M} (h : Follows messageNR s t) :
    s.posted = [] ↔ t.accepted.length = t.capacity messageNR := by
  have hfits := h.fits
  rw [h.posted, List.map_eq_nil_iff, List.range'_eq_nil_iff]
  omega

/-- The ring accepts what the mailbox accepts. -/
theorem Follows.accepts_eq {s : RecvRing M} {t : Mailbox M} (h : Follows messageNR s t)
    (e : RecvEvent M) : s.accepts e = t.accepts messageNR e := by
  cases e with
  | arrive m =>
    have hfits := h.fits
    have hfull := h.posted_eq_nil_iff
    by_cases hroom : t.accepted.length < t.capacity messageNR
    · exact (if_neg fun hnil => hroom.ne (hfull.mp hnil)).trans (if_pos hroom).symm
    · exact (if_pos (hfull.mpr (by omega))).trans (if_neg hroom).symm
  | complete | wait => rfl

/-- **The ring and the mailbox cannot be told apart** by the thread that waits: it gets the same,
and where it waits for ever it does so in both. -/
theorem ring_results (hNR : messageNR % kBatchCount = 0) (events : List (RecvEvent M)) :
    (Simulate.exec (recvStep messageNR) (initRecv messageNR) events).map Prod.snd =
      (Simulate.exec (Mailbox.step messageNR) Mailbox.empty events).map Prod.snd :=
  (follows_step M hNR).outputs_eq (follows_init hNR) events

/-- The ring and the mailbox after the same events. -/
theorem exists_mailbox (hNR : messageNR % kBatchCount = 0) {events : List (RecvEvent M)}
    {results : List (RecvResult M)} {s : RecvRing M}
    (h : Simulate.exec (recvStep messageNR) (initRecv messageNR) events = some (s, results)) :
    ∃ t : Mailbox M, Follows messageNR s t ∧ t.Balanced ∧
      t.accepted = acceptedSince messageNR events ∧
      returned results = (t.accepted.take t.fetched).map some := by
  obtain ⟨t, ht, hfollows⟩ := (follows_step M hNR).exec (follows_init hNR) h
  obtain ⟨hbalanced, haccepted, hreturned, -⟩ := Mailbox.exec_spec Mailbox.balanced_empty ht
  refine ⟨t, hfollows, hbalanced, haccepted.trans ?_, hreturned⟩
  exact ((follows_step M hNR).observe_eq (fun _ _ e hR => hR.accepts_eq e)
    (follows_init hNR) events).symm

/-- **The messages are returned in the order of their arrival**, in every order in which messages
arrive, requests complete and the thread waits. The messages that have found a request are those
that `rpc_fast_wait` has returned, and behind them those that wait, for each of which there is a
completion. At most `messageNR` wait, and unless more than three quarters of the ring do, there is
a request for the next message. A thread that goes on to wait, once for each completion, gets all
of them. -/
theorem ring_fifo (hNR : messageNR % kBatchCount = 0) (hpos : 0 < messageNR)
    {events : List (RecvEvent M)} {results : List (RecvResult M)} {s : RecvRing M}
    (h : Simulate.exec (recvStep messageNR) (initRecv messageNR) events = some (s, results)) :
    ∃ waiting : List M,
      (acceptedSince messageNR events).map some = returned results ++ waiting.map some ∧
      waiting.length = s.unseen.count .recv ∧ waiting.length ≤ messageNR ∧
      (s.posted = [] → messageNR - subNR messageNR < waiting.length) ∧
      ∀ polls : List ℕ, polls.length = s.unseen.length → ∃ s' results',
        Simulate.exec (recvStep messageNR) s (polls.map .wait) = some (s', results') ∧
          returned results' = waiting.map some := by
  obtain ⟨t, hfollows, hbalanced, haccepted, hreturned⟩ := exists_mailbox hNR h
  have hunseen : s.unseen = t.waiting := hfollows.completions
  have hbacklog := hfollows.backlog
  have hlength : (t.accepted.drop t.fetched).length = s.unseen.count .recv := by
    rw [List.length_drop, hunseen]
    omega
  have hle := Nat.le_of_dvd hpos (subNR_dvd hNR)
  have hlt := Nat.mod_lt t.fetched (subNR_pos hNR hpos)
  have hmod := Nat.div_add_mod' t.fetched (subNR messageNR)
  refine ⟨t.accepted.drop t.fetched, ?_, hlength, ?_, fun hposted => ?_, fun polls hpolls => ?_⟩
  · rw [← haccepted, hreturned, ← List.map_append, List.take_append_drop]
  · have hfits := hfollows.fits
    rw [Mailbox.capacity] at hfits
    rw [List.length_drop]
    omega
  · have hcap := hfollows.posted_eq_nil_iff.mp hposted
    rw [Mailbox.capacity] at hcap
    rw [List.length_drop]
    omega
  · rw [hunseen] at hpolls
    obtain ⟨t', results', hexec, hnil, hsame⟩ := Mailbox.exec_waits messageNR hpolls
    obtain ⟨hbalanced', -, hreturned', -⟩ := Mailbox.exec_spec hbalanced hexec
    have houtputs := (follows_step M hNR).outputs_eq hfollows (polls.map .wait)
    rw [hexec] at houtputs
    obtain ⟨⟨s', results''⟩, hring, rfl⟩ := Option.map_eq_some_iff.mp houtputs
    refine ⟨s', _, hring, hreturned'.trans ?_⟩
    have hall : t'.fetched = t'.accepted.length := by
      rw [Mailbox.Balanced, hnil] at hbalanced'
      exact hbalanced'
    rw [hall, List.take_length, hsame]

/-- Two messages in a ring of four slots, of which one has been fetched. -/
theorem ring_fifo_two : ∃ (s : RecvRing ℕ) (results : List (RecvResult ℕ)) (waiting : List ℕ),
    Simulate.exec (recvStep 4) (initRecv 4) [.arrive 7, .arrive 8, .wait 0] = some (s, results) ∧
      acceptedSince 4 [.arrive 7, .arrive 8, .wait 0] = [7, 8] ∧
      [some 7, some 8] = returned results ++ waiting.map some ∧ waiting.length = 1 := by
  have hrun : Simulate.exec (recvStep 4) (initRecv 4)
      [.arrive 7, .arrive 8, .wait 0] = some (_, _) := rfl
  obtain ⟨waiting, hall, hlength, -⟩ := ring_fifo (by decide) (by decide) hrun
  exact ⟨_, _, waiting, hrun, rfl, hall, hlength⟩

/-- The slot that was returned last. -/
def heldSlot (messageNR : ℕ) (s : RecvRing M) : ℕ :=
  (s.curMessage + (messageNR - 1)) % messageNR

/-- **How long a message is intact.** The message that was returned last is still in its slot,
unless it was the last of its batch and every slot of the ring has been filled since. Then its slot
has the message that was accepted last. -/
theorem held_message (hNR : messageNR % kBatchCount = 0) (hpos : 0 < messageNR)
    {events : List (RecvEvent M)} {results : List (RecvResult M)} {s : RecvRing M}
    (h : Simulate.exec (recvStep messageNR) (initRecv messageNR) events = some (s, results))
    {m : Option M} (hm : (returned results).getLast? = some m) :
    s.messagePool (heldSlot messageNR s) =
      if s.posted = [] ∧ s.curMessage % subNR messageNR = 0 then
        (acceptedSince messageNR events).getLast?
      else m := by
  obtain ⟨t, hfollows, hbalanced, haccepted, hreturned⟩ := exists_mailbox hNR h
  have hfetched : t.fetched ≤ t.accepted.length := hbalanced ▸ Nat.le_add_right _ _
  obtain ⟨f, hf⟩ : ∃ f, t.fetched = f + 1 := by
    refine Nat.exists_eq_succ_of_ne_zero fun h0 => ?_
    rw [hreturned, h0] at hm
    cases hm
  have hlast : m = t.accepted[f]? := by
    rw [hreturned, List.getLast?_map, List.getLast?_take, if_neg (by omega), hf,
      Nat.add_sub_cancel, List.getElem?_eq_getElem (show f < t.accepted.length by omega)] at hm
    rw [List.getElem?_eq_getElem (show f < t.accepted.length by omega)]
    exact (Option.some.inj hm).symm
  have hslot : heldSlot messageNR s = f % messageNR := by
    rw [heldSlot, hfollows.cur, Nat.mod_add_mod, hf,
      show f + 1 + (messageNR - 1) = f + messageNR by omega, Nat.add_mod_right]
  have hfits := hfollows.fits
  have hmod := Nat.div_add_mod' t.fetched (subNR messageNR)
  have hcur : s.curMessage % subNR messageNR = t.fetched % subNR messageNR := by
    rw [hfollows.cur, Nat.mod_mod_of_dvd _ (subNR_dvd hNR)]
  have hfull := hfollows.posted_eq_nil_iff
  rw [Mailbox.capacity] at hfits hfull
  rw [hslot, hcur, ← haccepted]
  split_ifs with hend
  · -- the slot was posted again, and its request was the last one
    have hlength := hfull.mp hend.1
    replace hlength : t.accepted.length = f + messageNR + 1 := by omega
    have hpool := hfollows.pool (f + messageNR) (by omega) (by omega)
    rw [Nat.add_mod_right] at hpool
    rw [hpool, List.getLast?_eq_getElem?, hlength, Nat.add_sub_cancel]
  · rw [hfull] at hend
    rw [hlast]
    exact hfollows.pool f (by omega) (by omega)

/-- The next message does not overwrite the one that was returned. -/
theorem held_message_intact : ∃ s results, Simulate.exec (recvStep 4) (initRecv 4)
    [.arrive 7, .wait 0, .arrive 8] = some (s, results) ∧
    s.messagePool (heldSlot 4 s) = some 7 := by
  have hrun : Simulate.exec (recvStep 4) (initRecv 4)
      [.arrive 7, .wait 0, .arrive 8] = some (_, _) := rfl
  exact ⟨_, _, hrun, (held_message (by decide) (by decide) hrun (m := some 7) rfl).trans rfl⟩

/-- Four more messages, while the one that was returned is in use, are one too many. -/
example : (Simulate.exec (recvStep 4) (initRecv 4)
    [.arrive 7, .wait 0, .arrive 8, .arrive 9, .arrive 10, .arrive 11]).map
      (fun r => r.1.messagePool (heldSlot 4 r.1)) = some (some 11) := rfl

end Runs

end Mayfly

end PetPS
