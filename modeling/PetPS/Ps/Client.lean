import Mathlib.Algebra.Order.Ring.Nat
import Mathlib.Logic.Function.Basic
import PetPS.Basic
import PetPS.Lib.Bytes

/-!
# The client: when a reply is complete

`WqRPCParameterClient` of `petps_client.cc`. The server writes the reply into the receive
buffer with RDMA and tells nobody. So before it sends a request the client stores `FINISH_MAGIC`
into the last word of the place where the reply will be, and takes the reply for complete as soon as
that word has another value.

Two requests are never complete. The sentinel is an ordinary word of the payload, so a reply
that ends with it looks as if its last word had not arrived. And an empty request has no last word:
the word in front of the buffer is taken for it, which the reply does not touch.

Addresses are those of the client's memory. The size of a reply is a natural number; in the code
it is an `int`, which is as good for a receive buffer, since buffers come from a region of 1000 MB.

## Main results

* `queryRPCFinished_receive` — what the client sees of a reply of which some words have arrived
* `reply_detected_iff` — the replies whose completion is detected
-/

namespace PetPS

/-- `FINISH_MAGIC`. -/
def finishMagic : ℕ := 123456789

/-- A `GET` message to thread `threadId` of the server of a shard. -/
structure GetMessage where
  shard : ℕ
  threadId : ℕ
  /-- Where the reply goes. -/
  receiveGaddr : ℕ
  keys : List UInt64

/-- `WqRPCParameterClient`. -/
structure WqRPCParameterClient where
  shard : ℕ
  /-- The client's memory. -/
  memory : Bytes.Mem
  rpcIDAcc : ℕ
  serverThreadIdsRoutedTo : List ℕ
  /-- The static variable of `SelectServerThreadID`. -/
  roundRobin : ℕ
  /-- `rpcId2PollMap_`, the address of the last word of each reply. -/
  rpcId2PollMap : ℕ → Option ℕ
  /-- The messages sent. -/
  sent : List GetMessage

namespace WqRPCParameterClient

/-- `SelectServerThreadID`. -/
def selectServerThreadID (c : WqRPCParameterClient) : ℕ × WqRPCParameterClient :=
  (c.serverThreadIdsRoutedTo.getD c.roundRobin 0,
    { c with roundRobin := (c.roundRobin + 1) % c.serverThreadIdsRoutedTo.length })

/-- `GetReceiveBuffer`: the address of the buffer, and `client_memory_offset_acc` after it. -/
def getReceiveBuffer (baseAddr offsetAcc size : ℕ) : ℕ × ℕ :=
  (offsetAcc + baseAddr, offsetAcc + size)

/-- `(char *)values + keys.Size() * FLAGS_value_size - sizeof(int)`, on 64-bit addresses. -/
def pollAddr (valueSize values : ℕ) (keys : List UInt64) : ℕ :=
  (values + keys.length * valueSize + (2 ^ 64 - 4)) % 2 ^ 64

/-- `GetParameter(keys, values, true)`: the client that has sent the request, and the rpc id. -/
def getParameter (c : WqRPCParameterClient) (valueSize : ℕ) (keys : List UInt64) (values : ℕ) :
    WqRPCParameterClient × ℤ :=
  let poll := pollAddr valueSize values keys
  let (threadId, c) := c.selectServerThreadID
  ({ c with
      memory := Bytes.store c.memory poll (Bytes.encode32 finishMagic)
      rpcIDAcc := c.rpcIDAcc + 1
      rpcId2PollMap := Function.update c.rpcId2PollMap c.rpcIDAcc (some poll)
      sent := c.sent ++ [⟨c.shard, threadId, values, keys⟩] },
    toInt32 c.rpcIDAcc)

/-- `QueryRPCFinished`. An unknown id yields a null pointer, which is followed. -/
def queryRPCFinished (c : WqRPCParameterClient) (rpcId : ℤ) : Option Bool :=
  (c.rpcId2PollMap (toUInt64 rpcId)).map fun poll =>
    Bytes.decode (Bytes.load c.memory poll 4) != finishMagic

/-- `WaitRPCFinish`: the turn in which the loop ends. In turn `i` it finds the client as
`observed i` says. -/
def waitRPCFinish (observed : ℕ → WqRPCParameterClient) (rpcId : ℤ) : ℕ → ℕ → Option ℕ
  | 0, _ => none
  | fuel + 1, i =>
    match (observed i).queryRPCFinished rpcId with
    | none => none
    | some true => some i
    | some false => waitRPCFinish observed rpcId fuel (i + 1)

/-- The client when the first `words` words of the reply have arrived. -/
def receive (c : WqRPCParameterClient) (values : ℕ) (reply : List UInt8) (words : ℕ) :
    WqRPCParameterClient :=
  { c with memory := Bytes.store c.memory values (reply.take (4 * words)) }

/-- The last word of a reply. -/
def lastWord (reply : List UInt8) : ℕ := Bytes.decode (reply.drop (reply.length - 4))

/-! ### What the client sees -/

section Request

variable {c : WqRPCParameterClient} {valueSize values words : ℕ} {keys : List UInt64}
  {reply : List UInt8}

/-- The query of a request just made reads the word at its `pollAddr`. -/
theorem queryRPCFinished_getParameter (hid : c.rpcIDAcc < 2 ^ 31) :
    ((c.getParameter valueSize keys values).1.receive values reply words).queryRPCFinished
        (c.getParameter valueSize keys values).2
      = some (Bytes.decode (Bytes.load (Bytes.store (Bytes.store c.memory
          (pollAddr valueSize values keys) (Bytes.encode32 finishMagic)) values
            (reply.take (4 * words))) (pollAddr valueSize values keys) 4) != finishMagic) := by
  simp only [queryRPCFinished, getParameter, selectServerThreadID, receive, toUInt64_toInt32 hid,
    Function.update_self, Option.map_some]

/-- Where the sentinel is, for a request that is not empty. -/
theorem pollAddr_eq (hsize : 4 ≤ keys.length * valueSize)
    (hbuf : values + keys.length * valueSize ≤ 2 ^ 64) :
    pollAddr valueSize values keys = values + (keys.length * valueSize - 4) := by
  rw [pollAddr, show values + keys.length * valueSize + (2 ^ 64 - 4)
    = values + (keys.length * valueSize - 4) + 2 ^ 64 by omega, Nat.add_mod_right,
    Nat.mod_eq_of_lt (by omega)]

/-- **What the client sees** of a reply of which some words have arrived: nothing before the last
word, and then the last word. -/
theorem queryRPCFinished_receive (hid : c.rpcIDAcc < 2 ^ 31)
    (hbuf : values + keys.length * valueSize ≤ 2 ^ 64)
    (hlen : reply.length = keys.length * valueSize) (hsize : 4 ≤ reply.length)
    (hfour : 4 ∣ reply.length) (hwords : words ≤ reply.length / 4) :
    ((c.getParameter valueSize keys values).1.receive values reply words).queryRPCFinished
        (c.getParameter valueSize keys values).2
      = some (words == reply.length / 4 && lastWord reply != finishMagic) := by
  rw [queryRPCFinished_getParameter hid, pollAddr_eq (hlen ▸ hsize) hbuf, ← hlen]
  rcases Nat.lt_or_eq_of_le hwords with hlt | rfl
  · -- the sentinel is behind what has arrived
    have hfar : values + (reply.take (4 * words)).length ≤ values + (reply.length - 4) := by
      rw [List.length_take]
      omega
    rw [Bytes.load_store_of_disjoint (Or.inr hfar), Bytes.decode_load_encode32 (by decide),
      beq_false_of_ne hlt.ne, bne_self_eq_false]
    rfl
  · have htake : reply.take (4 * (reply.length / 4)) = reply := by
      rw [Nat.mul_div_cancel' hfour, List.take_length]
    have hend := Bytes.load_store_drop (m := Bytes.store c.memory (values + (reply.length - 4))
      (Bytes.encode32 finishMagic)) (a := values) (Nat.sub_le reply.length 4)
    rw [Nat.sub_sub_self hsize] at hend
    rw [htake, hend, BEq.rfl, Bool.true_and, lastWord]

/-- Of an empty request the client sees the sentinel for ever. -/
theorem queryRPCFinished_of_nil (hid : c.rpcIDAcc < 2 ^ 31) :
    ((c.getParameter valueSize [] values).1.receive values [] words).queryRPCFinished
        (c.getParameter valueSize [] values).2 = some false := by
  rw [queryRPCFinished_getParameter hid, List.take_nil, Bytes.store_nil,
    Bytes.decode_load_encode32 (by decide), bne_self_eq_false]

end Request

/-! ### Waiting -/

/-- The loop ends in the first turn in which the query answers `true`. -/
theorem exists_waitRPCFinish {observed : ℕ → WqRPCParameterClient} {rpcId : ℤ} (done : ℕ → Bool)
    (hquery : ∀ i, (observed i).queryRPCFinished rpcId = some (done i)) :
    ∀ d i, done (i + d) = true →
      ∃ fuel j, waitRPCFinish observed rpcId fuel i = some j ∧ done j = true := by
  intro d
  induction d with
  | zero =>
    intro i hi
    refine ⟨1, i, ?_, hi⟩
    rw [waitRPCFinish, hquery, show done i = true from hi]
  | succ d ih =>
    intro i hi
    cases hnow : done i with
    | true =>
      refine ⟨1, i, ?_, hnow⟩
      rw [waitRPCFinish, hquery, hnow]
    | false =>
      obtain ⟨fuel, j, hwait, hj⟩ := ih (i + 1) (by rwa [Nat.add_right_comm, Nat.add_assoc])
      refine ⟨fuel + 1, j, ?_, hj⟩
      rw [waitRPCFinish, hquery, hnow]
      exact hwait

/-- **Completion is detected**: queries answer `true` exactly when the whole reply has arrived, and
the waiting loop ends when it has, whatever has arrived in each turn. -/
structure Detects (c : WqRPCParameterClient) (rpcId : ℤ) (values : ℕ)
    (reply : List UInt8) : Prop where
  query : ∀ words ≤ reply.length / 4,
    (c.receive values reply words).queryRPCFinished rpcId = some (words == reply.length / 4)
  wait : ∀ arrived : ℕ → ℕ, (∀ i, arrived i ≤ reply.length / 4) →
    (∃ i, arrived i = reply.length / 4) →
      ∃ fuel i, waitRPCFinish (fun i => c.receive values reply (arrived i)) rpcId fuel 0 = some i ∧
        arrived i = reply.length / 4

theorem detects_of_query {c : WqRPCParameterClient} {rpcId : ℤ} {values : ℕ} {reply : List UInt8}
    (h : ∀ words ≤ reply.length / 4,
      (c.receive values reply words).queryRPCFinished rpcId = some (words == reply.length / 4)) :
    Detects c rpcId values reply := by
  refine ⟨h, fun arrived hle ⟨n, hn⟩ => ?_⟩
  obtain ⟨fuel, j, hwait, hj⟩ := exists_waitRPCFinish (fun i => arrived i == reply.length / 4)
    (fun i => h (arrived i) (hle i)) n 0 (by rw [Nat.zero_add]; exact beq_iff_eq.mpr hn)
  exact ⟨fuel, j, hwait, beq_iff_eq.mp hj⟩

/-- **The replies whose completion is detected** are those of the requests that are not empty,
and that do not end with `FINISH_MAGIC`. -/
theorem reply_detected_iff {c : WqRPCParameterClient} {valueSize values : ℕ} {keys : List UInt64}
    {reply : List UInt8} (hid : c.rpcIDAcc < 2 ^ 31) (hpos : 0 < valueSize) (hfour : 4 ∣ valueSize)
    (hbuf : values + keys.length * valueSize ≤ 2 ^ 64)
    (hlen : reply.length = keys.length * valueSize) :
    Detects (c.getParameter valueSize keys values).1 (c.getParameter valueSize keys values).2 values
        reply ↔
      keys ≠ [] ∧ lastWord reply ≠ finishMagic := by
  cases keys with
  | nil =>
    obtain rfl : reply = [] := List.length_eq_zero_iff.mp (by rw [hlen]; exact Nat.zero_mul _)
    refine iff_of_false (fun h => ?_) (fun h => h.1 rfl)
    have := h.query 0 le_rfl
    rw [queryRPCFinished_of_nil hid] at this
    cases this
  | cons key keys =>
    have hfour' : 4 ∣ reply.length := hlen ▸ Dvd.dvd.mul_left hfour _
    have hsize : 4 ≤ reply.length := by
      refine Nat.le_of_dvd ?_ hfour'
      rw [hlen, List.length_cons]
      exact Nat.mul_pos (Nat.succ_pos _) hpos
    constructor
    · intro h
      refine ⟨List.cons_ne_nil _ _, fun hlast => ?_⟩
      have hall := h.query _ le_rfl
      rw [queryRPCFinished_receive hid hbuf hlen hsize hfour' le_rfl, hlast, BEq.rfl,
        bne_self_eq_false] at hall
      cases hall
    · rintro ⟨-, hlast⟩
      refine detects_of_query fun words hwords => ?_
      rw [queryRPCFinished_receive hid hbuf hlen hsize hfour' hwords, bne_iff_ne.mpr hlast,
        Bool.and_true]

/-- A client that has made no request. -/
def fresh : WqRPCParameterClient := ⟨0, fun _ => 0, 0, [0, 1], 0, fun _ => none, []⟩

/-- The reply of two words that ends with `1`. -/
theorem reply_detected_two_words :
    ((fresh.getParameter 8 [7] 4096).1.receive 4096 [0, 0, 0, 0, 1, 0, 0, 0] 2).queryRPCFinished
      (fresh.getParameter 8 [7] 4096).2 = some true :=
  ((reply_detected_iff (by decide) (by decide) (by decide) (by decide) rfl).mpr
    ⟨List.cons_ne_nil 7 [], by decide⟩).query 2 le_rfl

/-- The complete reply that consists of `FINISH_MAGIC`, and the reply to no keys. -/
theorem reply_not_detected :
    ((fresh.getParameter 4 [7] 4096).1.receive 4096 (Bytes.encode32 finishMagic) 1).queryRPCFinished
        (fresh.getParameter 4 [7] 4096).2 = some false ∧
      ((fresh.getParameter 4 [] 4096).1.receive 4096 [] 0).queryRPCFinished
        (fresh.getParameter 4 [] 4096).2 = some false := by
  decide

end WqRPCParameterClient

end PetPS
