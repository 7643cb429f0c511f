import PetPS.Ps.LoadDB
import PetPS.Ps.RecvBuffers
import PetPS.Ps.Reply
import PetPS.Ps.Shards

/-!
# A fetch from the servers

A batch from `GetParameter` to the `true` of `QueryRPCFinished`: the wrapper of
`allshards_ps_client.h`, built with `RPC_DEBUG` so that it copies the values together, the clients
of the shards (`petps_client.cc`), and the servers (`petps_server.cc`). `GetParameter` stores the
sentinel for each shard in turn and sends its request. From then on the reply of the shard may
arrive, word by word, while the requests of other shards are still to be sent. The wrapper asks a
shard by reading its sentinel, and copies the values together each time that it finds one
overwritten.

The sentinel of a request without keys is in front of the receive buffer. It is never overwritten,
with one exception: when the part of the shard before fills its own buffer, the two shards have one
sentinel. Then both finish with the last word of that part, unless it arrives before the request of
the second is sent and the sentinel is stored over it.

The replies are what `RpcPsGet` posts, in the order of the addresses. A batch is alone: its buffers
and its values are not written by others.

## Main results

* `Inv.step` — what every event keeps
* `Inv.ready_of_step` — a shard that cannot finish never can
* `Hopeful.exists_returned` — the fetches that can be brought to their end
* `fetch_loaded` — a fetch from servers that have been loaded
-/

namespace PetPS

namespace Fetch

/-! ### The system -/

/-- A batch, and the replies to its parts. -/
structure Setup where
  cfg : AllShards.Config
  batch : AllShards.Batch
  /-- The bytes that the server of a shard sends. -/
  reply : ℕ → List UInt8

/-- The receive buffer of a shard. -/
def Setup.buffer (f : Setup) (i : ℕ) : ℕ :=
  f.cfg.partitionedRecvBuffer i f.batch.callback.asyncReqId

/-- The address of the sentinel of a shard. -/
def Setup.poll (f : Setup) (i : ℕ) : ℕ :=
  WqRPCParameterClient.pollAddr f.cfg.valueSize (f.buffer i) (f.batch.requested i)

/-- `clients_[i]->QueryRPCFinished`. -/
def Setup.finished (f : Setup) (m : Bytes.Mem) (i : ℕ) : Bool :=
  Bytes.decode (Bytes.load m (f.poll i) 4) != finishMagic

/-- The wrapper, the number of requests that are sent, and how many words of each reply have
arrived. -/
structure State where
  wrapper : AllShards.State
  sent : ℕ
  arrived : ℕ → ℕ

/-- What happens next. -/
inductive Event
  /-- The request of the next shard is sent. -/
  | send
  /-- One more word of the reply of a shard arrives. -/
  | word (i : ℕ)
  /-- A call of `QueryRPCFinished`, a turn of its loop, a turn of the callback, and the return. -/
  | query
  | poll
  | copy
  | resume

variable (f : Setup)

/-- The memory is written. -/
def State.write (s : State) (a : ℕ) (bytes : List UInt8) : AllShards.State :=
  { s.wrapper with memory := Bytes.store s.wrapper.memory a bytes }

@[simp] theorem State.write_memory (s : State) (a : ℕ) (bytes : List UInt8) :
    (s.write a bytes).memory = Bytes.store s.wrapper.memory a bytes := rfl

/-- A step of the wrapper, after `GetParameter` has returned. -/
def wrapperStep (s : State) (e : AllShards.Event) : Option State :=
  if s.sent < f.cfg.numShards then none
  else (AllShards.step f.cfg s.wrapper e).map fun wrapper => { s with wrapper }

/-- One event, if it is possible. -/
def step (s : State) : Event → Option State
  | .send =>
    if s.sent < f.cfg.numShards then
      some ⟨s.write (f.poll s.sent) (Bytes.encode32 finishMagic), s.sent + 1, s.arrived⟩
    else none
  | .word i =>
    if i < s.sent ∧ s.arrived i < (f.reply i).length / 4 then
      some ⟨s.write (f.buffer i + 4 * s.arrived i) (((f.reply i).drop (4 * s.arrived i)).take 4),
        s.sent, Function.update s.arrived i (s.arrived i + 1)⟩
    else none
  | .query => wrapperStep f s (.query (toInt32 f.batch.key))
  | .poll => wrapperStep f s (.poll
      (match s.wrapper.pc with
      | .querying _ i => f.finished s.wrapper.memory i
      | _ => false))
  | .copy => wrapperStep f s .copy
  | .resume => wrapperStep f s .resume

/-! ### The places of a batch -/

/-- Where the reply of a shard ends. -/
def Setup.last (f : Setup) (i : ℕ) : ℕ :=
  f.buffer i + (f.batch.requested i).length * f.cfg.valueSize

/-- How many words the reply of a shard has. -/
def Setup.words (f : Setup) (i : ℕ) : ℕ := (f.reply i).length / 4

/-- **The memory of a batch.** The receive buffers are one behind the other, and apart from the
values, also the word in front of them. -/
structure Setup.Places (f : Setup) : Prop where
  room : ∀ i < f.cfg.numShards, 4 ≤ f.buffer i ∧ f.last i ≤ 2 ^ 64
  aligned : ∀ i < f.cfg.numShards, 4 ∣ f.buffer i
  order : ∀ i j, i < j → j < f.cfg.numShards → f.buffer i < f.buffer j ∧ f.last i ≤ f.buffer j
  values : ∀ i < f.cfg.numShards,
    f.batch.callback.values + f.batch.callback.keys.length * f.cfg.valueSize + 4 ≤ f.buffer i ∨
      f.last i ≤ f.batch.callback.values

/-- Shard `j` has no keys, and its sentinel, which is in front of its buffer, is the last word of
shard `i`. -/
def Setup.Shares (f : Setup) (i j : ℕ) : Prop :=
  i < j ∧ f.last i = f.buffer j ∧ f.batch.requested j = []

/-- **A batch in its places.** The values are of one size, in whole words of which the last is not
the sentinel, and the reply of a shard is the values of its keys. -/
structure Setup.Ok (f : Setup) (value : UInt64 → List UInt8) : Prop extends f.Places where
  batch : f.batch.Ok f.cfg value
  pos : 0 < f.cfg.valueSize
  key : f.batch.key < 2 ^ 31
  ids : ∀ i < f.cfg.numShards, ∃ id, f.batch.shardRpcIds[i]? = some id ∧
    toUInt64 id ≠ AllShards.magicRpcIdForEmptyRequest
  reply : ∀ i, f.reply i = (f.batch.requested i).flatMap value
  sentinel : ∀ k ∈ f.batch.callback.keys, WqRPCParameterClient.lastWord (value k) ≠ finishMagic

section Places

variable {f} {value : UInt64 → List UInt8} {i j : ℕ}

theorem Setup.Ok.length_reply (hf : f.Ok value) (i : ℕ) :
    (f.reply i).length = (f.batch.requested i).length * f.cfg.valueSize := by
  rw [hf.reply]
  exact (Bytes.length_flatMap_eq_iff fun k _ => (hf.batch.size k).le).mpr fun k _ => hf.batch.size k

theorem Setup.Ok.last_eq (hf : f.Ok value) (i : ℕ) :
    f.last i = f.buffer i + (f.reply i).length := by
  rw [Setup.last, hf.length_reply]

theorem Setup.Ok.four_dvd (hf : f.Ok value) (i : ℕ) : 4 ∣ (f.reply i).length := by
  rw [hf.length_reply]
  exact Dvd.dvd.mul_left hf.batch.four _

/-- A request that is not empty has a word. -/
theorem Setup.Ok.four_le (hf : f.Ok value) (hne : f.batch.requested i ≠ []) :
    4 ≤ (f.reply i).length := by
  refine Nat.le_of_dvd ?_ (hf.four_dvd i)
  rw [hf.length_reply]
  exact Nat.mul_pos (List.length_pos_iff.mpr hne) hf.pos

theorem Setup.Ok.reply_nil (hf : f.Ok value) (hnil : f.batch.requested i = []) :
    f.reply i = [] := by
  rw [hf.reply, hnil, List.flatMap_nil]

theorem Setup.Ok.words_pos (hf : f.Ok value) (hne : f.batch.requested i ≠ []) : 0 < f.words i :=
  Nat.div_pos (hf.four_le hne) (by decide)

/-- A shard with words to come has keys. -/
theorem Setup.Ok.requested_of_lt (hf : f.Ok value) {n : ℕ} (h : n < f.words i) :
    f.batch.requested i ≠ [] := by
  intro hnil
  rw [Setup.words, hf.reply_nil hnil] at h
  exact Nat.not_lt_zero n h

/-- The sentinel is the word in front of the end. -/
theorem Setup.Ok.poll_eq (hf : f.Ok value) (hi : i < f.cfg.numShards) :
    f.poll i + 4 = f.last i := by
  obtain ⟨hlow, hhigh⟩ := hf.room i hi
  rw [hf.last_eq] at hhigh ⊢
  rw [Setup.poll, WqRPCParameterClient.pollAddr, ← hf.length_reply i,
    show f.buffer i + (f.reply i).length + (2 ^ 64 - 4) =
      f.buffer i + (f.reply i).length - 4 + 2 ^ 64 by omega, Nat.add_mod_right,
    Nat.mod_eq_of_lt (by omega)]
  omega

theorem Setup.Ok.buffer_le_poll (hf : f.Ok value) (hi : i < f.cfg.numShards)
    (hne : f.batch.requested i ≠ []) : f.buffer i ≤ f.poll i := by
  have hpoll := hf.poll_eq hi
  rw [hf.last_eq] at hpoll
  have hfour := hf.four_le hne
  omega

/-- **The sentinel of a shard** is behind the replies of the shards before it, or shared. -/
theorem Setup.Ok.apart_or_shares (hf : f.Ok value) (hij : i < j) (hj : j < f.cfg.numShards) :
    f.last i ≤ f.poll j ∨ f.Shares i j := by
  obtain ⟨-, hle⟩ := hf.order i j hij hj
  have hpoll := hf.poll_eq hj
  by_cases hnil : f.batch.requested j = []
  · have hlast : f.last j = f.buffer j := by rw [hf.last_eq, hf.reply_nil hnil]; rfl
    have hdvd : 4 ∣ f.last i := by
      rw [hf.last_eq]
      exact Nat.dvd_add (hf.aligned i (hij.trans hj)) (hf.four_dvd i)
    have hdvd' := hf.aligned j hj
    by_cases heq : f.last i = f.buffer j
    · exact Or.inr ⟨hij, heq, hnil⟩
    · exact Or.inl (by omega)
  · exact Or.inl (hle.trans (hf.buffer_le_poll hj hnil))

theorem Setup.Shares.poll_eq (hf : f.Ok value) (h : f.Shares i j) (hj : j < f.cfg.numShards) :
    f.poll i = f.poll j := by
  obtain ⟨hij, heq, hnil⟩ := h
  have hi := hf.poll_eq (hij.trans hj)
  have hj := hf.poll_eq hj
  rw [hf.last_eq j, hf.reply_nil hnil, List.length_nil] at hj
  omega

theorem Setup.Shares.requested (hf : f.Ok value) (h : f.Shares i j) (hj : j < f.cfg.numShards) :
    f.batch.requested i ≠ [] := by
  obtain ⟨hij, heq, -⟩ := h
  intro hnil
  rw [hf.last_eq, hf.reply_nil hnil, List.length_nil] at heq
  have := (hf.order i j hij hj).1
  omega

/-- The shards are next to each other. -/
theorem Setup.Shares.succ (hf : f.Ok value) (h : f.Shares i j) (hj : j < f.cfg.numShards) :
    i + 1 = j := by
  obtain ⟨hij, heq, -⟩ := h
  by_contra hne
  have hnext := (hf.order i (i + 1) (Nat.lt_succ_self i) (by omega)).2
  have hless := (hf.order (i + 1) j (by omega) hj).1
  omega

/-- The last word of a reply is that of the value of its last key. -/
theorem Setup.Ok.lastWord_reply (hf : f.Ok value) (hne : f.batch.requested i ≠ []) :
    WqRPCParameterClient.lastWord (f.reply i) ≠ finishMagic := by
  obtain ⟨init, k, hkeys⟩ : ∃ init k, f.batch.requested i = init ++ [k] :=
    ⟨_, _, (List.dropLast_append_getLast hne).symm⟩
  have hk : k ∈ f.batch.callback.keys := by
    have hmem : k ∈ f.batch.requested i := by rw [hkeys]; simp
    rw [hf.batch.requested] at hmem
    exact (List.mem_filter.mp hmem).1
  have hsize : 4 ≤ (value k).length := by
    rw [hf.batch.size]
    exact Nat.le_of_dvd hf.pos hf.batch.four
  have hword := hf.sentinel k hk
  rw [WqRPCParameterClient.lastWord] at hword ⊢
  rwa [hf.reply, hkeys, List.flatMap_append, List.flatMap_singleton, List.length_append,
    Nat.add_sub_assoc hsize, ← List.drop_drop, List.drop_left]

end Places

/-! ### What has arrived -/

/-- **What the network has done.** The words of a reply that have arrived are in their place, but
for the last one. The sentinel is there until the last word arrives, and again when it is that of
another shard and is stored later. -/
structure Net (m : Bytes.Mem) (sent : ℕ) (arrived : ℕ → ℕ) : Prop where
  known : sent ≤ f.cfg.numShards
  late : ∀ i, sent ≤ i → arrived i = 0
  le : ∀ i, arrived i ≤ f.words i
  body : ∀ i < sent, ∀ x < 4 * arrived i, x < (f.reply i).length - 4 →
    m (f.buffer i + x) = (f.reply i).getD x 0
  wait : ∀ i < sent, arrived i < f.words i →
    Bytes.load m (f.poll i) 4 = Bytes.encode32 finishMagic
  word : ∀ i < sent, f.batch.requested i ≠ [] → arrived i = f.words i →
    Bytes.load m (f.poll i) 4 = (f.reply i).drop ((f.reply i).length - 4) ∨
      Bytes.load m (f.poll i) 4 = Bytes.encode32 finishMagic ∧ ∃ j < sent, f.Shares i j
  empty : ∀ i < sent, f.batch.requested i = [] → (∀ j, ¬ f.Shares j i) →
    Bytes.load m (f.poll i) 4 = Bytes.encode32 finishMagic

/-- The places of a batch are as they were. -/
def Setup.Frame (f : Setup) (m m' : Bytes.Mem) : Prop :=
  ∀ i < f.cfg.numShards, ∀ x, f.buffer i ≤ x + 4 → x < f.last i → m' x = m x

section Net

variable {f} {value : UInt64 → List UInt8} {m m' : Bytes.Mem} {sent : ℕ} {arrived : ℕ → ℕ}
  {i j : ℕ}

theorem Setup.Frame.load_poll (hf : f.Ok value) (h : f.Frame m m') (hi : i < f.cfg.numShards) :
    Bytes.load m' (f.poll i) 4 = Bytes.load m (f.poll i) 4 := by
  have hpoll := hf.poll_eq hi
  have hlast := hf.last_eq i
  exact Bytes.load_congr fun x hlo hhi => h i hi x (by omega) (by omega)

/-- Writes to other places do not matter. -/
theorem Net.congr (hf : f.Ok value) (h : Net f m sent arrived) (hframe : f.Frame m m') :
    Net f m' sent arrived := by
  have hload : ∀ i < sent, Bytes.load m' (f.poll i) 4 = Bytes.load m (f.poll i) 4 := fun i hi =>
    hframe.load_poll hf (hi.trans_le h.known)
  refine ⟨h.known, h.late, h.le, fun i hi x hx hlt => ?_, fun i hi => ?_, fun i hi => ?_,
    fun i hi => ?_⟩
  · rw [hframe i (hi.trans_le h.known) _ (by omega) (by rw [hf.last_eq]; omega)]
    exact h.body i hi x hx hlt
  · rw [hload i hi]
    exact h.wait i hi
  · rw [hload i hi]
    exact h.word i hi
  · rw [hload i hi]
    exact h.empty i hi

/-- The sentinel of another shard is stored. -/
theorem load_send (hf : f.Ok value) (hij : i < j) (hj : j < f.cfg.numShards)
    (hns : ¬ f.Shares i j) :
    Bytes.load (Bytes.store m (f.poll j) (Bytes.encode32 finishMagic)) (f.poll i) 4 =
      Bytes.load m (f.poll i) 4 := by
  have hpoll := hf.poll_eq (hij.trans hj)
  have happart := (hf.apart_or_shares hij hj).resolve_right hns
  exact Bytes.load_store_of_disjoint (Or.inl (by omega))

/-- A request is sent. -/
theorem Net.send (hf : f.Ok value) (h : Net f m sent arrived) (hlt : sent < f.cfg.numShards) :
    Net f (Bytes.store m (f.poll sent) (Bytes.encode32 finishMagic)) (sent + 1) arrived := by
  have hshared : ∀ i, f.Shares i sent → Bytes.load (Bytes.store m (f.poll sent)
      (Bytes.encode32 finishMagic)) (f.poll i) 4 = Bytes.encode32 finishMagic := by
    intro i hshares
    rw [hshares.poll_eq hf hlt]
    exact Bytes.load_store_self
  refine ⟨hlt, fun i hi => h.late i (by omega), h.le, fun i hi x hx hbody => ?_,
    fun i hi hwait => ?_, fun i hi hne hall => ?_, fun i hi hnil hns => ?_⟩
  · rcases Nat.lt_succ_iff_lt_or_eq.mp hi with hi' | rfl
    · -- the sentinel that is stored is at most the last word
      have hpoll := hf.poll_eq (hi'.trans hlt)
      rw [hf.last_eq] at hpoll
      have hbehind : f.poll i ≤ f.poll sent := by
        rcases hf.apart_or_shares hi' hlt with hle | hshares
        · rw [hf.last_eq] at hle
          omega
        · exact (hshares.poll_eq hf hlt).le
      rw [Bytes.store_apply_of_notMem (by omega)]
      exact h.body i hi' x hx hbody
    · rw [h.late i le_rfl] at hx
      exact absurd hx (Nat.not_lt_zero x)
  · rcases Nat.lt_succ_iff_lt_or_eq.mp hi with hi' | rfl
    · by_cases hshares : f.Shares i sent
      · exact hshared i hshares
      · rw [load_send hf hi' hlt hshares]
        exact h.wait i hi' hwait
    · exact Bytes.load_store_self
  · rcases Nat.lt_succ_iff_lt_or_eq.mp hi with hi' | rfl
    · by_cases hshares : f.Shares i sent
      · exact Or.inr ⟨hshared i hshares, sent, Nat.lt_succ_self sent, hshares⟩
      · rw [load_send hf hi' hlt hshares]
        exact (h.word i hi' hne hall).imp_right fun ⟨hmagic, j, hj, hshares⟩ =>
          ⟨hmagic, j, hj.trans (Nat.lt_succ_self sent), hshares⟩
    · have hpos := hf.words_pos hne
      rw [← hall, h.late i le_rfl] at hpos
      exact absurd hpos (Nat.lt_irrefl 0)
  · rcases Nat.lt_succ_iff_lt_or_eq.mp hi with hi' | rfl
    · have hshares : ¬ f.Shares i sent := fun hshares => hshares.requested hf hlt hnil
      rw [load_send hf hi' hlt hshares]
      exact h.empty i hi' hnil hns
    · exact Bytes.load_store_self

/-- The memory after the next word of the reply of a shard. -/
def Setup.withWord (f : Setup) (m : Bytes.Mem) (arrived : ℕ → ℕ) (i : ℕ) : Bytes.Mem :=
  Bytes.store m (f.buffer i + 4 * arrived i) (((f.reply i).drop (4 * arrived i)).take 4)

/-- The state after it. -/
def Setup.arrive (f : Setup) (s : State) (i : ℕ) : State :=
  ⟨{ s.wrapper with memory := f.withWord s.wrapper.memory s.arrived i }, s.sent,
    Function.update s.arrived i (s.arrived i + 1)⟩

theorem Setup.arrive_memory (f : Setup) (s : State) (i : ℕ) :
    (f.arrive s i).wrapper.memory = f.withWord s.wrapper.memory s.arrived i := rfl

theorem length_word (hlt : arrived i < f.words i) :
    (((f.reply i).drop (4 * arrived i)).take 4).length = 4 := by
  rw [Setup.words] at hlt
  rw [List.length_take, List.length_drop]
  omega

/-- A word of a reply, in its place. -/
theorem withWord_apply (hlt : arrived i < f.words i) (x : ℕ) :
    f.withWord m arrived i (f.buffer i + x) =
      if 4 * arrived i ≤ x ∧ x < 4 * arrived i + 4 then (f.reply i).getD x 0
      else m (f.buffer i + x) := by
  have hlen := length_word hlt
  have hall : 4 * arrived i + 4 ≤ (f.reply i).length := by
    rw [Setup.words] at hlt
    omega
  rw [Setup.withWord]
  split_ifs with hin
  · rw [Bytes.store_apply_of_mem (by omega) (by omega), List.getD_eq_getElem _ _ (by omega),
      List.getD_eq_getElem _ _ (by omega), List.getElem_take, List.getElem_drop]
    congr 1
    omega
  · exact Bytes.store_apply_of_notMem (by omega)

/-- It stays in its buffer. -/
theorem withWord_apply_elsewhere (hf : f.Ok value) (hlt : arrived i < f.words i) {x : ℕ}
    (hx : x < f.buffer i ∨ f.last i ≤ x) : f.withWord m arrived i x = m x := by
  have hlen := length_word hlt
  rw [Setup.words] at hlt
  rw [hf.last_eq] at hx
  exact Bytes.store_apply_of_notMem (by omega)

/-- It does not touch the reply of another shard. -/
theorem withWord_apply_of_ne (hf : f.Ok value) (hlt : arrived i < f.words i)
    (hi : i < f.cfg.numShards) (hj : j < f.cfg.numShards) (hne : j ≠ i) {x : ℕ}
    (hx : x < (f.reply j).length) :
    f.withWord m arrived i (f.buffer j + x) = m (f.buffer j + x) := by
  have hlast := hf.last_eq j
  refine withWord_apply_elsewhere hf hlt ?_
  rcases Nat.lt_or_gt_of_ne hne with hbefore | hbehind
  · have := (hf.order j i hbefore hi).2
    omega
  · have := (hf.order i j hbehind hj).2
    omega

/-- It does not touch the sentinel of another shard, unless that is the last word of the reply. -/
theorem load_withWord_of_ne (hf : f.Ok value) (hlt : arrived i < f.words i)
    (hi : i < f.cfg.numShards) (hj : j < f.cfg.numShards) (hne : j ≠ i) (hns : ¬ f.Shares i j) :
    Bytes.load (f.withWord m arrived i) (f.poll j) 4 = Bytes.load m (f.poll j) 4 := by
  have hpoll := hf.poll_eq hj
  refine Bytes.load_congr fun x hlo hhi => withWord_apply_elsewhere hf hlt ?_
  rcases Nat.lt_or_gt_of_ne hne with hbefore | hbehind
  · have := (hf.order j i hbefore hi).2
    omega
  · have := (hf.apart_or_shares hbehind hj).resolve_right hns
    omega

/-- It does not touch the sentinel of its own shard before the last word. -/
theorem load_withWord_of_lt (hf : f.Ok value) (hlt : arrived i + 1 < f.words i)
    (hi : i < f.cfg.numShards) :
    Bytes.load (f.withWord m arrived i) (f.poll i) 4 = Bytes.load m (f.poll i) 4 := by
  have hlen := length_word (Nat.lt_of_succ_lt hlt)
  have hpoll := hf.poll_eq hi
  rw [hf.last_eq] at hpoll
  rw [Setup.words] at hlt
  exact Bytes.load_store_of_disjoint (Or.inr (by omega))

/-- The last word is in the place of the sentinel. -/
theorem load_withWord_last (hf : f.Ok value) (hlt : arrived i + 1 = f.words i)
    (hi : i < f.cfg.numShards) : Bytes.load (f.withWord m arrived i) (f.poll i) 4 =
      (f.reply i).drop ((f.reply i).length - 4) := by
  have hpoll := hf.poll_eq hi
  have hdvd := hf.four_dvd i
  have hword := length_word (hlt ▸ Nat.lt_succ_self (arrived i) : arrived i < f.words i)
  rw [hf.last_eq] at hpoll
  rw [Setup.words] at hlt
  have heq : 4 * arrived i = (f.reply i).length - 4 := by omega
  have hbytes : ((f.reply i).drop (4 * arrived i)).take 4 = (f.reply i).drop (4 * arrived i) := by
    refine List.take_of_length_le ?_
    rw [List.length_drop]
    omega
  have hself : Bytes.load (f.withWord m arrived i) (f.buffer i + 4 * arrived i)
      (((f.reply i).drop (4 * arrived i)).take 4).length = _ := Bytes.load_store_self
  rw [hword, hbytes] at hself
  rw [show f.poll i = f.buffer i + 4 * arrived i by omega, hself, heq]

/-- A word arrives. -/
theorem Net.arrive (hf : f.Ok value) (h : Net f m sent arrived) (hi : i < sent)
    (hlt : arrived i < f.words i) :
    Net f (f.withWord m arrived i) sent (Function.update arrived i (arrived i + 1)) := by
  have hi' := hi.trans_le h.known
  refine ⟨h.known, fun j hj => ?_, fun j => ?_, fun j hj x hx hbody => ?_, fun j hj hwait => ?_,
    fun j hj hne hall => ?_, fun j hj hnil hns => ?_⟩
  · rw [Function.update_of_ne (by omega)]
    exact h.late j hj
  · by_cases hji : j = i
    · subst hji
      rw [Function.update_self]
      exact hlt
    · rw [Function.update_of_ne hji]
      exact h.le j
  · by_cases hji : j = i
    · subst hji
      rw [Function.update_self] at hx
      rw [withWord_apply hlt]
      split_ifs with hin
      · rfl
      · exact h.body j hj x (by omega) hbody
    · rw [Function.update_of_ne hji] at hx
      rw [withWord_apply_of_ne hf hlt hi' (hj.trans_le h.known) hji (by omega)]
      exact h.body j hj x hx hbody
  · by_cases hji : j = i
    · subst hji
      rw [Function.update_self] at hwait
      rw [load_withWord_of_lt hf hwait hi']
      exact h.wait j hj hlt
    · rw [Function.update_of_ne hji] at hwait
      rw [load_withWord_of_ne hf hlt hi' (hj.trans_le h.known) hji
        fun hshares => hf.requested_of_lt hwait hshares.2.2]
      exact h.wait j hj hwait
  · by_cases hji : j = i
    · subst hji
      rw [Function.update_self] at hall
      exact Or.inl (load_withWord_last hf hall hi')
    · rw [Function.update_of_ne hji] at hall
      rw [load_withWord_of_ne hf hlt hi' (hj.trans_le h.known) hji fun hshares => hne hshares.2.2]
      exact h.word j hj hne hall
  · have hji : j ≠ i := by
      rintro rfl
      exact hf.requested_of_lt hlt hnil
    rw [load_withWord_of_ne hf hlt hi' (hj.trans_le h.known) hji (hns i)]
    exact h.empty j hj hnil hns

theorem not_finished_of_magic (h : Bytes.load m (f.poll i) 4 = Bytes.encode32 finishMagic) :
    f.finished m i ≠ true := by
  rw [Setup.finished, h, Bytes.decode_encode32 (by decide)]
  decide

theorem finished_of_word (hf : f.Ok value) (hne : f.batch.requested i ≠ [])
    (h : Bytes.load m (f.poll j) 4 = (f.reply i).drop ((f.reply i).length - 4)) :
    f.finished m j = true := by
  rw [Setup.finished, h]
  exact bne_iff_ne.mpr (hf.lastWord_reply hne)

/-- **A shard with keys that has finished** has sent its whole reply, and it is in the buffer. -/
theorem Net.holds_of_finished (hf : f.Ok value) (h : Net f m sent arrived) (hi : i < sent)
    (hfin : f.finished m i = true) : AllShards.Holds f.cfg value f.batch m i := by
  rw [AllShards.Holds, ← hf.reply]
  by_cases hne : f.batch.requested i = []
  · rw [hf.reply_nil hne]
    rfl
  have hall : arrived i = f.words i := by
    refine le_antisymm (h.le i) (not_lt.mp fun hlt => ?_)
    exact not_finished_of_magic (h.wait i hi hlt) hfin
  have hword := (h.word i hi hne hall).resolve_right fun hmagic =>
    not_finished_of_magic hmagic.1 hfin
  have hfour := hf.four_le hne
  have hdvd := hf.four_dvd i
  have hpoll := hf.poll_eq (hi.trans_le h.known)
  rw [hf.last_eq] at hpoll
  refine Bytes.load_eq_iff.mpr fun x hx => ?_
  rcases Nat.lt_or_ge x ((f.reply i).length - 4) with hlt | hge
  · refine h.body i hi x ?_ hlt
    rw [hall, Setup.words]
    omega
  · -- a byte of the last word
    have hbytes := Bytes.load_eq_iff.mp (show Bytes.load m (f.poll i)
      ((f.reply i).drop ((f.reply i).length - 4)).length = _ by
        rw [List.length_drop, Nat.sub_sub_self hfour, hword]) (x - ((f.reply i).length - 4))
        (by rw [List.length_drop]; omega)
    rw [show f.poll i + (x - ((f.reply i).length - 4)) = f.buffer i + x by omega] at hbytes
    refine hbytes.trans ?_
    rw [List.getD_eq_getElem?_getD, List.getElem?_drop, ← List.getD_eq_getElem?_getD,
      show (f.reply i).length - 4 + (x - ((f.reply i).length - 4)) = x by omega]

end Net

/-! ### The shards that can finish -/

/-- **A shard that has finished or can**: it has keys, or its sentinel is the last word of a shard
that has not arrived, or has arrived after the sentinel was stored. -/
def Setup.Ready (f : Setup) (s : State) (i : ℕ) : Prop :=
  f.batch.requested i ≠ [] ∨ ∃ j, f.Shares j i ∧
    (s.arrived j < f.words j ∨ (i < s.sent ∧ f.finished s.wrapper.memory i = true))

section Ready

variable {f} {value : UInt64 → List UInt8} {s : State} {wrapper : AllShards.State} {i j : ℕ}

theorem ready_of_finished (hnet : Net f s.wrapper.memory s.sent s.arrived) (hi : i < s.sent)
    (hfin : f.finished s.wrapper.memory i = true) : f.Ready s i := by
  by_cases hnil : f.batch.requested i = []
  · have hshared : ∃ j, f.Shares j i := by
      by_contra hnone
      push Not at hnone
      exact not_finished_of_magic (hnet.empty i hi hnil hnone) hfin
    obtain ⟨j, hshares⟩ := hshared
    exact Or.inr ⟨j, hshares, Or.inr ⟨hi, hfin⟩⟩
  · exact Or.inl hnil

/-- **A shard that can finish has finished** when everything has arrived. -/
theorem finished_of_ready (hf : f.Ok value) (hnet : Net f s.wrapper.memory s.sent s.arrived)
    (hall : ∀ j < f.cfg.numShards, s.arrived j = f.words j)
    (hready : ∀ j < f.cfg.numShards, f.Ready s j) (hi : i < s.sent) :
    f.finished s.wrapper.memory i = true := by
  -- a shard without keys, by the shard before it
  have hshared : ∀ {j i}, f.Shares j i → i < s.sent → f.finished s.wrapper.memory i = true := by
    intro j i hshares hi
    have hlt := hi.trans_le hnet.known
    obtain ⟨j', hshares', hcase⟩ := (hready i hlt).resolve_left fun hne => hne hshares.2.2
    rcases hcase with hmore | ⟨-, hfin⟩
    · rw [hall j' (hshares'.1.trans hlt)] at hmore
      exact absurd hmore (Nat.lt_irrefl _)
    · exact hfin
  have hlt := hi.trans_le hnet.known
  by_cases hnil : f.batch.requested i = []
  · obtain ⟨j, hshares, -⟩ := (hready i hlt).resolve_left fun hne => hne hnil
    exact hshared hshares hi
  · rcases hnet.word i hi hnil (hall i hlt) with hword | ⟨hmagic, j, hj, hshares⟩
    · exact finished_of_word hf hnil hword
    · rw [hshares.poll_eq hf (hj.trans_le hnet.known)] at hmagic
      exact absurd (hshared hshares hj) (not_finished_of_magic hmagic)

/-- A turn of the thread changes nothing. -/
theorem ready_congr (hf : f.Ok value) (hframe : f.Frame s.wrapper.memory wrapper.memory)
    (hi : i < f.cfg.numShards) : f.Ready { s with wrapper } i ↔ f.Ready s i := by
  rw [Setup.Ready, Setup.Ready]
  simp only [Setup.finished, hframe.load_poll hf hi]

theorem finished_send (hf : f.Ok value) (hlt : s.sent < f.cfg.numShards) (hi : i < s.sent)
    (hnil : f.batch.requested i = []) {m : Bytes.Mem} :
    f.finished (Bytes.store m (f.poll s.sent) (Bytes.encode32 finishMagic)) i = f.finished m i := by
  rw [Setup.finished, load_send hf hi hlt fun hshares => hshares.requested hf hlt hnil]
  rfl

/-- The sentinel of a shard without keys is only overwritten by the shard that shares it. -/
theorem ready_send (hf : f.Ok value) (hlt : s.sent < f.cfg.numShards) :
    f.Ready ⟨s.write (f.poll s.sent) (Bytes.encode32 finishMagic), s.sent + 1, s.arrived⟩ i ↔
      f.Ready s i := by
  constructor
  · rintro (hne | ⟨j, hshares, hmore | ⟨hi, hfin⟩⟩)
    · exact Or.inl hne
    · exact Or.inr ⟨j, hshares, Or.inl hmore⟩
    · rw [State.write_memory] at hfin
      rcases Nat.lt_succ_iff_lt_or_eq.mp hi with hbefore | rfl
      · rw [finished_send hf hlt hbefore hshares.2.2] at hfin
        exact Or.inr ⟨j, hshares, Or.inr ⟨hbefore, hfin⟩⟩
      · exact absurd hfin (not_finished_of_magic Bytes.load_store_self)
  · rintro (hne | ⟨j, hshares, hmore | ⟨hi, hfin⟩⟩)
    · exact Or.inl hne
    · exact Or.inr ⟨j, hshares, Or.inl hmore⟩
    · refine Or.inr ⟨j, hshares, Or.inr ⟨hi.trans (Nat.lt_succ_self _), ?_⟩⟩
      rwa [State.write_memory, finished_send hf hlt hi hshares.2.2]

/-- A word of another shard. -/
theorem finished_withWord (hf : f.Ok value) (hlt : s.arrived j < f.words j)
    (hj : j < f.cfg.numShards) (hi : i < f.cfg.numShards) (hnil : f.batch.requested i = [])
    (hns : ¬ f.Shares j i) {m : Bytes.Mem} :
    f.finished (f.withWord m s.arrived j) i = f.finished m i := by
  have hne : i ≠ j := by
    rintro rfl
    exact hf.requested_of_lt hlt hnil
  rw [Setup.finished, load_withWord_of_ne hf hlt hj hi hne hns]
  rfl

/-- A word can only make it too late. -/
theorem ready_of_word (hf : f.Ok value) (hlt : s.arrived j < f.words j)
    (hj : j < f.cfg.numShards) (hi : i < f.cfg.numShards)
    (h : f.Ready (f.arrive s j) i) : f.Ready s i := by
  refine h.imp_right fun ⟨k, hshares, hcase⟩ => ⟨k, hshares, ?_⟩
  by_cases hkj : k = j
  · exact Or.inl (hkj ▸ hlt)
  · refine hcase.imp (fun hmore => ?_) fun ⟨hsent, hfin⟩ => ⟨hsent, ?_⟩
    · simpa only [Setup.arrive, Function.update_of_ne hkj] using hmore
    · have hns : ¬ f.Shares j i := fun hshares' => by
        have := hshares.succ hf hi
        have := hshares'.succ hf hi
        omega
      rwa [Setup.arrive_memory, finished_withWord hf hlt hj hi hshares.2.2 hns] at hfin

/-- When the request has been sent it does not. -/
theorem ready_word (hf : f.Ok value) (hlt : s.arrived j < f.words j)
    (hj : j < f.cfg.numShards) (hi : i < f.cfg.numShards) (hsent : i < s.sent) (h : f.Ready s i) :
    f.Ready (f.arrive s j) i := by
  refine h.imp_right fun ⟨k, hshares, hcase⟩ => ⟨k, hshares, ?_⟩
  by_cases hkj : k = j
  · subst hkj
    rcases Nat.lt_or_eq_of_le (Nat.succ_le_of_lt hlt) with hmore | hend
    · exact Or.inl (by simpa only [Setup.arrive, Function.update_self] using hmore)
    · -- the last word is not the sentinel
      refine Or.inr ⟨hsent, finished_of_word hf (hf.requested_of_lt hlt) ?_⟩
      rw [← hshares.poll_eq hf hi]
      exact load_withWord_last hf hend hj
  · refine hcase.imp (fun hmore => ?_) fun ⟨hsent, hfin⟩ => ⟨hsent, ?_⟩
    · simpa only [Setup.arrive, Function.update_of_ne hkj] using hmore
    · have hns : ¬ f.Shares j i := fun hshares' => by
        have := hshares.succ hf hi
        have := hshares'.succ hf hi
        omega
      rwa [Setup.arrive_memory, finished_withWord hf hlt hj hi hshares.2.2 hns]

end Ready

/-! ### The invariant -/

/-- The shards that the query has found finished could do so. -/
def Passed (s : State) : AllShards.Pc → Prop
  | .idle => True
  | .querying rpcId i => rpcId = toInt32 f.batch.key ∧ ∀ j < i, j < f.cfg.numShards → f.Ready s j
  | .copying rpcId i _ _ _ _ => rpcId = toInt32 f.batch.key ∧ ∀ j < i + 1, j < f.cfg.numShards →
      f.Ready s j
  | .returned rpcId finished => rpcId = toInt32 f.batch.key ∧
      (finished = true → ∀ j < f.cfg.numShards, f.Ready s j)

/-- **What is known of a batch on its way.** -/
structure Inv (value : UInt64 → List UInt8) (s : State) : Prop where
  net : Net f s.wrapper.memory s.sent s.arrived
  tracks : AllShards.Tracks f.cfg value f.batch s.wrapper
  idle : s.sent < f.cfg.numShards → s.wrapper.pc = .idle
  passed : Passed f s s.wrapper.pc

/-- A turn of the thread, after all requests have been sent. -/
structure Turn (value : UInt64 → List UInt8) (s s' : State) : Prop where
  sent : f.cfg.numShards ≤ s.sent
  same : s' = { s with wrapper := s'.wrapper }
  frame : f.Frame s.wrapper.memory s'.wrapper.memory
  inv : Inv f value s'

section Steps

variable {f} {value : UInt64 → List UInt8} {s s' : State} {i : ℕ}

theorem wrapperStep_eq_some {e : AllShards.Event} (h : wrapperStep f s e = some s') :
    f.cfg.numShards ≤ s.sent ∧ ∃ wrapper, AllShards.step f.cfg s.wrapper e = some wrapper ∧
      s' = { s with wrapper } := by
  rw [wrapperStep] at h
  split_ifs at h with hsent
  obtain ⟨wrapper, hstep, rfl⟩ := Option.map_eq_some_iff.mp h
  exact ⟨not_lt.mp hsent, wrapper, hstep, rfl⟩

theorem Passed.mono {pc : AllShards.Pc} (hmono : ∀ j < f.cfg.numShards, f.Ready s j → f.Ready s' j)
    (h : Passed f s pc) : Passed f s' pc := by
  match pc with
  | .idle => trivial
  | .querying .. => exact ⟨h.1, fun j hj hlt => hmono j hlt (h.2 j hj hlt)⟩
  | .copying .. => exact ⟨h.1, fun j hj hlt => hmono j hlt (h.2 j hj hlt)⟩
  | .returned .. => exact ⟨h.1, fun hfin j hlt => hmono j hlt (h.2 hfin j hlt)⟩

theorem Setup.Frame.refl (f : Setup) (m : Bytes.Mem) : f.Frame m m := fun _ _ _ _ _ => rfl

theorem Turn.ready_iff (hf : f.Ok value) (h : Turn f value s s') (hi : i < f.cfg.numShards) :
    f.Ready s' i ↔ f.Ready s i := by
  rw [h.same]
  exact ready_congr hf h.frame hi

/-- The memory is written while the wrapper is idle. -/
theorem Inv.write_idle (h : Inv f value s) (hidle : s.wrapper.pc = .idle) {a : ℕ}
    {bytes : List UInt8} {sent : ℕ} {arrived : ℕ → ℕ}
    (hnet : Net f (Bytes.store s.wrapper.memory a bytes) sent arrived) :
    Inv f value ⟨s.write a bytes, sent, arrived⟩ := by
  refine ⟨hnet, ⟨h.tracks.rpcList, h.tracks.callback, h.tracks.old, ?_⟩, fun _ => hidle, ?_⟩
  · show AllShards.Progress _ _ _ _ s.wrapper.pc
    rw [hidle]
    trivial
  · show Passed f _ s.wrapper.pc
    rw [hidle]
    trivial

theorem Inv.send (hf : f.Ok value) (h : Inv f value s) (hs : step f s .send = some s') :
    Inv f value s' ∧ ∀ i, f.Ready s' i ↔ f.Ready s i := by
  rw [step] at hs
  split_ifs at hs with hlt
  rw [← Option.some.inj hs]
  exact ⟨h.write_idle (h.idle hlt) (h.net.send hf hlt), fun i => ready_send hf hlt⟩

/-- A word of a reply keeps what the wrapper relies on. -/
theorem Inv.keeps (hf : f.Ok value) (h : Inv f value s) (hi : i < s.sent)
    (hlt : s.arrived i < f.words i) :
    AllShards.Keeps f.cfg value f.batch s.wrapper.memory
      (f.withWord s.wrapper.memory s.arrived i) := by
  have hi' := hi.trans_le h.net.known
  refine ⟨fun x hlo hhi => withWord_apply_elsewhere hf hlt ?_, fun j hj hholds => ?_⟩
  · rcases hf.values i hi' with hbefore | hbehind
    · omega
    · omega
  · rw [AllShards.Holds, ← hf.reply] at hholds ⊢
    have hbytes := Bytes.load_eq_iff.mp hholds
    refine Bytes.load_eq_iff.mpr fun x hx => ?_
    by_cases hji : j = i
    · subst hji
      show f.withWord _ _ _ (f.buffer j + x) = _
      rw [withWord_apply hlt]
      split_ifs
      · rfl
      · exact hbytes x hx
    · rw [withWord_apply_elsewhere hf hlt]
      · exact hbytes x hx
      · show f.buffer j + x < _ ∨ _ ≤ f.buffer j + x
        have hlast := hf.last_eq j
        rcases Nat.lt_or_gt_of_ne hji with hbefore | hbehind
        · have := (hf.order j i hbefore hi').2
          omega
        · have := (hf.order i j hbehind hj).2
          omega

theorem step_word_eq_some (hs : step f s (.word i) = some s') :
    i < s.sent ∧ s.arrived i < f.words i ∧ s' = f.arrive s i := by
  rw [step] at hs
  split_ifs at hs with hcond
  exact ⟨hcond.1, hcond.2, (Option.some.inj hs).symm⟩

theorem Inv.word (hf : f.Ok value) (h : Inv f value s) (hs : step f s (.word i) = some s') :
    Inv f value s' := by
  obtain ⟨hi, hlt, rfl⟩ := step_word_eq_some hs
  refine ⟨h.net.arrive hf hi hlt, h.tracks.step hf.batch (h.keeps hf hi hlt) (e := .arrive _) rfl,
    h.idle, ?_⟩
  rcases Nat.lt_or_ge s.sent f.cfg.numShards with hless | hsent
  · show Passed f _ s.wrapper.pc
    rw [h.idle hless]
    trivial
  · exact h.passed.mono fun j hj hready =>
      ready_word hf hlt (hi.trans_le h.net.known) hj (hj.trans_le hsent) hready

/-- A shard is asked. -/
theorem Inv.poll (hf : f.Ok value) (h : Inv f value s) (hs : step f s .poll = some s') :
    Turn f value s s' := by
  obtain ⟨hsent, wrapper, hstep, rfl⟩ := wrapperStep_eq_some hs
  set finished := match s.wrapper.pc with
    | .querying _ i => f.finished s.wrapper.memory i
    | _ => false with hfinished
  obtain ⟨rpcId, i, pc, hpc, rfl, hcase⟩ := AllShards.poll_cases hstep
  have hpassed := h.passed
  rw [hpc] at hpassed hfinished
  obtain ⟨rfl, hbefore⟩ := hpassed
  have hown : toUInt64 (toInt32 f.batch.key) = f.batch.key := toUInt64_toInt32 hf.key
  have hfair : AllShards.Fair f.cfg value f.batch s.wrapper (.poll finished) := by
    intro rpcId' i' hpc' _ hfin
    obtain ⟨-, rfl⟩ := AllShards.Pc.querying.inj (hpc.symm.trans hpc')
    rcases Nat.lt_or_ge i f.cfg.numShards with hlt | hge
    · rw [hfinished] at hfin
      exact h.net.holds_of_finished hf (hlt.trans_le hsent) hfin
    · exact hf.batch.holds_of_le hge
  refine ⟨hsent, rfl, Setup.Frame.refl f _, h.net, h.tracks.step hf.batch hfair hstep,
    fun hlt => absurd hsent (not_le.mpr hlt), ?_⟩
  have hready : ∀ j < i, j < f.cfg.numShards →
      f.Ready { s with wrapper := { s.wrapper with pc } } j := hbefore
  rcases hcase with ⟨hend, rfl⟩ | ⟨id, hid, hmagic, rfl⟩ | ⟨hfin, callback, -, rfl⟩ | rfl
  · exact ⟨rfl, fun _ j hj => hready j (hj.trans_le hend) hj⟩
  · refine ⟨rfl, fun j hj hlt => hready j ?_ hlt⟩
    -- the clients of the shards never give the magic id
    rcases Nat.lt_succ_iff_lt_or_eq.mp hj with hji | rfl
    · exact hji
    · obtain ⟨id', hid', hne⟩ := hf.ids j hlt
      rw [hown, h.tracks.rpcList, hid'] at hid
      exact absurd hmagic (Option.some.inj hid ▸ hne)
  · refine ⟨rfl, fun j hj hlt => ?_⟩
    rcases Nat.lt_succ_iff_lt_or_eq.mp hj with hji | rfl
    · exact hready j hji hlt
    · rw [hfinished] at hfin
      exact ready_of_finished (s := { s with wrapper := { s.wrapper with pc := _ } }) h.net
        (hlt.trans_le hsent) hfin
  · exact ⟨rfl, fun hfalse => absurd hfalse Bool.false_ne_true⟩

/-- A value is copied. -/
theorem Inv.copy (hf : f.Ok value) (h : Inv f value s) (hs : step f s .copy = some s') :
    Turn f value s s' := by
  obtain ⟨hsent, wrapper, hstep, rfl⟩ := wrapperStep_eq_some hs
  have htracks := h.tracks.step hf.batch (e := .copy) trivial hstep
  have hlate : s.sent < f.cfg.numShards → wrapper.pc = .idle := fun hlt =>
    absurd hsent (not_le.mpr hlt)
  have hpassed := h.passed
  have hprog := h.tracks.progress
  change AllShards.copy f.cfg s.wrapper = some wrapper at hstep
  rw [AllShards.copy] at hstep
  cases hpc : s.wrapper.pc with
  | idle | querying | returned => rw [hpc] at hstep; cases hstep
  | copying rpcId i callback left offsetAccs acc =>
    rw [hpc] at hstep hpassed hprog
    obtain ⟨rfl, hbefore⟩ := hpassed
    obtain ⟨rfl, done, hcopying⟩ := hprog (toUInt64_toInt32 hf.key)
    cases left with
    | nil =>
      simp only at hstep
      split_ifs at hstep
      cases hstep
      exact ⟨hsent, rfl, Setup.Frame.refl f _, h.net, htracks, hlate, rfl, hbefore⟩
    | cons k left =>
      have hframe : f.Frame s.wrapper.memory wrapper.memory := by
        cases hstep
        intro i hi x hlo hhi
        refine Bytes.store_apply_of_notMem ?_
        have hdst : acc / 4 * 4 = done.length * f.cfg.valueSize := by
          rw [hcopying.acc]
          exact Nat.div_mul_cancel (Dvd.dvd.mul_left hf.batch.four _)
        have hle : (done.length + 1) * f.cfg.valueSize ≤
            f.batch.callback.keys.length * f.cfg.valueSize := by
          refine Nat.mul_le_mul_right _ ?_
          rw [hcopying.keys, List.length_append, List.length_cons]
          omega
        rw [Nat.succ_mul] at hle
        rw [hdst, Bytes.length_load]
        rcases hf.values i hi with hbelow | habove
        · omega
        · omega
      refine ⟨hsent, rfl, hframe, h.net.congr hf hframe, htracks, hlate, ?_⟩
      cases hstep
      exact ⟨rfl, fun j hj hlt => (ready_congr hf hframe hlt).mpr (hbefore j hj hlt)⟩

theorem Inv.query (hf : f.Ok value) (h : Inv f value s) (hs : step f s .query = some s') :
    Turn f value s s' := by
  obtain ⟨hsent, wrapper, hstep, rfl⟩ := wrapperStep_eq_some hs
  have htracks := h.tracks.step hf.batch (e := .query _) trivial hstep
  rw [AllShards.step] at hstep
  split at hstep
  case h_2 => cases hstep
  case h_1 hpc =>
    cases hstep
    exact ⟨hsent, rfl, Setup.Frame.refl f _, h.net, htracks,
      fun hlt => absurd hsent (not_le.mpr hlt), rfl, fun j hj => absurd hj (Nat.not_lt_zero j)⟩

theorem Inv.resume (hf : f.Ok value) (h : Inv f value s) (hs : step f s .resume = some s') :
    Turn f value s s' := by
  obtain ⟨hsent, wrapper, hstep, rfl⟩ := wrapperStep_eq_some hs
  have htracks := h.tracks.step hf.batch (e := .resume) trivial hstep
  rw [AllShards.step] at hstep
  split at hstep
  case h_2 => cases hstep
  case h_1 hpc =>
    cases hstep
    exact ⟨hsent, rfl, Setup.Frame.refl f _, h.net, htracks, fun _ => rfl, trivial⟩

/-- **The events**: a request, a word of a reply, or a turn of the thread. -/
theorem Inv.step_cases (hf : f.Ok value) (h : Inv f value s) {e : Event}
    (hs : Fetch.step f s e = some s') : e = .send ∨ (∃ i, e = .word i) ∨ Turn f value s s' := by
  cases e with
  | send => exact Or.inl rfl
  | word i => exact Or.inr (Or.inl ⟨i, rfl⟩)
  | poll => exact Or.inr (Or.inr (h.poll hf hs))
  | copy => exact Or.inr (Or.inr (h.copy hf hs))
  | query => exact Or.inr (Or.inr (h.query hf hs))
  | resume => exact Or.inr (Or.inr (h.resume hf hs))

/-- **What every event keeps.** -/
theorem Inv.step (hf : f.Ok value) (h : Inv f value s) {e : Event}
    (hs : Fetch.step f s e = some s') : Inv f value s' := by
  rcases h.step_cases hf hs with rfl | ⟨i, rfl⟩ | hturn
  · exact (h.send hf hs).1
  · exact h.word hf hs
  · exact hturn.inv

/-- **A shard that cannot finish** never can. -/
theorem Inv.ready_of_step (hf : f.Ok value) (h : Inv f value s) {e : Event}
    (hs : Fetch.step f s e = some s') (hi : i < f.cfg.numShards) (hready : f.Ready s' i) :
    f.Ready s i := by
  rcases h.step_cases hf hs with rfl | ⟨j, rfl⟩ | hturn
  · exact ((h.send hf hs).2 i).mp hready
  · obtain ⟨hj, hlt, rfl⟩ := step_word_eq_some hs
    exact ready_of_word hf hlt (hj.trans_le h.net.known) hi hready
  · exact (hturn.ready_iff hf hi).mp hready

theorem Inv.ready_of_run (hf : f.Ok value) (h : Inv f value s) {es : List Event}
    (hrun : Run.run (Fetch.step f) s es = some s') (hi : i < f.cfg.numShards)
    (hready : f.Ready s' i) : f.Ready s i := by
  induction es generalizing s with
  | nil =>
    cases hrun
    exact hready
  | cons e es ih =>
    obtain ⟨s₁, hs₁, hrun₁⟩ := Option.bind_eq_some_iff.mp hrun
    exact h.ready_of_step hf hs₁ hi (ih (h.step hf hs₁) hrun₁)

end Steps

/-! ### Fetches that finish -/

section Progress

variable {f} {value : UInt64 → List UInt8} {s s' : State}

theorem step_send (hlt : s.sent < f.cfg.numShards) :
    ∃ wrapper, step f s .send = some ⟨wrapper, s.sent + 1, s.arrived⟩ :=
  ⟨_, if_pos hlt⟩

theorem step_word {i : ℕ} (hi : i < s.sent) (hlt : s.arrived i < f.words i) :
    step f s (.word i) = some (f.arrive s i) :=
  if_pos ⟨hi, hlt⟩

theorem wrapperStep_eq (hsent : f.cfg.numShards ≤ s.sent) {e : AllShards.Event}
    {wrapper : AllShards.State} (h : AllShards.step f.cfg s.wrapper e = some wrapper) :
    wrapperStep f s e = some { s with wrapper } := by
  rw [wrapperStep, if_neg (not_lt.mpr hsent), h]
  rfl

/-- All shards have finished or can. -/
structure Hopeful (f : Setup) (value : UInt64 → List UInt8) (s : State) : Prop
    extends Inv f value s where
  ready : ∀ i < f.cfg.numShards, f.Ready s i

/-- The requests can be sent. -/
theorem Hopeful.exists_sent (hf : f.Ok value) (h : Hopeful f value s) :
    ∃ es s', Run.run (Fetch.step f) s es = some s' ∧ Hopeful f value s' ∧
      f.cfg.numShards ≤ s'.sent := by
  refine Run.exists_run_of_progress (m := fun s => f.cfg.numShards - s.sent) (fun s h => ?_) h
  rcases Nat.lt_or_ge s.sent f.cfg.numShards with hlt | hge
  · obtain ⟨wrapper, hstep⟩ := step_send hlt
    obtain ⟨hinv, hready⟩ := h.toInv.send hf hstep
    refine Or.inr ⟨_, _, hstep, ⟨hinv, fun i hi => (hready i).mpr (h.ready i hi)⟩, Or.inr ?_⟩
    simp only
    omega
  · exact Or.inl hge

/-- All requests are sent, and all replies are there. -/
structure Complete (f : Setup) (value : UInt64 → List UInt8) (s : State) : Prop
    extends Hopeful f value s where
  sent : f.cfg.numShards ≤ s.sent
  arrived : ∀ i < f.cfg.numShards, s.arrived i = f.words i

/-- The replies can arrive. -/
theorem Hopeful.exists_complete (hf : f.Ok value) (h : Hopeful f value s)
    (hsent : f.cfg.numShards ≤ s.sent) :
    ∃ es s', Run.run (Fetch.step f) s es = some s' ∧ Complete f value s' := by
  have hgoal : ∃ es s', Run.run (Fetch.step f) s es = some s' ∧
      (Hopeful f value s' ∧ f.cfg.numShards ≤ s'.sent) ∧
        ∀ i < f.cfg.numShards, s'.arrived i = f.words i := by
    refine Run.exists_run_of_progress (m := fun s =>
      ∑ i ∈ Finset.range f.cfg.numShards, (f.words i - s.arrived i))
      (fun s ⟨h, hsent⟩ => or_iff_not_imp_left.mpr fun hmore => ?_) ⟨h, hsent⟩
    push Not at hmore
    obtain ⟨i, hi, hne⟩ := hmore
    have hlt : s.arrived i < f.words i := lt_of_le_of_ne (h.net.le i) hne
    have hstep := step_word (hi.trans_le hsent) hlt
    refine ⟨_, _, hstep, ⟨⟨h.toInv.word hf hstep, fun j hj =>
      ready_word hf hlt hi hj (hj.trans_le hsent) (h.ready j hj)⟩, hsent⟩, Or.inr ?_⟩
    refine Finset.sum_lt_sum (fun j _ => ?_) ⟨i, Finset.mem_range.mpr hi, ?_⟩
    · by_cases hj : j = i
      · subst hj
        simp only [Setup.arrive, Function.update_self]
        omega
      · simp only [Setup.arrive, Function.update_of_ne hj, le_refl]
    · simp only [Setup.arrive, Function.update_self]
      omega
  obtain ⟨es, s', hrun, ⟨hhope, hsent'⟩, hall⟩ := hgoal
  exact ⟨es, s', hrun, hhope, hsent', hall⟩

theorem Turn.complete (hf : f.Ok value) (h : Complete f value s) (hturn : Turn f value s s') :
    Complete f value s' := by
  refine ⟨⟨hturn.inv, fun i hi => (hturn.ready_iff hf hi).mpr (h.ready i hi)⟩, ?_, ?_⟩
  · rw [hturn.same]
    exact h.sent
  · rw [hturn.same]
    exact h.arrived

/-- How far the thread is from the `true` of the query, when every shard has finished. -/
def Setup.turns (f : Setup) : AllShards.Pc → ℕ
  | .returned .. => (f.cfg.numShards + 1) * (f.batch.callback.keys.length + 2) + 2
  | .idle => (f.cfg.numShards + 1) * (f.batch.callback.keys.length + 2) + 1
  | .querying _ i => (f.cfg.numShards - i) * (f.batch.callback.keys.length + 2) + 1
  | .copying _ i _ left _ _ =>
    (f.cfg.numShards - (i + 1)) * (f.batch.callback.keys.length + 2) + left.length + 2

/-- A shard is asked and has finished, or all have been asked. -/
theorem Complete.poll (hf : f.Ok value) (h : Complete f value s) {i : ℕ}
    (hpc : s.wrapper.pc = .querying (toInt32 f.batch.key) i) :
    ∃ wrapper, step f s .poll = some { s with wrapper } ∧
      (wrapper.pc = .returned (toInt32 f.batch.key) true ∨
        f.turns wrapper.pc < f.turns s.wrapper.pc) := by
  have hown : toUInt64 (toInt32 f.batch.key) = f.batch.key := toUInt64_toInt32 hf.key
  rcases Nat.lt_or_ge i f.cfg.numShards with hlt | hge
  · obtain ⟨id, hid, hmagic⟩ := hf.ids i hlt
    have hfin := finished_of_ready hf h.net h.arrived h.ready (hlt.trans_le h.sent)
    refine ⟨{ s.wrapper with
      pc := .copying (toInt32 f.batch.key) i f.batch.callback f.batch.callback.keys (fun _ => 0)
        0 }, ?_, Or.inr ?_⟩
    · simp only [step, hpc, hfin]
      refine wrapperStep_eq h.sent ?_
      simp only [AllShards.step, AllShards.poll, hpc, if_pos hlt, hown, h.tracks.rpcList, hid,
        if_neg hmagic, if_true, h.tracks.callback]
    · rw [hpc, Setup.turns, Setup.turns, show f.cfg.numShards - i = f.cfg.numShards - (i + 1) + 1
        by omega, Nat.succ_mul]
      omega
  · refine ⟨{ s.wrapper with pc := .returned (toInt32 f.batch.key) true },
      wrapperStep_eq h.sent (e := .poll _) ?_, Or.inl rfl⟩
    simp only [AllShards.step, AllShards.poll, hpc, if_neg (not_lt.mpr hge)]

/-- The next turn of the thread. -/
theorem Complete.turn (hf : f.Ok value) (h : Complete f value s) :
    s.wrapper.pc = .returned (toInt32 f.batch.key) true ∨ ∃ e wrapper,
      step f s e = some { s with wrapper } ∧
        (wrapper.pc = .returned (toInt32 f.batch.key) true ∨
          f.turns wrapper.pc < f.turns s.wrapper.pc) := by
  have hpassed := h.passed
  have hprog := h.tracks.progress
  cases hpc : s.wrapper.pc with
  | idle =>
    refine Or.inr ⟨.query, { s.wrapper with pc := .querying (toInt32 f.batch.key) 0 },
      wrapperStep_eq h.sent ?_, Or.inr ?_⟩
    · simp only [AllShards.step, hpc]
    · rw [Setup.turns, Setup.turns, Nat.sub_zero, Nat.succ_mul]
      omega
  | querying rpcId i =>
    rw [hpc] at hpassed
    obtain ⟨rfl, -⟩ := hpassed
    obtain ⟨wrapper, hstep, hnear⟩ := h.poll hf hpc
    rw [hpc] at hnear
    exact Or.inr ⟨_, wrapper, hstep, hnear⟩
  | returned rpcId finished =>
    rw [hpc] at hpassed
    obtain ⟨rfl, -⟩ := hpassed
    cases finished with
    | true => exact Or.inl rfl
    | false =>
      refine Or.inr ⟨.resume, { s.wrapper with pc := .idle }, wrapperStep_eq h.sent ?_, Or.inr ?_⟩
      · simp only [AllShards.step, hpc]
      · rw [Setup.turns, Setup.turns]
        omega
  | copying rpcId i callback left offsetAccs acc =>
    rw [hpc] at hpassed hprog
    obtain ⟨rfl, -⟩ := hpassed
    obtain ⟨rfl, done, hcopying⟩ := hprog (toUInt64_toInt32 hf.key)
    cases left with
    | cons k left =>
      obtain ⟨wrapper, offsetAccs', acc', hcopy, hpc'⟩ : ∃ wrapper offsetAccs' acc',
          AllShards.step f.cfg s.wrapper .copy = some wrapper ∧ wrapper.pc =
            .copying (toInt32 f.batch.key) i f.batch.callback left offsetAccs' acc' :=
        ⟨_, _, _, by rw [AllShards.step, AllShards.copy, hpc], rfl⟩
      refine Or.inr ⟨.copy, wrapper, wrapperStep_eq h.sent hcopy, Or.inr ?_⟩
      rw [hpc', Setup.turns, Setup.turns, List.length_cons]
      omega
    | nil =>
      have hacc : acc = f.batch.callback.keys.length * f.cfg.valueSize := by
        rw [hcopying.acc, hcopying.keys, List.append_nil]
      refine Or.inr ⟨.copy, { s.wrapper with pc := .querying (toInt32 f.batch.key) (i + 1) },
        wrapperStep_eq h.sent (e := .copy) ?_, Or.inr ?_⟩
      · simp only [AllShards.step, AllShards.copy, hpc, if_pos hacc]
      · rw [Setup.turns, Setup.turns, List.length_nil]
        omega

/-- **A fetch can be brought to its end**, if every shard has finished or can. -/
theorem Hopeful.exists_returned (hf : f.Ok value) (h : Hopeful f value s) :
    ∃ es s', Run.run (Fetch.step f) s es = some s' ∧
      s'.wrapper.pc = .returned (toInt32 f.batch.key) true := by
  obtain ⟨es₁, s₁, hrun₁, h₁, hsent⟩ := h.exists_sent hf
  obtain ⟨es₂, s₂, hrun₂, h₂⟩ := h₁.exists_complete hf hsent
  obtain ⟨es₃, s₃, hrun₃, -, hret⟩ : ∃ es s', Run.run (Fetch.step f) s₂ es = some s' ∧
      Complete f value s' ∧ s'.wrapper.pc = .returned (toInt32 f.batch.key) true := by
    refine Run.exists_run_of_progress (m := fun s => f.turns s.wrapper.pc) (fun s h => ?_) h₂
    refine (h.turn hf).imp_right fun ⟨e, wrapper, hstep, hnear⟩ => ⟨e, _, hstep, ?_, hnear⟩
    rcases h.toInv.step_cases hf hstep with rfl | ⟨i, rfl⟩ | hturn
    · rw [step, if_neg (not_lt.mpr h.sent)] at hstep
      cases hstep
    · obtain ⟨hi, hlt, -⟩ := step_word_eq_some hstep
      exact absurd (h.arrived i (hi.trans_le h.net.known)) hlt.ne
    · exact hturn.complete hf h
  refine ⟨es₁ ++ (es₂ ++ es₃), s₃, ?_, hret⟩
  rw [Run.run_append, hrun₁, Option.bind_some, Run.run_append, hrun₂, Option.bind_some, hrun₃]

end Progress

/-! ### Whole fetches -/

section Fetches

variable {f} {value : UInt64 → List UInt8} {s₀ : AllShards.State} {s : State} {events : List Event}

/-- `GetParameter` has split the keys, and is before the request of the first shard. In the source
the maps get their entries behind the requests; nothing reads them in between. -/
def Setup.start (f : Setup) (s₀ : AllShards.State) : State :=
  ⟨(AllShards.getParameter f.cfg s₀ f.batch.callback.keys f.batch.callback.values
    f.batch.callback.asyncReqId f.batch.shardRpcIds).1, 0, fun _ => 0⟩

theorem inv_start (hidle : s₀.pc = .idle) (hkey : f.batch.key = s₀.batchRpcIDAcc) :
    Inv f value (f.start s₀) := by
  refine ⟨⟨Nat.zero_le _, fun _ _ => rfl, fun _ => Nat.zero_le _,
    fun i hi => absurd hi (Nat.not_lt_zero i), fun i hi => absurd hi (Nat.not_lt_zero i),
    fun i hi => absurd hi (Nat.not_lt_zero i), fun i hi => absurd hi (Nat.not_lt_zero i)⟩,
    ⟨?_, ?_, ?_, ?_⟩, fun _ => hidle, ?_⟩
  · rw [hkey]
    exact Function.update_self ..
  · rw [hkey]
    exact Function.update_self ..
  · rw [hkey]
    exact Nat.lt_succ_self _
  · show AllShards.Progress _ _ _ _ s₀.pc
    rw [hidle]
    trivial
  · show Passed f _ s₀.pc
    rw [hidle]
    trivial

/-- What holds in every state of a fetch. -/
theorem inv_run (hf : f.Ok value) (hidle : s₀.pc = .idle) (hkey : f.batch.key = s₀.batchRpcIDAcc)
    (hrun : Run.run (step f) (f.start s₀) events = some s) : Inv f value s :=
  Run.run_invariant (fun _ _ _ h hs => h.step hf hs) (inv_start hidle hkey) hrun

/-- **A query that returns `true`**: the values are in place, and every shard could finish. -/
theorem Inv.returned (hf : f.Ok value) (h : Inv f value s)
    (hret : s.wrapper.pc = .returned (toInt32 f.batch.key) true) :
    (∀ k key, f.batch.callback.keys[k]? = some key →
        AllShards.Placed f.cfg value f.batch s.wrapper.memory k key) ∧
      ∀ i < f.cfg.numShards, f.Ready s i := by
  have hprog := h.tracks.progress
  have hpassed := h.passed
  rw [hret] at hprog hpassed
  exact ⟨hprog (toUInt64_toInt32 hf.key) rfl, hpassed.2 rfl⟩

end Fetches

end Fetch

/-! ### Servers that have been loaded -/

namespace LoadDBHelper

variable {h : LoadDBHelper} {getShard : UInt64 → Fin 16} {capacity : ℕ} {kv : PetMultiKV}

/-- A store as `PreLoadDB` leaves it: the threads have ended, in any interleaving, and no `Put` has
evicted a key. -/
def Loaded (h : LoadDBHelper) (getShard : UInt64 → Fin 16) (capacity : ℕ) (kv : PetMultiKV) :
    Prop :=
  ∃ shuffleLoad kv₀ left left' turns,
    KVEnginePetKV.create getShard h.valueSize capacity = .ok kv₀ ∧
    h.threads shuffleLoad = .ok left ∧
    Run.run h.loadStep (kv₀, left) turns = some (kv, left') ∧ (∀ l ∈ left', l = []) ∧
    Run.Guarded KVEnginePetKV.step KVEnginePetKV.Calm kv₀ (h.loadCalls left turns)

theorem Loaded.stored (hload : h.Loaded getShard capacity kv) (ht : 0 < h.warmThreadCount)
    (hcap : h.warmCapacity < 2 ^ 64) {key : UInt64} (hkey : key ∈ h.mine h.warmKeys) :
    kv.stored key = some (h.value key) := by
  obtain ⟨shuffleLoad, kv₀, left, left', turns, hnew, hleft, hrun, hend, hcalm⟩ := hload
  obtain ⟨hcalls, hperm⟩ := load_ended ht hleft hrun hend
  have hkeys : ((h.loadCalls left turns).map PetKV.Call.key).Nodup :=
    hperm.nodup_iff.mpr ((nodup_warmKeys hcap).filter _)
  obtain ⟨c, hc, rfl⟩ := List.mem_map.mp (hperm.mem_iff.mpr hkey)
  have hsome := (KVEnginePetKV.all_stored_iff hnew hkeys hcalls).mpr hcalm c hc
  obtain ⟨hgone, hthere⟩ := KVEnginePetKV.read_new_key hnew hkeys hcalls hc
  rw [PetMultiKV.stored] at hsome ⊢
  by_cases habs : (kv.shmKv (getShard c.key)).dict.Absent c.key
  · rw [hgone habs] at hsome
    cases hsome
  · rw [hthere habs, log_of_mem_loadCalls hc]

theorem Loaded.holdsFloats (hload : h.Loaded getShard capacity kv) (ht : 0 < h.warmThreadCount)
    (hfloat : ∀ k, (h.toFloat k).length = 4) (hfour : 4 ∣ h.valueSize) : kv.HoldsFloats := by
  obtain ⟨shuffleLoad, kv₀, left, left', turns, hnew, hleft, hrun, hend, -⟩ := hload
  refine KVEnginePetKV.holdsFloats_of_run hnew (load_ended ht hleft hrun hend).1 fun c hc => ?_
  rw [log_of_mem_loadCalls hc, length_value hfloat]
  exact hfour

/-- The last word of a value is the float of its key. -/
theorem lastWord_value (hfloat : ∀ k, (h.toFloat k).length = 4) (hsize : 0 < h.valueSize)
    (hfour : 4 ∣ h.valueSize) (key : UInt64) :
    WqRPCParameterClient.lastWord (h.value key) = Bytes.decode (h.toFloat key) := by
  have hlast : h.valueSize / 4 - 1 < h.valueSize / 4 := by omega
  have hword : ((h.value key).drop ((h.valueSize / 4 - 1) * 4)).take 4 = h.toFloat key :=
    word_value hfloat hlast
  rw [List.take_of_length_le (by rw [List.length_drop, length_value hfloat]; omega),
    show (h.valueSize / 4 - 1) * 4 = h.valueSize - 4 by omega] at hword
  rw [WqRPCParameterClient.lastWord, length_value hfloat, hword]

end LoadDBHelper

/-- The bytes that the server sends for `keys`. -/
def serverReply (flags : Flags) (kv : PetMultiKV) (buf : Bytes.Mem) (keys : List UInt64) :
    List UInt8 :=
  match rpcPsGet flags kv buf keys with
  | .ok (buf', wrs) => assembled buf' wrs
  | .error _ => []

theorem serverReply_eq {flags : Flags} {kv : PetMultiKV} (hkv : kv.HoldsFloats)
    (hmethod : flags.prefetchMethod ≤ 1) {keys : List UInt64}
    (hmax : keys.length ≤ flags.maxKvNumPerRequest) {value : UInt64 → List UInt8}
    (hstored : ∀ key ∈ keys, kv.stored key = some (value key)) (buf : Bytes.Mem) :
    serverReply flags kv buf keys = keys.flatMap value := by
  obtain ⟨wrs, hget, htiles, htotal⟩ := rpcPsGet_spec hkv hmethod hmax buf
  simp only [serverReply, hget]
  rw [htiles.assembled_eq, htotal, Bytes.load_store_self]
  exact List.flatMap_congr fun key hkey => by rw [hstored key hkey, Option.getD_some]

namespace Fetch

/-- A fetch of `keys` from `numShards` servers, as the wrapper `s₀` with the receive buffers `recv`
starts it. -/
def setup (h : LoadDBHelper) (flags : Flags) (kv : ℕ → PetMultiKV) (buf : ℕ → Bytes.Mem)
    (numShards : ℕ) (recv : AllShards.RecvBuffers) (s₀ : AllShards.State) (keys : List UInt64)
    (values asyncReqId : ℕ) (shardRpcIds : List ℤ) : Setup :=
  let cfg : AllShards.Config := ⟨numShards, h.keyPartition, h.valueSize, recv.buffer⟩
  let s₁ := (AllShards.getParameter cfg s₀ keys values asyncReqId shardRpcIds).1
  ⟨cfg, AllShards.batchOf s₀ s₁ keys values asyncReqId shardRpcIds,
    fun i => if i < numShards then
        serverReply flags (kv i) (buf i) (s₁.partitionedKeyBuffer i) else []⟩

section Loaded

variable {h : LoadDBHelper} {flags : Flags} {kv : ℕ → PetMultiKV} {buf : ℕ → Bytes.Mem}
  {numShards : ℕ} {recv : AllShards.RecvBuffers} {s₀ : AllShards.State} {keys : List UInt64}
  {values asyncReqId : ℕ} {shardRpcIds : List ℤ} {getShard : UInt64 → Fin 16} {capacity : ℕ}
  {baseAddr maxKv : ℕ} {calls : List (ℕ → ℕ)}

/-- The keys that are requested from a shard. -/
theorem setup_requested {f : Setup} (hf : f = setup h flags kv buf numShards recv s₀ keys values
    asyncReqId shardRpcIds) (hpart : ∀ k ∈ keys, h.keyPartition k < numShards)
    (hcount : ∀ i < numShards, (keys.filter fun k => h.keyPartition k = i).length ≤ 500) (i : ℕ) :
    f.batch.requested i = keys.filter fun k => h.keyPartition k = i := by
  have hpart' : ∀ k ∈ keys, f.cfg.keyPartition k < f.cfg.numShards := by
    rw [hf]
    exact hpart
  subst hf
  show (AllShards.partitionKeys _ keys (fun _ => []) i).take 500 = _
  rw [AllShards.partitionKeys_eq, List.nil_append]
  refine List.take_of_length_le ?_
  show (keys.filter fun k => h.keyPartition k = i).length ≤ 500
  rcases Nat.lt_or_ge i numShards with hlt | hge
  · exact hcount i hlt
  · have hnil : (keys.filter fun k => h.keyPartition k = i) = [] :=
      AllShards.filter_keyPartition_eq_nil hpart' hge
    rw [hnil]
    exact Nat.zero_le 500

/-- **The places of the batch**, in the buffers of `GetReceiveBuffer`. -/
theorem setup_places {f : Setup} (hf : f = setup h flags kv buf numShards recv s₀ keys values
    asyncReqId shardRpcIds) (hfour : 4 ∣ h.valueSize)
    (hreq : ∀ i < numShards, (f.batch.requested i).length ≤ maxKv)
    (hrecv : recv.Made baseAddr maxKv h.valueSize numShards calls)
    (hslot : asyncReqId < calls.length)
    (hvalues : values + keys.length * h.valueSize + 4 ≤ baseAddr ∨
      baseAddr + AllShards.dsmSize ≤ values) : f.Places := by
  have hbuffer : ∀ i, f.buffer i = recv.buffer i asyncReqId := fun i => by rw [hf]; rfl
  have hshards : f.cfg.numShards = numShards := by rw [hf]; rfl
  have hsize : f.cfg.valueSize = h.valueSize := by rw [hf]; rfl
  have hlast : ∀ i < numShards, f.last i ≤ recv.buffer i asyncReqId + maxKv * h.valueSize := by
    intro i hi
    rw [Setup.last, hbuffer, hsize]
    exact Nat.add_le_add_left (Nat.mul_le_mul_right _ (hreq i hi)) _
  have hplace : f.batch.callback = ⟨keys, values, asyncReqId⟩ := by rw [hf]; rfl
  have hpos := hrecv.pos
  have hbase := hrecv.base
  rw [← hshards] at hlast
  refine ⟨fun i hi => ?_, fun i hi => ?_, fun i j hij hj => ?_, fun i hi => ?_⟩
  · obtain ⟨-, hlo, hhi⟩ := hrecv.buffer (hshards ▸ hi) hslot hfour
    have := hlast i hi
    rw [hbuffer]
    omega
  · rw [hbuffer]
    exact (hrecv.buffer (hshards ▸ hi) hslot hfour).1
  · have horder := hrecv.order hij (hshards ▸ hj) hslot
    have := hlast i (hij.trans hj)
    rw [hbuffer, hbuffer]
    omega
  · obtain ⟨-, hlo, hhi⟩ := hrecv.buffer (hshards ▸ hi) hslot hfour
    have := hlast i hi
    rw [hbuffer, hplace, hsize]
    simp only
    omega

/-- The batch is as the results above want it. -/
theorem setup_ok {f : Setup} (hf : f = setup h flags kv buf numShards recv s₀ keys values
    asyncReqId shardRpcIds) (hfloat : ∀ k, (h.toFloat k).length = 4)
    (hword : ∀ k ∈ h.warmKeys, Bytes.decode (h.toFloat k) ≠ finishMagic)
    (hsize : 0 < h.valueSize) (hfour : 4 ∣ h.valueSize) (hcap : h.warmCapacity < 2 ^ 64)
    (ht : 0 < h.warmThreadCount)
    (hload : ∀ i < numShards, { h with serverId := i }.Loaded getShard capacity (kv i))
    (hmethod : flags.prefetchMethod ≤ 1) (hacc : s₀.batchRpcIDAcc < 2 ^ 31)
    (hwarm : ∀ k ∈ keys, k ∈ h.warmKeys) (hpart : ∀ k ∈ keys, h.keyPartition k < numShards)
    (hreq : ∀ i, f.batch.requested i = keys.filter fun k => h.keyPartition k = i)
    (hmax : ∀ i < numShards, (f.batch.requested i).length ≤ flags.maxKvNumPerRequest)
    (hlen : shardRpcIds.length = numShards)
    (hids : ∀ id ∈ shardRpcIds, toUInt64 id ≠ AllShards.magicRpcIdForEmptyRequest)
    (hplaces : f.Places) : f.Ok h.value := by
  subst hf
  set f := setup h flags kv buf numShards recv s₀ keys values asyncReqId shardRpcIds
  have hpart' : ∀ k ∈ keys, f.cfg.keyPartition k < f.cfg.numShards := hpart
  have hreply : ∀ i, f.reply i = (f.batch.requested i).flatMap h.value := by
    intro i
    show (if i < numShards then serverReply flags (kv i) (buf i) (f.batch.requested i) else []) = _
    split_ifs with hlt
    · have hserver := hload i hlt
      refine serverReply_eq (hserver.holdsFloats ht hfloat hfour) hmethod (hmax i hlt)
        (fun k hk => ?_) (buf i)
      rw [hreq, List.mem_filter] at hk
      exact hserver.stored ht hcap (List.mem_filter.mpr ⟨hwarm k hk.1, hk.2⟩)
    · have hnil : f.batch.requested i = [] := by
        rw [hreq]
        exact AllShards.filter_keyPartition_eq_nil hpart' (not_lt.mp hlt)
      rw [hnil, List.flatMap_nil]
  have hmagic : ∀ i id, f.batch.shardRpcIds[i]? = some id →
      toUInt64 id ≠ AllShards.magicRpcIdForEmptyRequest := fun i id hid =>
    hids id (List.mem_of_getElem? hid)
  refine ⟨hplaces, ⟨hpart, hreq, fun k => LoadDBHelper.length_value hfloat k, hfour, fun i hi => ?_,
    fun i id hid hempty => absurd hempty (hmagic i id hid)⟩, hsize, hacc, fun i hi => ?_, hreply,
    fun k hk => ?_⟩
  · have hbytes : ((f.batch.requested i).flatMap h.value).length =
        (f.batch.requested i).length * f.cfg.valueSize :=
      (Bytes.length_flatMap_eq_iff fun k _ => (LoadDBHelper.length_value hfloat k).le).mpr
        fun k _ => LoadDBHelper.length_value hfloat k
    rw [hbytes]
    exact (hplaces.values i hi).imp_left fun hle => (Nat.le_add_right _ 4).trans hle
  · have hi' : i < shardRpcIds.length := hlen ▸ hi
    exact ⟨_, List.getElem?_eq_getElem hi', hids _ (List.getElem_mem hi')⟩
  · rw [LoadDBHelper.lastWord_value hfloat hsize hfour]
    exact hword k (hwarm k hk)

/-- **A fetch from servers that have been loaded.** Whatever the order in which requests are sent,
words of the replies arrive and the thread takes its turns: when the query returns `true`, every key
has the value that was loaded for it. And from every state that is reached the fetch can be brought
to this end exactly if every server has a key of the batch, or else borrows its sentinel: the part
of the server before it ends where its receive buffer begins, and the last word of that part has not
arrived, or has arrived after the sentinel was stored. -/
theorem fetch_loaded (hfloat : ∀ k, (h.toFloat k).length = 4)
    (hword : ∀ k ∈ h.warmKeys, Bytes.decode (h.toFloat k) ≠ finishMagic)
    (hsize : 0 < h.valueSize) (hfour : 4 ∣ h.valueSize) (hcap : h.warmCapacity < 2 ^ 64)
    (ht : 0 < h.warmThreadCount)
    (hload : ∀ i < numShards, { h with serverId := i }.Loaded getShard capacity (kv i))
    (hmethod : flags.prefetchMethod ≤ 1) (hidle : s₀.pc = .idle) (hacc : s₀.batchRpcIDAcc < 2 ^ 31)
    (hwarm : ∀ k ∈ keys, k ∈ h.warmKeys) (hpart : ∀ k ∈ keys, h.keyPartition k < numShards)
    (hcount : ∀ i < numShards, (keys.filter fun k => h.keyPartition k = i).length ≤
      min 500 (min maxKv flags.maxKvNumPerRequest))
    (hlen : shardRpcIds.length = numShards)
    (hids : ∀ id ∈ shardRpcIds, toUInt64 id ≠ AllShards.magicRpcIdForEmptyRequest)
    (hrecv : recv.Made baseAddr maxKv h.valueSize numShards calls)
    (hslot : asyncReqId < calls.length)
    (hvalues : values + keys.length * h.valueSize + 4 ≤ baseAddr ∨
      baseAddr + AllShards.dsmSize ≤ values)
    {f : Setup} (hf : f = setup h flags kv buf numShards recv s₀ keys values asyncReqId shardRpcIds)
    {events : List Event} {s : State}
    (hrun : Run.run (step f) (f.start s₀) events = some s) :
    (s.wrapper.pc = .returned (toInt32 s₀.batchRpcIDAcc) true → ∀ k (hk : k < keys.length),
        Bytes.load s.wrapper.memory (values + k * h.valueSize) h.valueSize = h.value keys[k]) ∧
      ((∃ events' s', Run.run (step f) s events' = some s' ∧
          s'.wrapper.pc = .returned (toInt32 s₀.batchRpcIDAcc) true) ↔
        ∀ i < numShards, (∃ k ∈ keys, h.keyPartition k = i) ∨ ∃ j, f.Shares j i ∧
          (s.arrived j < f.words j ∨ (i < s.sent ∧ f.finished s.wrapper.memory i = true))) := by
  have hreq := setup_requested hf hpart fun i hi => (hcount i hi).trans (min_le_left _ _)
  have hmax := fun i hi => (hreq i ▸ hcount i hi).trans (min_le_right 500 _)
  have hplaces := setup_places hf hfour (fun i hi => (hmax i hi).trans (min_le_left _ _)) hrecv
    hslot hvalues
  have hok := setup_ok hf hfloat hword hsize hfour hcap ht hload hmethod hacc hwarm hpart hreq
    (fun i hi => (hmax i hi).trans (min_le_right _ _)) hlen hids hplaces
  have hne : ∀ i, (f.batch.requested i ≠ [] ↔ ∃ k ∈ keys, h.keyPartition k = i) := by
    intro i
    rw [hreq, Ne, List.filter_eq_nil_iff]
    push Not
    exact exists_congr fun k => and_congr_right fun _ => decide_eq_true_iff
  subst hf
  have hinv := inv_run hok hidle rfl hrun
  refine ⟨fun hret k hk => ?_, ⟨?_, fun hready => ?_⟩⟩
  · exact (hinv.returned hok hret).1 k keys[k] (List.getElem?_eq_getElem hk)
  · rintro ⟨events', s', hrun', hret⟩ i hi
    have hinv' := Run.run_invariant (fun _ _ _ h hs => h.step hok hs) hinv hrun'
    have hready := hinv.ready_of_run hok hrun' hi ((hinv'.returned hok hret).2 i hi)
    exact hready.imp_left (hne i).mp
  · exact Hopeful.exists_returned hok ⟨hinv, fun i hi => (hready i hi).imp_left (hne i).mpr⟩

/-- Two servers for the keys `1`, `2` and `3`. -/
def twoServers (i : ℕ) : LoadDBHelper := { LoadDBHelper.sample 1 3 8 with serverId := i }

theorem exists_loaded {i : ℕ} (hi : i < 2) :
    ∃ kv, (twoServers i).Loaded (fun _ => 0) (16 * 1310720) kv := by
  have heval : ∀ i < 2,
      ((KVEnginePetKV.create (fun _ => 0) 8 (16 * 1310720)).toOption.any fun kv₀ =>
        (Run.run (twoServers i).loadStep (kv₀, [[1, 2, 3]])
          (List.replicate 3 ⟨0, PetKV.quietEpochs, PetKV.quietEpochs⟩)).any fun s =>
          decide (s.2 = [[]]) &&
          decide (Run.Guarded KVEnginePetKV.step KVEnginePetKV.Calm kv₀
            ((twoServers i).loadCalls [[1, 2, 3]]
              (List.replicate 3 ⟨0, PetKV.quietEpochs, PetKV.quietEpochs⟩)))) = true := by
    decide +kernel
  have hi := heval i hi
  simp only [Option.any_eq_true, Bool.and_eq_true, decide_eq_true_eq] at hi
  obtain ⟨kv₀, hkv₀, ⟨kv, left'⟩, hrun, hend, hcalm⟩ := hi
  simp only at hend
  subst hend
  have hleft : (twoServers i).threads false = .ok [[1, 2, 3]] := by
    show (LoadDBHelper.sample 1 3 8).threads false = _
    rfl
  exact ⟨kv, false, kv₀, _, _, _, eq_ok_of_toOption hkv₀, hleft, hrun, by decide, hcalm⟩

/-- The receive buffers for them, with room for 300 values of 8 bytes each. -/
def twoBuffers : AllShards.RecvBuffers :=
  .afterCalls 4096 (AllShards.recvSize 300 8) 2 [fun _ => 0]

theorem made_twoBuffers : twoBuffers.Made 4096 300 8 2 [fun _ => 0] :=
  ⟨rfl, by decide, by decide, by decide, by decide, by decide⟩

/-- The keys `1` and `2`, one for each server. -/
theorem fetch_loaded_two : ∃ kv events s,
    Run.run (step (setup (twoServers 0) ⟨true, 1, 300⟩ kv (fun _ _ => 0) 2 twoBuffers
        AllShards.start [1, 2] 1000 0 [8, 9]))
      ((setup (twoServers 0) ⟨true, 1, 300⟩ kv (fun _ _ => 0) 2 twoBuffers
        AllShards.start [1, 2] 1000 0 [8, 9]).start AllShards.start) events = some s ∧
      s.wrapper.pc = .returned 0 true ∧
      Bytes.load s.wrapper.memory 1008 8 = Bytes.encode32 2 ++ Bytes.encode32 2 := by
  obtain ⟨kv₀, h₀⟩ := exists_loaded (show 0 < 2 by decide)
  obtain ⟨kv₁, h₁⟩ := exists_loaded (show 1 < 2 by decide)
  set kv : ℕ → PetMultiKV := fun i => if i = 0 then kv₀ else kv₁
  have hload : ∀ i < 2, (twoServers i).Loaded (fun _ => 0) (16 * 1310720) (kv i) := by
    intro i hi
    obtain rfl | rfl : i = 0 ∨ i = 1 := by omega
    · exact h₀
    · exact h₁
  have hword : ((twoServers 0).warmKeys.all fun k =>
      decide (Bytes.decode ((twoServers 0).toFloat k) ≠ finishMagic)) = true := by
    decide
  have hkeys : ([1, 2].all fun k => decide (k ∈ (twoServers 0).warmKeys) &&
      decide ((twoServers 0).keyPartition k < 2)) = true := by
    decide
  simp only [List.all_eq_true, Bool.and_eq_true, decide_eq_true_eq] at hword hkeys
  set f := setup (twoServers 0) ⟨true, 1, 300⟩ kv (fun _ _ => 0) 2 twoBuffers
    AllShards.start [1, 2] 1000 0 [8, 9] with hf
  have hfetch := fun (events : List Event) (s : State)
    (hrun : Run.run (step f) (f.start AllShards.start) events = some s) =>
    fetch_loaded (h := twoServers 0) (fun k => Bytes.length_encode32) hword (by decide)
      (by decide) (by decide) (by decide) hload (by decide) rfl (by decide)
      (fun k hk => (hkeys k hk).1) (fun k hk => (hkeys k hk).2) (by decide) rfl (by decide)
      made_twoBuffers (by decide) (Or.inl (by decide)) hf hrun
  have hserved : ∀ i < 2, ∃ k ∈ ([1, 2] : List UInt64), (twoServers 0).keyPartition k = i := by
    decide
  obtain ⟨events, s, hrun, hret⟩ := (hfetch [] _ rfl).2.mpr fun i hi => Or.inl (hserved i hi)
  exact ⟨kv, events, s, hrun, hret, (hfetch events s hrun).1 hret 1 (by decide)⟩

end Loaded

end Fetch

end PetPS
