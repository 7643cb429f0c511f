import Mathlib.Data.List.Nodup
import PetPS.Lib.Threads

/-!
# Bringing a cluster up

`Keeper.cpp` and `DSMKeeper`: the processes of a cluster find each other through memcached. A server
adds one to `serverNum` and takes the number as its node id. A client reads `serverNum` and
`clientNum`, takes their sum as its node id, waits until a server has signalled, sets `clientNum`
back to `0` and adds one. Then every node exchanges its meta data with the others: it stores its own
under `me-other` and waits for `other-me`. Node `0` stores nothing in advance; every other node
first stores its meta data for all servers, before the queue pair numbers in it are set.

A node connects to as many servers as it has counted, and then to the clients, of which it waits for
`expectedClientNR`. The constructor of `DSM` does not pass that number, so it is `1`, and the number
of servers is taken to be the number of machines less one.

Every access to memcached is one step, and the steps of the processes interleave in any way. A
process that waits reads again later; it is a process that does not move. Node ids are natural
numbers, and the counters in memcached, which are decimal texts, too.

A cluster starts with what is in memcached. `restartMemc.sh` sets the two counters to `0` and leaves
everything else: the signal of an earlier cluster, and the meta data that its nodes have stored for
each other. A memcached that has just been started has no counters. What holds of a node by itself
holds from every start.

## Main results

* `NodeRun.move_cases` — the steps of a node that has its id
* `NodeRun.Conn.move` — what they keep, whatever is in memcached
* `NodeRun.Counted.move` — what they keep of the number of servers
-/

namespace PetPS

namespace Mayfly

/-! ### The processes -/

/-- The queue pair numbers in the meta data of a node. -/
inductive Qpns
  /-- They are not set. -/
  | unset
  /-- They are for node `remote`. -/
  | of (remote : ℕ)
  /-- They are those of an earlier cluster. -/
  | old
  deriving DecidableEq

/-- What is in memcached. -/
structure Memc where
  serverNum : Option ℕ
  clientNum : Option ℕ
  /-- `xmh-consistent-dsm`. -/
  consistent : Option ℕ
  /-- Under `a-b`, the meta data of node `a`. -/
  exchange : ℕ → ℕ → Option Qpns

/-- `memSet` of meta data under `a-b`. -/
def Memc.store (m : Memc) (a b : ℕ) (qpns : Qpns) : Memc :=
  { m with exchange := Function.update m.exchange a (Function.update (m.exchange a) b (some qpns)) }

/-- `ClusterInfo`. -/
structure ClusterInfo where
  serverNR : ℕ
  clientNR : ℕ

/-- The default of the constructor of `DSMKeeper`. -/
def expectedClientNR : ℕ := 1

/-- `machineNR`, the `maxServer` of the keeper. -/
def ClusterInfo.machineNR (c : ClusterInfo) : ℕ := c.clientNR + c.serverNR

/-- `getServerNR`, and the `serverCount` of `serverConnect`. -/
def ClusterInfo.getServerNR (c : ClusterInfo) : ℕ := c.machineNR - expectedClientNR

/-- A server in `serverEnter`. -/
inductive ServerEnter
  | probe
  | init
  | enter
  | signal (id : ℕ)

/-- A client in `serverEnter`. -/
inductive ClientEnter
  | readServers
  | readClients (serverNum : ℕ)
  | reserve (serverNum curClientNum : ℕ)
  | await (id : ℕ)
  | reset (id : ℕ)
  | count (id : ℕ)
  | signal (id : ℕ)

/-- A node in `run`. The lists are the nodes that it has still to connect to, and `last` is
`lastClientNum`. -/
inductive RunPc
  | store (sid : ℕ)
  | countServers
  | countClients
  | connect (todo : List ℕ) (last : ℕ)
  | receive (remote : ℕ) (todo : List ℕ) (last : ℕ)
  | poll (last : ℕ)
  | up
  deriving DecidableEq

/-- A node that has its id. -/
structure NodeRun where
  isClient : Bool
  /-- `myNodeID`. -/
  id : ℕ
  /-- The `serverNum` of `serverConnect`. -/
  serverNum : ℕ
  /-- The queue pair numbers in `localMeta`. -/
  qpns : Qpns
  /-- `remoteInfo`, and the queue pairs. -/
  remoteInfo : ℕ → Option Qpns
  pc : RunPc

/-- A process of the cluster. -/
inductive Node
  | server (pc : ServerEnter)
  | client (globalID : ℕ) (pc : ClientEnter)
  /-- A client with the id of a server. -/
  | exited
  | running (r : NodeRun)

variable (c : ClusterInfo)

/-- The servers that a node connects to. -/
def NodeRun.servers (r : NodeRun) : List ℕ := (List.range r.serverNum).filter (· ≠ r.id)

/-- The clients that a node connects to, from number `lo` up to number `hi`. -/
def NodeRun.clients (r : NodeRun) (lo hi : ℕ) : List ℕ :=
  ((List.range' lo (hi - lo)).map (c.getServerNR + ·)).filter (· ≠ r.id)

/-- `run` and `serverConnect`, with `connectNode` in two steps. -/
def NodeRun.move (m : Memc) (r : NodeRun) : Option (Memc × NodeRun) :=
  match r.pc with
  | .store sid =>
    if sid < c.getServerNR then
      some (m.store r.id sid r.qpns, { r with pc := .store (sid + 1) })
    else some (m, { r with pc := .countServers })
  | .countServers => some (m, { r with serverNum := m.serverNum.getD 0, pc := .countClients })
  | .countClients =>
    let clientNum := m.clientNum.getD 0
    -- `is_server`
    let clients := if r.id < c.machineNR then r.clients c 0 clientNum else []
    some (m, { r with pc := .connect (r.servers ++ clients) clientNum })
  | .connect (remote :: todo) last =>
    some (m.store r.id remote (.of remote),
      { r with qpns := .of remote, pc := .receive remote todo last })
  | .connect [] last =>
    if r.id < c.machineNR ∧ last < expectedClientNR then some (m, { r with pc := .poll last })
    else some (m, { r with
      qpns := .of r.id
      remoteInfo := Function.update r.remoteInfo r.id (some (.of r.id))
      pc := .up })
  | .receive remote todo last =>
    (m.exchange remote r.id).map fun qpns => (m, { r with
      remoteInfo := Function.update r.remoteInfo remote (some qpns)
      pc := .connect todo last })
  | .poll last =>
    match m.clientNum with
    | none => none
    | some clientNum =>
      if last < clientNum then
        some (m, { r with pc := .connect (r.clients c last clientNum) clientNum })
      else none
  | .up => none

/-- The constructor of `DSM`, from the keeper on. -/
def Node.construct (isClient : Bool) (id : ℕ) : Node :=
  if isClient ∧ id < c.serverNR then .exited
  else .running ⟨isClient, id, 0, .unset, fun _ => none, if 0 < id then .store 0 else .countServers⟩

/-- The next access of a process to memcached. -/
def Node.move (m : Memc) : Node → Option (Memc × Node)
  | .server .probe => some (m, .server (if m.serverNum.isSome then .enter else .init))
  | .server .init => some ({ m with serverNum := some 0 }, .server .enter)
  | .server .enter =>
    m.serverNum.map fun v => ({ m with serverNum := some (v + 1) }, .server (.signal v))
  | .server (.signal id) => some ({ m with consistent := some 1 }, Node.construct c false id)
  | .client g .readServers => some (m, .client g (.readClients (m.serverNum.getD 0)))
  | .client g (.readClients serverNum) =>
    some (m, .client g (.reserve serverNum (m.clientNum.getD 0)))
  | .client g (.reserve serverNum cur) =>
    some ({ m with clientNum := some (cur + 1) }, .client g (.await (serverNum + cur)))
  | .client g (.await id) =>
    match m.consistent with
    | none => none
    | some v => if v ≥ 1 then some (m, .client g (.reset id)) else none
  | .client g (.reset id) => some ({ m with clientNum := some 0 }, .client g (.count id))
  | .client g (.count id) =>
    some ({ m with clientNum := m.clientNum.map (· + 1) }, .client g (.signal id))
  | .client g (.signal id) =>
    some ({ m with consistent := some (g + 1) }, Node.construct c true id)
  | .exited => none
  | .running r => (r.move c m).map fun (m', r') => (m', .running r')

/-- A client that leaves `await` has only read. -/
theorem Node.move_await {m m' : Memc} {p' : Node} {g id : ℕ}
    (h : Node.move c m (.client g (.await id)) = some (m', p')) :
    m' = m ∧ p' = .client g (.reset id) := by
  rw [Node.move] at h
  cases hget : m.consistent with
  | none => rw [hget] at h; cases h
  | some v =>
    simp only [hget] at h
    split_ifs at h
    cases h
    exact ⟨rfl, rfl⟩

/-- Memcached and the processes. -/
abbrev ClusterState : Type := Memc × List Node

/-- A step of one of the processes. -/
def clusterStep : ClusterState → ℕ → Option ClusterState := Threads.step (Node.move c)

/-- A cluster whose clients have the given global ids, before its first step. -/
def startCluster (m : Memc) (serverNR : ℕ) (globalIDs : List ℕ) : ClusterState :=
  (m, globalIDs.map (fun g => .client g .readServers) ++ List.replicate serverNR (.server .probe))

/-- Memcached as `restartMemc.sh` leaves it. -/
structure Memc.Restarted (m : Memc) : Prop where
  serverNum : m.serverNum = some 0
  clientNum : m.clientNum = some 0

/-- The meta data that is in memcached is that of an earlier cluster. -/
def Memc.Leftover (m : Memc) : Prop := ∀ a b qpns, m.exchange a b = some qpns → qpns = .old

/-- Memcached as `restartMemc.sh` leaves it when there was nothing in it. -/
def Memc.new : Memc := ⟨some 0, some 0, none, fun _ _ => none⟩

/-- The same, but for the meta data that node `a` of an earlier cluster has stored for `b`. -/
def Memc.newWith (a b : ℕ) : Memc := Memc.new.store a b .old

theorem Memc.restarted_new : Memc.new.Restarted := ⟨rfl, rfl⟩

theorem Memc.leftover_new : Memc.new.Leftover := nofun

/-! ### What a node does -/

section Moves

variable {c} {m m' : Memc} {r r' : NodeRun}

/-- **The steps of a node.** -/
inductive NodeRun.Moved (c : ClusterInfo) (m : Memc) (r : NodeRun) : Memc → NodeRun → Prop
  | store (sid : ℕ) (hpc : r.pc = .store sid) (hlt : sid < c.getServerNR) :
      Moved c m r (m.store r.id sid r.qpns) { r with pc := .store (sid + 1) }
  | stored (sid : ℕ) (hpc : r.pc = .store sid) (hge : c.getServerNR ≤ sid) :
      Moved c m r m { r with pc := .countServers }
  | servers (hpc : r.pc = .countServers) :
      Moved c m r m { r with serverNum := m.serverNum.getD 0, pc := .countClients }
  | clients (hpc : r.pc = .countClients) (todo : List ℕ)
      (htodo : todo = r.servers ++
        if r.id < c.machineNR then r.clients c 0 (m.clientNum.getD 0) else []) :
      Moved c m r m { r with pc := .connect todo (m.clientNum.getD 0) }
  | offer (remote : ℕ) (todo : List ℕ) (last : ℕ) (hpc : r.pc = .connect (remote :: todo) last) :
      Moved c m r (m.store r.id remote (.of remote))
        { r with qpns := .of remote, pc := .receive remote todo last }
  | receive (remote : ℕ) (todo : List ℕ) (last : ℕ) (qpns : Qpns)
      (hpc : r.pc = .receive remote todo last) (hget : m.exchange remote r.id = some qpns) :
      Moved c m r m { r with
        remoteInfo := Function.update r.remoteInfo remote (some qpns), pc := .connect todo last }
  | wait (last : ℕ) (hpc : r.pc = .connect [] last) (hlast : last < expectedClientNR) :
      Moved c m r m { r with pc := .poll last }
  | late (last clientNum : ℕ) (hpc : r.pc = .poll last) (hget : m.clientNum = some clientNum)
      (hlt : last < clientNum) :
      Moved c m r m { r with pc := .connect (r.clients c last clientNum) clientNum }
  | up (last : ℕ) (hpc : r.pc = .connect [] last)
      (hlast : r.id < c.machineNR → expectedClientNR ≤ last) :
      Moved c m r m { r with
        qpns := .of r.id, remoteInfo := Function.update r.remoteInfo r.id (some (.of r.id)),
        pc := .up }

theorem NodeRun.move_cases (h : r.move c m = some (m', r')) : NodeRun.Moved c m r m' r' := by
  rw [NodeRun.move] at h
  cases hpc : r.pc with
  | store sid =>
    simp only [hpc] at h
    split_ifs at h with hlt
    · cases h
      exact .store sid hpc hlt
    · cases h
      exact .stored sid hpc (not_lt.mp hlt)
  | countServers =>
    simp only [hpc] at h
    cases h
    exact .servers hpc
  | countClients =>
    simp only [hpc] at h
    cases h
    exact .clients hpc _ rfl
  | connect todo last =>
    cases todo with
    | cons remote todo =>
      simp only [hpc] at h
      cases h
      exact .offer remote todo last hpc
    | nil =>
      simp only [hpc] at h
      split_ifs at h with hwait
      · cases h
        exact .wait last hpc hwait.2
      · cases h
        exact .up last hpc fun hid => not_lt.mp fun hlast => hwait ⟨hid, hlast⟩
  | receive remote todo last =>
    simp only [hpc] at h
    obtain ⟨qpns, hget, heq⟩ := Option.map_eq_some_iff.mp h
    cases heq
    exact .receive remote todo last qpns hpc hget
  | poll last =>
    simp only [hpc] at h
    cases hget : m.clientNum with
    | none => rw [hget] at h; cases h
    | some clientNum =>
      simp only [hget] at h
      split_ifs at h with hlt
      cases h
      exact .late last clientNum hpc hget hlt
  | up =>
    simp only [hpc] at h
    cases h

/-- A node that does not move waits for the meta data of another node or for a client, or is up. -/
theorem NodeRun.stuck (h : r.move c m = none) :
    (∃ remote todo last, r.pc = .receive remote todo last ∧ m.exchange remote r.id = none) ∨
      (∃ last, r.pc = .poll last ∧ ∀ clientNum, m.clientNum = some clientNum → clientNum ≤ last) ∨
      r.pc = .up := by
  rw [NodeRun.move] at h
  cases hpc : r.pc with
  | store sid =>
    simp only [hpc] at h
    split_ifs at h
  | countServers | countClients => simp only [hpc] at h; cases h
  | connect todo last =>
    cases todo with
    | cons remote todo => simp only [hpc] at h; cases h
    | nil =>
      simp only [hpc] at h
      split_ifs at h
  | receive remote todo last =>
    simp only [hpc, Option.map_eq_none_iff] at h
    exact Or.inl ⟨remote, todo, last, rfl, h⟩
  | poll last =>
    refine Or.inr (Or.inl ⟨last, rfl, fun clientNum hget => ?_⟩)
    simp only [hpc, hget] at h
    split_ifs at h with hlt
    exact not_lt.mp hlt
  | up => exact Or.inr (Or.inr rfl)

end Moves

/-! ### What memcached keeps -/

/-- The number of servers that have entered. -/
def Memc.servers (m : Memc) : ℕ := m.serverNum.getD 0

/-- Meta data is not removed. -/
def Memc.Le (m m' : Memc) : Prop := ∀ a b, (m.exchange a b).isSome → (m'.exchange a b).isSome

section Memc

variable {m : Memc} {a b a' b' : ℕ} {qpns : Qpns}

theorem Memc.Le.refl (m : Memc) : m.Le m := fun _ _ h => h

theorem Memc.store_self : (m.store a b qpns).exchange a b = some qpns := by
  simp only [Memc.store, Function.update_self]

theorem Memc.store_of_ne (h : ¬ (a' = a ∧ b' = b)) :
    (m.store a b qpns).exchange a' b' = m.exchange a' b' := by
  by_cases ha : a' = a
  · subst ha
    have hb : b' ≠ b := fun hb => h ⟨rfl, hb⟩
    simp only [Memc.store, Function.update_self, Function.update_of_ne hb]
  · simp only [Memc.store, Function.update_of_ne ha]

theorem Memc.le_store : m.Le (m.store a b qpns) := by
  intro a' b' h
  by_cases heq : a' = a ∧ b' = b
  · obtain ⟨rfl, rfl⟩ := heq
    rw [Memc.store_self]
    rfl
  · rwa [Memc.store_of_ne heq]

end Memc

/-! ### What is known of a node -/

/-- The meta data for the nodes below has been stored in advance. -/
def RunPc.stored : RunPc → ℕ
  | .store sid => sid
  | _ => c.getServerNR

/-- The nodes that are still to be connected to. -/
def RunPc.todo : RunPc → List ℕ
  | .connect todo _ => todo
  | .receive remote todo _ => remote :: todo
  | _ => []

/-- The number of clients to which the node has connected, or is about to. -/
def RunPc.last : RunPc → ℕ
  | .connect _ last | .receive _ _ last | .poll last => last
  | .up => expectedClientNR
  | _ => 0

/-- The node has read `serverNum`. -/
def RunPc.counted : RunPc → Bool
  | .store _ | .countServers => false
  | _ => true

/-- The node has begun to connect. -/
def RunPc.listed : RunPc → Bool
  | .store _ | .countServers | .countClients => false
  | _ => true

/-- Two nodes have stored their meta data for each other, and the first has taken that of the
second. -/
structure NodeRun.Linked (m : Memc) (r : NodeRun) (b : ℕ) : Prop where
  sent : (m.exchange r.id b).isSome
  received : (m.exchange b r.id).isSome
  info : (r.remoteInfo b).isSome

/-- **What is known of a node**, whatever was in memcached at the start. -/
structure NodeRun.Conn (m : Memc) (r : NodeRun) : Prop where
  client : r.isClient = true → c.serverNR ≤ r.id
  storing : ∀ sid, r.pc = .store sid → 0 < r.id ∧ r.qpns = .unset
  stored : 0 < r.id → ∀ b < r.pc.stored c, (m.exchange r.id b).isSome
  todo : ∀ b ∈ r.pc.todo, b ≠ r.id ∧ (b < r.serverNum ∨ ∃ i < r.pc.last, b = c.getServerNR + i)
  offered : ∀ b todo last, r.pc = .receive b todo last → (m.exchange r.id b).isSome
  servers : r.pc.listed = true → ∀ b < r.serverNum, b ≠ r.id → b ∈ r.pc.todo ∨ r.Linked m b
  clients : r.pc.listed = true → r.id < c.machineNR → ∀ i < r.pc.last, c.getServerNR + i ≠ r.id →
    c.getServerNR + i ∈ r.pc.todo ∨ r.Linked m (c.getServerNR + i)
  linked : ∀ b, (r.remoteInfo b).isSome →
    r.pc.listed = true ∧ (b < r.serverNum ∨ c.getServerNR ≤ b ∨ b = r.id)
  poll : ∀ last, r.pc = .poll last → last < expectedClientNR
  up : r.pc = .up → (r.remoteInfo r.id).isSome

/-- What is known of it when `serverNum` counts the servers that have entered. -/
structure NodeRun.Counted (m : Memc) (r : NodeRun) : Prop where
  entered : r.isClient = false → r.id < m.servers
  counted : r.pc.counted = true →
    r.serverNum ≤ m.servers ∧ (r.isClient = false → r.id < r.serverNum)

section NodeOk

variable {c} {m m' : Memc} {r r' : NodeRun} {b : ℕ}

theorem NodeRun.Linked.mono (hle : m.Le m') (h : r.Linked m b) : r.Linked m' b :=
  ⟨hle _ _ h.sent, hle _ _ h.received, h.info⟩

theorem NodeRun.Conn.mono (hle : m.Le m') (h : r.Conn c m) : r.Conn c m' where
  client := h.client
  storing := h.storing
  stored hid b hb := hle _ _ (h.stored hid b hb)
  todo := h.todo
  offered b todo last hpc := hle _ _ (h.offered b todo last hpc)
  servers hl b hb hne := (h.servers hl b hb hne).imp_right (·.mono hle)
  clients hl hid i hi hne := (h.clients hl hid i hi hne).imp_right (·.mono hle)
  linked := h.linked
  poll := h.poll
  up := h.up

theorem NodeRun.Counted.mono (hle : m.servers ≤ m'.servers) (h : r.Counted m) : r.Counted m' :=
  ⟨fun hs => (h.entered hs).trans_le hle, fun hc => (h.counted hc).imp_left fun h => h.trans hle⟩

theorem NodeRun.mem_servers : b ∈ r.servers ↔ b < r.serverNum ∧ b ≠ r.id := by
  rw [NodeRun.servers, List.mem_filter, List.mem_range, decide_eq_true_iff]

theorem NodeRun.mem_clients {lo hi : ℕ} :
    b ∈ r.clients c lo hi ↔ (∃ i, lo ≤ i ∧ i < hi ∧ b = c.getServerNR + i) ∧ b ≠ r.id := by
  rw [NodeRun.clients, List.mem_filter, List.mem_map, decide_eq_true_iff]
  refine and_congr_left fun _ => exists_congr fun i => ?_
  rw [List.mem_range'_1]
  constructor
  · rintro ⟨hi, rfl⟩
    exact ⟨hi.1, by omega, rfl⟩
  · rintro ⟨hlo, hhi, rfl⟩
    exact ⟨by omega, rfl⟩

/-- A node that has not begun to connect. -/
theorem NodeRun.Conn.of_not_listed (hlisted : r.pc.listed = false)
    (hinfo : ∀ b, (r.remoteInfo b).isSome = false) (client : r.isClient = true → c.serverNR ≤ r.id)
    (storing : ∀ sid, r.pc = .store sid → 0 < r.id ∧ r.qpns = .unset)
    (stored : 0 < r.id → ∀ b < r.pc.stored c, (m.exchange r.id b).isSome) : r.Conn c m := by
  have hpc : r.pc.todo = [] ∧ (∀ b todo last, r.pc ≠ .receive b todo last) ∧
      (∀ last, r.pc ≠ .poll last) ∧ r.pc ≠ .up := by
    cases hr : r.pc with
    | store | countServers | countClients =>
      exact ⟨rfl, fun _ _ _ => RunPc.noConfusion, fun _ => RunPc.noConfusion, RunPc.noConfusion⟩
    | connect | receive | poll | up => rw [hr] at hlisted; cases hlisted
  obtain ⟨htodo, hreceive, hpoll, hup⟩ := hpc
  refine ⟨client, storing, stored, fun b hb => ?_, fun b todo last hr =>
    absurd hr (hreceive b todo last), fun hl => ?_, fun hl => ?_, fun b hb => ?_,
    fun last hr => absurd hr (hpoll last), fun hr => absurd hr hup⟩
  · rw [htodo] at hb
    cases hb
  · rw [hlisted] at hl
    cases hl
  · rw [hlisted] at hl
    cases hl
  · rw [hinfo b] at hb
    cases hb

theorem RunPc.stored_of_listed {pc : RunPc} (h : pc.listed = true) :
    pc.stored c = c.getServerNR ∧ ∀ sid, pc ≠ .store sid := by
  cases pc with
  | store | countServers | countClients => cases h
  | connect | receive | poll | up => exact ⟨rfl, fun _ => RunPc.noConfusion⟩

/-- A node that has begun to connect goes on. -/
theorem NodeRun.Conn.of_listed (h : r.Conn c m) (hle : m.Le m') (hlisted : r.pc.listed = true)
    (hcore : r'.isClient = r.isClient ∧ r'.id = r.id ∧ r'.serverNum = r.serverNum)
    (hlisted' : r'.pc.listed = true)
    (todo : ∀ b ∈ r'.pc.todo,
      b ≠ r.id ∧ (b < r.serverNum ∨ ∃ i < r'.pc.last, b = c.getServerNR + i))
    (offered : ∀ b todo last, r'.pc = .receive b todo last → (m'.exchange r.id b).isSome)
    (servers : ∀ b < r.serverNum, b ≠ r.id → b ∈ r'.pc.todo ∨ r'.Linked m' b)
    (clients : r.id < c.machineNR → ∀ i < r'.pc.last, c.getServerNR + i ≠ r.id →
      c.getServerNR + i ∈ r'.pc.todo ∨ r'.Linked m' (c.getServerNR + i))
    (linked : ∀ b, (r'.remoteInfo b).isSome →
      b < r.serverNum ∨ c.getServerNR ≤ b ∨ b = r.id)
    (poll : ∀ last, r'.pc = .poll last → last < expectedClientNR)
    (up : r'.pc = .up → (r'.remoteInfo r.id).isSome) : r'.Conn c m' := by
  obtain ⟨hclient, hid, hnum⟩ := hcore
  have h' := h.mono hle
  obtain ⟨hstored, -⟩ := RunPc.stored_of_listed (c := c) hlisted
  obtain ⟨hstored', hstore⟩ := RunPc.stored_of_listed (c := c) hlisted'
  have hfirst := h'.stored
  rw [hstored] at hfirst
  refine ⟨?_, fun sid hpc => absurd hpc (hstore sid), ?_, ?_, ?_, fun _ => ?_,
    fun _ => ?_, fun b hb => ⟨hlisted', ?_⟩, poll, ?_⟩
  · rw [hclient, hid]
    exact h'.client
  · rw [hstored', hid]
    exact hfirst
  · rw [hid, hnum]
    exact todo
  · rw [hid]
    exact offered
  · rw [hid, hnum]
    exact servers
  · rw [hid]
    exact clients
  · rw [hid, hnum]
    exact linked b hb
  · rw [hid]
    exact up

/-- Nobody else is meant by a link when `remoteInfo` gets a further entry. -/
theorem NodeRun.Linked.update (h : r.Linked m b) (remote : ℕ) (info qpns : Qpns) (pc : RunPc) :
    NodeRun.Linked m { r with
      qpns := qpns
      remoteInfo := Function.update r.remoteInfo remote (some info)
      pc := pc } b := by
  refine ⟨h.sent, h.received, ?_⟩
  by_cases hb : b = remote
  · subst hb
    simp only [Function.update_self, Option.isSome_some]
  · simp only [Function.update_of_ne hb]
    exact h.info

/-- A node that has counted has connected to nobody. -/
theorem NodeRun.Conn.info_eq_false (h : r.Conn c m) (hlisted : r.pc.listed = false) (b : ℕ) :
    (r.remoteInfo b).isSome = false := by
  by_contra hb
  rw [(h.linked b (Bool.eq_true_of_not_eq_false hb)).1] at hlisted
  cases hlisted

/-- A node begins to connect: it has the servers and the clients before it. -/
theorem NodeRun.Conn.begin (h : r.Conn c m) (hpc : r.pc = .countClients) {todo : List ℕ} {last : ℕ}
    (htodo : todo = r.servers ++ if r.id < c.machineNR then r.clients c 0 last else []) :
    NodeRun.Conn c m { r with pc := .connect todo last } := by
  have hinfo := h.info_eq_false (by rw [hpc]; rfl)
  have hstored := h.stored
  rw [hpc] at hstored
  refine ⟨h.client, nofun, hstored, fun b hb => ?_, nofun,
    fun _ b hb hne => Or.inl ?_, fun _ hid i hi hne => Or.inl ?_, fun b hb => ?_, nofun, nofun⟩
  · have hb' : b ∈ todo := hb
    rw [htodo, List.mem_append] at hb'
    rcases hb' with hserver | hclient
    · exact ⟨(mem_servers.mp hserver).2, Or.inl (mem_servers.mp hserver).1⟩
    · split_ifs at hclient
      · obtain ⟨⟨i, -, hi, hbi⟩, hne⟩ := mem_clients.mp hclient
        exact ⟨hne, Or.inr ⟨i, hi, hbi⟩⟩
      · cases hclient
  · show b ∈ todo
    rw [htodo]
    exact List.mem_append_left _ (mem_servers.mpr ⟨hb, hne⟩)
  · show c.getServerNR + i ∈ todo
    rw [htodo, if_pos hid]
    exact List.mem_append_right _ (mem_clients.mpr ⟨⟨i, Nat.zero_le i, hi, rfl⟩, hne⟩)
  · have hb' : (r.remoteInfo b).isSome = true := hb
    rw [hinfo b] at hb'
    cases hb'

/-- A node takes the meta data of another. -/
theorem NodeRun.Conn.receive (h : r.Conn c m) {remote last : ℕ} {todo : List ℕ} {qpns : Qpns}
    (hpc : r.pc = .receive remote todo last) (hget : m.exchange remote r.id = some qpns) :
    NodeRun.Conn c m { r with
      remoteInfo := Function.update r.remoteInfo remote (some qpns)
      pc := .connect todo last } := by
  have htodo := h.todo
  have hservers := h.servers
  have hclients := h.clients
  rw [hpc] at htodo hservers hclients
  have hlink : NodeRun.Linked m { r with
      remoteInfo := Function.update r.remoteInfo remote (some qpns)
      pc := .connect todo last } remote := by
    refine ⟨h.offered remote todo last hpc, ?_, ?_⟩
    · rw [hget]
      rfl
    · simp only [Function.update_self, Option.isSome_some]
  have hmore : ∀ b, b ∈ remote :: todo ∨ r.Linked m b → b ∈ todo ∨ NodeRun.Linked m { r with
      remoteInfo := Function.update r.remoteInfo remote (some qpns)
      pc := .connect todo last } b := by
    rintro b (hb | hb)
    · rcases List.mem_cons.mp hb with rfl | hb
      · exact Or.inr hlink
      · exact Or.inl hb
    · exact Or.inr (hb.update remote qpns r.qpns _)
  refine h.of_listed (Memc.Le.refl m) (by rw [hpc]; rfl) ⟨rfl, rfl, rfl⟩ rfl
    (fun b hb => htodo b (List.mem_cons_of_mem remote hb)) nofun
    (fun b hb hne => hmore b (hservers rfl b hb hne))
    (fun hid i hi hne => hmore _ (hclients rfl hid i hi hne)) (fun b hb => ?_)
    nofun nofun
  by_cases heq : b = remote
  · subst heq
    rcases (htodo b List.mem_cons_self).2 with hlt | ⟨i, -, hi⟩
    · exact Or.inl hlt
    · exact Or.inr (Or.inl (hi ▸ Nat.le_add_right _ _))
  · simp only [Function.update_of_ne heq] at hb
    exact (h.linked b hb).2

/-- **A step of a node** keeps what is known of it. -/
theorem NodeRun.Conn.move (h : r.Conn c m) (hmoved : NodeRun.Moved c m r m' r') : r'.Conn c m' := by
  cases hmoved with
  | store sid hpc hlt =>
    have hle : m.Le (m.store r.id sid r.qpns) := Memc.le_store
    have h' := h.mono hle
    refine .of_not_listed rfl (h.info_eq_false (by rw [hpc]; rfl)) h'.client
      (fun _ _ => h.storing sid hpc) (fun hid b hb => ?_)
    have hstored := h'.stored hid b
    rw [hpc] at hstored
    rcases Nat.lt_succ_iff_lt_or_eq.mp hb with hlt | rfl
    · exact hstored hlt
    · exact Memc.store_self ▸ rfl
  | stored sid hpc hge =>
    refine .of_not_listed rfl (h.info_eq_false (by rw [hpc]; rfl)) h.client
      nofun (fun hid b hb => h.stored hid b ?_)
    rw [hpc]
    exact hb.trans_le hge
  | servers hpc =>
    refine .of_not_listed rfl (h.info_eq_false (by rw [hpc]; rfl)) h.client
      nofun (fun hid b hb => h.stored hid b ?_)
    rw [hpc]
    exact hb
  | clients hpc todo htodo => exact h.begin hpc htodo
  | offer remote todo last hpc =>
    have hle : m.Le (m.store r.id remote (.of remote)) := Memc.le_store
    have h' := h.mono hle
    have htodo := h.todo
    have hservers := h'.servers
    have hclients := h'.clients
    rw [hpc] at htodo hservers hclients
    refine h.of_listed hle (by rw [hpc]; rfl) ⟨rfl, rfl, rfl⟩ rfl htodo (fun b _ _ hpc' => ?_)
      (fun b hb hne => ?_) (fun hid i hi hne => ?_)
      (fun b hb => (h.linked b hb).2) nofun nofun
    · cases hpc'
      exact Memc.store_self ▸ rfl
    · exact (hservers rfl b hb hne).imp_right fun hl => ⟨hl.sent, hl.received, hl.info⟩
    · exact (hclients rfl hid i hi hne).imp_right fun hl => ⟨hl.sent, hl.received, hl.info⟩
  | receive remote todo last qpns hpc hget => exact h.receive hpc hget
  | wait last hpc hlast =>
    have hservers := h.servers
    have hclients := h.clients
    rw [hpc] at hservers hclients
    refine h.of_listed (Memc.Le.refl m) (by rw [hpc]; rfl) ⟨rfl, rfl, rfl⟩ rfl
      nofun nofun (fun b hb hne => ?_)
      (fun hid i hi hne => ?_) (fun b hb => (h.linked b hb).2)
      (fun _ hpc' => RunPc.poll.inj hpc' ▸ hlast) nofun
    · exact (hservers rfl b hb hne).imp_right fun hl => ⟨hl.sent, hl.received, hl.info⟩
    · exact (hclients rfl hid i hi hne).imp_right fun hl => ⟨hl.sent, hl.received, hl.info⟩
  | late last clientNum hpc hget hlt =>
    have hservers := h.servers
    have hclients := h.clients
    rw [hpc] at hservers hclients
    refine h.of_listed (Memc.Le.refl m) (by rw [hpc]; rfl) ⟨rfl, rfl, rfl⟩ rfl
      (fun b hb => ?_) nofun (fun b hb hne => ?_)
      (fun hid i hi hne => ?_) (fun b hb => (h.linked b hb).2)
      nofun nofun
    · obtain ⟨⟨i, -, hi, hbi⟩, hne⟩ := mem_clients.mp hb
      exact ⟨hne, Or.inr ⟨i, hi, hbi⟩⟩
    · refine Or.inr ?_
      have hl := (hservers rfl b hb hne).resolve_left (List.not_mem_nil)
      exact ⟨hl.sent, hl.received, hl.info⟩
    · -- the clients before `last` have been connected to
      rcases Nat.lt_or_ge i last with hold | hnew
      · have hl := (hclients rfl hid i hold hne).resolve_left (List.not_mem_nil)
        exact Or.inr ⟨hl.sent, hl.received, hl.info⟩
      · exact Or.inl (mem_clients.mpr ⟨⟨i, hnew, hi, rfl⟩, hne⟩)
  | up last hpc hlast =>
    have hservers := h.servers
    have hclients := h.clients
    rw [hpc] at hservers hclients
    refine h.of_listed (Memc.Le.refl m) (by rw [hpc]; rfl) ⟨rfl, rfl, rfl⟩ rfl
      nofun nofun (fun b hb hne => Or.inr ?_)
      (fun hid i hi hne => Or.inr ?_) (fun b hb => ?_) nofun (fun _ => ?_)
    · exact ((hservers rfl b hb hne).resolve_left List.not_mem_nil).update r.id (.of r.id) _ _
    · exact ((hclients rfl hid i (hi.trans_le (hlast hid)) hne).resolve_left
        List.not_mem_nil).update r.id (.of r.id) _ _
    · by_cases heq : b = r.id
      · exact Or.inr (Or.inr heq)
      · simp only [Function.update_of_ne heq] at hb
        exact (h.linked b hb).2
    · simp only [Function.update_self, Option.isSome_some]

/-- What a step of a node does to the number of servers that it has counted. -/
theorem NodeRun.Moved.serverNum (h : NodeRun.Moved c m r m' r') :
    (r'.pc.counted = r.pc.counted ∧ r'.serverNum = r.serverNum) ∨ r'.serverNum = m.servers := by
  cases h with
  | servers => exact Or.inr rfl
  | store _ hpc | stored _ hpc | clients hpc | offer _ _ _ hpc | receive _ _ _ _ hpc | wait _ hpc
  | late _ _ hpc | up _ hpc => exact Or.inl ⟨by rw [hpc]; rfl, rfl⟩

theorem NodeRun.Moved.frame (h : NodeRun.Moved c m r m' r') :
    r'.isClient = r.isClient ∧ r'.id = r.id ∧ m'.serverNum = m.serverNum ∧
      m'.clientNum = m.clientNum ∧ m'.consistent = m.consistent ∧ m.Le m' := by
  cases h with
  | store | offer => exact ⟨rfl, rfl, rfl, rfl, rfl, Memc.le_store⟩
  | stored | servers | clients | receive | wait | late | up =>
    exact ⟨rfl, rfl, rfl, rfl, rfl, Memc.Le.refl m⟩

theorem NodeRun.Counted.move (h : r.Counted m) (hmoved : NodeRun.Moved c m r m' r') :
    r'.Counted m' := by
  obtain ⟨hclient, hid, hserver, -⟩ := hmoved.frame
  have hservers : m'.servers = m.servers := by rw [Memc.servers, hserver, Memc.servers]
  refine ⟨?_, fun hcounted => ?_⟩
  · rw [hclient, hid, hservers]
    exact h.entered
  · rw [hclient, hid, hservers]
    rcases hmoved.serverNum with ⟨hsame, hnum⟩ | hnum
    · rw [hnum]
      exact h.counted (hsame ▸ hcounted)
    · rw [hnum]
      exact ⟨le_rfl, h.entered⟩

end NodeOk

end Mayfly

end PetPS
