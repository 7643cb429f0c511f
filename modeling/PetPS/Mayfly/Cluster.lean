import PetPS.Mayfly.Keeper

/-!
# The processes of a cluster

What holds in every state of a cluster, whatever the order in which its processes get to memcached
and whatever was in memcached at the start. Meta data that is stored was there at the start, or was
stored by the node whose id it is under, and server `0` stores none but for servers that it has
counted and for clients.

When `serverNum` is in memcached at the start, the servers that have entered have the ids from `0`
on, each once. When it is not, every server that finds it missing sets it to `0`, and two that do so
one after the other may get the same id.

## Main results

* `Node.effect` — what a step of a process does
* `ClusterInv.step`, `ServersInv.step` — what every step keeps
* `exchange_numbers` — the queue pair numbers that a node takes from another
* `serversInv_run` — the ids of the servers, when there is a counter at the start
-/

namespace PetPS

namespace Mayfly

variable (c : ClusterInfo)

/-! ### What a process does -/

/-- The nodes for which a node may have stored its meta data. -/
def NodeRun.Writes (r : NodeRun) (b : ℕ) : Prop :=
  (0 < r.id ∧ b < c.getServerNR) ∨
    (r.pc.counted = true ∧ (b < r.serverNum ∨ c.getServerNR ≤ b))

/-- The process is the node `a`, and may have stored its meta data for `b`. -/
def Node.Writes (p : Node) (a b : ℕ) : Prop := ∃ r, p = .running r ∧ r.id = a ∧ r.Writes c b

/-- The node id of a server that has entered. -/
def Node.serverId : Node → Option ℕ
  | .server (.signal id) => some id
  | .running r => if r.isClient then none else some r.id
  | _ => none

def Node.isServer : Node → Bool
  | .server _ => true
  | .running r => !r.isClient
  | _ => false

def Node.isRunning : Node → Bool
  | .running _ => true
  | _ => false

/-- The `DSM` of a process that has its node id. -/
def Node.dsm : Node → Option NodeRun
  | .running r => some r
  | _ => none

/-- The numbers under `a-b` are for `b`, or are not set, or were there at the start. -/
def Memc.Numbers (m₀ m : Memc) : Prop :=
  ∀ a b qpns, m.exchange a b = some qpns →
    qpns = .of b ∨ (qpns = .unset ∧ 0 < a) ∨ (qpns = .old ∧ (m₀.exchange a b).isSome)

/-- The numbers that the node has taken from node `b` are for the node, or are not set, or were
there at the start. -/
def NodeRun.Numbers (m₀ : Memc) (r : NodeRun) : Prop :=
  ∀ b qpns, r.remoteInfo b = some qpns →
    qpns = .of r.id ∨ (qpns = .unset ∧ 0 < b) ∨ (qpns = .old ∧ (m₀.exchange b r.id).isSome)

/-- **What a step of a process does.** -/
structure Node.Effect (m₀ m m' : Memc) (p p' : Node) : Prop where
  conn : ∀ r, p' = .running r → r.Conn c m'
  le : m.Le m'
  kind : p'.isServer = p.isServer
  signal : m'.consistent = m.consistent ∧ (p'.isRunning = true → p.isRunning = true) ∨
    ∃ v, m'.consistent = some v ∧ 1 ≤ v
  keeps : ∀ a b, p.Writes c a b → p'.Writes c a b
  writes : ∀ a b, (m'.exchange a b).isSome → (m.exchange a b).isSome ∨ p'.Writes c a b
  numbers : Memc.Numbers m₀ m → (∀ r, p = .running r → r.Numbers m₀) →
    Memc.Numbers m₀ m' ∧ ∀ r, p' = .running r → r.Numbers m₀

section Effects

variable {c} {m₀ m m' : Memc} {r r' : NodeRun} {p p' : Node}

theorem NodeRun.Moved.keeps (h : NodeRun.Moved c m r m' r') {b : ℕ} (hb : r.Writes c b) :
    r'.Writes c b := by
  rcases hb with hid | ⟨hcounted, hb⟩
  · refine Or.inl ?_
    rwa [h.frame.2.1]
  · refine Or.inr ?_
    cases h with
    | store _ hpc | stored _ hpc | servers hpc => rw [hpc] at hcounted; cases hcounted
    | clients | offer | receive | wait | late | up => exact ⟨rfl, hb⟩

theorem NodeRun.Moved.writes (hconn : r.Conn c m) (h : NodeRun.Moved c m r m' r') {a b : ℕ}
    (hb : (m'.exchange a b).isSome) : (m.exchange a b).isSome ∨ a = r.id ∧ r'.Writes c b := by
  cases h with
  | store sid hpc hlt =>
    by_cases heq : a = r.id ∧ b = sid
    · obtain ⟨rfl, rfl⟩ := heq
      exact Or.inr ⟨rfl, Or.inl ⟨(hconn.storing b hpc).1, hlt⟩⟩
    · rw [Memc.store_of_ne heq] at hb
      exact Or.inl hb
  | offer remote todo last hpc =>
    by_cases heq : a = r.id ∧ b = remote
    · obtain ⟨rfl, rfl⟩ := heq
      have htodo := hconn.todo
      rw [hpc] at htodo
      refine Or.inr ⟨rfl, Or.inr ⟨rfl, (htodo b List.mem_cons_self).2.imp_right ?_⟩⟩
      rintro ⟨i, -, rfl⟩
      exact Nat.le_add_right _ _
    · rw [Memc.store_of_ne heq] at hb
      exact Or.inl hb
  | stored | servers | clients | receive | wait | late | up => exact Or.inl hb

theorem Memc.Numbers.store (h : Memc.Numbers m₀ m) {a b : ℕ} {qpns : Qpns}
    (hnew : qpns = .of b ∨ (qpns = .unset ∧ 0 < a)) : Memc.Numbers m₀ (m.store a b qpns) := by
  intro a' b' qpns' hget
  by_cases heq : a' = a ∧ b' = b
  · obtain ⟨rfl, rfl⟩ := heq
    rw [Memc.store_self] at hget
    obtain rfl := Option.some.inj hget
    exact hnew.imp_right Or.inl
  · rw [Memc.store_of_ne heq] at hget
    exact h a' b' qpns' hget

theorem NodeRun.Moved.numbers (hconn : r.Conn c m) (hm : Memc.Numbers m₀ m) (hr : r.Numbers m₀)
    (h : NodeRun.Moved c m r m' r') : Memc.Numbers m₀ m' ∧ r'.Numbers m₀ := by
  have hupdate : ∀ {remote : ℕ} {info : Qpns}, (info = .of r.id ∨ (info = .unset ∧ 0 < remote) ∨
      (info = .old ∧ (m₀.exchange remote r.id).isSome)) → ∀ b qpns,
        Function.update r.remoteInfo remote (some info) b = some qpns →
          qpns = .of r.id ∨ (qpns = .unset ∧ 0 < b) ∨
            (qpns = .old ∧ (m₀.exchange b r.id).isSome) := by
    intro remote info hinfo b qpns hget
    by_cases hb : b = remote
    · subst hb
      rw [Function.update_self] at hget
      exact Option.some.inj hget ▸ hinfo
    · rw [Function.update_of_ne hb] at hget
      exact hr b qpns hget
  cases h with
  | store sid hpc => exact ⟨hm.store (Or.inr (hconn.storing sid hpc).symm), hr⟩
  | offer => exact ⟨hm.store (Or.inl rfl), hr⟩
  | receive remote todo last qpns hpc hget => exact ⟨hm, hupdate (hm remote r.id qpns hget)⟩
  | up => exact ⟨hm, hupdate (Or.inl rfl)⟩
  | stored | servers | clients | wait | late => exact ⟨hm, hr⟩

/-- A node that starts to run. -/
theorem Node.construct_conn {isClient : Bool} {id : ℕ}
    (hr : Node.construct c isClient id = .running r) : r.Conn c m := by
  rw [Node.construct] at hr
  split_ifs at hr with hexit hid
  · cases hr
    refine .of_not_listed rfl (fun _ => rfl) (fun hc => ?_) (fun _ _ => ⟨hid, rfl⟩)
      (fun _ b hb => absurd hb (Nat.not_lt_zero b))
    exact not_lt.mp fun hless => hexit ⟨hc, hless⟩
  · cases hr
    refine .of_not_listed rfl (fun _ => rfl) (fun hc => ?_) nofun (fun hid' => absurd hid' hid)
    exact not_lt.mp fun hless => hexit ⟨hc, hless⟩

theorem Node.construct_numbers {isClient : Bool} {id : ℕ}
    (hr : Node.construct c isClient id = .running r) : r.Numbers m₀ := by
  rw [Node.construct] at hr
  split_ifs at hr <;> cases hr <;> nofun

/-- A step in `serverEnter`. -/
theorem Node.Effect.of_entering (hkind : p'.isServer = p.isServer) (hp : p.isRunning = false)
    (hp' : p'.isRunning = false) (hcons : m'.consistent = m.consistent)
    (hex : m'.exchange = m.exchange) : Node.Effect c m₀ m m' p p' := by
  refine ⟨?_, ?_, hkind, Or.inl ⟨hcons, ?_⟩, ?_, ?_, fun hm _ => ⟨?_, ?_⟩⟩
  · rintro r rfl
    cases hp'
  · rw [Memc.Le, hex]
    exact fun _ _ h => h
  · rw [hp']
    nofun
  · rintro a b ⟨r, rfl, -⟩
    cases hp
  · rw [hex]
    exact fun _ _ h => Or.inl h
  · rwa [Memc.Numbers, hex]
  · rintro r rfl
    cases hp'

/-- The last step in `serverEnter`. -/
theorem Node.Effect.of_construct {isClient : Bool} {id v : ℕ} (hv : 1 ≤ v)
    (hkind : p.isServer = !isClient) (hp : p.isRunning = false) :
    Node.Effect c m₀ m { m with consistent := some v } p (Node.construct c isClient id) := by
  have hnew : (Node.construct c isClient id).isServer = !isClient := by
    rw [Node.construct]
    by_cases hexit : isClient = true ∧ id < c.serverNR
    · rw [if_pos hexit, hexit.1]
      rfl
    · rw [if_neg hexit]
      rfl
  refine ⟨fun r hr => Node.construct_conn hr, fun _ _ h => h,
    hnew.trans hkind.symm, Or.inr ⟨v, rfl, hv⟩, ?_, fun _ _ h => Or.inl h,
    fun hm _ => ⟨hm, fun r hr => Node.construct_numbers hr⟩⟩
  rintro a b ⟨r, rfl, -⟩
  cases hp

/-- **What a step of a process does**, whatever is in memcached. -/
theorem Node.effect (hconn : ∀ r, p = .running r → r.Conn c m)
    (h : p.move c m = some (m', p')) : Node.Effect c m₀ m m' p p' := by
  cases p with
  | server pc =>
    cases pc with
    | probe | init =>
      cases h
      exact .of_entering rfl rfl rfl rfl rfl
    | enter =>
      obtain ⟨v, -, heq⟩ := Option.map_eq_some_iff.mp h
      cases heq
      exact .of_entering rfl rfl rfl rfl rfl
    | signal id =>
      cases h
      exact .of_construct le_rfl rfl rfl
  | client g pc =>
    cases pc with
    | readServers | readClients | reserve | reset | count =>
      cases h
      exact .of_entering rfl rfl rfl rfl rfl
    | await id =>
      obtain ⟨rfl, rfl⟩ := Node.move_await c h
      exact .of_entering rfl rfl rfl rfl rfl
    | signal id =>
      cases h
      exact .of_construct (Nat.le_add_left 1 g) rfl rfl
  | exited => cases h
  | running r =>
    obtain ⟨⟨m₁, r'⟩, hmove, heq⟩ := Option.map_eq_some_iff.mp h
    cases heq
    have hmoved := NodeRun.move_cases hmove
    have hr := hconn r rfl
    obtain ⟨hclient, hid, -, -, hconsistent, hle⟩ := hmoved.frame
    refine ⟨fun r₁ hr₁ => Node.running.inj hr₁ ▸ hr.move hmoved, hle, ?_,
      Or.inl ⟨hconsistent, fun _ => rfl⟩, ?_, ?_, fun hm hnum => ?_⟩
    · simp only [Node.isServer, hclient]
    · rintro a b ⟨r₁, hr₁, rfl, hb⟩
      cases hr₁
      exact ⟨r', rfl, hid, hmoved.keeps hb⟩
    · intro a b hb
      refine (hmoved.writes hr hb).imp_right fun ⟨ha, hw⟩ => ⟨r', rfl, ?_, hw⟩
      rw [hid, ha]
    · obtain ⟨hm', hr'⟩ := hmoved.numbers hr hm (hnum r rfl)
      exact ⟨hm', fun r₁ hr₁ => Node.running.inj hr₁ ▸ hr'⟩

end Effects

/-! ### What is known of a cluster -/

/-- **What is known of a cluster** that started with `m₀` in memcached. -/
structure ClusterInv (m₀ : Memc) (s : ClusterState) : Prop where
  nodes : ∀ r, .running r ∈ s.2 → r.Conn c s.1
  kinds : s.2.countP Node.isServer = c.serverNR
  /-- A process that runs has signalled. -/
  signal : ∀ p ∈ s.2, p.isRunning = true → ∃ v, s.1.consistent = some v ∧ 1 ≤ v
  writes : ∀ a b, (s.1.exchange a b).isSome →
    (m₀.exchange a b).isSome ∨ ∃ p ∈ s.2, p.Writes c a b
  numbers : m₀.Leftover → Memc.Numbers m₀ s.1 ∧ ∀ r, .running r ∈ s.2 → r.Numbers m₀

section Cluster

variable {c} {m₀ : Memc} {s s' : ClusterState} {i : ℕ}

theorem ClusterInv.effect (h : ClusterInv c m₀ s) {m' : Memc} {p p' : Node} (hmem : p ∈ s.2)
    (hmove : p.move c s.1 = some (m', p')) : Node.Effect c m₀ s.1 m' p p' :=
  Node.effect (fun r hr => h.nodes r (hr ▸ hmem)) hmove

/-- **What every step keeps.** -/
theorem ClusterInv.step (h : ClusterInv c m₀ s) (hs : clusterStep c s i = some s') :
    ClusterInv c m₀ s' := by
  obtain ⟨p, p', hp, hmove, hset⟩ := Threads.step_cases hs
  have hmem := List.mem_of_getElem? hp
  have heff := h.effect hmem hmove
  have hrunning : ∀ {P : NodeRun → Prop}, (∀ r, .running r ∈ s.2 → P r) →
      (∀ r, p' = .running r → P r) → ∀ r, .running r ∈ s'.2 → P r := by
    intro P hold hnew r hr
    rw [hset] at hr
    rcases List.mem_or_eq_of_mem_set hr with hin | heq
    · exact hold r hin
    · exact hnew r heq.symm
  refine ⟨?_, ?_, fun q hq hrun => ?_, fun a b hab => ?_, fun hold => ?_⟩
  · exact hrunning (fun r hr => (h.nodes r hr).mono heff.le) heff.conn
  · have hcount := Threads.countP_set Node.isServer hp p'
    rw [heff.kind] at hcount
    rw [hset, ← h.kinds]
    exact Nat.add_right_cancel hcount
  · rw [hset] at hq
    rcases heff.signal with ⟨hcons, hrunning⟩ | hsignal
    · rw [hcons]
      rcases List.mem_or_eq_of_mem_set hq with hold | rfl
      · exact h.signal q hold hrun
      · exact h.signal p hmem (hrunning hrun)
    · exact hsignal
  · rw [hset]
    rcases heff.writes a b hab with hold | hnew
    · refine (h.writes a b hold).imp_right fun ⟨q, hq, hw⟩ => ?_
      rcases Threads.mem_set_or_eq hp hq p' with hin | rfl
      · exact ⟨q, hin, hw⟩
      · exact ⟨p', Threads.mem_set hp p', heff.keeps a b hw⟩
    · exact Or.inr ⟨p', Threads.mem_set hp p', hnew⟩
  · obtain ⟨hm, hr⟩ := heff.numbers (h.numbers hold).1 fun r hr => (h.numbers hold).2 r (hr ▸ hmem)
    exact ⟨hm, hrunning (h.numbers hold).2 hr⟩

/-- The processes before their first steps. -/
theorem mem_startCluster {serverNR : ℕ} {globalIDs : List ℕ} {p : Node}
    (h : p ∈ (startCluster m₀ serverNR globalIDs).2) :
    (∃ g ∈ globalIDs, p = .client g .readServers) ∨ p = .server .probe := by
  rcases List.mem_append.mp h with hclient | hserver
  · obtain ⟨g, hg, rfl⟩ := List.mem_map.mp hclient
    exact Or.inl ⟨g, hg, rfl⟩
  · exact Or.inr (List.eq_of_mem_replicate hserver)

theorem clusterInv_start (globalIDs : List ℕ) :
    ClusterInv c m₀ (startCluster m₀ c.serverNR globalIDs) := by
  have hnone : ∀ r, .running r ∉ (startCluster m₀ c.serverNR globalIDs).2 := fun r hr => by
    rcases mem_startCluster hr with ⟨g, -, heq⟩ | heq <;> cases heq
  refine ⟨fun r hr => absurd hr (hnone r), ?_, fun p hp hrun => ?_, fun a b h => Or.inl h,
    fun hold => ⟨fun a b qpns hget => ?_, fun r hr => absurd hr (hnone r)⟩⟩
  · rw [startCluster, List.countP_append, List.countP_map, List.countP_replicate]
    simp [Node.isServer, Function.comp_def]
  · rcases mem_startCluster hp with ⟨g, -, rfl⟩ | rfl <;> cases hrun
  · exact Or.inr (Or.inr ⟨hold a b qpns hget, Option.isSome_of_eq_some hget⟩)

/-- What holds in every state of a cluster. -/
theorem clusterInv_run {globalIDs schedule : List ℕ}
    (hrun : Run.run (clusterStep c) (startCluster m₀ c.serverNR globalIDs) schedule = some s) :
    ClusterInv c m₀ s :=
  Run.run_invariant (fun _ _ _ h hs => h.step hs) (clusterInv_start globalIDs) hrun

theorem Node.eq_running {p : Node} {r : NodeRun} (h : p.dsm = some r) : p = .running r := by
  cases p with
  | running r' => exact congrArg _ (Option.some.inj h)
  | _ => cases h

/-- **The queue pair numbers that a node takes from another.** In every state of every cluster, with
whatever an earlier cluster has left in memcached, they are numbers for this node, or they were not
set when they were stored, or they were in memcached at the start. Those under the id of server `0`
are never stored before they are set. -/
theorem exchange_numbers (hold : m₀.Leftover) {globalIDs schedule : List ℕ}
    (hrun : Run.run (clusterStep c) (startCluster m₀ c.serverNR globalIDs) schedule = some s)
    {r : NodeRun} (hr : .running r ∈ s.2) {b : ℕ} {qpns : Qpns}
    (hget : r.remoteInfo b = some qpns) :
    qpns = .of r.id ∨ (qpns = .unset ∧ 0 < b) ∨ (qpns = .old ∧ (m₀.exchange b r.id).isSome) :=
  ((clusterInv_run hrun).numbers hold).2 r hr b qpns hget

/-- A server and a client. The server takes the meta data of the client as it was stored in
advance. -/
theorem exchange_blank : ∃ schedule s r₀ r₁,
    Run.run (clusterStep ⟨1, 1⟩) (startCluster Memc.new 1 [1]) schedule = some s ∧
      s.2 = [.running r₁, .running r₀] ∧ r₀.remoteInfo 1 = some .unset ∧
      r₁.remoteInfo 0 = some (.of 1) := by
  have heval : ((Run.run (clusterStep ⟨1, 1⟩) (startCluster Memc.new 1 [1])
      [1, 1, 1, 0, 0, 0, 0, 0, 0, 0, 0, 1, 1, 1, 1, 0, 0, 0, 0, 0]).any fun s =>
      decide (s.2.length = 2) &&
      ((s.2[0]?.bind Node.dsm).any fun r => decide (r.id = 1) && (r.remoteInfo 0).isSome) &&
      (s.2[1]?.bind Node.dsm).any fun r => decide (r.remoteInfo 1 = some .unset)) = true := by
    decide
  rw [Option.any_eq_true] at heval
  obtain ⟨s, hrun, hnodes⟩ := heval
  rw [Bool.and_eq_true, Bool.and_eq_true, Option.any_eq_true, Option.any_eq_true] at hnodes
  obtain ⟨⟨hlen, r₁, hr₁, hclient⟩, r₀, hr₀, hblank⟩ := hnodes
  obtain ⟨p₁, hp₁, hdsm₁⟩ := Option.bind_eq_some_iff.mp hr₁
  obtain ⟨p₀, hp₀, hdsm₀⟩ := Option.bind_eq_some_iff.mp hr₀
  obtain rfl := Node.eq_running hdsm₁
  obtain rfl := Node.eq_running hdsm₀
  rw [Bool.and_eq_true] at hclient
  obtain ⟨qpns, hget⟩ := Option.isSome_iff_exists.mp hclient.2
  refine ⟨_, s, r₀, r₁, hrun, ?_, of_decide_eq_true hblank, ?_⟩
  · have hlen := of_decide_eq_true hlen
    refine List.ext_getElem? fun i => ?_
    rcases i with - | - | i
    · exact hp₁
    · exact hp₀
    · rw [List.getElem?_eq_none (by omega), List.getElem?_eq_none (by simp)]
  · rcases exchange_numbers (c := ⟨1, 1⟩) Memc.leftover_new hrun (List.mem_of_getElem? hp₁) hget
      with rfl | ⟨-, hpos⟩ | ⟨-, hleft⟩
    · rw [hget, of_decide_eq_true hclient.1]
    · exact absurd hpos (Nat.lt_irrefl 0)
    · cases hleft

/-- With the meta data that server `0` of an earlier cluster has stored for node `1`, the client
does not wait for the server, and takes the numbers of a process that is gone. -/
example : (Run.run (clusterStep ⟨1, 1⟩) (startCluster (Memc.newWith 0 1) 1 [1])
    ([1, 1, 1] ++ List.replicate 14 0)).map
      (fun s => (s.2[0]?.bind Node.dsm).map fun r => (r.pc, r.remoteInfo 0)) =
        some (some (.up, some .old)) := by
  decide

/-! ### The ids of the servers -/

/-- What is known of a process when `serverNum` counts the servers that have entered. -/
def Node.Counted (m : Memc) : Node → Prop
  | .server .init => False
  | .server (.signal id) => id < m.servers
  | .running r => r.Counted m
  | _ => True

/-- **What is known of the servers** of a cluster that has started with a counter. -/
structure ServersInv (s : ClusterState) : Prop where
  number : ∃ v, s.1.serverNum = some v ∧ (s.2.filterMap Node.serverId).Perm (List.range v)
  counted : ∀ p ∈ s.2, p.Counted s.1

theorem Node.Counted.mono {m m' : Memc} {p : Node} (hle : m.servers ≤ m'.servers)
    (h : p.Counted m) : p.Counted m' := by
  match p with
  | .server .init => exact h
  | .server (.signal _) => exact Nat.lt_of_lt_of_le h hle
  | .server .probe | .server .enter | .exited | .client _ _ => trivial
  | .running _ => exact NodeRun.Counted.mono hle h

/-- What a step does to the counter. -/
structure Node.Counts (m m' : Memc) (p p' : Node) : Prop where
  counted : p'.Counted m'
  servers : m.servers ≤ m'.servers
  number : m'.serverNum = m.serverNum ∧ p'.serverId = p.serverId ∨
    ∃ v, m.serverNum = some v ∧ m'.serverNum = some (v + 1) ∧ p.serverId = none ∧
      p'.serverId = some v

/-- A step that leaves the counter alone. -/
theorem Node.Counts.of_same {m m' : Memc} {p p' : Node} (hserver : m'.serverNum = m.serverNum)
    (hid : p'.serverId = p.serverId) (hcounted : p'.Counted m') : Node.Counts m m' p p' := by
  refine ⟨hcounted, ?_, Or.inl ⟨hserver, hid⟩⟩
  rw [Memc.servers, Memc.servers, hserver]

theorem Node.construct_counted {m : Memc} (isClient : Bool) {id : ℕ}
    (hlt : isClient = false → id < m.servers) :
    (Node.construct c isClient id).Counted m ∧
      (Node.construct c isClient id).serverId = if isClient then none else some id := by
  rw [Node.construct]
  by_cases hexit : isClient = true ∧ id < c.serverNR
  · rw [if_pos hexit, hexit.1]
    exact ⟨trivial, rfl⟩
  · rw [if_neg hexit]
    refine ⟨⟨hlt, fun hcounted => ?_⟩, rfl⟩
    simp only at hcounted
    split_ifs at hcounted <;> cases hcounted

theorem Node.Counted.move {m m' : Memc} {p p' : Node} (hp : p.Counted m)
    (hnum : m.serverNum.isSome = true) (h : p.move c m = some (m', p')) :
    Node.Counts m m' p p' := by
  cases p with
  | server pc =>
    cases pc with
    | probe =>
      rw [Node.move, if_pos hnum] at h
      cases h
      exact .of_same rfl rfl trivial
    | init => exact hp.elim
    | enter =>
      obtain ⟨v, hv, heq⟩ := Option.map_eq_some_iff.mp h
      cases heq
      have hs : m.servers = v := by rw [Memc.servers, hv]; rfl
      refine ⟨Nat.lt_succ_self v, ?_, Or.inr ⟨v, hv, rfl, rfl, rfl⟩⟩
      rw [hs]
      exact Nat.le_succ v
    | signal id =>
      cases h
      obtain ⟨hcounted, hid⟩ := Node.construct_counted (c := c)
        (m := { m with consistent := some 1 }) false fun _ => hp
      exact .of_same rfl hid hcounted
  | client g pc =>
    cases pc with
    | readServers | readClients | reserve | reset | count =>
      cases h
      exact .of_same rfl rfl trivial
    | await id =>
      obtain ⟨rfl, rfl⟩ := Node.move_await c h
      exact .of_same rfl rfl trivial
    | signal id =>
      cases h
      obtain ⟨hcounted, hserverId⟩ := Node.construct_counted (c := c)
        (m := { m with consistent := some (g + 1) }) true fun hserver : true = false =>
          Bool.noConfusion hserver
      exact .of_same rfl hserverId hcounted
  | exited => cases h
  | running r =>
    obtain ⟨⟨m₁, r'⟩, hmove, heq⟩ := Option.map_eq_some_iff.mp h
    cases heq
    have hmoved := NodeRun.move_cases hmove
    obtain ⟨hclient, hid, hserver, -⟩ := hmoved.frame
    refine .of_same hserver ?_ (NodeRun.Counted.move hp hmoved)
    simp only [Node.serverId, hclient, hid]

theorem ServersInv.counts (h : ServersInv s) {m' : Memc} {p p' : Node} (hmem : p ∈ s.2)
    (hmove : p.move c s.1 = some (m', p')) : Node.Counts s.1 m' p p' := by
  obtain ⟨v, hv, -⟩ := h.number
  exact (h.counted p hmem).move (Option.isSome_of_eq_some hv) hmove

theorem ServersInv.step (h : ServersInv s) (hs : clusterStep c s i = some s') : ServersInv s' := by
  obtain ⟨p, p', hp, hmove, hset⟩ := Threads.step_cases hs
  obtain ⟨v, hv, hperm⟩ := h.number
  have hcounts := h.counts (List.mem_of_getElem? hp) hmove
  refine ⟨?_, ?_⟩
  · rw [hset]
    rcases hcounts.number with ⟨hserver, hid⟩ | ⟨w, hw, hw', hnone, hsome⟩
    · exact ⟨v, hserver.trans hv, by rwa [Threads.filterMap_set_of_eq hp hid]⟩
    · obtain rfl : v = w := Option.some.inj (hv.symm.trans hw)
      refine ⟨v + 1, hw', (Threads.filterMap_set_perm hp hnone hsome).trans ?_⟩
      rw [List.range_succ]
      exact (hperm.cons v).trans (List.perm_append_singleton v _).symm
  · rw [hset]
    exact Threads.forall_set (fun q hq => (h.counted q hq).mono hcounts.servers) hcounts.counted

theorem serversInv_start (hm : m₀.serverNum = some 0) (serverNR : ℕ) (globalIDs : List ℕ) :
    ServersInv (startCluster m₀ serverNR globalIDs) := by
  refine ⟨⟨0, hm, ?_⟩, fun p hp => ?_⟩
  · rw [List.filterMap_eq_nil_iff.mpr fun p hp => ?_]
    · exact List.Perm.refl _
    · rcases mem_startCluster hp with ⟨g, -, rfl⟩ | rfl <;> rfl
  · rcases mem_startCluster hp with ⟨g, -, rfl⟩ | rfl <;> trivial

theorem serversInv_run (hm : m₀.serverNum = some 0) {serverNR : ℕ} {globalIDs schedule : List ℕ}
    (hrun : Run.run (clusterStep c) (startCluster m₀ serverNR globalIDs) schedule = some s) :
    ServersInv s :=
  Run.run_invariant (fun _ _ _ h hs => h.step hs) (serversInv_start hm serverNR globalIDs) hrun

/-- Two servers, with no counter at the start. Both find none, and the second sets it back after the
first has entered. -/
example : (Run.run (clusterStep ⟨2, 1⟩) (startCluster ⟨none, none, none, fun _ _ => none⟩ 2 [])
    [0, 1, 0, 0, 1, 1]).map (fun s => s.2.map Node.serverId) = some [some 0, some 0] := by
  decide

theorem Node.isServer_of_serverId {p : Node} (h : p.serverId.isSome = true) :
    p.isServer = true := by
  cases p with
  | server => rfl
  | running r =>
    cases hr : r.isClient with
    | true => simp [Node.serverId, hr] at h
    | false => simp [Node.isServer, hr]
  | _ => cases h

/-- There are not more ids than servers. -/
theorem ServersInv.servers_le (h : ServersInv s) (hinv : ClusterInv c m₀ s) :
    s.1.servers ≤ c.serverNR := by
  obtain ⟨v, hv, hperm⟩ := h.number
  have hlen := hperm.length_eq
  rw [List.length_range, List.length_filterMap_eq_countP] at hlen
  rw [Memc.servers, hv, Option.getD_some, ← hlen, ← hinv.kinds]
  exact List.countP_mono_left fun p _ hp => Node.isServer_of_serverId hp

end Cluster

end Mayfly

end PetPS
