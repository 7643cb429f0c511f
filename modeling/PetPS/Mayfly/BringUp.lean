import PetPS.Mayfly.Cluster

/-!
# Clusters that come up

Server `0` stores its meta data only for the servers that it has counted, so it has to count after
all of them have entered, and a client that reads `serverNum` before that has the id of a server and
exits. With one client these are the only ways in which a cluster fails to come up, if memcached has
been restarted and does not hold what a server `0` before has stored.

For clients server `0` stores its meta data under the ids from the number of machines less one on.
The first client has the id behind the servers, so with more than one client it waits for server `0`
for ever.

## Main results

* `bringUp_clients` — a cluster with more than one client does not come up
* `connected_iff` — the connections of a node that is up
* `bringUp_one_client` — when a cluster with one client comes up
-/

namespace PetPS

namespace Mayfly

variable (c : ClusterInfo)

/-! ### The first client -/

/-- The process is no client that has read `clientNum`. -/
def Node.Before (m : Memc) : Node → Prop
  | .client _ .readServers | .server _ => True
  | .client _ (.readClients serverNum) => serverNum ≤ m.servers
  | .running r => r.isClient = false
  | _ => False

/-- The process is a client whose id is at most the number of servers. -/
def Node.First (m : Memc) : Node → Prop
  | .client _ (.reserve serverNum cur) => serverNum + cur ≤ m.servers
  | .client _ (.await id) | .client _ (.reset id) | .client _ (.count id)
  | .client _ (.signal id) => id ≤ m.servers
  | .exited => True
  | .running r =>
    r.isClient = true ∧ r.id ≤ m.servers ∧ (r.pc.counted = true → r.id ≤ r.serverNum)
  | _ => False

section First

variable {c} {m m' : Memc} {p p' : Node} {s s' : ClusterState} {i : ℕ}

theorem Node.Before.mono (hle : m.servers ≤ m'.servers) (h : p.Before m) : p.Before m' := by
  match p with
  | .client _ .readServers | .server _ => trivial
  | .client _ (.readClients _) => exact h.trans hle
  | .running _ => exact h

theorem Node.First.mono (hle : m.servers ≤ m'.servers) (h : p.First m) : p.First m' := by
  match p with
  | .client _ (.reserve ..) | .client _ (.await _) | .client _ (.reset _) | .client _ (.count _)
  | .client _ (.signal _) => exact Nat.le_trans h hle
  | .exited => trivial
  | .running _ => exact ⟨h.1, h.2.1.trans hle, h.2.2⟩

/-- A step of the first client. -/
theorem Node.First.move (h : p.First m) (hmove : p.move c m = some (m', p')) : p'.First m' := by
  match p with
  | .client g (.reserve ..) | .client g (.reset _) | .client g (.count _) =>
    cases hmove
    exact h
  | .client g (.await id) =>
    obtain ⟨rfl, rfl⟩ := Node.move_await c hmove
    exact h
  | .client g (.signal id) =>
    cases hmove
    rw [Node.construct]
    split_ifs
    · trivial
    all_goals exact ⟨rfl, h, fun hcounted => by cases hcounted⟩
  | .exited => cases hmove
  | .running r =>
    obtain ⟨⟨m₁, r'⟩, hr, heq⟩ := Option.map_eq_some_iff.mp hmove
    cases heq
    have hmoved := NodeRun.move_cases hr
    obtain ⟨hclient, hid, hserver, -⟩ := hmoved.frame
    refine ⟨hclient.trans h.1, ?_, fun hcounted => ?_⟩
    · rw [hid, Memc.servers, hserver]
      exact h.2.1
    · rw [hid]
      rcases hmoved.serverNum with ⟨hsame, hnum⟩ | hnum
      · rw [hnum]
        exact h.2.2 (hsame ▸ hcounted)
      · rw [hnum]
        exact h.2.1

/-- A step before a client has read `clientNum`. -/
theorem Node.Before.move (h : p.Before m) (hclient : m.clientNum = some 0)
    (hmove : p.move c m = some (m', p')) :
    m'.clientNum = some 0 ∧ p'.Before m' ∨ p'.First m' := by
  match p with
  | .server .probe | .server .init =>
    cases hmove
    exact Or.inl ⟨hclient, trivial⟩
  | .server .enter =>
    obtain ⟨v, -, heq⟩ := Option.map_eq_some_iff.mp hmove
    cases heq
    exact Or.inl ⟨hclient, trivial⟩
  | .server (.signal id) =>
    cases hmove
    exact Or.inl ⟨hclient, rfl⟩
  | .client g .readServers =>
    cases hmove
    exact Or.inl ⟨hclient, le_refl m.servers⟩
  | .client g (.readClients serverNum) =>
    cases hmove
    rw [hclient]
    exact Or.inr h
  | .running r =>
    obtain ⟨⟨m₁, r'⟩, hr, heq⟩ := Option.map_eq_some_iff.mp hmove
    cases heq
    obtain ⟨hkind, -, -, hnum, -⟩ := (NodeRun.move_cases hr).frame
    exact Or.inl ⟨hnum.trans hclient, hkind.trans h⟩

/-- There is a first client, or none has read `clientNum`. -/
def HasFirst (s : ClusterState) : Prop :=
  (s.1.clientNum = some 0 ∧ ∀ p ∈ s.2, p.Before s.1) ∨ ∃ p ∈ s.2, p.First s.1

theorem HasFirst.step (hinv : ServersInv s) (h : HasFirst s)
    (hs : clusterStep c s i = some s') : HasFirst s' := by
  obtain ⟨p, p', hp, hmove, hset⟩ := Threads.step_cases hs
  have hmem := List.mem_of_getElem? hp
  have hle := (hinv.counts hmem hmove).servers
  rw [HasFirst, hset]
  rcases h with ⟨hclient, hall⟩ | ⟨q, hq, hfirst⟩
  · rcases (hall p hmem).move hclient hmove with ⟨hclient', hbefore⟩ | hfirst
    · exact Or.inl ⟨hclient', Threads.forall_set (fun q hq => (hall q hq).mono hle) hbefore⟩
    · exact Or.inr ⟨p', Threads.mem_set hp p', hfirst⟩
  · refine Or.inr ?_
    rcases Threads.mem_set_or_eq hp hq p' with hin | rfl
    · exact ⟨q, hin, hfirst.mono hle⟩
    · exact ⟨p', Threads.mem_set hp p', hfirst.move hmove⟩

end First

/-- The process is up. -/
def Node.isUp (p : Node) : Prop := ∃ r, p = .running r ∧ r.pc = .up

section Clients

variable {c} {m₀ : Memc} {s : ClusterState}

theorem length_run {globalIDs schedule : List ℕ}
    (hrun : Run.run (clusterStep c) (startCluster m₀ c.serverNR globalIDs) schedule = some s) :
    s.2.length = globalIDs.length + c.serverNR := by
  refine Run.run_invariant (P := fun s => s.2.length = globalIDs.length + c.serverNR)
    (fun s i s' hlen hs => ?_) ?_ hrun
  · obtain ⟨p, p', -, -, hset⟩ := Threads.step_cases hs
    rw [hset, List.length_set, hlen]
  · rw [startCluster, List.length_append, List.length_map, List.length_replicate]

theorem hasFirst_run (hm : m₀.Restarted) {globalIDs schedule : List ℕ}
    (hrun : Run.run (clusterStep c) (startCluster m₀ c.serverNR globalIDs) schedule = some s) :
    HasFirst s := by
  refine (Run.run_invariant (P := fun s => ServersInv s ∧ HasFirst s)
    (fun _ _ _ h hs => ⟨h.1.step hs, h.2.step h.1 hs⟩)
    ⟨serversInv_start hm.serverNum _ globalIDs, Or.inl ⟨hm.clientNum, fun p hp => ?_⟩⟩ hrun).2
  rcases mem_startCluster hp with ⟨g, -, rfl⟩ | rfl <;> trivial

/-- What server `0` has stored. -/
theorem ClusterInv.exists_zero (h : ClusterInv c m₀ s) (hcount : ServersInv s) {b : ℕ}
    (hold : m₀.exchange 0 b = none) (hb : (s.1.exchange 0 b).isSome) :
    ∃ r, .running r ∈ s.2 ∧ r.id = 0 ∧ r.serverNum ≤ c.serverNR ∧
      (b < r.serverNum ∨ c.getServerNR ≤ b) := by
  rcases h.writes 0 b hb with hsome | ⟨p, hp, r, rfl, hid, hw⟩
  · rw [hold] at hsome
    cases hsome
  rcases hw with ⟨hpos, -⟩ | ⟨hcounted, hb⟩
  · exact absurd hid hpos.ne'
  · have hr : r.Counted s.1 := hcount.counted _ hp
    exact ⟨r, hp, hid, (hr.counted hcounted).1.trans (hcount.servers_le h), hb⟩

/-- A node that is up has stored its meta data for every server that it has counted, and every such
server for it. -/
theorem ClusterInv.linked_of_up (h : ClusterInv c m₀ s) {r : NodeRun} (hr : .running r ∈ s.2)
    (hup : r.pc = .up) {b : ℕ} (hb : b < r.serverNum) (hne : b ≠ r.id) : r.Linked s.1 b := by
  have hservers := (h.nodes r hr).servers
  rw [hup] at hservers
  exact (hservers rfl b hb hne).resolve_left List.not_mem_nil

/-- **A cluster with more than one client does not come up**, in whatever order its processes get
to memcached: there is always one that is not up. The start is memcached with the counters at `0`
and without meta data from server `0` to the node behind the servers. -/
theorem bringUp_clients (hm : m₀.Restarted) (hold : m₀.exchange 0 c.serverNR = none)
    {globalIDs schedule : List ℕ} (hlen : globalIDs.length = c.clientNR)
    (hservers : 0 < c.serverNR) (hclients : 2 ≤ c.clientNR)
    (hrun : Run.run (clusterStep c) (startCluster m₀ c.serverNR globalIDs) schedule = some s) :
    ∃ p ∈ s.2, ¬ p.isUp := by
  by_contra hall
  push Not at hall
  have hinv := clusterInv_run hrun
  have hcount := serversInv_run hm.serverNum hrun
  rcases hasFirst_run hm hrun with ⟨-, hbefore⟩ | ⟨p, hp, hfirst⟩
  · -- then all processes are servers
    have hkinds : s.2.countP Node.isServer = s.2.length := by
      rw [List.countP_eq_length]
      intro p hp
      obtain ⟨r, rfl, -⟩ := hall p hp
      have hkind : r.isClient = false := hbefore _ hp
      rw [Node.isServer, hkind]
      rfl
    rw [hinv.kinds, length_run hrun] at hkinds
    omega
  · obtain ⟨r, rfl, hup⟩ := hall p hp
    obtain ⟨hclient, hle, hnum⟩ := hfirst
    rw [hup] at hnum
    have hid : r.id = c.serverNR :=
      le_antisymm (hle.trans (hcount.servers_le hinv)) ((hinv.nodes r hp).client hclient)
    have hlinked := hinv.linked_of_up hp hup (b := 0) (by have := hnum rfl; omega) (by omega)
    obtain ⟨r', -, -, hnum', hb⟩ := hinv.exists_zero hcount (hid ▸ hold) hlinked.received
    rw [ClusterInfo.getServerNR, ClusterInfo.machineNR, expectedClientNR] at hb
    omega

/-- Two clients and a server. The server and the second client come up. -/
theorem bringUp_two_clients : ∃ s,
    Run.run (clusterStep ⟨1, 2⟩) (startCluster Memc.new 1 [1, 2])
      ([2, 2, 2] ++ List.replicate 13 0 ++ List.replicate 13 1 ++ [2, 2, 2, 1, 1, 2, 2]) =
        some s ∧ ∃ p ∈ s.2, ¬ p.isUp := by
  have heval : (Run.run (clusterStep ⟨1, 2⟩) (startCluster Memc.new 1 [1, 2])
      ([2, 2, 2] ++ List.replicate 13 0 ++ List.replicate 13 1 ++
        [2, 2, 2, 1, 1, 2, 2])).isSome = true := by
    decide
  obtain ⟨s, hrun⟩ := Option.isSome_iff_exists.mp heval
  exact ⟨s, hrun, bringUp_clients (c := ⟨1, 2⟩) Memc.restarted_new rfl rfl (by decide) (by decide)
    hrun⟩

/-- With the meta data that server `0` of an earlier cluster has stored for node `1`, all three come
up. -/
example : (Run.run (clusterStep ⟨1, 2⟩) (startCluster (Memc.newWith 0 1) 1 [1, 2])
    ([2, 2, 2, 2] ++ List.replicate 15 0 ++ List.replicate 9 1 ++
      [0, 0, 1, 1, 1, 1, 2, 2, 1, 1, 2, 2])).any
        (fun s => s.2.all fun p => p.dsm.any fun r => decide (r.pc = .up)) = true := by
  decide

/-- **The connections of a node that is up**: to the servers that it has counted, and no others.
The start is any memcached. -/
theorem connected_iff {globalIDs schedule : List ℕ}
    (hrun : Run.run (clusterStep c) (startCluster m₀ c.serverNR globalIDs) schedule = some s)
    {r : NodeRun} (hr : .running r ∈ s.2) (hup : r.pc = .up) {b : ℕ} (hb : b < c.getServerNR) :
    (r.remoteInfo b).isSome ↔ b < r.serverNum ∨ b = r.id := by
  have hinv := clusterInv_run hrun
  have hok := hinv.nodes r hr
  constructor
  · intro hsome
    rcases (hok.linked b hsome).2 with hlt | hge | heq
    · exact Or.inl hlt
    · exact absurd hb (not_lt.mpr hge)
    · exact Or.inr heq
  · intro hcase
    by_cases hne : b = r.id
    · exact hne ▸ hok.up hup
    · exact (hinv.linked_of_up hr hup (hcase.resolve_right hne) hne).info

/-- The steps of two servers and a client: the servers enter, then the client. -/
def twoServerSchedule : List ℕ :=
  [1, 1, 1, 2, 2, 2] ++ List.replicate 13 0 ++
    [1, 1, 1, 2, 1, 1, 0, 0, 1, 1, 2, 2, 2, 2, 2, 2, 2, 0, 0, 2, 2]

/-- Server `0` is up, and is connected to server `1`. -/
theorem connected_two : ∃ s r,
    Run.run (clusterStep ⟨2, 1⟩) (startCluster Memc.new 2 [2]) twoServerSchedule = some s ∧
      .running r ∈ s.2 ∧ r.id = 0 ∧ (r.remoteInfo 1).isSome := by
  have heval : ((Run.run (clusterStep ⟨2, 1⟩) (startCluster Memc.new 2 [2])
      twoServerSchedule).any fun s => s.2.any fun p => p.dsm.any fun r =>
        decide (r.pc = .up ∧ r.id = 0 ∧ r.serverNum = 2)) = true := by
    decide
  rw [Option.any_eq_true] at heval
  obtain ⟨s, hrun, hnodes⟩ := heval
  obtain ⟨p, hp, hr⟩ := List.any_eq_true.mp hnodes
  obtain ⟨r, hr, hup⟩ := (Option.any_eq_true ..).mp hr
  obtain rfl := Node.eq_running hr
  obtain ⟨hup, hid, hnum⟩ := of_decide_eq_true hup
  refine ⟨s, r, hrun, hp, hid, ?_⟩
  exact (connected_iff (c := ⟨2, 1⟩) hrun hp hup (by decide)).mpr (Or.inl (by omega))

end Clients

/-! ### One client -/

/-- The `clientNum` that the only client leaves. -/
def Node.clientPhase : Node → ℕ
  | .client _ .readServers | .client _ (.readClients _) | .client _ (.reserve ..)
  | .client _ (.count _) => 0
  | _ => 1

/-- A client that has read `clientNum` has read `0`. -/
def Node.ReadZero : Node → Prop
  | .client _ (.reserve _ cur) => cur = 0
  | _ => True

/-- A node that connects to clients connects to one. -/
def Node.LastOne : Node → Prop
  | .running r => r.pc.last ≤ 1
  | _ => True

/-- **What is known of a cluster with one client**, which is the first process. -/
structure OneClient (m₀ : Memc) (s : ClusterState) : Prop extends ClusterInv c m₀ s,
    ServersInv s where
  client : ∃ p rest, s.2 = p :: rest ∧ p.isServer = false ∧ p.ReadZero ∧
    s.1.clientNum = some p.clientPhase ∧ ∀ q ∈ rest, q.isServer = true
  last : ∀ p ∈ s.2, p.LastOne

section OneClient

variable {c} {m₀ m m' : Memc} {p p' : Node} {s s' : ClusterState} {i : ℕ}

theorem Node.move_server (h : p.isServer = true) (hmove : p.move c m = some (m', p')) :
    m'.clientNum = m.clientNum := by
  match p with
  | .server .probe | .server .init | .server (.signal _) => cases hmove; rfl
  | .server .enter =>
    obtain ⟨v, -, heq⟩ := Option.map_eq_some_iff.mp hmove
    cases heq
    rfl
  | .running r =>
    obtain ⟨⟨m₁, r'⟩, hr, heq⟩ := Option.map_eq_some_iff.mp hmove
    cases heq
    exact (NodeRun.move_cases hr).frame.2.2.2.1

theorem Node.move_client (h : p.isServer = false) (hzero : p.ReadZero)
    (hnum : m.clientNum = some p.clientPhase) (hmove : p.move c m = some (m', p')) :
    p'.ReadZero ∧ m'.clientNum = some p'.clientPhase := by
  match p with
  | .client g .readServers => cases hmove; exact ⟨trivial, hnum⟩
  | .client g (.readClients _) =>
    cases hmove
    rw [hnum]
    exact ⟨rfl, rfl⟩
  | .client g (.reserve _ cur) =>
    cases hmove
    obtain rfl : cur = 0 := hzero
    exact ⟨trivial, rfl⟩
  | .client g (.await id) =>
    obtain ⟨rfl, rfl⟩ := Node.move_await c hmove
    exact ⟨trivial, hnum⟩
  | .client g (.reset _) => cases hmove; exact ⟨trivial, rfl⟩
  | .client g (.count _) =>
    cases hmove
    rw [hnum]
    exact ⟨trivial, rfl⟩
  | .client g (.signal id) =>
    cases hmove
    rw [Node.construct]
    split_ifs <;> exact ⟨trivial, hnum⟩
  | .exited => cases hmove
  | .running r =>
    obtain ⟨⟨m₁, r'⟩, hr, heq⟩ := Option.map_eq_some_iff.mp hmove
    cases heq
    exact ⟨trivial, (NodeRun.move_cases hr).frame.2.2.2.1.trans hnum⟩

theorem NodeRun.Moved.last {r r' : NodeRun} (hnum : m.clientNum.getD 0 ≤ 1)
    (h : NodeRun.Moved c m r m' r') (hlast : r.pc.last ≤ 1) : r'.pc.last ≤ 1 := by
  cases h with
  | store | stored | servers => exact Nat.zero_le 1
  | clients => exact hnum
  | offer _ _ _ hpc | receive _ _ _ _ hpc | wait _ hpc =>
    rw [hpc] at hlast
    exact hlast
  | late last clientNum hpc hget =>
    rw [hget] at hnum
    exact hnum
  | up => exact le_refl expectedClientNR

theorem Node.construct_last {isClient : Bool} {id : ℕ} :
    (Node.construct c isClient id).LastOne := by
  rw [Node.construct]
  split_ifs
  · trivial
  all_goals exact Nat.zero_le 1

theorem Node.LastOne.move (hnum : m.clientNum.getD 0 ≤ 1) (h : p.LastOne)
    (hmove : p.move c m = some (m', p')) : p'.LastOne := by
  match p with
  | .server .probe | .server .init | .client _ .readServers | .client _ (.readClients _)
  | .client _ (.reserve ..) | .client _ (.reset _) | .client _ (.count _) =>
    cases hmove
    trivial
  | .server (.signal _) | .client _ (.signal _) =>
    cases hmove
    exact Node.construct_last
  | .server .enter =>
    obtain ⟨v, -, heq⟩ := Option.map_eq_some_iff.mp hmove
    cases heq
    trivial
  | .client g (.await id) =>
    obtain ⟨rfl, rfl⟩ := Node.move_await c hmove
    trivial
  | .exited => cases hmove
  | .running r =>
    obtain ⟨⟨m₁, r'⟩, hr, heq⟩ := Option.map_eq_some_iff.mp hmove
    cases heq
    exact (NodeRun.move_cases hr).last hnum h

theorem OneClient.clientNum_le (h : OneClient c m₀ s) : s.1.clientNum.getD 0 ≤ 1 := by
  obtain ⟨p, rest, -, -, -, hnum, -⟩ := h.client
  rw [hnum, Option.getD_some, Node.clientPhase.eq_def]
  split <;> decide

theorem OneClient.step (h : OneClient c m₀ s) (hs : clusterStep c s i = some s') :
    OneClient c m₀ s' := by
  obtain ⟨q, q', hq, hmove, hset⟩ := Threads.step_cases hs
  have hmem := List.mem_of_getElem? hq
  have hkind := (h.effect hmem hmove).kind
  refine ⟨h.toClusterInv.step hs, h.toServersInv.step hs, ?_, ?_⟩
  · obtain ⟨p, rest, hnodes, hp, hzero, hnum, hrest⟩ := h.client
    rw [hset, hnodes]
    rw [hnodes] at hq
    cases i with
    | zero =>
      obtain rfl := Option.some.inj hq
      obtain ⟨hzero', hnum'⟩ := Node.move_client hp hzero hnum hmove
      exact ⟨q', rest, rfl, hkind.trans hp, hzero', hnum', hrest⟩
    | succ i =>
      have hserver := hrest q (List.mem_of_getElem? hq)
      refine ⟨p, rest.set i q', rfl, hp, hzero, (Node.move_server hserver hmove).trans hnum, ?_⟩
      exact Threads.forall_set hrest (hkind.trans hserver)
  · rw [hset]
    exact Threads.forall_set h.last ((h.last q hmem).move h.clientNum_le hmove)

theorem oneClient_start (hm : m₀.Restarted) (g : ℕ) :
    OneClient c m₀ (startCluster m₀ c.serverNR [g]) := by
  refine ⟨clusterInv_start [g], serversInv_start hm.serverNum c.serverNR [g],
    ⟨_, _, rfl, rfl, trivial, hm.clientNum, fun q hq => ?_⟩, fun p hp => ?_⟩
  · rw [List.eq_of_mem_replicate hq]
    rfl
  · rcases mem_startCluster hp with ⟨g, -, rfl⟩ | rfl <;> trivial

/-! ### What the client has read -/

/-- The client has read that `k` servers have entered. -/
def Node.HasRead (c : ClusterInfo) (k : ℕ) : Node → Prop
  | .client _ (.readClients serverNum) => serverNum = k
  | .client _ (.reserve serverNum cur) => serverNum + cur = k
  | .client _ (.await id) | .client _ (.reset id) | .client _ (.count id)
  | .client _ (.signal id) => id = k
  | .exited => k < c.serverNR
  | .running r => r.isClient = true ∧ r.id = k
  | _ => False

/-- The steps before the first of the client, with which it reads `serverNum`. -/
def beforeClient (schedule : List ℕ) : List ℕ := schedule.takeWhile (· ≠ 0)

theorem beforeClient_of_notMem {schedule : List ℕ} (h : 0 ∉ schedule) (rest : List ℕ) :
    beforeClient (schedule ++ 0 :: rest) = schedule := by
  rw [beforeClient, List.takeWhile_append_of_pos fun i hi => ?_]
  · simp
  · rw [decide_eq_true_iff]
    rintro rfl
    exact h hi

theorem beforeClient_append {schedule : List ℕ} (h : 0 ∈ schedule) (rest : List ℕ) :
    beforeClient (schedule ++ rest) = beforeClient schedule := by
  induction schedule with
  | nil => cases h
  | cons i schedule ih =>
    rw [beforeClient, beforeClient, List.cons_append, List.takeWhile_cons, List.takeWhile_cons]
    by_cases hi : i = 0
    · simp [hi]
    · rw [if_pos (by simpa using hi), if_pos (by simpa using hi)]
      exact congrArg _ (ih ((List.mem_cons.mp h).resolve_left (Ne.symm hi)))

theorem Node.HasRead.move {k : ℕ} (h : p.HasRead c k) (hnum : m.clientNum = some p.clientPhase)
    (hmove : p.move c m = some (m', p')) : p'.HasRead c k := by
  match p with
  | .client g (.readClients serverNum) =>
    cases hmove
    rw [hnum]
    exact h
  | .client g (.reserve ..) | .client g (.reset _) | .client g (.count _) =>
    cases hmove
    exact h
  | .client g (.await id) =>
    obtain ⟨rfl, rfl⟩ := Node.move_await c hmove
    exact h
  | .client g (.signal id) =>
    cases hmove
    obtain rfl : id = k := h
    rw [Node.construct]
    split_ifs with hexit
    · exact hexit.2
    all_goals exact ⟨rfl, rfl⟩
  | .exited => cases hmove
  | .running r =>
    obtain ⟨⟨m₁, r'⟩, hr, heq⟩ := Option.map_eq_some_iff.mp hmove
    cases heq
    obtain ⟨hclient, hid, -⟩ := (NodeRun.move_cases hr).frame
    exact ⟨hclient.trans h.1, hid.trans h.2⟩

/-- The client has made no step, or has read the number of servers that had entered before its
first. -/
def ClientRead (c : ClusterInfo) (start : ClusterState) (schedule : List ℕ) (s : ClusterState) :
    Prop :=
  0 ∉ schedule ∧ (∃ g, s.2[0]? = some (.client g .readServers)) ∨
    0 ∈ schedule ∧ ∃ s₁ p, Run.run (clusterStep c) start (beforeClient schedule) = some s₁ ∧
      s.2[0]? = some p ∧ p.HasRead c s₁.1.servers

theorem ClientRead.step {start : ClusterState} {hist : List ℕ} (hinv : OneClient c m₀ s)
    (hrun : Run.run (clusterStep c) start hist = some s) (h : ClientRead c start hist s)
    (hs : clusterStep c s i = some s') : ClientRead c start (hist ++ [i]) s' := by
  obtain ⟨q, q', hq, hmove, hset⟩ := Threads.step_cases hs
  obtain ⟨hi, -⟩ := List.getElem?_eq_some_iff.mp hq
  by_cases hzero : i = 0
  · subst hzero
    have hq' : s'.2[0]? = some q' := by rw [hset, List.getElem?_set_self hi]
    refine Or.inr ⟨List.mem_append_right _ List.mem_cons_self, ?_⟩
    rcases h with ⟨hnot, g, hg⟩ | ⟨hmem, s₁, p, hrun₁, hp, hread⟩
    · obtain rfl : q = .client g .readServers := Option.some.inj (hq.symm.trans hg)
      refine ⟨s, q', ?_, hq', ?_⟩
      · rwa [beforeClient_of_notMem hnot]
      · obtain ⟨-, rfl⟩ := Prod.mk.inj (Option.some.inj hmove)
        exact rfl
    · obtain rfl : q = p := Option.some.inj (hq.symm.trans hp)
      obtain ⟨p₀, rest, hnodes, -, -, hnum, -⟩ := hinv.client
      rw [hnodes] at hq
      obtain rfl : p₀ = q := Option.some.inj hq
      refine ⟨s₁, q', ?_, hq', hread.move hnum hmove⟩
      rwa [beforeClient_append hmem]
  · have hsame : s'.2[0]? = s.2[0]? := by rw [hset, List.getElem?_set_ne hzero]
    rw [ClientRead, hsame]
    refine h.imp (fun ⟨hnot, hg⟩ => ⟨?_, hg⟩) fun ⟨hmem, s₁, p, hrun₁, hp⟩ =>
      ⟨List.mem_append_left _ hmem, s₁, p, ?_, hp⟩
    · simpa [hnot] using Ne.symm hzero
    · rwa [beforeClient_append hmem]

theorem oneClient_read (hm : m₀.Restarted) {schedule : List ℕ} {g : ℕ}
    (hrun : Run.run (clusterStep c) (startCluster m₀ c.serverNR [g]) schedule = some s) :
    OneClient c m₀ s ∧ ClientRead c (startCluster m₀ c.serverNR [g]) schedule s := by
  have hhist := Run.run_history (G := fun _ _ => True)
    (P := fun hist s => Run.run (clusterStep c) (startCluster m₀ c.serverNR [g]) hist = some s ∧
      OneClient c m₀ s ∧ ClientRead c (startCluster m₀ c.serverNR [g]) hist s)
    (fun hist s i s' ⟨hrun, hone, hread⟩ _ hs =>
      ⟨Run.run_concat hrun hs, hone.step hs, hread.step hone hrun hs⟩) []
    ⟨rfl, oneClient_start hm g, Or.inl ⟨List.not_mem_nil, g, rfl⟩⟩
    (Run.guarded_of_forall (fun _ _ => trivial) _ schedule) hrun
  exact hhist.2

end OneClient

/-! ### The length of a run -/

/-- How many steps a node has before it. -/
def RunPc.rank : RunPc → ℕ
  | .store sid => c.getServerNR - sid + 2 * c.serverNR + 10
  | .countServers => 2 * c.serverNR + 9
  | .countClients => 2 * c.serverNR + 8
  | .connect todo last => 2 * todo.length + 1 + if last < expectedClientNR then 4 else 0
  | .receive _ todo last => 2 * todo.length + 2 + if last < expectedClientNR then 4 else 0
  | .poll _ => 4
  | .up => 0

/-- How many steps a process has before it. -/
def Node.rank : Node → ℕ
  | .server pc => c.getServerNR + 2 * c.serverNR + 10 +
    match pc with
    | .probe => 4
    | .init => 3
    | .enter => 2
    | .signal _ => 1
  | .client _ pc => c.getServerNR + 2 * c.serverNR + 10 +
    match pc with
    | .readServers => 7
    | .readClients _ => 6
    | .reserve .. => 5
    | .await _ => 4
    | .reset _ => 3
    | .count _ => 2
    | .signal _ => 1
  | .exited => 0
  | .running r => r.pc.rank c

section Rank

variable {c} {m₀ m m' : Memc} {p p' : Node} {s s' : ClusterState} {i : ℕ}

theorem NodeRun.length_clients_le (r : NodeRun) (lo hi : ℕ) :
    (r.clients c lo hi).length ≤ hi - lo := by
  refine (List.length_filter_le _ _).trans ?_
  rw [List.length_map, List.length_range']

theorem NodeRun.Moved.rank_lt {r r' : NodeRun} (hr : r.Counted m)
    (hservers : m.servers ≤ c.serverNR) (hnum : m.clientNum.getD 0 ≤ 1)
    (h : NodeRun.Moved c m r m' r') :
    r'.pc.rank c < r.pc.rank c := by
  cases h with
  | store sid hpc hlt =>
    rw [hpc]
    simp only [RunPc.rank]
    omega
  | stored sid hpc hge =>
    rw [hpc]
    simp only [RunPc.rank]
    omega
  | servers hpc =>
    rw [hpc]
    simp only [RunPc.rank]
    omega
  | clients hpc todo htodo =>
    have hcounted := hr.counted
    rw [hpc] at hcounted
    have hcount := (hcounted rfl).1.trans hservers
    have hlen : todo.length ≤ c.serverNR + 1 := by
      rw [htodo, List.length_append]
      have hfirst : r.servers.length ≤ r.serverNum :=
        (List.length_filter_le _ _).trans List.length_range.le
      have hlast := r.length_clients_le (c := c) 0 (m.clientNum.getD 0)
      split_ifs
      · omega
      · rw [List.length_nil]
        omega
    rw [hpc]
    simp only [RunPc.rank]
    split_ifs <;> omega
  | offer remote todo last hpc | receive remote todo last _ hpc =>
    rw [hpc]
    simp only [RunPc.rank, List.length_cons]
    omega
  | wait last hpc hlast =>
    rw [hpc]
    simp only [RunPc.rank, if_pos hlast]
    omega
  | late last clientNum hpc hget hlt =>
    rw [hget, Option.getD_some] at hnum
    have hlen := r.length_clients_le (c := c) last clientNum
    have hdone : ¬ clientNum < expectedClientNR := by
      rw [expectedClientNR]
      omega
    rw [hpc]
    simp only [RunPc.rank, if_neg hdone]
    omega
  | up last hpc =>
    rw [hpc]
    simp only [RunPc.rank]
    omega

theorem Node.construct_rank_le {isClient : Bool} {id : ℕ} :
    (Node.construct c isClient id).rank c ≤ c.getServerNR + 2 * c.serverNR + 10 := by
  rw [Node.construct]
  split_ifs <;> simp only [Node.rank, RunPc.rank] <;> omega

theorem Node.rank_lt (hp : p.Counted m) (hservers : m.servers ≤ c.serverNR)
    (hnum : m.clientNum.getD 0 ≤ 1) (hmove : p.move c m = some (m', p')) :
    p'.rank c < p.rank c := by
  match p with
  | .server .probe =>
    cases hmove
    split_ifs <;> simp only [Node.rank] <;> omega
  | .server .init | .client _ .readServers | .client _ (.readClients _) | .client _ (.reserve ..)
  | .client _ (.reset _) | .client _ (.count _) =>
    cases hmove
    simp only [Node.rank]
    omega
  | .server (.signal _) | .client _ (.signal _) =>
    cases hmove
    exact Nat.lt_succ_of_le Node.construct_rank_le
  | .server .enter =>
    obtain ⟨v, -, heq⟩ := Option.map_eq_some_iff.mp hmove
    cases heq
    simp only [Node.rank]
    omega
  | .client g (.await id) =>
    obtain ⟨rfl, rfl⟩ := Node.move_await c hmove
    simp only [Node.rank]
    omega
  | .exited => cases hmove
  | .running r =>
    obtain ⟨⟨m₁, r'⟩, hr, heq⟩ := Option.map_eq_some_iff.mp hmove
    cases heq
    exact (NodeRun.move_cases hr).rank_lt hp hservers hnum

/-- Every step of a cluster with one client comes nearer to the end. -/
theorem OneClient.rank_lt (h : OneClient c m₀ s) (hs : clusterStep c s i = some s') :
    (s'.2.map (Node.rank c)).sum < (s.2.map (Node.rank c)).sum := by
  obtain ⟨q, q', hq, hmove, hset⟩ := Threads.step_cases hs
  have hlt := Node.rank_lt (h.counted q (List.mem_of_getElem? hq))
    (h.toServersInv.servers_le h.toClusterInv) h.clientNum_le hmove
  obtain ⟨rest, hsum, hnew⟩ := Threads.sum_set (Node.rank c) hq
  rw [hset, hsum, hnew]
  exact Nat.add_lt_add_right hlt rest

theorem length_le_of_run (hm : m₀.Restarted) {schedule : List ℕ} {g : ℕ}
    (hrun : Run.run (clusterStep c) (startCluster m₀ c.serverNR [g]) schedule = some s) :
    schedule.length ≤
      c.serverNR * (c.getServerNR + 2 * c.serverNR + 14) + c.getServerNR + 2 * c.serverNR + 17 := by
  have hlen := Run.run_length_le (P := OneClient c m₀) (m := fun s => (s.2.map (Node.rank c)).sum)
    (fun _ _ _ h hs => ⟨h.step hs, h.rank_lt hs⟩) (oneClient_start hm g) hrun
  refine (Nat.le_add_right _ _).trans (hlen.trans ?_)
  simp only [startCluster, List.map_cons, List.map_nil, List.singleton_append, List.sum_cons,
    List.map_replicate, List.sum_replicate_nat, Node.rank, Nat.add_assoc, Nat.reduceAdd]
  omega

end Rank

/-! ### Clusters that stop -/

section Stuck

variable {c} {m₀ : Memc} {s : ClusterState}

theorem OneClient.servers_le (h : OneClient c m₀ s) : s.1.servers ≤ c.serverNR :=
  h.toServersInv.servers_le h.toClusterInv

/-- In a cluster that has stopped all servers have entered, and run. -/
theorem ServersInv.server_of_stuck (h : ServersInv s)
    (hstuck : ∀ p ∈ s.2, p.move c s.1 = none) {p : Node} (hp : p ∈ s.2)
    (hserver : p.isServer = true) : ∃ r, p = .running r ∧ r.isClient = false := by
  have hmove := hstuck p hp
  match p with
  | .server .probe | .server .init | .server (.signal _) => cases hmove
  | .server .enter =>
    obtain ⟨v, hv, -⟩ := h.number
    rw [Node.move, hv] at hmove
    cases hmove
  | .running r =>
    refine ⟨r, rfl, ?_⟩
    rwa [Node.isServer, Bool.not_eq_true'] at hserver

/-- In a cluster that has stopped every id of a server is that of a node. -/
theorem OneClient.exists_server (h : OneClient c m₀ s) (hstuck : ∀ p ∈ s.2, p.move c s.1 = none)
    {k : ℕ} (hk : k < c.serverNR) : ∃ r, .running r ∈ s.2 ∧ r.isClient = false ∧ r.id = k := by
  obtain ⟨v, hv, hperm⟩ := h.number
  have hlen := hperm.length_eq
  rw [List.length_range, List.length_filterMap_eq_countP] at hlen
  have hall : s.2.countP Node.isServer ≤ s.2.countP fun p => p.serverId.isSome := by
    refine List.countP_mono_left fun p hp hserver => ?_
    obtain ⟨r, rfl, hr⟩ := h.server_of_stuck hstuck hp hserver
    rw [Node.serverId, hr]
    rfl
  rw [h.kinds, hlen] at hall
  have hmem : k ∈ s.2.filterMap Node.serverId :=
    hperm.mem_iff.mpr (List.mem_range.mpr (hk.trans_le hall))
  obtain ⟨p, hp, hid⟩ := List.mem_filterMap.mp hmem
  have hserver := Node.isServer_of_serverId (by rw [hid]; rfl)
  obtain ⟨r, rfl, hr⟩ := h.server_of_stuck hstuck hp hserver
  rw [Node.serverId, hr] at hid
  exact ⟨r, hp, hr, Option.some.inj hid⟩

/-- In a cluster that has stopped every node other than server `0` has stored its meta data for all
servers. -/
theorem ClusterInv.stored_of_stuck (h : ClusterInv c m₀ s) {r : NodeRun} (hr : .running r ∈ s.2)
    (hstuck : r.move c s.1 = none) (hid : 0 < r.id) {b : ℕ} (hb : b < c.getServerNR) :
    (s.1.exchange r.id b).isSome := by
  have hstored := (h.nodes r hr).stored hid b
  rcases NodeRun.stuck hstuck with ⟨remote, todo, last, hpc, -⟩ | ⟨last, hpc, -⟩ | hpc
  all_goals
    rw [hpc] at hstored
    exact hstored hb

/-- **The client of a cluster that has stopped** runs exactly if it has read that all servers have
entered, and has exited otherwise. -/
theorem OneClient.client_of_stuck (h : OneClient c m₀ s) (hpos : 0 < c.serverNR)
    (hstuck : ∀ p ∈ s.2, p.move c s.1 = none) {p : Node} {k : ℕ} (hp : p ∈ s.2)
    (hread : p.HasRead c k) :
    (p = .exited ∧ k < c.serverNR) ∨
      ∃ r, p = .running r ∧ r.isClient = true ∧ r.id = k ∧ c.serverNR ≤ k := by
  have hmove := hstuck p hp
  match p with
  | .client g (.readClients _) | .client g (.reserve ..) | .client g (.reset _)
  | .client g (.count _) | .client g (.signal _) => cases hmove
  | .client g (.await id) =>
    -- a server runs, so there is a signal
    obtain ⟨r, hr, -⟩ := h.exists_server hstuck hpos
    obtain ⟨v, hv, hle⟩ := h.signal _ hr rfl
    simp only [Node.move, hv, if_pos (show v ≥ 1 from hle)] at hmove
    cases hmove
  | .exited => exact Or.inl ⟨rfl, hread⟩
  | .running r =>
    refine Or.inr ⟨r, rfl, hread.1, hread.2, ?_⟩
    exact hread.2 ▸ (h.nodes r hp).client hread.1

/-- Its `clientNum`. -/
theorem OneClient.clientNum_of_running (h : OneClient c m₀ s) {r : NodeRun}
    (hr : s.2[0]? = some (.running r)) : s.1.clientNum = some 1 := by
  obtain ⟨p, rest, hnodes, -, -, hnum, -⟩ := h.client
  rw [hnodes] at hr
  obtain rfl : p = .running r := Option.some.inj hr
  exact hnum

/-- **For whom a node waits** in a cluster that has stopped, with a client that runs. -/
theorem OneClient.waits (h : OneClient c m₀ s) (hc : c.clientNR = 1)
    (hstuck : ∀ p ∈ s.2, p.move c s.1 = none) {client : NodeRun} (hclient : .running client ∈ s.2)
    (hid : client.id = c.serverNR) (hpos : 0 < c.serverNR) (hnum : s.1.clientNum = some 1)
    {r : NodeRun} (hr : .running r ∈ s.2) :
    r.pc = .up ∨ ∃ t, s.1.exchange t r.id = none ∧ t ≠ r.id ∧ t ≤ c.serverNR ∧
      (r.id < c.serverNR → t = 0) := by
  have hservers : c.getServerNR = c.serverNR := by
    rw [ClusterInfo.getServerNR, ClusterInfo.machineNR, hc, expectedClientNR]
    omega
  have hmoves : ∀ {r : NodeRun}, .running r ∈ s.2 → r.move c s.1 = none := fun hr =>
    Option.map_eq_none_iff.mp (hstuck _ hr)
  have hconn := h.nodes r hr
  rcases NodeRun.stuck (hmoves hr) with ⟨t, todo, last, hpc, hnone⟩ | ⟨last, hpc, hwait⟩ | hup
  · have htodo := hconn.todo t
    have hcounted := (show r.Counted s.1 from h.counted _ hr).counted
    have hlast : r.pc.last ≤ 1 := h.last _ hr
    rw [hpc] at htodo hcounted hlast
    have hle := (hcounted rfl).1.trans h.servers_le
    obtain ⟨hne, hcase⟩ := htodo List.mem_cons_self
    have ht : t ≤ c.serverNR := by
      rcases hcase with hlt | ⟨i, hi, rfl⟩
      · omega
      · have hi' : i < 1 := hi.trans_le hlast
        omega
    refine Or.inr ⟨t, hnone, hne, ht, fun hserver => ?_⟩
    by_contra ht0
    -- every node but server `0` has stored its meta data for the servers
    obtain ⟨r', hr', hid'⟩ : ∃ r', .running r' ∈ s.2 ∧ r'.id = t := by
      rcases Nat.lt_or_eq_of_le ht with hlt | heq
      · obtain ⟨r', hr', -, hid'⟩ := h.exists_server hstuck hlt
        exact ⟨r', hr', hid'⟩
      · exact ⟨client, hclient, hid.trans heq.symm⟩
    have hstored := h.stored_of_stuck hr' (hmoves hr') (by omega) (hservers ▸ hserver)
    rw [hid', hnone] at hstored
    cases hstored
  · have hlt := hconn.poll last hpc
    have hle := hwait 1 hnum
    rw [expectedClientNR] at hlt
    omega
  · exact Or.inl hup

/-- The servers of a cluster that has stopped are up, when the client runs and server `0` has
counted all servers: server `0` waits for nobody, and has stored what the others wait for. -/
theorem OneClient.servers_up (h : OneClient c m₀ s) (hpos : 0 < c.serverNR) (hc : c.clientNR = 1)
    (hstuck : ∀ p ∈ s.2, p.move c s.1 = none) {client r₀ : NodeRun}
    (hclient : s.2[0]? = some (.running client)) (hid : client.id = c.serverNR)
    (hr₀ : .running r₀ ∈ s.2) (hid₀ : r₀.id = 0) (hnum₀ : r₀.serverNum = c.serverNR) {r : NodeRun}
    (hr : .running r ∈ s.2) (hlt : r.id < c.serverNR) : r.pc = .up := by
  have hwaits := fun {r} hr => h.waits hc hstuck (List.mem_of_getElem? hclient) hid hpos
    (h.clientNum_of_running hclient) (r := r) hr
  have hup₀ : r₀.pc = .up := by
    refine (hwaits hr₀).resolve_right ?_
    rintro ⟨t, -, hne, -, ht⟩
    exact hne ((ht (by omega)).trans hid₀.symm)
  refine (hwaits hr).resolve_right ?_
  rintro ⟨t, hnone, hne, -, ht⟩
  obtain rfl := ht hlt
  have hsent := (h.linked_of_up hr₀ hup₀ (show r.id < r₀.serverNum by omega) (by omega)).sent
  rw [hid₀, hnone] at hsent
  cases hsent

/-- The client is up too: it waits for servers only. -/
theorem OneClient.client_up (h : OneClient c m₀ s) (hpos : 0 < c.serverNR) (hc : c.clientNR = 1)
    (hstuck : ∀ p ∈ s.2, p.move c s.1 = none) {client : NodeRun}
    (hclient : s.2[0]? = some (.running client)) (hid : client.id = c.serverNR)
    (hups : ∀ r, .running r ∈ s.2 → r.id < c.serverNR → r.pc = .up) : client.pc = .up := by
  have hservers : c.getServerNR = c.serverNR := by
    rw [ClusterInfo.getServerNR, ClusterInfo.machineNR, hc, expectedClientNR]
    omega
  have hmem := List.mem_of_getElem? hclient
  refine (h.waits hc hstuck hmem hid hpos (h.clientNum_of_running hclient) hmem).resolve_right ?_
  rintro ⟨t, hnone, hne, hle, -⟩
  obtain ⟨r, hr, -, hidr⟩ := h.exists_server hstuck (show t < c.serverNR by omega)
  have hclients := (h.nodes r hr).clients
  rw [hups r hr (by omega)] at hclients
  have hmachine : r.id < c.machineNR := by
    rw [ClusterInfo.machineNR]
    omega
  have hsent := ((hclients rfl hmachine 0 (by decide) (by omega)).resolve_left
    List.not_mem_nil).sent
  rw [hidr, hservers, Nat.add_zero, ← hid, hnone] at hsent
  cases hsent

/-- **All nodes of a cluster that has stopped are up**, when the client runs and server `0` has
counted all servers. -/
theorem OneClient.up_of_stuck (h : OneClient c m₀ s) (hpos : 0 < c.serverNR) (hc : c.clientNR = 1)
    (hstuck : ∀ p ∈ s.2, p.move c s.1 = none) {client r₀ : NodeRun}
    (hclient : s.2[0]? = some (.running client)) (hid : client.id = c.serverNR)
    (hr₀ : .running r₀ ∈ s.2) (hid₀ : r₀.id = 0) (hnum₀ : r₀.serverNum = c.serverNR) :
    ∀ p ∈ s.2, p.isUp := by
  have hups : ∀ r, .running r ∈ s.2 → r.id < c.serverNR → r.pc = .up := fun r hr hlt =>
    h.servers_up hpos hc hstuck hclient hid hr₀ hid₀ hnum₀ hr hlt
  intro p hp
  cases hserver : p.isServer with
  | true =>
    obtain ⟨r, rfl, hr⟩ := h.server_of_stuck hstuck hp hserver
    have hentered := (show r.Counted s.1 from h.counted _ hp).entered hr
    exact ⟨r, rfl, hups r hp (hentered.trans_le h.servers_le)⟩
  | false =>
    obtain ⟨p₀, rest, hnodes, -, -, -, hrest⟩ := h.client
    have hupc := h.client_up hpos hc hstuck hclient hid hups
    rw [hnodes] at hclient hp
    obtain rfl : p₀ = .running client := Option.some.inj hclient
    rcases List.mem_cons.mp hp with rfl | hin
    · exact ⟨client, rfl, hupc⟩
    · rw [hrest p hin] at hserver
      cases hserver

/-- **Server `0` has counted all servers**, when all nodes are up and memcached did not have its
meta data for the last of them. -/
theorem OneClient.counted_of_up (h : OneClient c m₀ s) (hpos : 0 < c.serverNR)
    (hold : m₀.exchange 0 (c.serverNR - 1) = none) (hc : c.clientNR = 1)
    (hstuck : ∀ p ∈ s.2, p.move c s.1 = none) (hall : ∀ p ∈ s.2, p.isUp) :
    ∃ r, .running r ∈ s.2 ∧ r.id = 0 ∧ r.serverNum = c.serverNR := by
  obtain ⟨r, hr, hkind, hid⟩ := h.exists_server hstuck (Nat.sub_one_lt hpos.ne')
  obtain ⟨r₁, heq, hup⟩ := hall _ hr
  cases heq
  have hcounted := (show r.Counted s.1 from h.counted _ hr).counted
  rw [hup] at hcounted
  obtain ⟨hle, hlt⟩ := hcounted rfl
  have hlt := hlt hkind
  by_cases hzero : r.id = 0
  · refine ⟨r, hr, hzero, le_antisymm (hle.trans h.servers_le) ?_⟩
    omega
  · have hlinked := h.linked_of_up hr hup (Nat.zero_lt_of_lt hlt) (Ne.symm hzero)
    obtain ⟨r₀, hr₀, hid₀, hle₀, hb⟩ :=
      h.exists_zero h.toServersInv (hid ▸ hold) hlinked.received
    rw [ClusterInfo.getServerNR, ClusterInfo.machineNR, hc, expectedClientNR] at hb
    refine ⟨r₀, hr₀, hid₀, le_antisymm hle₀ ?_⟩
    omega

/-- **A cluster with one client.** Its processes make a bounded number of steps, in whatever order
they get to memcached. When they have stopped, all of them are up exactly if all servers had entered
before the first step of the client, which reads `serverNum`, and server `0` has counted all
servers. The start is memcached with the counters at `0` and without meta data from server `0` to
the last server. -/
theorem bringUp_one_client (hm : m₀.Restarted) (hold : m₀.exchange 0 (c.serverNR - 1) = none)
    (hpos : 0 < c.serverNR) (hc : c.clientNR = 1) {schedule : List ℕ} {g : ℕ}
    (hrun : Run.run (clusterStep c) (startCluster m₀ c.serverNR [g]) schedule = some s) :
    schedule.length ≤ (c.serverNR + 1) * (3 * c.serverNR + 17) ∧
      ((∀ i, clusterStep c s i = none) → ((∀ p ∈ s.2, p.isUp) ↔
        (∃ s₁, Run.run (clusterStep c) (startCluster m₀ c.serverNR [g]) (beforeClient schedule) =
          some s₁ ∧ s₁.1.serverNum = some c.serverNR) ∧
        ∃ r, .running r ∈ s.2 ∧ r.id = 0 ∧ r.serverNum = c.serverNR)) := by
  obtain ⟨hone, hread⟩ := oneClient_read hm hrun
  refine ⟨?_, fun hstep => ?_⟩
  · have hlen := length_le_of_run hm hrun
    have hservers : c.getServerNR = c.serverNR := by
      rw [ClusterInfo.getServerNR, ClusterInfo.machineNR, hc, expectedClientNR]
      omega
    have hmul := Nat.mul_le_mul_left c.serverNR
      (show c.serverNR + 2 * c.serverNR + 14 ≤ 3 * c.serverNR + 17 by omega)
    rw [hservers] at hlen
    rw [Nat.succ_mul]
    omega
  have hstuck := Threads.stuck_iff.mp hstep
  obtain ⟨s₁, p, hrun₁, hp, hhas⟩ : ∃ s₁ p, Run.run (clusterStep c)
      (startCluster m₀ c.serverNR [g]) (beforeClient schedule) = some s₁ ∧ s.2[0]? = some p ∧
        p.HasRead c s₁.1.servers := by
    rcases hread with ⟨-, g', hg⟩ | ⟨-, hread⟩
    · cases hstuck _ (List.mem_of_getElem? hg)
    · exact hread
  obtain ⟨v, hv, -⟩ := (serversInv_run hm.serverNum hrun₁).number
  have hle := (serversInv_run hm.serverNum hrun₁).servers_le (clusterInv_run hrun₁)
  have hclient := hone.client_of_stuck hpos hstuck (List.mem_of_getElem? hp) hhas
  rw [Memc.servers, hv, Option.getD_some] at hle hclient
  constructor
  · intro hall
    refine ⟨⟨s₁, hrun₁, ?_⟩, hone.counted_of_up hpos hold hc hstuck hall⟩
    rcases hclient with ⟨rfl, -⟩ | ⟨r, -, -, -, hge⟩
    · obtain ⟨r, heq, -⟩ := hall _ (List.mem_of_getElem? hp)
      cases heq
    · rw [hv, le_antisymm hle hge]
  · rintro ⟨⟨s₂, hrun₂, hnum⟩, r₀, hr₀, hid₀, hnum₀⟩
    obtain rfl : s₁ = s₂ := Option.some.inj (hrun₁.symm.trans hrun₂)
    obtain rfl : v = c.serverNR := Option.some.inj (hv.symm.trans hnum)
    rcases hclient with ⟨-, hlt⟩ | ⟨r, rfl, -, hid, -⟩
    · exact absurd hlt (Nat.lt_irrefl _)
    · exact hone.up_of_stuck hpos hc hstuck hp hid hr₀ hid₀ hnum₀

theorem bringUp_one_client_two : ∃ s,
    Run.run (clusterStep ⟨2, 1⟩) (startCluster Memc.new 2 [2]) twoServerSchedule = some s ∧
      ∀ p ∈ s.2, p.isUp := by
  have heval : ((Run.run (clusterStep ⟨2, 1⟩) (startCluster Memc.new 2 [2])
      twoServerSchedule).any fun s =>
        (s.2.all fun p => (p.move ⟨2, 1⟩ s.1).isNone) &&
          s.2.any fun p => p.dsm.any fun r => decide (r.id = 0 ∧ r.serverNum = 2)) = true := by
    decide
  have hbefore : ((Run.run (clusterStep ⟨2, 1⟩) (startCluster Memc.new 2 [2])
      (beforeClient twoServerSchedule)).any fun s => decide (s.1.serverNum = some 2)) = true := by
    decide
  rw [Option.any_eq_true] at heval hbefore
  obtain ⟨s, hrun, hnodes⟩ := heval
  obtain ⟨s₁, hrun₁, hnum⟩ := hbefore
  rw [Bool.and_eq_true, List.all_eq_true, List.any_eq_true] at hnodes
  obtain ⟨hstop, q, hq, hzero⟩ := hnodes
  obtain ⟨r, hr, hzero⟩ := (Option.any_eq_true ..).mp hzero
  have hstuck := Threads.stuck_iff.mpr fun p hp => Option.isNone_iff_eq_none.mp (hstop p hp)
  exact ⟨s, hrun, ((bringUp_one_client (c := ⟨2, 1⟩) Memc.restarted_new rfl (by decide) rfl
    hrun).2 hstuck).mpr ⟨⟨s₁, hrun₁, of_decide_eq_true hnum⟩,
      ⟨r, Node.eq_running hr ▸ hq, of_decide_eq_true hzero⟩⟩⟩

/-- With the meta data that server `0` of an earlier cluster has stored for server `1`, all come up
though server `0` has counted one server. -/
example : (Run.run (clusterStep ⟨2, 1⟩) (startCluster (Memc.newWith 0 1) 2 [2])
    ([1, 1, 1, 1, 1] ++ List.replicate 11 2 ++ [1, 0, 0, 0, 2, 2, 1, 1, 0, 0, 0, 0, 0, 1, 1, 0, 2,
      2, 0, 0, 0, 0, 0, 0, 0, 0])).map
        (fun s => s.2.map fun p => p.dsm.map fun r => (r.pc, r.id, r.serverNum)) =
      some [some (.up, 2, 2), some (.up, 0, 1), some (.up, 1, 2)] := by
  decide

end Stuck

end Mayfly

end PetPS
