import PetPS.Lib.Run
import PetPS.PetHash.SafeTurn

/-!
# Lookups during a migration

One thread runs `HotnessAwareMigration` and makes its stores one after another; any number of
calls of `Get` visit chunks in between. Nothing else writes, so what the migration reads in a turn
does not depend on the calls, and the stores of a turn are known when the turn starts.

The marks do not protect every call. A call that has left the home chunk of the hot key before the
chunk is marked, and comes to the chunk of the key after the marks are reset, finds nothing and has
met no mark: it returns that the key does not exist (`lookup_misses_hot_key`). Otherwise lookups are
right, as long as the turns themselves are (`TurnOk`).

## Main results

* `Sees.step` — what every step keeps
* `lookups_during_migration` — every run
-/

namespace PetPS

namespace MigratedLookups

variable {V : Type}

open PetHash Cut

/-! ### The migration and the lookups -/

/-- A call of `Get`: the pass it makes, or what it has returned. -/
inductive Get (V : Type)
  | probing (p : Probe)
  | returned (key : UInt64) (r : Option V)

/-- The state of the process. -/
structure State (V : Type) where
  table : PetHash V
  /-- The hot keys whose turn is still to come. -/
  hotKeys : List UInt64
  /-- The hot key whose turn it is. -/
  hot : UInt64
  /-- The stores of the turn that are still to be made. -/
  stores : List (MigrationStore V)
  gets : List (Get V)

/-- What runs next. -/
inductive Move
  /-- The migration. -/
  | migrate
  /-- The `i`-th call of `Get`. -/
  | get (i : ℕ)

/-- A call of `Get` visits a chunk. -/
def visit (t : PetHash V) (p : Probe) : Get V :=
  match p.visit t with
  | .inl (.found pos id) => .returned p.key (some ((t.chunkTable pos).value id).second)
  | .inl .absent => .returned p.key none
  | .inl .retry => .probing (.start t p.key)
  | .inr q => .probing q

/-- One step. A turn that aborts is the last one. -/
def step (s : State V) : Move → Option (State V)
  | .migrate =>
    match s.stores, s.hotKeys with
    | a :: as, _ => some { s with table := s.table.applyStore a, stores := as }
    | [], key :: keys =>
      some { s with
        hot := key
        stores := s.table.migrateStores key
        hotKeys := if (s.table.migrateKey key).toOption.isSome then keys else [] }
    | [], [] => none
  | .get i =>
    match s.gets[i]? with
    | some (.probing p) => some { s with gets := s.gets.set i (visit s.table p) }
    | _ => none

/-- The migration of `hotKeys` and a call of `Get` for each of `keys`. -/
def start (t : PetHash V) (hotKeys keys : List UInt64) : State V :=
  ⟨t, hotKeys, 0, [], keys.map fun key => .probing (.start t key)⟩

/-! ### Steps that are safe -/

/-- The call does not look for the hot key, or is at the first chunk of its pass, or has met a
mark. -/
def Get.Clear (hot : UInt64) : Get V → Prop
  | .probing p => p.key = hot → p.i = 0 ∨ p.touch = true
  | .returned _ _ => True

instance (hot : UInt64) : (g : Get V) → Decidable (g.Clear hot)
  | .probing _ => inferInstanceAs (Decidable (_ → _))
  | .returned _ _ => inferInstanceAs (Decidable True)

/-- A turn is right, and a mark is reset when no lookup of the hot key is between the chunks. -/
def Ok (s : State V) : Move → Prop
  | .migrate =>
    match s.stores, s.hotKeys with
    | [], key :: _ => s.table.TurnOk key
    | .mark _ false :: _, _ => ∀ g ∈ s.gets, g.Clear s.hot
    | _, _ => True
  | .get _ => True

instance (s : State V) : (move : Move) → Decidable (Ok s move)
  | .get _ => inferInstanceAs (Decidable True)
  | .migrate =>
    match s with
    | ⟨_, [], _, [], _⟩ => inferInstanceAs (Decidable True)
    | ⟨t, key :: _, _, [], _⟩ => inferInstanceAs (Decidable (t.TurnOk key))
    | ⟨_, _, hot, .mark _ false :: _, gets⟩ =>
      inferInstanceAs (Decidable (∀ g ∈ gets, g.Clear hot))
    | ⟨_, _, _, .mark _ true :: _, _⟩ => inferInstanceAs (Decidable True)
    | ⟨_, _, _, .hash _ :: _, _⟩ => inferInstanceAs (Decidable True)

/-! ### What every step keeps -/

/-- The pass can still find its key among the entries `E`. -/
structure Probing (E : Multiset (EntryT V)) (cover : Option (UInt64 × ℕ))
    (t : PetHash V) (p : Probe) :
    Prop where
  path : p.OnPath t
  reaches : ∀ e ∈ E, e.first = p.key → p.touch = true ∨ t.Reaches cover e p.i

/-- The stores still to come are safe, the calls under way are not lost, and those that have
returned were right. -/
structure Sees (E : Multiset (EntryT V)) (s : State V) : Prop where
  safe : ∃ cover, Safe E s.hot cover s.table s.stores ∧
    ∀ p, .probing p ∈ s.gets → Probing E cover s.table p
  good : ∃ ahead, (exec applyStore s.table s.stores).Good ahead ∧
    (exec applyStore s.table s.stores).entries = E
  hot : ∀ key ∈ s.hotKeys, ∃ v, ⟨key, v⟩ ∈ E
  answers : ∀ key r, .returned key r ∈ s.gets → ∀ v, r = some v ↔ ⟨key, v⟩ ∈ E

theorem chunkNum_applyStore (t : PetHash V) (a : MigrationStore V) :
    (t.applyStore a).chunkNum = t.chunkNum := by
  cases a with
  | mark pos b => rfl
  | hash a => cases a <;> rfl

theorem chunkNum_exec (t : PetHash V) (as : List (MigrationStore V)) :
    (exec applyStore t as).chunkNum = t.chunkNum := by
  induction as generalizing t with
  | nil => rfl
  | cons a as ih => rw [exec_cons, ih, chunkNum_applyStore]

section Steps

variable {E : Multiset (EntryT V)} {s s' : State V}

theorem Sees.pow (h : Sees E s) : ∃ k, s.table.chunkNum = 2 ^ k := by
  obtain ⟨ahead, hgood, -⟩ := h.good
  obtain ⟨k, hk⟩ := hgood.shape.pow
  exact ⟨k, chunkNum_exec s.table s.stores ▸ hk⟩

theorem Sees.nodup (h : Sees E s) {key : UInt64} {v w : V} (hv : ⟨key, v⟩ ∈ E) (hw : ⟨key, w⟩ ∈ E) :
    v = w := by
  obtain ⟨ahead, hgood, rfl⟩ := h.good
  exact hgood.nodup.value_unique hv hw

/-- **A store of the migration.** -/
theorem Sees.store (h : Sees E s) {a : MigrationStore V} {as : List (MigrationStore V)}
    (hstores : s.stores = a :: as)
    (hclear : a.unmarks = true → ∀ g ∈ s.gets, g.Clear s.hot) :
    Sees E { s with table := s.table.applyStore a, stores := as } := by
  obtain ⟨cover, hsafe, hprobing⟩ := h.safe
  obtain ⟨ahead, hgood, hE⟩ := h.good
  rw [hstores] at hsafe hgood hE
  obtain ⟨-, cover', hfollow, hrest⟩ := hsafe
  refine ⟨⟨cover', hrest, fun p hp => ⟨?_, fun e he hkey => ?_⟩⟩, ⟨ahead, hgood, hE⟩,
    h.hot, h.answers⟩
  · have hpath := (hprobing p hp).path
    have hN := chunkNum_applyStore s.table a
    exact ⟨hN ▸ hpath.lt, by rw [probeAt_congr hN]; exact hpath.pos⟩
  · by_cases hexempt : a.unmarks = true ∧ e.first = s.hot
    · -- the hot key loses its cover, which no pass relies on
      rcases hclear hexempt.1 _ hp (hkey.symm.trans hexempt.2) with hzero | htouch
      · rw [hzero]
        exact Or.inr (hrest.view.reaches e he)
      · exact Or.inl htouch
    · refine ((hprobing p hp).reaches e he hkey).imp_right (hfollow e he (fun hu heq => ?_) p.i)
      exact hexempt ⟨hu, heq⟩

/-- **A turn starts.** -/
theorem Sees.turn (h : Sees E s) {key : UInt64} {keys : List UInt64} (hstores : s.stores = [])
    (hkeys : s.hotKeys = key :: keys) (hok : s.table.TurnOk key) :
    Sees E { s with
      hot := key
      stores := s.table.migrateStores key
      hotKeys := if (s.table.migrateKey key).toOption.isSome then keys else [] } := by
  obtain ⟨cover, hsafe, hprobing⟩ := h.safe
  obtain ⟨ahead, hgood, hE⟩ := h.good
  rw [hstores] at hsafe hgood hE
  obtain ⟨-, rfl⟩ := hsafe
  rw [exec_nil] at hgood hE
  subst hE
  obtain ⟨v, hv⟩ := h.hot key (hkeys ▸ List.mem_cons_self)
  obtain ⟨t', ahead', hrun, hgood', hent, -⟩ := hgood.moveKey hv hok.1
  have hexec := exec_migrateStores hrun
  refine ⟨⟨none, hgood.safe_migrateStores hv hok, hprobing⟩, ⟨ahead', ?_⟩,
    fun key' hk => ?_, h.answers⟩
  · simp only [hexec]
    exact ⟨hgood', hent⟩
  · refine h.hot key' ?_
    rw [hkeys]
    simp only [hrun] at hk
    exact List.mem_cons_of_mem key hk

/-- **A visit of a lookup.** -/
theorem Sees.visit (h : Sees E s) {i : ℕ} {p : Probe} (hi : s.gets[i]? = some (.probing p)) :
    Sees E { s with gets := s.gets.set i (MigratedLookups.visit s.table p) } := by
  obtain ⟨cover, hsafe, hprobing⟩ := h.safe
  obtain ⟨k, hN⟩ := h.pow
  have hp := hprobing p (List.mem_of_getElem? hi)
  have hview := hsafe.view
  -- it is enough to look at what becomes of this call
  suffices hnew : (∀ q, MigratedLookups.visit s.table p = .probing q → Probing E cover s.table q) ∧
      ∀ key r, MigratedLookups.visit s.table p = .returned key r → ∀ v, r = some v ↔ ⟨key, v⟩ ∈ E by
    refine ⟨⟨cover, hsafe, fun q hq => ?_⟩, h.good, h.hot, fun key r hr => ?_⟩
    · rcases List.mem_or_eq_of_mem_set hq with hold | heq
      · exact hprobing q hold
      · exact hnew.1 q heq.symm
    · rcases List.mem_or_eq_of_mem_set hr with hold | heq
      · exact h.answers key r hold
      · exact hnew.2 key r heq.symm
  rw [MigratedLookups.visit]
  rcases hview.visit hN hp.path hp.reaches with
    ⟨id, hvisit, hmem⟩ | ⟨hvisit, habs⟩ | hvisit | ⟨q, hvisit, hkey, hpath, hreach⟩
  · simp only [hvisit]
    refine ⟨fun q hq => (nomatch hq), fun key r hr v => ?_⟩
    cases hr
    rw [Option.some.injEq]
    exact ⟨fun heq => heq ▸ hmem, fun hv => h.nodup hmem hv⟩
  · simp only [hvisit]
    refine ⟨fun q hq => (nomatch hq), fun key r hr v => ?_⟩
    cases hr
    exact ⟨fun heq => (nomatch heq), fun hv => absurd hv (habs v)⟩
  · simp only [hvisit]
    refine ⟨fun q hq => ?_, fun key r hr => (nomatch hr)⟩
    cases hq
    exact ⟨Probe.onPath_start hN p.key, fun e he _ => Or.inr (hview.reaches e he)⟩
  · simp only [hvisit]
    refine ⟨fun q' hq => ?_, fun key r hr => (nomatch hr)⟩
    cases hq
    exact ⟨hpath, fun e he hk => hreach e he (hk.trans hkey)⟩

/-- **Every safe step** keeps the entries in sight. -/
theorem Sees.step (h : Sees E s) {move : Move} (hok : Ok s move)
    (hstep : MigratedLookups.step s move = some s') : Sees E s' := by
  cases move with
  | get i =>
    simp only [MigratedLookups.step] at hstep
    split at hstep
    · next p hi =>
      cases hstep
      exact h.visit hi
    · cases hstep
  | migrate =>
    simp only [MigratedLookups.step] at hstep
    cases hstores : s.stores with
    | nil =>
      cases hkeys : s.hotKeys with
      | nil => rw [hstores, hkeys] at hstep; cases hstep
      | cons key keys =>
        rw [hstores, hkeys] at hstep
        cases hstep
        rw [Ok, hstores, hkeys] at hok
        exact h.turn hstores hkeys hok
    | cons a as =>
      rw [hstores] at hstep
      cases hstep
      refine h.store hstores fun hunmark => ?_
      match a, hunmark with
      | .mark pos false, _ =>
        rw [Ok, hstores] at hok
        exact hok

end Steps

theorem sees_start {t : PetHash V} (h : t.Inv) {hotKeys : List UInt64}
    (hhot : ∀ key ∈ hotKeys, t.has key = true) (keys : List UInt64) :
    Sees t.entries (start t hotKeys keys) := by
  obtain ⟨k, hN⟩ := h.shape.pow
  refine ⟨⟨none, ⟨h.view, rfl⟩, fun p hp => ?_⟩, ⟨0, h, rfl⟩,
    fun key hk => h.exists_mem_of_has (hhot key hk),
    fun key r hr => ?_⟩
  · obtain ⟨key, -, heq⟩ := List.mem_map.mp hp
    cases heq
    exact ⟨Probe.onPath_start hN key, fun e he _ => Or.inr (h.view.reaches e he)⟩
  · obtain ⟨key', -, heq⟩ := List.mem_map.mp hr
    cases heq

/-- **Lookups during a migration** return what the table held before it, in every run in which the
turns are right and no mark is reset while a lookup of the hot key has left the home chunk without
having met a mark. -/
theorem lookups_during_migration {t : PetHash V} (h : t.Inv) {hotKeys : List UInt64}
    (hhot : ∀ key ∈ hotKeys, t.has key = true) (keys : List UInt64)
    {moves : List Move} {s : State V} (hok : Run.Guarded step Ok (start t hotKeys keys) moves)
    (hrun : Run.run step (start t hotKeys keys) moves = some s) :
    ∀ key r, .returned key r ∈ s.gets → t.get key = .ok r := by
  intro key r hr
  have hsees : Sees t.entries s := Run.run_history (P := fun _ s => Sees t.entries s)
    (fun _ _ _ _ hs hg hstep => hs.step hg hstep) [] (sees_start h hhot keys) hok hrun
  have hans := hsees.answers key r hr
  cases r with
  | none => exact h.get_of_notMem fun v hv => (nomatch (hans v).mpr hv)
  | some v => exact h.get_of_mem ((hans v).mp rfl)

/-- The moves of the next run. -/
def restartMoves : List Move :=
  List.replicate 3 Move.migrate ++ [Move.get 0] ++ List.replicate 14 Move.migrate ++
    [Move.get 0, Move.get 0, Move.get 1, Move.get 1]

/-- The even keys up to `28` are set, all of which have home chunk `0`; `28` overflows into
chunk `1`. It is migrated while two calls look for it and for its victim, key `0`. The first comes
to chunk `0` when that is marked and to chunk `1` after the turn, and has to start again. -/
theorem lookups_during_migration_two_chunks :
    ∃ (t₀ t : PetHash UInt64) (s : State UInt64), initializeTable 28 true = some t₀ ∧
      Run.run callStep t₀
        ((List.range 15).map fun i => .set (.ofNat (2 * i)) (.ofNat i) none false) = some t ∧
      Run.run step (start t [28] [28, 0]) (List.replicate 3 .migrate ++ [.get 0] ++
        List.replicate 14 .migrate ++ [.get 0, .get 0, .get 1, .get 1]) = some s ∧
      (∀ key r, .returned key r ∈ s.gets → t.get key = .ok r) ∧ s.table.InHome 28 := by
  have heval : ((initializeTable 28 true : Option (PetHash UInt64)).any fun t₀ =>
      decide (Run.Guarded callStep (fun t c => c.Ok t) t₀ evenSets) &&
      (Run.run callStep t₀ evenSets).any fun t =>
        t.has 28 && decide (Run.Guarded step Ok (start t [28] [28, 0]) restartMoves) &&
          (Run.run step (start t [28] [28, 0]) restartMoves).any fun s =>
            decide (s.table.InHome 28)) = true := by
    decide +kernel
  simp only [Option.any_eq_true, Bool.and_eq_true, decide_eq_true_eq] at heval
  obtain ⟨t₀, hinit, hcalls, t, hset, ⟨hhas, hok⟩, s, hrun, hhome⟩ := heval
  have hinv : t.Inv := (initializeTable_inv hinit).1.run_calls hcalls hset
  have hhot : ∀ key ∈ [(28 : UInt64)], t.has key = true :=
    fun key hk => List.mem_singleton.mp hk ▸ hhas
  exact ⟨t₀, t, s, hinit, hset, hrun, lookups_during_migration hinv hhot _ hok hrun, hhome⟩

/-- The call has returned that the key does not exist. -/
def Get.isMiss (key : UInt64) : Get V → Bool
  | .returned k none => k == key
  | _ => false

theorem Get.eq_of_isMiss {key : UInt64} {g : Get V} (h : g.isMiss key = true) :
    g = .returned key none := by
  match g, h with
  | .returned k none, h => rw [eq_of_beq h]

/-- **A lookup misses the hot key.** The call leaves chunk `0` before the turn starts, and comes to
chunk `1` when it is over. -/
theorem lookup_misses_hot_key :
    ∃ (t₀ t : PetHash UInt64) (s : State UInt64), initializeTable 28 true = some t₀ ∧
      Run.run callStep t₀
        ((List.range 15).map fun i => .set (.ofNat (2 * i)) (.ofNat i) none false) = some t ∧
      t.Inv ∧ t.has 28 = true ∧ t.get 28 = .ok (some 14) ∧
      Run.run step (start t [28] [28])
        ([.get 0] ++ List.replicate 17 .migrate ++ [.get 0]) = some s ∧
      .returned 28 none ∈ s.gets := by
  have heval : ((initializeTable 28 true : Option (PetHash UInt64)).any fun t₀ =>
      decide (Run.Guarded callStep (fun t c => c.Ok t) t₀ evenSets) &&
      (Run.run callStep t₀ evenSets).any fun t =>
          t.has 28 && decide (t.get 28 = .ok (some 14)) &&
          (Run.run step (start t [28] [28])
            ([Move.get 0] ++ List.replicate 17 Move.migrate ++ [Move.get 0])).any
            fun s => s.gets.any fun g => g.isMiss 28) = true := by
    decide +kernel
  simp only [Option.any_eq_true, Bool.and_eq_true, decide_eq_true_eq, List.any_eq_true] at heval
  obtain ⟨t₀, hinit, hcalls, t, hset, ⟨hhas, hget⟩, s, hrun, g, hg, hmiss⟩ := heval
  have hinv : t.Inv := (initializeTable_inv hinit).1.run_calls hcalls hset
  exact ⟨t₀, t, s, hinit, hset, hinv, hhas, hget, hrun, Get.eq_of_isMiss hmiss ▸ hg⟩

end MigratedLookups

end PetPS
