import PetPS.Lib.Threads
import PetPS.PetHash.Reload

/-!
# The threads of `Reload`

`Reload` starts `kRecoveryThread` threads twice. In the first pass a thread sweeps its own range of
chunks and adds what it counts to `count_size`. In the second pass the threads climb from the home
chunk of every key to the chunk that holds it and raise the overflow counters on the way, with
a load and a compare-and-swap for each; a counter at 255 is left alone, and a swap that fails is
tried again.

The state machine below makes every load and every swap one move, so that its runs are the
interleavings of the threads. `calls` is the log of `mallocSetValid`.

## Main results

* `Counter.move_effect` — what one move of the second pass does
* `flatMap_chunkIds` — the threads share the chunks among them
* `Counting.step` — what the second pass keeps, and that it comes to an end
* `run_reloaded` — every schedule ends, and all of them in the same table
-/

namespace PetPS

namespace Recovery

variable {V : Type}

open PetHash

/-! ### The threads -/

/-- `for (int chunk_id = left; chunk_id < right && chunk_id < chunk_num_; chunk_id++)` of
thread `i`. The index does not come to chunk `2 ^ 31`: it is an `int`, and compared with an unsigned
number. -/
def chunkIds (kRecoveryThread chunkNum i : ℕ) : List ℕ :=
  let blockNum := chunkNum / kRecoveryThread + 1
  (List.range' (i * blockNum) blockNum).filter fun c => decide (c < chunkNum) && decide (c < 2 ^ 31)

/-- A thread of the first pass sweeps the next of its chunks. The shared state is the table and
`count_size`. -/
def sweep (s : PetHash V × ℕ) : List ℕ → Option ((PetHash V × ℕ) × List ℕ)
  | [] => none
  | c :: cs =>
    some ((s.1.modifyChunk c fun chunk => chunk.reload.1, s.2 + (s.1.chunkTable c).reload.2), cs)

/-- The climb from the home chunk of a key to the chunk that holds it. -/
structure Climb where
  /-- The probe step of the key. -/
  step : ℕ
  /-- The chunk of the key. -/
  chunkId : ℕ
  /-- Where the climb is. -/
  pos : ℕ
  /-- `temp`, between the load and the swap. -/
  temp : Option ℕ

/-- A thread of the second pass. -/
structure Counter where
  /-- The slots to visit. -/
  slots : List (ℕ × Slot)
  /-- The climb for the slot being visited. -/
  climb : Option Climb

/-- A thread of the second pass visits a slot, or loads a counter, or swaps it. The shared state is
the table and the calls of `mallocSetValid`. -/
def Counter.move (s : PetHash V × List (EntryT V)) (w : Counter) :
    Option ((PetHash V × List (EntryT V)) × Counter) :=
  match w.climb with
  | none =>
    match w.slots with
    | [] => none
    | (p, i) :: slots =>
      let chunk := s.1.chunkTable p
      if chunk.InUse i then
        let item := chunk.value i
        some ((s.1, s.2 ++ [item]),
          ⟨slots, some ⟨stepOf item.first, p, s.1.homeChunk item.first, none⟩⟩)
      else some (s, ⟨slots, none⟩)
  | some c =>
    match c.temp with
    | none =>
      if c.pos = c.chunkId then some (s, ⟨w.slots, none⟩)
      else
        let temp := (s.1.chunkTable c.pos).overflowCount
        if temp = 255 then some (s, ⟨w.slots, some { c with pos := s.1.nextPos c.step c.pos }⟩)
        else some (s, ⟨w.slots, some { c with temp := some temp }⟩)
    | some temp =>
      if (s.1.chunkTable c.pos).overflowCount = temp then
        some ((s.1.modifyChunk c.pos fun chunk => { chunk with overflowCount := (temp + 1) % 256 },
          s.2), ⟨w.slots, some { c with pos := s.1.nextPos c.step c.pos, temp := none }⟩)
      else some (s, ⟨w.slots, some { c with temp := none }⟩)

/-! ### The machine -/

/-- The two passes of `Reload`. -/
inductive State (V : Type)
  /-- The first pass: the table and `count_size`, and the chunks left to each thread. -/
  | first (s : (PetHash V × ℕ) × List (List ℕ))
  /-- The second pass: the table and the calls, and the threads. -/
  | second (s : (PetHash V × List (EntryT V)) × List Counter)

/-- What can happen next. -/
inductive Move
  /-- A thread moves. -/
  | thread (i : ℕ)
  /-- The threads of the first pass are joined, and those of the second pass started. -/
  | join

/-- The threads of the second pass. -/
def counters (kRecoveryThread chunkNum : ℕ) : List Counter :=
  (List.range kRecoveryThread).map fun i =>
    ⟨List.product (chunkIds kRecoveryThread chunkNum i) (List.finRange 14), none⟩

/-- One move. -/
def step (kRecoveryThread : ℕ) : State V → Move → Option (State V)
  | .first s, .thread i => (Threads.step sweep s i).map .first
  | .first s, .join =>
    if s.2.all List.isEmpty then
      some (.second (({ s.1.1 with size := s.1.2 }, []), counters kRecoveryThread s.1.1.chunkNum))
    else none
  | .second s, .thread i => (Threads.step Counter.move s i).map .second
  | .second _, .join => none

/-- The table with its dimensions, before the first pass. -/
def sized (t : PetHash V) (chunkNum : ℕ) : PetHash V :=
  { t with chunkNum := chunkNum, capacity := chunkNum * 14, size := 0 }

/-- `Reload` when it starts the first threads. -/
def start (t : PetHash V) (capacity : ℕ) (ignoreLoadFactor : Bool)
    (kRecoveryThread : ℕ) : State V :=
  let chunkNum := overFallChunkNum (scaleCapacity capacity ignoreLoadFactor)
  .first ((sized t chunkNum, 0),
    (List.range kRecoveryThread).map (chunkIds kRecoveryThread chunkNum))

/-- What `Reload` leaves when all threads of the second pass have finished: the table, and the calls
of `mallocSetValid`. -/
def State.returned : State V → Option (PetHash V × List (EntryT V))
  | .first _ => none
  | .second s => if s.2.all fun w => w.slots.isEmpty && w.climb.isNone then some s.1 else none

/-! ### One move of the second pass -/

/-- The counters that are still to be raised in a climb. -/
def Climb.todo (N : ℕ) (c : Climb) : List ℕ := Walk.trail N c.step c.pos c.chunkId

/-- The counters that a thread has still to raise. -/
def Counter.todo (t : PetHash V) (w : Counter) : Multiset ℕ :=
  (w.climb.elim [] (Climb.todo t.chunkNum) : List ℕ) + (w.slots.map t.owedBy).sum

/-- The calls of `mallocSetValid` that a thread has still to make. -/
def Counter.ahead (t : PetHash V) (w : Counter) : Multiset (EntryT V) :=
  (w.slots.map fun s => (t.slotEntry s).elim 0 fun e => {e}).sum

/-- A climb between two chunks of the table. -/
structure Climb.Ok (N : ℕ) (c : Climb) : Prop where
  pos : c.pos < N
  chunkId : c.chunkId < N
  coprime : N.Coprime c.step
  /-- A counter at 255 is not swapped, nor is that of the chunk of the key. -/
  temp : ∀ temp ∈ c.temp, temp < 255 ∧ c.pos ≠ c.chunkId

/-- A thread between two moves. -/
structure Counter.Ok (N : ℕ) (w : Counter) : Prop where
  slots : ∀ s ∈ w.slots, s.1 < N
  climb : ∀ c ∈ w.climb, c.Ok N

/-- The moves that are left in a climb if nobody interferes. A swap that is bound to fail costs two
moves more than one that is not. -/
def Climb.cost (t : PetHash V) (c : Climb) : ℕ :=
  3 * (c.todo t.chunkNum).length +
    c.temp.elim 1 fun temp => if (t.chunkTable c.pos).overflowCount = temp then 0 else 2

/-- The moves that are left to a thread if nobody interferes. -/
def Counter.cost (t : PetHash V) (w : Counter) : ℕ :=
  w.climb.elim 0 (Climb.cost t) + (w.slots.map fun s => 3 * (t.owedBy s).card + 2).sum

/-- The swaps that can still succeed. -/
def room (t : PetHash V) : ℕ :=
  ∑ p ∈ Finset.range t.chunkNum, (255 - (t.chunkTable p).overflowCount)

/-- The effect of one move: counters, calls and costs. -/
structure Effect (s : PetHash V × List (EntryT V)) (w : Counter)
    (s' : PetHash V × List (EntryT V)) (w' : Counter) : Prop where
  ok : w'.Ok s.1.chunkNum
  recount : Recount s.1 s'.1
  beyond : ∀ p, s.1.chunkNum ≤ p → s'.1.chunkTable p = s.1.chunkTable p
  /-- A counter and what is still owed to it add up to the same, as far as it counts. -/
  counts : ∀ p, (s.1.chunkTable p).overflowCount ≤ 255 →
    (s'.1.chunkTable p).overflowCount ≤ 255 ∧
      ∀ m, min 255 ((s'.1.chunkTable p).overflowCount + ((w'.todo s.1).count p + m))
        = min 255 ((s.1.chunkTable p).overflowCount + ((w.todo s.1).count p + m))
  calls : (s'.2 : Multiset (EntryT V)) + w'.ahead s.1 = s.2 + w.ahead s.1
  cost : (s'.1 = s.1 ∧ w'.cost s.1 < w.cost s.1) ∨
    (room s'.1 < room s.1 ∧ w'.cost s'.1 ≤ w.cost s'.1)

theorem cost_le_of_recount {t t' : PetHash V} (h : Recount t t') (w : Counter) :
    w.cost t' ≤ w.cost t + 2 := by
  have hslots : (fun s => 3 * (t'.owedBy s).card + 2) = fun s => 3 * (t.owedBy s).card + 2 :=
    funext fun s => by rw [h.owedBy]
  rw [Counter.cost, Counter.cost, hslots]
  cases w.climb with
  | none => simp
  | some c =>
    simp only [Option.elim_some, Climb.cost, h.chunkNum]
    cases c.temp with
    | none => simp
    | some temp =>
      simp only [Option.elim_some]
      split_ifs <;> omega

/-- A move that leaves the table and the list of calls alone. -/
theorem Effect.of_quiet {s : PetHash V × List (EntryT V)} {w w' : Counter}
    (hok : w'.Ok s.1.chunkNum) (htodo : w'.todo s.1 = w.todo s.1)
    (hahead : w'.ahead s.1 = w.ahead s.1) (hcost : w'.cost s.1 < w.cost s.1) : Effect s w s w' where
  ok := hok
  recount := Recount.refl _
  beyond _ _ := rfl
  counts _ hp := ⟨hp, fun _ => by rw [htodo]⟩
  calls := by rw [hahead]
  cost := Or.inl ⟨rfl, hcost⟩

section Move

variable {s s' : PetHash V × List (EntryT V)} {k : ℕ}

theorem todo_climb (t : PetHash V) (slots : List (ℕ × Slot)) (c : Climb) :
    Counter.todo t ⟨slots, some c⟩
      = ((c.todo t.chunkNum : List ℕ) : Multiset ℕ) + (slots.map t.owedBy).sum := rfl

/-- A slot is visited. -/
theorem visit_effect (hN : s.1.chunkNum = 2 ^ k) {p : ℕ} {i : Slot} {slots : List (ℕ × Slot)}
    (hw : Counter.Ok s.1.chunkNum ⟨(p, i) :: slots, none⟩) {w' : Counter}
    (h : Counter.move s ⟨(p, i) :: slots, none⟩ = some (s', w')) :
    Effect s ⟨(p, i) :: slots, none⟩ s' w' := by
  have hp : p < s.1.chunkNum := hw.slots _ List.mem_cons_self
  have hslots : ∀ x ∈ slots, x.1 < s.1.chunkNum :=
    fun x hx => hw.slots x (List.mem_cons_of_mem _ hx)
  simp only [Counter.move] at h
  split_ifs at h with huse
  · obtain ⟨rfl, rfl⟩ := Prod.mk.inj (Option.some.inj h)
    have he : s.1.slotEntry (p, i) = some ((s.1.chunkTable p).value i) :=
      F14Chunk.entry_eq_some.mpr ⟨huse, rfl⟩
    have howed : s.1.owedBy (p, i) =
      (s.1.trail ((s.1.chunkTable p).value i).first p : Multiset ℕ) := by
      rw [owedBy, he]
      rfl
    have htodo : Counter.todo s.1 ⟨slots, some ⟨stepOf ((s.1.chunkTable p).value i).first, p,
        s.1.homeChunk ((s.1.chunkTable p).value i).first, none⟩⟩
          = Counter.todo s.1 ⟨(p, i) :: slots, none⟩ := by
      rw [todo_climb, Counter.todo, List.map_cons, List.sum_cons, howed]
      simp only [Option.elim_none, Multiset.coe_nil, zero_add]
      rfl
    refine ⟨⟨hslots, fun c hc => ?_⟩, Recount.refl _, fun _ _ => rfl,
      fun q hq => ⟨hq, fun m => by rw [htodo]⟩, ?_, Or.inl ⟨rfl, ?_⟩⟩
    · obtain rfl := Option.some.inj hc
      exact ⟨homeChunk_lt hN _, hp, coprime_stepOf hN _, fun _ hx => by cases hx⟩
    · simp only [Counter.ahead, List.map_cons, List.sum_cons, he, Option.elim_some]
      rw [← Multiset.coe_add, add_assoc, Multiset.coe_singleton]
    · simp only [Counter.cost, List.map_cons, List.sum_cons, howed, Option.elim_some,
        Option.elim_none,
        Climb.cost, Climb.todo, Multiset.coe_card]
      rw [trail]
      omega
  · obtain ⟨rfl, rfl⟩ := Prod.mk.inj (Option.some.inj h)
    have he : s.1.slotEntry (p, i) = none := F14Chunk.entry_eq_none.mpr (not_not.mp huse)
    refine Effect.of_quiet ⟨hslots, fun c hc => by cases hc⟩ ?_ ?_ ?_
    · simp [Counter.todo, owedBy, he]
    · simp [Counter.ahead, he]
    · simp [Counter.cost]

/-- A counter is loaded. -/
theorem load_effect (hN : s.1.chunkNum = 2 ^ k) {slots : List (ℕ × Slot)} {step chunkId pos : ℕ}
    (hbyte : ∀ p < s.1.chunkNum, (s.1.chunkTable p).overflowCount ≤ 255)
    (hw : Counter.Ok s.1.chunkNum ⟨slots, some ⟨step, chunkId, pos, none⟩⟩) {w' : Counter}
    (h : Counter.move s ⟨slots, some ⟨step, chunkId, pos, none⟩⟩ = some (s', w')) :
    Effect s ⟨slots, some ⟨step, chunkId, pos, none⟩⟩ s' w' := by
  obtain ⟨hpos, hchunk, hcop, -⟩ := hw.climb _ rfl
  simp only at hpos hchunk hcop
  simp only [Counter.move] at h
  split_ifs at h with hend hfull
  · -- the chunk of the key is reached
    obtain ⟨rfl, rfl⟩ := Prod.mk.inj (Option.some.inj h)
    refine Effect.of_quiet ⟨hw.slots, fun c hc => by cases hc⟩ ?_ rfl ?_
    · rw [todo_climb, Climb.todo, hend, Walk.trail_self hcop hchunk]
      rfl
    · simp [Counter.cost, Climb.cost]
  · -- the counter is stuck at 255
    obtain ⟨rfl, rfl⟩ := Prod.mk.inj (Option.some.inj h)
    have htrail := Walk.trail_of_ne hcop hpos hchunk hend
    have hnext : s.1.nextPos step pos < s.1.chunkNum := by
      rw [nextPos_eq_stride hN]
      exact Nat.mod_lt _ (by omega)
    refine ⟨⟨hw.slots, fun c hc => ?_⟩, Recount.refl _, fun _ _ => rfl,
      fun p hp => ⟨hp, fun m => ?_⟩, rfl, Or.inl ⟨rfl, ?_⟩⟩
    · obtain rfl := Option.some.inj hc
      exact ⟨hnext, hchunk, hcop, fun _ hx => by cases hx⟩
    · rw [todo_climb, todo_climb, Climb.todo, Climb.todo]
      simp only [nextPos_eq_stride hN]
      rw [htrail, ← Multiset.cons_coe, Multiset.cons_add, Multiset.count_cons]
      split_ifs with hpp
      · rw [hpp, hfull]
        omega
      · rfl
    · simp only [Counter.cost, Option.elim_some, Climb.cost, Climb.todo, Option.elim_none,
        nextPos_eq_stride hN, htrail, List.length_cons]
      omega
  · obtain ⟨rfl, rfl⟩ := Prod.mk.inj (Option.some.inj h)
    refine Effect.of_quiet ⟨hw.slots, fun c hc => ?_⟩ rfl rfl ?_
    · obtain rfl := Option.some.inj hc
      refine ⟨hpos, hchunk, hcop, fun temp ht => ?_⟩
      obtain rfl := Option.some.inj ht
      exact ⟨lt_of_le_of_ne (hbyte pos hpos) hfull, hend⟩
    · simp [Counter.cost, Climb.cost, Climb.todo]

/-- A swap that succeeds is an increment. -/
theorem swap_eq_incOverflow {t : PetHash V} {pos temp : ℕ} (htemp : temp < 255)
    (h : (t.chunkTable pos).overflowCount = temp) :
    t.modifyChunk pos (fun chunk => { chunk with overflowCount := (temp + 1) % 256 })
      = t.modifyChunk pos F14Chunk.incOverflow := by
  rw [modifyChunk, modifyChunk, F14Chunk.incOverflow, Tally.inc, h, if_pos htemp.ne,
    Nat.mod_eq_of_lt (by omega)]

theorem incAt_overflowCount (t : PetHash V) (pos p : ℕ) :
    ((t.modifyChunk pos F14Chunk.incOverflow).chunkTable p).overflowCount
      = if p = pos then Tally.inc 255 (t.chunkTable pos).overflowCount
        else (t.chunkTable p).overflowCount := by
  by_cases hp : p = pos
  · subst hp
    simp [modifyChunk, F14Chunk.incOverflow]
  · simp [modifyChunk, hp]

theorem room_incAt_lt {t : PetHash V} {pos : ℕ} (hpos : pos < t.chunkNum)
    (hlt : (t.chunkTable pos).overflowCount < 255) :
    room (t.modifyChunk pos F14Chunk.incOverflow) < room t := by
  refine Finset.sum_lt_sum (fun p _ => ?_) ⟨pos, Finset.mem_range.mpr hpos, ?_⟩
  · rw [incAt_overflowCount, Tally.inc]
    split_ifs with hp
    · subst hp; omega
    · subst hp; omega
    · exact le_rfl
  · rw [incAt_overflowCount, if_pos rfl, Tally.inc, if_pos hlt.ne]
    omega

/-- A counter is swapped. -/
theorem swap_effect (hN : s.1.chunkNum = 2 ^ k) {slots : List (ℕ × Slot)}
    {step chunkId pos temp : ℕ}
    (hw : Counter.Ok s.1.chunkNum ⟨slots, some ⟨step, chunkId, pos, some temp⟩⟩) {w' : Counter}
    (h : Counter.move s ⟨slots, some ⟨step, chunkId, pos, some temp⟩⟩ = some (s', w')) :
    Effect s ⟨slots, some ⟨step, chunkId, pos, some temp⟩⟩ s' w' := by
  obtain ⟨hpos, hchunk, hcop, htemp⟩ := hw.climb _ rfl
  obtain ⟨hlt, hend⟩ := htemp temp rfl
  simp only at hpos hchunk hcop hend
  simp only [Counter.move] at h
  split_ifs at h with heq
  · obtain ⟨rfl, rfl⟩ := Prod.mk.inj (Option.some.inj h)
    rw [swap_eq_incOverflow hlt heq]
    have htrail := Walk.trail_of_ne hcop hpos hchunk hend
    have hnext : s.1.nextPos step pos < s.1.chunkNum := by
      rw [nextPos_eq_stride hN]
      exact Nat.mod_lt _ (by omega)
    refine ⟨⟨hw.slots, fun c hc => ?_⟩, Recount.incAt _ _,
      fun p hp => Function.update_of_ne (by omega) _ _, fun p hp => ?_, rfl,
      Or.inr ⟨room_incAt_lt hpos (heq ▸ hlt), ?_⟩⟩
    · obtain rfl := Option.some.inj hc
      exact ⟨hnext, hchunk, hcop, fun _ hx => by cases hx⟩
    · rw [incAt_overflowCount, todo_climb, todo_climb, Climb.todo, Climb.todo]
      simp only [nextPos_eq_stride hN]
      rw [htrail, ← Multiset.cons_coe, Multiset.cons_add, Multiset.count_cons]
      split_ifs with hpp
      · rw [heq, Tally.inc, if_pos hlt.ne, hpp, heq]
        exact ⟨hlt, fun m => by omega⟩
      · exact ⟨hp, fun _ => rfl⟩
    · simp only [Counter.cost, Option.elim_some, Climb.cost, Climb.todo, Option.elim_none,
        nextPos_eq_stride hN, modifyChunk_chunkNum, htrail, List.length_cons]
      omega
  · -- another thread has raised the counter
    obtain ⟨rfl, rfl⟩ := Prod.mk.inj (Option.some.inj h)
    refine Effect.of_quiet ⟨hw.slots, fun c hc => ?_⟩ rfl rfl ?_
    · obtain rfl := Option.some.inj hc
      exact ⟨hpos, hchunk, hcop, fun _ hx => by cases hx⟩
    · simp [Counter.cost, Climb.cost, Climb.todo, heq]

end Move

/-- **One move of the second pass.** -/
theorem Counter.move_effect {s s' : PetHash V × List (EntryT V)} {k : ℕ} (hN : s.1.chunkNum = 2 ^ k)
    (hbyte : ∀ p < s.1.chunkNum, (s.1.chunkTable p).overflowCount ≤ 255) {w w' : Counter}
    (hw : w.Ok s.1.chunkNum) (h : w.move s = some (s', w')) : Effect s w s' w' := by
  obtain ⟨slots, _ | ⟨step, chunkId, pos, _ | temp⟩⟩ := w
  · rcases slots with _ | ⟨⟨p, i⟩, slots⟩
    · cases h
    · exact visit_effect hN hw h
  · exact load_effect hN hbyte hw h
  · exact swap_effect hN hw h

theorem Counter.move_eq_none_iff {s : PetHash V × List (EntryT V)} {w : Counter} :
    w.move s = none ↔ w.slots = [] ∧ w.climb = none := by
  obtain ⟨slots, _ | ⟨step, chunkId, pos, _ | temp⟩⟩ := w
  · rcases slots with _ | ⟨⟨p, i⟩, slots⟩
    · simp [Counter.move]
    · simp only [Counter.move]
      split_ifs <;> simp
  all_goals
    simp only [Counter.move]
    split_ifs <;> simp

/-! ### The second pass -/

theorem todo_congr {t t' : PetHash V} (h : Recount t t') (w : Counter) : w.todo t' = w.todo t := by
  rw [Counter.todo, Counter.todo, h.chunkNum, List.map_congr_left fun s _ => h.owedBy s]

theorem ahead_congr {t t' : PetHash V} (h : Recount t t') (w : Counter) :
    w.ahead t' = w.ahead t := by
  rw [Counter.ahead, Counter.ahead, List.map_congr_left fun s _ => by rw [h.entry s]]

/-- The second pass over the table `t`, under way. -/
structure Counting (t : PetHash V) (s : (PetHash V × List (EntryT V)) × List Counter) : Prop where
  ok : ∀ w ∈ s.2, w.Ok t.chunkNum
  recount : Recount t s.1.1
  beyond : ∀ p, t.chunkNum ≤ p → s.1.1.chunkTable p = t.chunkTable p
  /-- A counter counts the keys that pass over its chunk, but for those of the threads. -/
  counts : ∀ p < t.chunkNum, (s.1.1.chunkTable p).overflowCount ≤ 255 ∧
    min 255 ((s.1.1.chunkTable p).overflowCount + ((s.2.map (Counter.todo t)).sum).count p)
      = min 255 (t.passCount p)
  /-- `mallocSetValid` is called once for every slot in use. -/
  calls : (s.1.2 : Multiset (EntryT V)) + (s.2.map (Counter.ahead t)).sum = t.entries

/-- The moves that are left, at most. -/
def measure (s : (PetHash V × List (EntryT V)) × List Counter) : ℕ :=
  (2 * s.2.length + 1) * room s.1.1 + (s.2.map (Counter.cost s.1.1)).sum

/-- A swap costs the others at most two moves each. -/
theorem sum_cost_le {t t' : PetHash V} (h : Recount t t') (ws : List Counter) :
    (ws.map (Counter.cost t')).sum ≤ (ws.map (Counter.cost t)).sum + 2 * ws.length := by
  induction ws with
  | nil => simp
  | cons w ws ih =>
    have hw := cost_le_of_recount h w
    simp only [List.map_cons, List.sum_cons, List.length_cons]
    omega

theorem Effect.measure_lt {s s' : (PetHash V × List (EntryT V)) × List Counter} {i : ℕ}
    {w w' : Counter} (h : Effect s.1 w s'.1 w') (hw : s.2[i]? = some w)
    (hset : s'.2 = s.2.set i w') :
    measure s' < measure s := by
  have hlen : s'.2.length = s.2.length := by rw [hset, List.length_set]
  obtain ⟨rest, hsum, hsum'⟩ := Threads.sum_set (Counter.cost s'.1.1) hw
  rw [measure, measure, hlen]
  rcases h.cost with ⟨heq, hcost⟩ | ⟨hroom, hcost⟩
  · rw [heq] at hsum hsum'
    rw [hset, heq, hsum, hsum']
    exact Nat.add_lt_add_left (Nat.add_lt_add_right hcost _) _
  · have hothers := sum_cost_le h.recount s.2
    have hmul := Nat.mul_le_mul_left (2 * s.2.length + 1) hroom
    rw [Nat.mul_succ] at hmul
    rw [hset, hsum']
    omega

theorem Counting.step {t : PetHash V}
    {s s' : (PetHash V × List (EntryT V)) × List Counter} {k i : ℕ}
    (hN : t.chunkNum = 2 ^ k) (h : Counting t s) (hstep : Threads.step Counter.move s i = some s') :
    Counting t s' ∧ measure s' < measure s := by
  obtain ⟨w, w', hw, hmove, hset⟩ := Threads.step_cases hstep
  have hN₁ := h.recount.chunkNum
  have heff : Effect s.1 w s'.1 w' := Counter.move_effect (hN₁.trans hN)
    (fun p hp => (h.counts p (hN₁ ▸ hp)).1) (hN₁ ▸ h.ok w (List.mem_of_getElem? hw)) hmove
  refine ⟨⟨?_, h.recount.trans heff.recount, fun p hp => ?_, fun p hp => ?_, ?_⟩, ?_⟩
  · rw [hset]
    exact Threads.forall_set h.ok (hN₁ ▸ heff.ok)
  · exact (heff.beyond p (hN₁ ▸ hp)).trans (h.beyond p hp)
  · obtain ⟨rest, hsum, hsum'⟩ := Threads.sum_set (Counter.todo t) hw
    obtain ⟨hle, hcount⟩ := h.counts p hp
    obtain ⟨hle', hcount'⟩ := heff.counts p hle
    refine ⟨hle', ?_⟩
    rw [hset, hsum', Multiset.count_add, ← todo_congr h.recount, hcount', todo_congr h.recount,
      ← Multiset.count_add, ← hsum, hcount]
  · obtain ⟨rest, hsum, hsum'⟩ := Threads.sum_set (Counter.ahead t) hw
    have hcalls := heff.calls
    rw [ahead_congr h.recount, ahead_congr h.recount] at hcalls
    rw [hset, hsum', ← add_assoc, hcalls, add_assoc, ← hsum, h.calls]
  · exact heff.measure_lt hw hset

/-- **What the second pass leaves.** -/
def recounted (t : PetHash V) : PetHash V :=
  { t with
    chunkTable := fun p =>
      if p < t.chunkNum then { t.chunkTable p with overflowCount := min 255 (t.passCount p) }
      else t.chunkTable p }

theorem eq_recounted {t t' : PetHash V} (h : Recount t t')
    (hcount : ∀ p, (t'.chunkTable p).overflowCount
      = if p < t.chunkNum then min 255 (t.passCount p) else (t.chunkTable p).overflowCount) :
    t' = recounted t := by
  have htable : t'.chunkTable = (recounted t).chunkTable := by
    funext p
    have hp := hcount p
    have hchunk : t'.chunkTable p
        = { t.chunkTable p with overflowCount := (t'.chunkTable p).overflowCount } := by
      simp only [← h.tags p, ← h.value p, ← h.chunkSize p, ← h.migrating p]
    rw [hchunk, hp, recounted]
    simp only
    split_ifs <;> rfl
  obtain ⟨capacity, chunkNum, size, table⟩ := t'
  rw [recounted, PetHash.mk.injEq]
  exact ⟨h.capacity, h.chunkNum, h.size, htable⟩

theorem Counting.finished {t : PetHash V} {s : (PetHash V × List (EntryT V)) × List Counter}
    (h : Counting t s) (hend : ∀ w ∈ s.2, w.slots = [] ∧ w.climb = none) :
    s.1.1 = recounted t ∧ (s.1.2 : Multiset (EntryT V)) = t.entries := by
  have htodo : (s.2.map (Counter.todo t)).sum = 0 := List.sum_eq_zero fun x hx => by
    obtain ⟨w, hw, rfl⟩ := List.mem_map.mp hx
    simp [Counter.todo, hend w hw]
  have hahead : (s.2.map (Counter.ahead t)).sum = 0 := List.sum_eq_zero fun x hx => by
    obtain ⟨w, hw, rfl⟩ := List.mem_map.mp hx
    simp [Counter.ahead, hend w hw]
  have hcalls := h.calls
  rw [hahead, add_zero] at hcalls
  refine ⟨eq_recounted h.recount fun p => ?_, hcalls⟩
  split_ifs with hp
  · obtain ⟨hle, hcount⟩ := h.counts p hp
    rwa [htodo, Multiset.count_zero, Nat.add_zero, Nat.min_eq_right hle] at hcount
  · rw [h.beyond p (not_lt.mp hp)]

/-! ### The ranges of the threads -/

/-- The threads share the chunks among them. -/
theorem flatMap_chunkIds {kRecoveryThread chunkNum : ℕ} (hk : 1 ≤ kRecoveryThread)
    (hint : chunkNum ≤ 2 ^ 31) :
    (List.range kRecoveryThread).flatMap (chunkIds kRecoveryThread chunkNum) =
      List.range chunkNum := by
  obtain ⟨b, hb⟩ : ∃ b, b = chunkNum / kRecoveryThread + 1 := ⟨_, rfl⟩
  have hblocks : ∀ n, (List.range n).flatMap (fun i => List.range' (i * b) b) =
    List.range (n * b) := by
    intro n
    induction n with
    | zero => simp
    | succ n ih =>
      have happend : List.range' 0 (n * b) ++ List.range' (0 + n * b) b =
        List.range' 0 (n * b + b) :=
        List.range'_append_1
      rw [Nat.zero_add] at happend
      rw [List.range_succ, List.flatMap_append, ih, List.flatMap_singleton, Nat.succ_mul,
        List.range_eq_range', List.range_eq_range', happend]
  have hcover : chunkNum ≤ kRecoveryThread * b := by
    rw [hb, Nat.mul_succ]
    have := Nat.div_add_mod chunkNum kRecoveryThread
    have := Nat.mod_lt chunkNum hk
    omega
  have hfilter : (List.range kRecoveryThread).flatMap (chunkIds kRecoveryThread chunkNum)
      = (List.range (kRecoveryThread * b)).filter fun c =>
        decide (c < chunkNum) && decide (c < 2 ^ 31) := by
    rw [← hblocks, List.filter_flatMap, hb]
    rfl
  obtain ⟨d, hd⟩ := Nat.exists_eq_add_of_le hcover
  rw [hfilter, hd, List.range_add, List.filter_append]
  have hlow : (List.range chunkNum).filter (fun c => decide (c < chunkNum) && decide (c < 2 ^ 31))
      = List.range chunkNum := by
    rw [List.filter_eq_self]
    intro c hc
    have hc := List.mem_range.mp hc
    simp only [Bool.and_eq_true, decide_eq_true_eq]
    omega
  have hhigh : ((List.range d).map (chunkNum + ·)).filter
      (fun c => decide (c < chunkNum) && decide (c < 2 ^ 31)) = [] := by
    rw [List.filter_eq_nil_iff]
    intro c hc
    obtain ⟨j, -, rfl⟩ := List.mem_map.mp hc
    simp
  rw [hlow, hhigh, List.append_nil]

/-! ### The first pass -/

/-- The chunks left to the threads. -/
def left (ls : List (List ℕ)) : Multiset ℕ := (ls.map Multiset.ofList).sum

/-- The first pass over the table `t`, under way. -/
structure Sweeping (t : PetHash V) (s : (PetHash V × ℕ) × List (List ℕ)) : Prop where
  capacity : s.1.1.capacity = t.capacity
  chunkNum : s.1.1.chunkNum = t.chunkNum
  nodup : (left s.2).Nodup
  lt : ∀ c ∈ left s.2, c < t.chunkNum
  table : ∀ p, s.1.1.chunkTable p
    = if p < t.chunkNum ∧ p ∉ left s.2 then (t.chunkTable p).reload.1 else t.chunkTable p
  count : s.1.2 + ((left s.2).map fun c => (t.chunkTable c).reload.2).sum
    = ((List.range t.chunkNum).map fun c => (t.chunkTable c).reload.2).sum

theorem Sweeping.step {t : PetHash V} {s s' : (PetHash V × ℕ) × List (List ℕ)} {i : ℕ}
    (h : Sweeping t s) (hstep : Threads.step sweep s i = some s') :
    Sweeping t s' ∧ (left s'.2).card < (left s.2).card := by
  obtain ⟨l, l', hl, hmove, hset⟩ := Threads.step_cases hstep
  obtain _ | ⟨c, cs⟩ := l
  · cases hmove
  simp only [sweep, Option.some.injEq, Prod.mk.injEq] at hmove
  obtain ⟨hs, rfl⟩ := hmove
  have hleft : left s.2 = c ::ₘ left s'.2 := by
    obtain ⟨rest, hsum, hsum'⟩ := Threads.sum_set Multiset.ofList hl
    rw [left, left, hset, hsum, hsum', ← Multiset.cons_coe, Multiset.cons_add]
  have hnodup := h.nodup
  rw [hleft, Multiset.nodup_cons] at hnodup
  have hc : c < t.chunkNum := h.lt c (hleft ▸ Multiset.mem_cons_self c _)
  have hold : s.1.1.chunkTable c = t.chunkTable c := by
    rw [h.table, if_neg fun hx => hx.2 (hleft ▸ Multiset.mem_cons_self c _)]
  refine ⟨⟨?_, ?_, hnodup.2, fun x hx => h.lt x (hleft ▸ Multiset.mem_cons_of_mem hx),
    fun p => ?_, ?_⟩, ?_⟩
  · rw [← hs]
    exact h.capacity
  · rw [← hs]
    exact h.chunkNum
  · rw [← hs]
    by_cases hp : p = c
    · subst hp
      rw [if_pos ⟨hc, hnodup.1⟩, ← hold]
      exact Function.update_self _ _ _
    · refine (Function.update_of_ne hp _ _).trans ((h.table p).trans (if_congr ?_ rfl rfl))
      rw [hleft, Multiset.mem_cons, not_or]
      exact and_congr_right fun _ => and_iff_right hp
  · have hcount := h.count
    rw [hleft, Multiset.map_cons, Multiset.sum_cons, ← add_assoc] at hcount
    rw [← hs, hold]
    exact hcount
  · rw [hleft, Multiset.card_cons]
    exact Nat.lt_succ_self _

/-- **What the first pass leaves.** -/
theorem Sweeping.finished {t : PetHash V} {s : (PetHash V × ℕ) × List (List ℕ)} (h : Sweeping t s)
    (hend : ∀ l ∈ s.2, l = []) : ({ s.1.1 with size := s.1.2 } : PetHash V) = t.reloadSlots := by
  have hleft : left s.2 = 0 := List.sum_eq_zero fun x hx => by
    obtain ⟨l, hl, rfl⟩ := List.mem_map.mp hx
    rw [hend l hl]
    rfl
  have hcount := h.count
  rw [hleft, Multiset.map_zero, Multiset.sum_zero, Nat.add_zero] at hcount
  have htable : s.1.1.chunkTable = t.reloadSlots.chunkTable := by
    funext p
    rw [h.table, hleft, reloadSlots]
    simp only
    rw [modifyAll_chunkTable List.nodup_range]
    refine if_congr ?_ rfl rfl
    rw [List.mem_range]
    exact and_iff_left (Multiset.notMem_zero p)
  rw [reloadSlots] at htable ⊢
  rw [PetHash.mk.injEq]
  exact ⟨h.capacity.trans (modifyAll_capacity_size _ _ _).1.symm,
    h.chunkNum.trans (modifyAll_chunkNum _ _ _).symm, hcount, htable⟩

/-! ### The whole of `Reload` -/

section Schedules

variable {kRecoveryThread : ℕ} {u : PetHash V} {k : ℕ}

theorem left_eq_flatten (ls : List (List ℕ)) : left ls = (ls.flatten : Multiset ℕ) := by
  induction ls with
  | nil => rfl
  | cons l ls ih =>
    rw [List.flatten_cons, ← Multiset.coe_add, ← ih]
    rfl

theorem sweeping_start (hk : 1 ≤ kRecoveryThread) (hint : u.chunkNum ≤ 2 ^ 31) :
    Sweeping u ((u, 0), (List.range kRecoveryThread).map
      (chunkIds kRecoveryThread u.chunkNum)) := by
  have hleft : left ((List.range kRecoveryThread).map (chunkIds kRecoveryThread u.chunkNum))
      = (List.range u.chunkNum : Multiset ℕ) := by
    rw [left_eq_flatten, ← List.flatMap_def, flatMap_chunkIds hk hint]
  refine ⟨rfl, rfl, ?_, fun c hc => ?_, fun p => ?_, ?_⟩
  · rw [hleft]
    exact Multiset.coe_nodup.mpr List.nodup_range
  · rw [hleft] at hc
    exact List.mem_range.mp hc
  · refine (if_neg fun hx => hx.2 ?_).symm
    rw [hleft]
    exact List.mem_range.mpr hx.1
  · rw [hleft, Nat.zero_add]
    rfl

/-- Sums over the slots, thread by thread. -/
theorem sum_counters {M : Type} [AddCommMonoid M] (hk : 1 ≤ kRecoveryThread) {chunkNum : ℕ}
    (hint : chunkNum ≤ 2 ^ 31) (f : ℕ × Slot → M) :
    ((counters kRecoveryThread chunkNum).map fun w => (w.slots.map f).sum).sum
      = ((slotList chunkNum).map f).sum := by
  rw [slotList, ← flatMap_chunkIds hk hint, counters, List.map_map]
  induction List.range kRecoveryThread with
  | nil => rfl
  | cons i is ih =>
    have hsplit : ∀ cs ds : List ℕ, List.product (cs ++ ds) (List.finRange 14)
        = List.product cs (List.finRange 14) ++ List.product ds (List.finRange 14) := fun cs ds =>
      List.flatMap_append
    rw [List.map_cons, List.sum_cons, ih, List.flatMap_cons, hsplit, List.map_append,
      List.sum_append]
    rfl

theorem counting_start (hN : u.chunkNum = 2 ^ k) (hk : 1 ≤ kRecoveryThread)
    (hint : u.chunkNum ≤ 2 ^ 31) (hzero : ∀ p < u.chunkNum, (u.chunkTable p).overflowCount = 0) :
    Counting u ((u, []), counters kRecoveryThread u.chunkNum) := by
  refine ⟨fun w hw => ?_, Recount.refl u, fun _ _ => rfl, fun p hp => ?_, ?_⟩
  · obtain ⟨i, -, rfl⟩ := List.mem_map.mp hw
    refine ⟨fun s hs => ?_, fun c hc => by cases hc⟩
    have hid := (List.mem_filter.mp (List.mem_product.mp hs).1).2
    simp only [Bool.and_eq_true, decide_eq_true_eq] at hid
    exact hid.1
  · have htodo : ((counters kRecoveryThread u.chunkNum).map (Counter.todo u)).sum
        = ((slotList u.chunkNum).map u.owedBy).sum := by
      rw [← sum_counters hk hint]
      refine congrArg List.sum (List.map_congr_left fun w hw => ?_)
      obtain ⟨i, -, rfl⟩ := List.mem_map.mp hw
      exact Multiset.zero_add _
    rw [hzero p hp, htodo, count_owed ⟨k, hN⟩ hp, Nat.zero_add]
    exact ⟨Nat.zero_le _, rfl⟩
  · have hahead : ((counters kRecoveryThread u.chunkNum).map (Counter.ahead u)).sum =
      u.entries := by
      rw [entries, slotSum, ← toFinset_slotList, List.sum_toFinset _ (nodup_slotList _),
        ← sum_counters hk hint]
      rfl
    rw [hahead]
    exact Multiset.zero_add _

/-- `Reload` under way, on a table of the right dimensions. -/
def Underway (u : PetHash V) : State V → Prop
  | .first s => Sweeping u s
  | .second s => Counting u.reloadSlots s

/-- The moves that are left, at most. -/
def movesLeft (kRecoveryThread : ℕ) (u : PetHash V) : State V → ℕ
  | .first s => (left s.2).card + measure
    ((u.reloadSlots, []), counters kRecoveryThread u.chunkNum) + 1
  | .second s => measure s

theorem Underway.step (hN : u.chunkNum = 2 ^ k) (hk : 1 ≤ kRecoveryThread)
    (hint : u.chunkNum ≤ 2 ^ 31) {st st' : State V} {m : Move} (h : Underway u st)
    (hstep : Recovery.step kRecoveryThread st m = some st') :
    Underway u st' ∧ movesLeft kRecoveryThread u st' < movesLeft kRecoveryThread u st := by
  have hN₁ := u.reloadSlots_chunkNum
  cases st with
  | first s =>
    cases m with
    | thread i =>
      obtain ⟨s', hs', rfl⟩ := Option.map_eq_some_iff.mp hstep
      obtain ⟨hsweep, hlt⟩ := Sweeping.step h hs'
      exact ⟨hsweep, Nat.add_lt_add_right (Nat.add_lt_add_right hlt _) _⟩
    | join =>
      simp only [Recovery.step] at hstep
      split_ifs at hstep with hempty
      obtain rfl := Option.some.inj hstep
      have hend : ∀ l ∈ s.2, l = [] := fun l hl =>
        List.isEmpty_iff.mp (List.all_eq_true.mp hempty l hl)
      rw [Sweeping.finished h hend, Sweeping.chunkNum h]
      refine ⟨?_, ?_⟩
      · have hstart := counting_start (u := u.reloadSlots) (hN₁.trans hN) hk (hN₁.symm ▸ hint)
          fun p hp => by rw [u.reloadSlots_chunkTable (hN₁ ▸ hp), F14Chunk.reload_eq]
        rw [hN₁] at hstart
        exact hstart
      · simp only [movesLeft]
        omega
  | second s =>
    cases m with
    | thread i =>
      obtain ⟨s', hs', rfl⟩ := Option.map_eq_some_iff.mp hstep
      exact Counting.step (hN₁.trans hN) h hs'
    | join => cases hstep

/-- What `Reload` has returned. -/
theorem Underway.returned {st : State V} {t' : PetHash V} {calls : List (EntryT V)}
    (h : Underway u st) (hret : st.returned = some (t', calls)) :
    t' = recounted u.reloadSlots ∧ (calls : Multiset (EntryT V)) = u.reloadSlots.entries := by
  cases st with
  | first s => cases hret
  | second s =>
    rw [State.returned] at hret
    split_ifs at hret with hall
    obtain hs := Option.some.inj hret
    have hend : ∀ w ∈ s.2, w.slots = [] ∧ w.climb = none := fun w hw => by
      simpa using List.all_eq_true.mp hall w hw
    have hfin := Counting.finished h hend
    rwa [hs] at hfin

/-- When no thread can move, `Reload` has returned. -/
theorem returned_of_stuck {st : State V} (hstuck : ∀ m, Recovery.step kRecoveryThread st m = none) :
    st.returned.isSome = true := by
  cases st with
  | first s =>
    have hthreads : ∀ l ∈ s.2, sweep s.1 l = none :=
      Threads.stuck_iff.mp fun i => Option.map_eq_none_iff.mp (hstuck (.thread i))
    have hempty : s.2.all List.isEmpty = true := List.all_eq_true.mpr fun l hl => by
      cases l with
      | nil => rfl
      | cons c cs => cases hthreads _ hl
    have hjoin := hstuck .join
    simp only [Recovery.step, if_pos hempty] at hjoin
    cases hjoin
  | second s =>
    have hend : ∀ w ∈ s.2, w.slots = [] ∧ w.climb = none := fun w hw =>
      Counter.move_eq_none_iff.mp (Threads.stuck_iff.mp
        (fun i => Option.map_eq_none_iff.mp (hstuck (.thread i))) w hw)
    rw [State.returned, if_pos (List.all_eq_true.mpr fun w hw => by simp [hend w hw])]
    rfl

end Schedules

/-- **`Reload`, for every schedule.** No schedule goes on for ever; when no thread can move any
more, `Reload` has returned; and then the table is the same for all schedules, and so are the
calls of `mallocSetValid`. -/
theorem run_reloaded (t : PetHash V) {capacity : ℕ} {ignoreLoadFactor : Bool} {chunkNum k : ℕ}
    (hN : overFallChunkNum (scaleCapacity capacity ignoreLoadFactor) = chunkNum)
    (hpow : chunkNum = 2 ^ k) (hint : chunkNum ≤ 2 ^ 31) {kRecoveryThread : ℕ}
    (hk : 1 ≤ kRecoveryThread) :
    ∃ bound, ∀ moves st, Run.run (Recovery.step kRecoveryThread)
        (start t capacity ignoreLoadFactor kRecoveryThread) moves = some st →
      moves.length ≤ bound ∧
      ((∀ m, Recovery.step kRecoveryThread st m = none) → st.returned.isSome = true) ∧
      ∀ t' calls, st.returned = some (t', calls) → t' = recounted (sized t chunkNum).reloadSlots ∧
        (calls : Multiset (EntryT V)) = (sized t chunkNum).reloadSlots.entries := by
  have hstart : Underway (sized t chunkNum)
      (start t capacity ignoreLoadFactor kRecoveryThread) := by
    rw [start, hN]
    exact sweeping_start (u := sized t chunkNum) hk hint
  have hstep : ∀ st m st', Underway (sized t chunkNum) st →
      Recovery.step kRecoveryThread st m = some st' → Underway (sized t chunkNum) st' ∧
        movesLeft kRecoveryThread (sized t chunkNum) st' < movesLeft kRecoveryThread
          (sized t chunkNum) st :=
    fun _ _ _ h hs => h.step hpow hk hint hs
  refine ⟨movesLeft kRecoveryThread (sized t chunkNum)
    (start t capacity ignoreLoadFactor kRecoveryThread), fun moves st hrun =>
    ⟨?_, returned_of_stuck, fun t' calls hret => ?_⟩⟩
  · exact (Nat.le_add_right _ _).trans (Run.run_length_le hstep hstart hrun)
  · exact (Run.run_invariant (fun s a s' h hs => (hstep s a s' h hs).1) hstart hrun).returned hret

end Recovery

end PetPS
