import PetPS.Lib.Run
import PetPS.PetHash.Reload

/-!
# The representation invariant over whole runs

`Good` is kept by every call that changes the table. What a reader of `pet_hash.h` relies on follows
from it: tags, keys and element counts agree, no key is stored twice, every overflow counter is
stuck at 255 or counts the keys that pass over its chunk, and `Valid` accepts the table.

`DecOverflow` on a counter at `0` would wrap it to 255. To say that this never happens, the
functions below follow `Delete` and `Insert` and list the counters that the calls of `DecOverflow`
find.

## Main results

* `insertLoopCounts_succ` — the counters are those of the turns that the loop makes
* `Good.deleteCounts`, `insertLoopCounts_pos` — no call of `DecOverflow` finds `0`
* `Good.deleteAll` — deleting every key takes back every count
* `run_representation` — the invariant in every state of every run
-/

namespace PetPS

namespace PetHash

variable {V : Type}

/-! ### The counters `DecOverflow` finds -/

/-- The loop of `Delete` along the probe path, with the counters it finds. -/
def decPathSeen (t : PetHash V) (step home chunkId : ℕ) : Option (PetHash V × List ℕ) :=
  Walk.whileNe (t.nextPos step)
    (fun pos r => (r.1.modifyChunk pos F14Chunk.decOverflow,
      r.2 ++ [(r.1.chunkTable pos).overflowCount]))
    chunkId t.chunkNum home (t, [])

/-- The counters `Delete` finds. -/
def deleteCounts (t : PetHash V) (key : UInt64) : List ℕ :=
  match t.getInternal key with
  | .retry => []
  | .absent => []
  | .found pos _ => (t.decPathSeen (stepOf key) (t.homeChunk key) pos).elim [] Prod.snd

/-- The counters the expiry scan of `Insert` finds. -/
def expireCounts (check : CheckFunc V) (i pos : ℕ) : List Slot → PetHash V → List ℕ
  | [], _ => []
  | id :: ids, t =>
    let it := (t.chunkTable pos).value id
    if (t.chunkTable pos).InUse id ∧ check i it.first it.second false = false then
      t.deleteCounts it.first ++
        match t.delete it.first with
        | .ok t => expireCounts check i pos ids t
        | .error _ => []
    else expireCounts check i pos ids t

/-- The counters the expiry step of a turn finds. -/
def expireChunkCounts (check : Option (CheckFunc V)) (i pos : ℕ) (t : PetHash V) : List ℕ :=
  match check with
  | none => []
  | some check =>
    if 14 - 2 ≤ (t.chunkTable pos).size then expireCounts check i pos (List.finRange 14) t else []

/-- The counters the probing loop of `Insert` finds. -/
def insertLoopCounts (key : UInt64) (check : Option (CheckFunc V)) (force : Bool) :
    ℕ → ℕ → ℕ → PetHash V → List ℕ
  | 0, _, _, _ => []
  | fuel + 1, i, pos, t =>
    expireChunkCounts check i pos t ++
      match expireChunk check i pos t with
      | .error _ => []
      | .ok t =>
        let chunk := t.chunkTable pos
        if (chunk.find key (tagOf key)).isSome then []
        else if chunk.size < 14 then []
        else if t.Full then
          if force then
            let victim := (chunk.value (Fin.ofNat 14 ((tagOf key).toNat + i))).first
            t.deleteCounts victim ++
              match t.delete victim with
              | .error _ => []
              | .ok t => insertLoopCounts key check force fuel (i + 1) pos t
          else []
        else
          insertLoopCounts key check force fuel (i + 1) (t.nextPos (stepOf key) pos)
            (t.modifyChunk pos F14Chunk.incOverflow)

/-- The counters that the eviction of a turn finds. -/
def TurnEnd.counts : TurnEnd V → List ℕ
  | .evict t it => t.deleteCounts it.first
  | _ => []

/-- **The counters are those of the turns** that the loop makes. -/
theorem insertLoopCounts_succ (key : UInt64) (value : V) (check : Option (CheckFunc V))
    (force : Bool) (fuel i pos : ℕ) (t : PetHash V) :
    insertLoopCounts key check force (fuel + 1) i pos t =
      expireChunkCounts check i pos t ++ ((insertTurn key value check force i pos t).counts ++
        ((insertTurn key value check force i pos t).next key pos).elim []
          fun next => insertLoopCounts key check force fuel (i + 1) next.1 next.2) := by
  rw [insertLoopCounts, insertTurn]
  refine congrArg _ ?_
  cases expireChunk check i pos t with
  | error e => rfl
  | ok t =>
    simp only
    cases (t.chunkTable pos).find key (tagOf key) with
    | some id => rfl
    | none =>
      simp only [Option.isSome_none, Bool.false_eq_true, if_false]
      split_ifs
      · cases (t.chunkTable pos).insert key value (tagOf key) <;> rfl
      · refine congrArg _ ?_
        cases hdel : t.delete
            ((t.chunkTable pos).value (Fin.ofNat 14 ((tagOf key).toNat + i))).first with
        | error e => simp only [TurnEnd.next, hdel, Option.elim_none]
        | ok t₁ => simp only [TurnEnd.next, hdel, Option.elim_some]
      · rfl
      · rfl

/-- A traversal that meets no chunk twice finds the counters of the table it started from. -/
theorem foldl_decSeen : ∀ {ps : List ℕ}, ps.Nodup → ∀ (t : PetHash V) (seen : List ℕ),
    ps.foldl (fun r pos => (r.1.modifyChunk pos F14Chunk.decOverflow,
        r.2 ++ [(r.1.chunkTable pos).overflowCount])) (t, seen)
      = (t.decAll ps, seen ++ ps.map fun p => (t.chunkTable p).overflowCount) := by
  intro ps
  induction ps with
  | nil => intro _ t seen; simp [decAll]
  | cons p ps ih =>
    intro hnodup t seen
    obtain ⟨hp, hps⟩ := List.nodup_cons.mp hnodup
    have hrest : ps.map (fun q =>
      ((t.modifyChunk p F14Chunk.decOverflow).chunkTable q).overflowCount)
        = ps.map fun q => (t.chunkTable q).overflowCount := by
      refine List.map_congr_left fun q hq => ?_
      have hne : q ≠ p := fun hqp => hp (hqp ▸ hq)
      rw [modifyChunk_of_ne _ _ _ hne]
    rw [List.foldl_cons, ih hps, hrest, List.append_assoc]
    rfl

/-- The chunks on the path of a stored key have counters above `0`. -/
theorem Good.trail_pos {t : PetHash V} {ahead : Multiset ℕ} (h : t.Good ahead) {s : ℕ × Slot}
    {e : EntryT V} (hs : s.1 < t.chunkNum) (he : t.slotEntry s = some e) {c : ℕ}
    (hc : c ∈ t.trail e.first s.1) : (t.chunkTable c).overflowCount ≠ 0 := by
  have hhome := h.shape.homeChunk_lt e.first
  have hcN := Walk.lt_of_mem_trail hhome hc
  have hpass := (Walk.mem_trail (h.shape.coprime e.first) hhome hs hcN).mp hc
  exact h.ledger.count_pos hcN (passCount_pos hs he hpass)

/-- **`Delete` decrements no counter at `0`.** -/
theorem Good.deleteCounts {t : PetHash V} {ahead : Multiset ℕ} (h : t.Good ahead) (key : UInt64) :
    0 ∉ t.deleteCounts key := by
  rcases h.getInternal_cases key with ⟨pos, i, v, hp, he, hget⟩ | ⟨-, hget⟩
  · have hco := h.shape.coprime key
    have hhome := h.shape.homeChunk_lt key
    rw [PetHash.deleteCounts, hget]
    simp only [decPathSeen, h.shape.nextPos_eq, Walk.whileNe_stride hco hhome hp,
      foldl_decSeen (Walk.nodup_trail hco hhome hp), Option.elim_some, List.nil_append,
      List.mem_map, not_exists, not_and]
    exact fun c hc => h.trail_pos (s := (pos, i)) hp he hc
  · rw [PetHash.deleteCounts, hget]
    exact List.not_mem_nil

theorem expireCounts_pos {check : CheckFunc V} {i pos : ℕ} :
    ∀ (ids : List Slot) {t : PetHash V} {ahead : Multiset ℕ}, t.Good ahead → pos < t.chunkNum →
      0 ∉ expireCounts check i pos ids t := by
  intro ids
  induction ids with
  | nil => exact fun _ _ => List.not_mem_nil
  | cons id ids ih =>
    intro t ahead h hp
    rw [expireCounts]
    split_ifs with hcond
    · have he : t.slotEntry (pos, id) = some ((t.chunkTable pos).value id) :=
        F14Chunk.entry_eq_some.mpr ⟨hcond.1, rfl⟩
      obtain ⟨t₁, hdel, hg, hd, -⟩ := h.delete_of_mem (s := (pos, id)) hp he
      simp only [hdel, List.mem_append, not_or]
      exact ⟨h.deleteCounts _, ih hg (hd.change.chunkNum ▸ hp)⟩
    · exact ih h hp

theorem expireChunkCounts_pos {check : Option (CheckFunc V)} {i pos : ℕ} {t : PetHash V}
    {ahead : Multiset ℕ} (h : t.Good ahead) (hp : pos < t.chunkNum) :
    0 ∉ expireChunkCounts check i pos t := by
  cases check with
  | none => exact List.not_mem_nil
  | some check =>
    rw [expireChunkCounts]
    split_ifs
    · exact expireCounts_pos _ h hp
    · exact List.not_mem_nil

/-- **`Insert` decrements no counter at `0`**, neither while it expires entries nor when it
evicts. -/
theorem insertLoopCounts_pos {key : UInt64} {check : Option (CheckFunc V)} {force : Bool} :
    ∀ (fuel i j : ℕ) {t : PetHash V}, t.Good (t.walked key j) → t.Absent key →
      0 ∉ insertLoopCounts key check force fuel i (t.probeAt key j) t := by
  intro fuel
  induction fuel with
  | zero => exact fun _ _ _ _ _ => List.not_mem_nil
  | succ fuel ih =>
    intro i j t h habs
    rw [insertLoopCounts, List.mem_append, not_or]
    refine ⟨expireChunkCounts_pos h (h.shape.probeAt_lt key j), ?_⟩
    cases hexp : expireChunk check i (t.probeAt key j) t with
    | error e => exact List.not_mem_nil
    | ok t₁ =>
      obtain ⟨h₁, habs₁, -, hat, -⟩ := h.expired habs hexp
      rw [← hat]
      simp only [habs₁.find_eq_none (h₁.shape.probeAt_lt key j), Option.isSome_none,
        Bool.false_eq_true, if_false]
      split_ifs with hroom hfull hforce
      · exact List.not_mem_nil
      · obtain ⟨t₂, hdel, h₂, habs₂, -, hat₂, -⟩ := h₁.evicted habs₁ hroom
          (Fin.ofNat 14 ((tagOf key).toNat + i))
        simp only [hdel, List.mem_append, not_or]
        exact ⟨h₁.deleteCounts _, hat₂ ▸ ih (i + 1) j h₂ habs₂⟩
      · exact List.not_mem_nil
      · obtain ⟨h₂, habs₂, -, hnext⟩ := h₁.advanced habs₁ rfl
        rw [hnext]
        exact ih (i + 1) (j + 1) h₂ habs₂

/-! ### Deleting everything -/

/-- `Delete` raises no counter. -/
theorem Good.delete_counts_le {t t' : PetHash V} (h : t.Inv) {key : UInt64}
    (hdel : t.delete key = .ok t') (c : ℕ) :
    (t'.chunkTable c).overflowCount ≤ (t.chunkTable c).overflowCount := by
  rcases h.getInternal_cases key with ⟨pos, i, v, hp, he, hget⟩ | ⟨-, hget⟩
  · rw [PetHash.delete, hget] at hdel
    simp only [h.shape.decPath_eq key hp, Except.ok.injEq] at hdel
    have hnodup : (t.trail key pos).Nodup :=
      Walk.nodup_trail (h.shape.coprime key) (h.shape.homeChunk_lt key) hp
    have hcount : (t'.chunkTable c).overflowCount
        = ((t.decAll (t.trail key pos)).chunkTable c).overflowCount := by
      have htable : t'.chunkTable
          = ((t.decAll (t.trail key pos)).modifyChunk pos fun c => c.delete i).chunkTable := by
        rw [← hdel]
      rw [htable]
      exact modifyChunk_field _ pos (fun c => c.delete i) F14Chunk.overflowCount rfl c
    rw [hcount, show t.decAll (t.trail key pos)
      = t.modifyAll (t.trail key pos) fun _ => F14Chunk.decOverflow from rfl,
      modifyAll_chunkTable hnodup]
    split_ifs with hc
    · have hpos := h.trail_pos (s := (pos, i)) hp he hc
      exact Tally.dec_le_self (Nat.pos_of_ne_zero hpos)
    · exact le_rfl
  · rw [PetHash.delete, hget, Except.ok.injEq] at hdel
    rw [hdel]

theorem passCount_of_entries {t : PetHash V} (h : t.entries = 0) (c : ℕ) : t.passCount c = 0 := by
  rw [passCount, slotSum]
  refine Finset.sum_eq_zero fun s hs => ?_
  cases he : t.slotEntry s with
  | none => rfl
  | some e =>
    have hmem := mem_entries.mpr ⟨s, mem_slots.mp hs, he⟩
    rw [h] at hmem
    exact absurd hmem (Multiset.notMem_zero e)

/-! ### Calls that change the table -/

/-- A call of `Set`, `Insert` or `Delete`. -/
inductive Change (V : Type)
  /-- `Set`. -/
  | set (key : UInt64) (value : V) (checkFunc : Option (CheckFunc V)) (isForce : Bool)
  /-- `Insert`. -/
  | insert (key : UInt64) (value : V) (checkFunc : Option (CheckFunc V)) (forceInsert : Bool)
  /-- `Delete`. -/
  | delete (key : UInt64)

namespace Change

/-- The table after the call. -/
def exec (t : PetHash V) : Change V → Except Abort (PetHash V)
  | .set key value checkFunc isForce => t.set key value checkFunc isForce
  | .insert key value checkFunc forceInsert =>
    (t.insert key value checkFunc forceInsert).map Prod.fst
  | .delete key => t.delete key

/-- `Insert` is called for keys that are not stored. -/
def Ok (t : PetHash V) : Change V → Prop
  | .insert key .. => t.Absent key
  | _ => True

/-- The counters that the calls of `DecOverflow` find. -/
def counts (t : PetHash V) : Change V → List ℕ
  | .set key _ checkFunc isForce =>
    match t.getInternal key with
    | .absent => insertLoopCounts key checkFunc isForce t.chunkNum 0 (t.homeChunk key) t
    | _ => []
  | .insert key _ checkFunc forceInsert =>
    insertLoopCounts key checkFunc forceInsert t.chunkNum 0 (t.homeChunk key) t
  | .delete key => t.deleteCounts key

end Change

/-- The table after a call that returns. -/
def changeStep (t : PetHash V) (c : Change V) : Option (PetHash V) := (c.exec t).toOption

/-- **Every call keeps the invariant** and the dimensions. -/
theorem Good.change {t t' : PetHash V} (h : t.Inv) {c : Change V} (hok : c.Ok t)
    (hstep : t.changeStep c = some t') : t'.Inv ∧ t'.chunkNum = t.chunkNum := by
  have hexec := eq_ok_of_toOption hstep
  cases c with
  | set key value checkFunc isForce => exact h.set hexec
  | insert key value checkFunc forceInsert =>
    cases hins : t.insert key value checkFunc forceInsert with
    | error e => rw [Change.exec, hins] at hexec; cases hexec
    | ok r =>
      obtain ⟨t₁, pos, id⟩ := r
      rw [Change.exec, hins] at hexec
      cases hexec
      rw [PetHash.insert, ← h.shape.probeAt_zero key] at hins
      obtain ⟨hinv, hN, -⟩ := insertLoop_good t.chunkNum 0 0 h hok le_rfl (by omega) hins
      exact ⟨hinv, hN⟩
  | delete key =>
    obtain ⟨t₁, hdel, hinv, hN⟩ := h.delete key
    rw [Change.exec, hdel, Except.ok.injEq] at hexec
    exact hexec ▸ ⟨hinv, hN⟩

/-- **No call decrements a counter at `0`**, whether it returns or not. -/
theorem Good.counts {t : PetHash V} (h : t.Inv) {c : Change V} (hok : c.Ok t) : 0 ∉ c.counts t := by
  have hins : ∀ {key : UInt64} (checkFunc : Option (CheckFunc V)) (force : Bool), t.Absent key →
      0 ∉ insertLoopCounts key checkFunc force t.chunkNum 0 (t.homeChunk key) t := by
    intro key checkFunc force habs
    rw [← h.shape.probeAt_zero key]
    exact insertLoopCounts_pos t.chunkNum 0 0 h habs
  cases c with
  | set key value checkFunc isForce =>
    rw [Change.counts]
    rcases h.getInternal_cases key with ⟨pos, i, v, -, -, hget⟩ | ⟨habs, hget⟩
    · rw [hget]
      exact List.not_mem_nil
    · rw [hget]
      exact hins checkFunc isForce habs
  | insert key value checkFunc forceInsert => exact hins checkFunc forceInsert hok
  | delete key => exact h.deleteCounts key

/-- **Deleting every key** empties the table and raises no counter. -/
theorem Good.deleteAll : ∀ (keys : List UInt64) {t : PetHash V}, t.Inv →
    (∀ e ∈ t.entries, e.first ∈ keys) →
      ∃ t', Run.run changeStep t (keys.map .delete) = some t' ∧ t'.Inv ∧
        t'.chunkNum = t.chunkNum ∧ t'.entries = 0 ∧
        ∀ c, (t'.chunkTable c).overflowCount ≤ (t.chunkTable c).overflowCount := by
  intro keys
  induction keys with
  | nil =>
    intro t h hall
    refine ⟨t, rfl, h, rfl, Multiset.eq_zero_of_forall_notMem fun e he => ?_, fun _ => le_rfl⟩
    exact absurd (hall e he) List.not_mem_nil
  | cons key keys ih =>
    intro t h hall
    obtain ⟨t₁, hdel, hinv, hN, hall₁⟩ : ∃ t₁, t.delete key = .ok t₁ ∧ t₁.Inv ∧
        t₁.chunkNum = t.chunkNum ∧ ∀ e ∈ t₁.entries, e.first ∈ keys := by
      by_cases habs : t.Absent key
      · refine ⟨t, h.delete_of_notMem habs, h, rfl, fun e he => ?_⟩
        rcases List.mem_cons.mp (hall e he) with hk | hk
        · obtain ⟨k, v⟩ := e
          exact absurd he (by rw [show k = key from hk]; exact habs v)
        · exact hk
      · rw [Absent] at habs
        push Not at habs
        obtain ⟨v, hv⟩ := habs
        obtain ⟨s, hs, he⟩ := mem_entries.mp hv
        obtain ⟨t₁, hdel, hinv, hd, hent⟩ := h.delete_of_mem hs he
        refine ⟨t₁, hdel, hinv, hd.change.chunkNum, fun e he₁ => ?_⟩
        have hnodup := h.nodup
        rw [NodupKeys, hent, Multiset.map_cons, Multiset.nodup_cons] at hnodup
        rcases List.mem_cons.mp (hall e (hent ▸ Multiset.mem_cons_of_mem he₁)) with hk | hk
        · exact absurd (Multiset.mem_map.mpr ⟨e, he₁, hk⟩) hnodup.1
        · exact hk
    obtain ⟨t', hrun, hinv', hN', hzero, hle⟩ := ih hinv hall₁
    refine ⟨t', ?_, hinv', hN'.trans hN, hzero, fun c => (hle c).trans (h.delete_counts_le hdel c)⟩
    rw [List.map_cons, Run.run_cons, changeStep, Change.exec, hdel]
    exact hrun

/-- The invariant in every state of every run. -/
theorem run_inv [Inhabited V] {capacity : ℕ} {ignoreLoadFactor : Bool} {t₀ t : PetHash V}
    (hinit : initializeTable capacity ignoreLoadFactor = some t₀) {calls : List (Change V)}
    (hok : Run.Guarded changeStep (fun t c => c.Ok t) t₀ calls)
    (hrun : Run.run changeStep t₀ calls = some t) : t.Inv ∧ t.chunkNum = t₀.chunkNum :=
  Run.run_history (P := fun _ t => t.Inv ∧ t.chunkNum = t₀.chunkNum)
    (fun _ _ _ _ h hg hstep => ⟨(h.1.change hg hstep).1, (h.1.change hg hstep).2.trans h.2⟩) []
    ⟨(initializeTable_inv hinit).1, rfl⟩ hok hrun

/-- **An overflow counter is stuck or exact.** -/
theorem Good.overflowCount_eq {t : PetHash V} (h : t.Inv) {c : ℕ} (hc : c < t.chunkNum) :
    (t.chunkTable c).overflowCount = 255 ∨ (t.chunkTable c).overflowCount = t.passCount c := by
  simpa [Tally.Tracks] using h.ledger c hc

/-- **The representation invariant.** In every state that `Set`, `Insert` of new keys and `Delete`
lead to from `Initialize`: a chunk counts its tags and the table counts the chunks; a slot without a
tag has the key `-1`, and any other has the tag of its key; no key is in two slots; an overflow
counter is stuck at 255 or counts the keys that pass over its chunk. So no call that can follow
decrements a counter at `0`, and when none is stuck, deleting all keys returns them all to `0`. And
`Valid` accepts the table, if its `int` can count the chunks. -/
theorem run_representation [Inhabited V] {capacity : ℕ} {ignoreLoadFactor : Bool} {t₀ t : PetHash V}
    (hinit : initializeTable capacity ignoreLoadFactor = some t₀) {calls : List (Change V)}
    (hok : Run.Guarded changeStep (fun t c => c.Ok t) t₀ calls)
    (hrun : Run.run changeStep t₀ calls = some t) :
    (∀ p < t.chunkNum, (t.chunkTable p).size
        = (Finset.univ.filter fun i => (t.chunkTable p).tags i ≠ 0).card) ∧
      t.size = ∑ p ∈ Finset.range t.chunkNum, (t.chunkTable p).size ∧
      (∀ p < t.chunkNum, ∀ i,
        if (t.chunkTable p).tags i = 0 then ((t.chunkTable p).value i).first = emptyKey
        else (t.chunkTable p).tags i = tagOf ((t.chunkTable p).value i).first) ∧
      (∀ p < t.chunkNum, ∀ q < t.chunkNum, ∀ i j, (t.chunkTable p).tags i ≠ 0 →
        (t.chunkTable q).tags j ≠ 0 →
        ((t.chunkTable p).value i).first = ((t.chunkTable q).value j).first → p = q ∧ i = j) ∧
      (∀ c < t.chunkNum, (t.chunkTable c).overflowCount = 255 ∨
        (t.chunkTable c).overflowCount = t.passCount c) ∧
      (∀ c : Change V, c.Ok t → 0 ∉ c.counts t) ∧
      ((∀ c < t.chunkNum, (t.chunkTable c).overflowCount ≠ 255) → ∀ keys : List UInt64,
        (∀ e ∈ t.entries, e.first ∈ keys) →
          ∃ t', Run.run changeStep t (keys.map .delete) = some t' ∧
          t'.chunkNum = t.chunkNum ∧ ∀ c < t'.chunkNum, (t'.chunkTable c).overflowCount = 0) ∧
      (t.chunkNum ≤ 2 ^ 31 → t.valid (memorySize capacity ignoreLoadFactor) = .ok true) := by
  obtain ⟨hinv, hN⟩ := run_inv hinit hok hrun
  refine ⟨fun p hp => (hinv.shape.sound p hp).size, hinv.size.trans hinv.shape.card_entries,
    fun p hp i => ?_, fun p hp q hq i j hi hj hkey => ?_,
    fun c hc => hinv.overflowCount_eq hc, fun c hc => hinv.counts hc,
    fun hlow keys hall => ?_, fun hint => ?_⟩
  · split_ifs with htag
    · exact (hinv.shape.sound p hp).empty i htag
    · exact (hinv.shape.sound p hp).tag i htag
  · have hslot : ((p, i) : ℕ × Slot) = (q, j) := hinv.nodup.slot_unique hp hq
      (F14Chunk.entry_eq_some.mpr ⟨hi, rfl⟩) (F14Chunk.entry_eq_some.mpr ⟨hj, rfl⟩) hkey
    exact ⟨congrArg Prod.fst hslot, congrArg Prod.snd hslot⟩
  · obtain ⟨t', hrun', hinv', hN', hzero, hle⟩ := Good.deleteAll keys hinv hall
    refine ⟨t', hrun', hN', fun c hc => ?_⟩
    rcases hinv'.overflowCount_eq hc with hstuck | hexact
    · have hcN := hN' ▸ hc
      have hcount := (hinv.shape.sound c hcN).count
      have hlow := hlow c hcN
      have hle := hle c
      omega
    · rw [hexact, passCount_of_entries hzero]
  · have hsize : memorySize capacity ignoreLoadFactor = memorySize t.capacity true := by
      rw [memorySize, memorySize, ← initializeTable_chunkNum hinit, ← hN,
        show scaleCapacity t.capacity true = t.capacity from rfl,
          hinv.shape.overFallChunkNum_capacity]
    rw [hsize]
    exact hinv.valid hint

/-- Sixteen even keys in a table of two chunks: two of them pass over chunk `0`. -/
theorem run_representation_two_chunks :
    ∃ t₀ t : PetHash UInt64, initializeTable 28 true = some t₀ ∧
      Run.run changeStep t₀
        (.insert 0 7 (some fun _ _ value _ => value != 5) true ::
          (List.range 15).map fun i => .set (.ofNat (2 * i + 2)) (.ofNat i) none false) = some t ∧
      (t.chunkTable 0).overflowCount = 2 ∧ t.size = 16 ∧
        t.valid (memorySize 28 true) = .ok true := by
  have heval : ((initializeTable 28 true : Option (PetHash UInt64)).any fun t₀ =>
      (Run.run changeStep t₀
        (.insert 0 7 (some fun _ _ value _ => value != 5) true ::
          (List.range 15).map fun i =>
            .set (.ofNat (2 * i + 2)) (.ofNat i) none false)).any fun t =>
            decide ((t.chunkTable 0).overflowCount = 2) &&
              (decide (t.size = 16) && decide (t.chunkNum = 2))) = true := by
    decide +kernel
  simp only [Option.any_eq_true, Bool.and_eq_true, decide_eq_true_eq] at heval
  obtain ⟨t₀, hinit, t, hrun, hcount, hsize, hN⟩ := heval
  have habs : t₀.Absent 0 := fun v hv => by simp [(initializeTable_inv hinit).2] at hv
  have hok : Run.Guarded changeStep (fun t c => c.Ok t) t₀
      (.insert 0 7 (some fun _ _ value _ => value != 5) true ::
        (List.range 15).map fun i => .set (.ofNat (2 * i + 2)) (.ofNat i) none false) := by
    refine ⟨habs, fun t' _ => ?_⟩
    have hsets : ∀ (is : List ℕ) (t : PetHash UInt64), Run.Guarded changeStep (fun t c => c.Ok t) t
        (is.map fun i => .set (.ofNat (2 * i + 2)) (.ofNat i) none false) := by
      intro is
      induction is with
      | nil => exact fun _ => trivial
      | cons i is ih => exact fun t => ⟨trivial, fun t' _ => ih t'⟩
    exact hsets _ t'
  obtain ⟨-, -, -, -, -, -, -, hvalid⟩ := run_representation hinit hok hrun
  exact ⟨t₀, t, hinit, hrun, hcount, hsize, hvalid (by rw [hN]; decide)⟩

end PetHash

end PetPS
