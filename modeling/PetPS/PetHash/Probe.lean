import PetPS.PetHash.Insert

/-!
# Lookups and insertions, chunk by chunk

When other threads work on the table, `GetInternal` sees one state of it at each chunk of its
pass, and `Insert` changes one chunk at a time, under the lock of that chunk. `Probe` is what a
lookup remembers between two chunks, `Probe.visit` what it does at a chunk, and `insertVisit` what
`Insert` does while it holds a lock. Over a table that does not change, the visits make up the loops
of the two functions.

## Main results

* `getLoop_eq_visit`, `insertLoop_eq_insertVisit` — the loops, visit by visit
* `Probe.visit_cases` — what a visit can find
-/

namespace PetPS

namespace PetHash

variable {V : Type}

/-! ### Lookups -/

/-- The variables of a pass of `GetInternal` for `key`. -/
structure Probe where
  key : UInt64
  i : ℕ
  pos : ℕ
  /-- `touch_migrating_chunk`. -/
  touch : Bool

namespace Probe

/-- The beginning of a pass, at `RETRY`. -/
def start (t : PetHash V) (key : UInt64) : Probe := ⟨key, 0, t.homeChunk key, false⟩

/-- One turn of the loop: how the pass ends, or where it goes on. -/
def visit (t : PetHash V) (p : Probe) : Lookup ⊕ Probe :=
  let chunk := t.chunkTable p.pos
  let touch := p.touch || chunk.isMigrating
  match chunk.find p.key (tagOf p.key) with
  | some id => .inl (.found p.pos id)
  | none =>
    if chunk.overflowCount = 0 then .inl (missed touch)
    else if p.i + 1 < t.chunkNum then
      .inr ⟨p.key, p.i + 1, t.nextPos (stepOf p.key) p.pos, touch⟩
    else .inl (missed touch)

/-- The pass is at its `i`-th chunk. -/
structure OnPath (t : PetHash V) (p : Probe) : Prop where
  lt : p.i < t.chunkNum
  pos : p.pos = t.probeAt p.key p.i

theorem onPath_start {t : PetHash V} {k : ℕ} (hN : t.chunkNum = 2 ^ k) (key : UInt64) :
    (start t key).OnPath t :=
  ⟨hN ▸ Nat.two_pow_pos k, (Walk.strideAt_zero (homeChunk_lt hN key)).symm⟩

/-- **What a visit can find.** -/
theorem visit_cases (t : PetHash V) (p : Probe) :
    (∃ id, (t.chunkTable p.pos).find p.key (tagOf p.key) = some id ∧
      p.visit t = .inl (.found p.pos id)) ∨
    (t.chunkTable p.pos).find p.key (tagOf p.key) = none ∧
      (((t.chunkTable p.pos).overflowCount = 0 ∨ t.chunkNum ≤ p.i + 1) ∧
        p.visit t = .inl (missed (p.touch || (t.chunkTable p.pos).isMigrating)) ∨
      (t.chunkTable p.pos).overflowCount ≠ 0 ∧ p.i + 1 < t.chunkNum ∧
        p.visit t = .inr ⟨p.key, p.i + 1, t.nextPos (stepOf p.key) p.pos,
          p.touch || (t.chunkTable p.pos).isMigrating⟩) := by
  rw [visit]
  cases hfind : (t.chunkTable p.pos).find p.key (tagOf p.key) with
  | some id => exact Or.inl ⟨id, rfl, rfl⟩
  | none =>
    refine Or.inr ⟨rfl, ?_⟩
    simp only
    split_ifs with hzero hlt
    · exact Or.inl ⟨Or.inl hzero, rfl⟩
    · exact Or.inr ⟨hzero, hlt, rfl⟩
    · exact Or.inl ⟨Or.inr (not_lt.mp hlt), rfl⟩

theorem OnPath.onward {t : PetHash V} {k : ℕ} (hN : t.chunkNum = 2 ^ k) {p : Probe} (h : p.OnPath t)
    (hlt : p.i + 1 < t.chunkNum) (touch : Bool) :
    (⟨p.key, p.i + 1, t.nextPos (stepOf p.key) p.pos, touch⟩ : Probe).OnPath t := by
  refine ⟨hlt, ?_⟩
  simp only
  rw [h.pos, nextPos_eq_stride hN, probeAt, Walk.stride_strideAt, probeAt]

/-- **The loop of `GetInternal`, visit by visit.** -/
theorem getLoop_eq_visit (t : PetHash V) (p : Probe) (h : p.i < t.chunkNum) :
    t.getLoop p.key (t.chunkNum - p.i) p.pos p.touch
      = (p.visit t).elim id fun q => t.getLoop q.key (t.chunkNum - q.i) q.pos q.touch := by
  obtain ⟨fuel, hfuel⟩ : ∃ fuel, t.chunkNum - p.i = fuel + 1 := ⟨t.chunkNum - p.i - 1, by omega⟩
  rw [hfuel, getLoop]
  rcases p.visit_cases t with ⟨id, hfind, hvisit⟩ | ⟨hfind, ⟨hend, hvisit⟩ | ⟨hne, hlt, hvisit⟩⟩
  · simp only [hfind, hvisit, Sum.elim_inl, id_eq]
  · simp only [hfind, hvisit, Sum.elim_inl, id_eq]
    split_ifs with hzero
    · rfl
    · obtain rfl : fuel = 0 := by omega
      rfl
  · have hrest : t.chunkNum - (p.i + 1) = fuel := by omega
    simp only [hfind, hvisit, Sum.elim_inr, if_neg hne, hrest]

end Probe

/-! ### Insertions -/

/-- One turn of the loop of `Insert` without a callback, under the lock of the chunk at `pos`.
The slot is where the value is stored; without one the loop goes on. -/
def insertVisit (t : PetHash V) (key : UInt64) (value : V) (pos : ℕ) :
    Except Abort (PetHash V × Option Slot) :=
  let chunk := t.chunkTable pos
  match chunk.find key (tagOf key) with
  | some id => .ok (t.setValue pos id value, some id)
  | none =>
    if chunk.size < 14 then
      match chunk.insert key value (tagOf key) with
      | .error e => .error e
      | .ok (c, id) =>
        .ok ({ t.modifyChunk pos fun _ => c with size := (t.size + 1) % 2 ^ 64 }, some id)
    else if t.Full then .error .dictFull
    else .ok (t.modifyChunk pos F14Chunk.incOverflow, none)

/-- **The loop of `Insert`, visit by visit**, as long as nothing is evicted. -/
theorem insertLoop_eq_insertVisit (t : PetHash V) (key : UInt64) (value : V) (fuel i pos : ℕ) :
    insertLoop key value none false (fuel + 1) i pos t
      = match t.insertVisit key value pos with
        | .error e => .error e
        | .ok (t', some id) => .ok (t', pos, id)
        | .ok (t', none) =>
          insertLoop key value none false fuel (i + 1) (t.nextPos (stepOf key) pos) t' := by
  rw [insertLoop, insertVisit]
  simp only [expireChunk]
  cases (t.chunkTable pos).find key (tagOf key) with
  | some id => rfl
  | none =>
    simp only [Bool.false_eq_true, if_false]
    split_ifs
    · cases (t.chunkTable pos).insert key value (tagOf key) <;> rfl
    · rfl
    · rfl

end PetHash

end PetPS
