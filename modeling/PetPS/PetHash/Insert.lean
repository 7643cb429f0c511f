import PetPS.PetHash.Ops

/-!
# Insertion

`Insert` walks the probe path of its key, raises the counter of each full chunk it leaves behind,
and puts the key into the first chunk with room. So in the middle of the loop the counters are ahead
by exactly the chunks walked so far, and when the key lands, they are the trail of its slot:
`Good t (walked ..)` is the loop invariant, and `Good.put` settles it.

Expiry and forced eviction only delete, which `Good.delete_of_mem` covers in the same form.

## Main results

* `insertLoop_succ` — the loop is its turns
* `insertLoop_good` — whatever the callback and the force flag, a completed insertion leaves the
  table in order, with the key added and nothing else new
* `Good.insert_plain` — without a callback and outside the eviction case, an insertion completes and
  adds exactly the key
* `Good.insert_evict` — the forced insertion into a full home chunk of a full table
-/

namespace PetPS

namespace PetHash

variable {V : Type}

/-! ### One turn of the loop -/

/-- What a turn of the loop of `Insert` comes to. -/
inductive TurnEnd (V : Type)
  /-- The loop returns. -/
  | ret (result : Except Abort (PetHash V × ℕ × Slot))
  /-- The table is full, and the entry is deleted from it. -/
  | evict (t : PetHash V) (it : EntryT V)
  /-- The chunk is full, and the next one is tried. -/
  | advance (t : PetHash V)

/-- Turn `i` of the loop, at chunk `pos`. -/
def insertTurn (key : UInt64) (value : V) (check : Option (CheckFunc V)) (force : Bool)
    (i pos : ℕ) (t : PetHash V) : TurnEnd V :=
  match expireChunk check i pos t with
  | .error e => .ret (.error e)
  | .ok t =>
    let chunk := t.chunkTable pos
    match chunk.find key (tagOf key) with
    | some id => .ret (.ok (t.setValue pos id value, pos, id))
    | none =>
      if chunk.size < 14 then
        match chunk.insert key value (tagOf key) with
        | .error e => .ret (.error e)
        | .ok (c, id) =>
          let t := t.modifyChunk pos fun _ => c
          .ret (.ok ({ t with size := (t.size + 1) % 2 ^ 64 }, pos, id))
      else if t.Full then
        if force then .evict t (chunk.value (Fin.ofNat 14 ((tagOf key).toNat + i)))
        else .ret (.error .dictFull)
      else .advance t

/-- The chunk and the table of the next turn. -/
def TurnEnd.next (key : UInt64) (pos : ℕ) : TurnEnd V → Option (ℕ × PetHash V)
  | .ret _ => none
  | .evict t it =>
    match t.delete it.first with
    | .error _ => none
    | .ok t => some (pos, t)
  | .advance t => some (t.nextPos (stepOf key) pos, t.modifyChunk pos F14Chunk.incOverflow)

/-- What the loop returns when this is its last turn. -/
def TurnEnd.result : TurnEnd V → Except Abort (PetHash V × ℕ × Slot)
  | .ret result => result
  | .evict t it =>
    match t.delete it.first with
    | .error e => .error e
    | .ok _ => .error .dictOOM
  | .advance _ => .error .dictOOM

/-- **The loop is its turns.** -/
theorem insertLoop_succ (key : UInt64) (value : V) (check : Option (CheckFunc V)) (force : Bool)
    (fuel i pos : ℕ) (t : PetHash V) :
    insertLoop key value check force (fuel + 1) i pos t =
      ((insertTurn key value check force i pos t).next key pos).elim
        (insertTurn key value check force i pos t).result
        fun next => insertLoop key value check force fuel (i + 1) next.1 next.2 := by
  rw [insertLoop, insertTurn]
  cases expireChunk check i pos t with
  | error e => rfl
  | ok t =>
    simp only
    cases (t.chunkTable pos).find key (tagOf key) with
    | some id => rfl
    | none =>
      simp only
      split_ifs
      · cases (t.chunkTable pos).insert key value (tagOf key) <;> rfl
      · cases hdel : t.delete
          ((t.chunkTable pos).value (Fin.ofNat 14 ((tagOf key).toNat + i))).first with
        | error e => simp only [TurnEnd.next, TurnEnd.result, hdel, Option.elim_none]
        | ok t₁ => simp only [TurnEnd.next, hdel, Option.elim_some]
      · rfl
      · rfl

/-! ### Along the probe path -/

/-- The `j`-th position of the probe path of `key`. -/
def probeAt (t : PetHash V) (key : UInt64) (j : ℕ) : ℕ :=
  Walk.strideAt t.chunkNum (stepOf key) (t.homeChunk key) j

/-- The first `j` positions of the probe path. -/
def walked (t : PetHash V) (key : UInt64) (j : ℕ) : List ℕ := (List.range j).map (t.probeAt key)

/-- The key is not in the table. -/
def Absent (t : PetHash V) (key : UInt64) : Prop := ∀ v, ⟨key, v⟩ ∉ t.entries

theorem absent_iff {t : PetHash V} {key : UInt64} :
    t.Absent key ↔ key ∉ t.entries.map EntryT.first := by
  rw [Absent, Multiset.mem_map]
  constructor
  · rintro h ⟨e, he, rfl⟩
    exact h e.second he
  · exact fun h v hv => h ⟨_, hv, rfl⟩

theorem probeAt_congr {t t' : PetHash V} (h : t'.chunkNum = t.chunkNum) (key : UInt64) (j : ℕ) :
    t'.probeAt key j = t.probeAt key j := by
  rw [probeAt, probeAt, h, homeChunk_congr h]

theorem walked_congr {t t' : PetHash V} (h : t'.chunkNum = t.chunkNum) (key : UInt64) (j : ℕ) :
    t'.walked key j = t.walked key j :=
  List.map_congr_left fun i _ => probeAt_congr h key i

theorem Shape.probeAt_lt {t : PetHash V} (h : t.Shape) (key : UInt64) (j : ℕ) :
    t.probeAt key j < t.chunkNum := Walk.strideAt_lt h.chunkNum_pos

theorem Shape.probeAt_zero {t : PetHash V} (h : t.Shape) (key : UInt64) :
    t.probeAt key 0 = t.homeChunk key := Walk.strideAt_zero (h.homeChunk_lt key)

theorem Shape.nextPos_probeAt {t : PetHash V} (h : t.Shape) (key : UInt64) (j : ℕ) :
    t.nextPos (stepOf key) (t.probeAt key j) = t.probeAt key (j + 1) := by
  rw [h.nextPos_eq, probeAt, Walk.stride_strideAt, probeAt]

/-- How many chunks the probe path of `key` passes before it comes to `pos`. -/
def stepsTo (t : PetHash V) (key : UInt64) (pos : ℕ) : ℕ :=
  Walk.steps t.chunkNum (stepOf key) (t.homeChunk key) pos

section Places

variable {t : PetHash V}

theorem Shape.stepsTo_lt (h : t.Shape) (key : UInt64) {pos : ℕ} (hp : pos < t.chunkNum) :
    t.stepsTo key pos < t.chunkNum :=
  Walk.steps_lt _ (h.coprime key) hp

theorem Shape.probeAt_stepsTo (h : t.Shape) (key : UInt64) {pos : ℕ} (hp : pos < t.chunkNum) :
    t.probeAt key (t.stepsTo key pos) = pos :=
  Walk.strideAt_steps _ (h.coprime key) hp

theorem Shape.stepsTo_probeAt (h : t.Shape) (key : UInt64) {j : ℕ} (hj : j < t.chunkNum) :
    t.stepsTo key (t.probeAt key j) = j :=
  Walk.steps_strideAt (h.coprime key) hj

/-- The chunks before `pos` are those that an entry at `pos` passes over. -/
theorem Shape.passes_probeAt (h : t.Shape) (key : UInt64) {pos j : ℕ} (hp : pos < t.chunkNum)
    (hj : j < t.stepsTo key pos) :
    Passes t.chunkNum (t.homeChunk key) key pos (t.probeAt key j) := by
  have hlt := h.stepsTo_lt key hp
  have hat := h.stepsTo_probeAt key (show j < t.chunkNum by omega)
  rw [stepsTo] at hat
  rw [Passes, hat]
  exact hj

end Places

theorem Shape.trail_probeAt {t : PetHash V} (h : t.Shape) (key : UInt64) {j : ℕ}
    (hj : j < t.chunkNum) : t.trail key (t.probeAt key j) = t.walked key j := by
  rw [trail, Walk.trail_eq_map (h.homeChunk_lt key), probeAt,
    Walk.steps_strideAt (h.coprime key) hj]
  rfl

theorem walked_succ (t : PetHash V) (key : UInt64) (j : ℕ) :
    (t.walked key (j + 1) : Multiset ℕ) = t.probeAt key j ::ₘ (t.walked key j : Multiset ℕ) := by
  rw [walked, List.range_succ, List.map_append, List.map_singleton, ← walked, ← Multiset.coe_add,
    Multiset.coe_singleton, Multiset.add_comm, Multiset.singleton_add]

theorem Absent.find_eq_none {t : PetHash V} {key : UInt64} (h : t.Absent key) {pos : ℕ}
    (hp : pos < t.chunkNum) : (t.chunkTable pos).find key (tagOf key) = none := by
  cases hfind : (t.chunkTable pos).find key (tagOf key) with
  | none => rfl
  | some i =>
    obtain ⟨⟨k, v⟩, he, rfl⟩ := slotEntry_of_find hfind
    exact absurd (mem_entries.mpr ⟨(pos, i), hp, he⟩) (h v)

theorem Absent.mono {t t' : PetHash V} {key : UInt64} (h : t.Absent key)
    (hle : t'.entries ≤ t.entries) : t'.Absent key :=
  fun v hv => h v (Multiset.mem_of_le hle hv)

/-! ### The two ways a turn ends -/

/-- Leaving a full chunk behind. -/
theorem Good.inc {t : PetHash V} {ahead : Multiset ℕ} (h : t.Good ahead) (pos : ℕ) :
    (t.modifyChunk pos F14Chunk.incOverflow).Good (pos ::ₘ ahead) := by
  have hr := Recount.incAt t pos
  refine ⟨h.shape.incAt _,
    fun p hp => (hr.migrating p).trans (h.calm p hp), h.ledger.incAt _, ?_, ?_⟩
  · rw [NodupKeys, hr.entries]
    exact h.nodup
  · rw [hr.size, hr.entries]
    exact h.size

/-- Landing in a chunk with room. The counts made for other keys stay ahead. -/
theorem Good.put {t : PetHash V} {key : UInt64} {j : ℕ} {rest : Multiset ℕ}
    (h : t.Good (t.walked key j + rest)) (hj : j < t.chunkNum) (habs : t.Absent key)
    (hroom : (t.chunkTable (t.probeAt key j)).size < 14) (value : V) :
    ∃ c i, (t.chunkTable (t.probeAt key j)).insert key value (tagOf key) = .ok (c, i) ∧
      ∃ t', t' = { t.modifyChunk (t.probeAt key j) (fun _ => c) with
          size := (t.size + 1) % 2 ^ 64 } ∧
        t'.Good rest ∧ t'.entries = ⟨key, value⟩ ::ₘ t.entries ∧
        SlotChange t t' (t.probeAt key j, i) (some ⟨key, value⟩) ∧
        t.slotEntry (t.probeAt key j, i) = none ∧
        ∀ p, (t.chunkTable p).size ≤ (t'.chunkTable p).size := by
  obtain ⟨k, hN⟩ := h.shape.pow
  have hp := h.shape.probeAt_lt key j
  obtain ⟨c, i, hins, hs', hnone, hch, hcount, hmig, hchunk⟩ := h.shape.put hp hroom key value
  refine ⟨c, i, hins, _, rfl, ?_⟩
  set t₁ := t.modifyChunk (t.probeAt key j) fun _ => c with ht₁
  have hent : t₁.entries = ⟨key, value⟩ ::ₘ t.entries :=
    entries_put hch (mem_slots.mpr hp) hnone
  have hsize : (t.size + 1) % 2 ^ 64 = t₁.entries.card := by
    have hle := hs'.card_entries_le
    have hfits := hs'.fits
    rw [userSpace] at hfits
    rw [hent, Multiset.card_cons, ← h.size] at *
    exact Nat.mod_eq_of_lt (by omega)
  have hl : t₁.Ledger rest 0 := by
    have hx := h.ledger.change hN hp hch fun p => by
      by_cases hpp : p = t.probeAt key j
      · rw [hpp, ht₁, modifyChunk_self]; exact hcount
      · rw [ht₁, modifyChunk_of_ne _ _ _ hpp]
    rw [hnone] at hx
    simp only [Option.elim_none, Option.elim_some, h.shape.trail_probeAt key hj] at hx
    exact hx.rebalance (by rw [zero_add, add_zero, add_zero, add_comm])
  rw [hsize]
  refine ⟨⟨⟨hs'.pow, hs'.fits, hs'.capacity, hs'.sound⟩, fun p hpN => ?_, hl, ?_, rfl⟩, hent,
    ⟨hch.chunkNum, hch.self, hch.other⟩, hnone, fun p => ?_⟩
  · have : (t₁.chunkTable p).isMigrating = (t.chunkTable p).isMigrating := by
      by_cases hpp : p = t.probeAt key j
      · rw [hpp, ht₁, modifyChunk_self]; exact hmig
      · rw [ht₁, modifyChunk_of_ne _ _ _ hpp]
    exact this.trans (h.calm p hpN)
  · change (t₁.entries.map EntryT.first).Nodup
    rw [hent, Multiset.map_cons, Multiset.nodup_cons]
    refine ⟨fun hmem => ?_, h.nodup⟩
    obtain ⟨⟨k', v⟩, hv, rfl⟩ := Multiset.mem_map.mp hmem
    exact habs v hv
  · change (t.chunkTable p).size ≤ (t₁.chunkTable p).size
    by_cases hpp : p = t.probeAt key j
    · rw [hpp, ht₁, modifyChunk_self, hchunk]
      omega
    · rw [ht₁, modifyChunk_of_ne _ _ _ hpp]

/-! ### Expiry -/

theorem expire_good {check : CheckFunc V} {i pos : ℕ} :
    ∀ (ids : List Slot) {t t' : PetHash V} {ahead : Multiset ℕ}, t.Good ahead →
      pos < t.chunkNum → expire check i pos ids t = .ok t' →
      t'.Good ahead ∧ t'.chunkNum = t.chunkNum ∧ t'.entries ≤ t.entries := by
  intro ids
  induction ids with
  | nil =>
    intro t t' ahead h _ hrun
    simp only [expire, Except.ok.injEq] at hrun
    exact hrun ▸ ⟨h, rfl, le_rfl⟩
  | cons id ids ih =>
    intro t t' ahead h hp hrun
    rw [expire] at hrun
    split_ifs at hrun with hcond
    · have he : t.slotEntry (pos, id) = some ((t.chunkTable pos).value id) :=
        F14Chunk.entry_eq_some.mpr ⟨hcond.1, rfl⟩
      obtain ⟨t₁, hdel, hg, hd, hent⟩ := h.delete_of_mem (s := (pos, id)) hp he
      rw [hdel] at hrun
      obtain ⟨hg', hN', hle⟩ := ih hg (hd.change.chunkNum ▸ hp) hrun
      refine ⟨hg', hN'.trans hd.change.chunkNum, hle.trans ?_⟩
      rw [hent]
      exact Multiset.le_cons_self _ _
    · exact ih h hp hrun

theorem expireChunk_good {check : Option (CheckFunc V)} {i pos : ℕ} {t t' : PetHash V}
    {ahead : Multiset ℕ} (h : t.Good ahead) (hp : pos < t.chunkNum)
    (hrun : expireChunk check i pos t = .ok t') :
    t'.Good ahead ∧ t'.chunkNum = t.chunkNum ∧ t'.entries ≤ t.entries := by
  cases check with
  | none =>
    simp only [expireChunk, Except.ok.injEq] at hrun
    exact hrun ▸ ⟨h, rfl, le_rfl⟩
  | some check =>
    simp only [expireChunk] at hrun
    split_ifs at hrun with hc
    · exact expire_good _ h hp hrun
    · simp only [Except.ok.injEq] at hrun
      exact hrun ▸ ⟨h, rfl, le_rfl⟩

/-- Every slot of a chunk that has no room holds an entry. -/
theorem Good.slotEntry_of_full {t : PetHash V} {ahead : Multiset ℕ} (h : t.Good ahead) {pos : ℕ}
    (hp : pos < t.chunkNum) (hfull : ¬ (t.chunkTable pos).size < 14) (i : Slot) :
    t.slotEntry (pos, i) = some ((t.chunkTable pos).value i) := by
  have hsound := h.shape.sound pos hp
  have hle := hsound.size_le
  exact F14Chunk.entry_eq_some.mpr ⟨hsound.inUse_of_full (by omega) i, rfl⟩

/-! ### The loop -/

section Turn

variable {t t₁ : PetHash V} {key : UInt64} {j : ℕ}

/-- The table after the expiry step of a turn. -/
theorem Good.expired {check : Option (CheckFunc V)} {i : ℕ} (h : t.Good (t.walked key j))
    (habs : t.Absent key) (hexp : expireChunk check i (t.probeAt key j) t = .ok t₁) :
    t₁.Good (t₁.walked key j) ∧ t₁.Absent key ∧ t₁.chunkNum = t.chunkNum ∧
      t₁.probeAt key j = t.probeAt key j ∧ t₁.entries ≤ t.entries := by
  obtain ⟨h₁, hN, hle⟩ := expireChunk_good h (h.shape.probeAt_lt key j) hexp
  rw [← walked_congr hN] at h₁
  exact ⟨h₁, habs.mono hle, hN, probeAt_congr hN key j, hle⟩

/-- A turn that evicts stays at its chunk. -/
theorem Good.evicted (h : t.Good (t.walked key j)) (habs : t.Absent key)
    (hfull : ¬ (t.chunkTable (t.probeAt key j)).size < 14) (i : Slot) :
    ∃ t', t.delete ((t.chunkTable (t.probeAt key j)).value i).first = .ok t' ∧
      t'.Good (t'.walked key j) ∧ t'.Absent key ∧ Deleted t t' (t.probeAt key j, i) ∧
      t'.probeAt key j = t.probeAt key j ∧ t'.entries ≤ t.entries := by
  have hp := h.shape.probeAt_lt key j
  have he := h.slotEntry_of_full hp hfull i
  obtain ⟨t', hdel, h', hd, hent⟩ := h.delete_of_mem (s := (t.probeAt key j, i)) hp he
  have hN : t'.chunkNum = t.chunkNum := hd.change.chunkNum
  have hle : t'.entries ≤ t.entries := hent ▸ Multiset.le_cons_self _ _
  rw [← walked_congr hN] at h'
  exact ⟨t', hdel, h', habs.mono hle, hd, probeAt_congr hN key j, hle⟩

/-- A turn that leaves a full chunk behind goes on to the next one. -/
theorem Good.advanced (h : t.Good (t.walked key j)) (habs : t.Absent key)
    (ht₁ : t₁ = t.modifyChunk (t.probeAt key j) F14Chunk.incOverflow) :
    t₁.Good (t₁.walked key (j + 1)) ∧ t₁.Absent key ∧ Recount t t₁ ∧
      t.nextPos (stepOf key) (t.probeAt key j) = t₁.probeAt key (j + 1) := by
  have hr : Recount t t₁ := ht₁ ▸ Recount.incAt t _
  refine ⟨?_, habs.mono hr.entries.le, hr, ?_⟩
  · rw [walked_congr hr.chunkNum, walked_succ, ht₁]
    exact h.inc _
  · rw [h.shape.nextPos_probeAt, probeAt_congr hr.chunkNum]

end Turn

/-- **Insertion keeps the table in order**, for every callback and force flag. The induction is on
the turns left; `j ≤ i` because an eviction takes a turn without a step. -/
theorem insertLoop_good {key : UInt64} {value : V} {check : Option (CheckFunc V)} {force : Bool} :
    ∀ (fuel i j : ℕ) {t t' : PetHash V} {pos : ℕ} {id : Slot}, t.Good (t.walked key j) →
      t.Absent key → j ≤ i → i + fuel ≤ t.chunkNum →
      insertLoop key value check force fuel i (t.probeAt key j) t = .ok (t', pos, id) →
      t'.Inv ∧ t'.chunkNum = t.chunkNum ∧ pos < t.chunkNum ∧
        t'.slotEntry (pos, id) = some ⟨key, value⟩ ∧
        ∃ kept ≤ t.entries, t'.entries = ⟨key, value⟩ ::ₘ kept := by
  intro fuel
  induction fuel with
  | zero => intro i j t t' pos id _ _ _ _ hrun; simp [insertLoop] at hrun
  | succ fuel ih =>
    intro i j t t' pos id h habs hji hfuel hrun
    rw [insertLoop] at hrun
    cases hexp : expireChunk check i (t.probeAt key j) t with
    | error e => rw [hexp] at hrun; simp at hrun
    | ok t₁ =>
      obtain ⟨h₁, habs₁, hN₁, hat, hle₁⟩ := h.expired habs hexp
      have hp₁ := h₁.shape.probeAt_lt key j
      rw [hexp, ← hat] at hrun
      simp only [habs₁.find_eq_none hp₁] at hrun
      split_ifs at hrun with hroom hfull hforce
      · -- the chunk has room
        rw [← add_zero (t₁.walked key j : Multiset ℕ)] at h₁
        obtain ⟨c, i', hins, t₂, ht₂, hinv, hent, hch, -⟩ := h₁.put (by omega) habs₁ hroom value
        rw [hins] at hrun
        simp only [Except.ok.injEq, Prod.mk.injEq] at hrun
        obtain ⟨hteq, hpeq, hieq⟩ := hrun
        rw [modifyChunk_size, ← ht₂] at hteq
        rw [← hteq, ← hpeq, ← hieq]
        refine ⟨hinv, ?_, hN₁ ▸ hp₁, hch.self, _, hle₁, hent⟩
        rw [ht₂]; exact hN₁
      · -- the table is full: evict and try the same chunk again
        obtain ⟨t₂, hdel, h₂, habs₂, hd₂, hat₂, hle₂⟩ := h₁.evicted habs₁ hroom
          (Fin.ofNat 14 ((tagOf key).toNat + i))
        have hN₂ := hd₂.change.chunkNum
        rw [hdel, ← hat₂] at hrun
        obtain ⟨hinv, hN', hpos, hslot, kept, hkept, hent'⟩ :=
          ih (i + 1) j h₂ habs₂ (by omega) (by omega) hrun
        exact ⟨hinv, by omega, by omega, hslot, kept, hkept.trans (hle₂.trans hle₁), hent'⟩
      · -- go on to the next chunk
        obtain ⟨h₂, habs₂, hr, hnext⟩ := h₁.advanced habs₁ rfl
        rw [hnext] at hrun
        have hN₂ := hr.chunkNum
        obtain ⟨hinv, hN', hpos, hslot, kept, hkept, hent'⟩ :=
          ih (i + 1) (j + 1) h₂ habs₂ (by omega) (by omega) hrun
        exact ⟨hinv, by omega, by omega, hslot, kept, hkept.trans (hr.entries.le.trans hle₁), hent'⟩

/-! ### Without a callback -/

/-- The chunk at `pos` has an empty slot. -/
def Roomy (t : PetHash V) (pos : ℕ) : Prop := (t.chunkTable pos).size < 14

instance (t : PetHash V) (pos : ℕ) : Decidable (t.Roomy pos) := inferInstanceAs (Decidable (_ < _))

theorem SameSlots.roomy_iff {t t' : PetHash V} (h : SameSlots t t') (pos : ℕ) :
    t'.Roomy pos ↔ t.Roomy pos := by
  rw [Roomy, h.chunkSize, Roomy]

theorem SameSlots.full_iff {t t' : PetHash V} (h : SameSlots t t') : t'.Full ↔ t.Full := by
  rw [Full, h.capacity, h.size, Full]

/-- The chunk of a deleted entry has room. -/
theorem Deleted.roomy {t t' : PetHash V} {pos : ℕ} {id : Slot} (h : Deleted t t' (pos, id))
    (hs : t.Shape) (hp : pos < t.chunkNum) : t'.Roomy pos := by
  have hle := (hs.sound pos hp).size_le
  rw [Roomy, h.room]
  change (t.chunkTable pos).size - 1 < 14
  omega

/-- An insertion of `key` would meet a full chunk of a full table. -/
def Crowded (t : PetHash V) (key : UInt64) : Prop := ¬ t.Roomy (t.homeChunk key) ∧ t.Full

instance (t : PetHash V) (key : UInt64) : Decidable (t.Crowded key) :=
  inferInstanceAs (Decidable (_ ∧ _))

/-- **A table that is not `Full` has room somewhere**: all chunks full would be a load of 100%. -/
theorem Good.exists_roomy {t : PetHash V} {ahead : Multiset ℕ} (h : t.Good ahead)
    (hf : ¬ t.Full) : ∃ pos < t.chunkNum, t.Roomy pos := by
  by_contra hno
  push Not at hno
  have hcard : t.entries.card = t.chunkNum * 14 := by
    rw [h.shape.card_entries, Finset.sum_const_nat fun p hp => ?_, Finset.card_range]
    have hle := (h.shape.sound p (Finset.mem_range.mp hp)).size_le
    have hge := hno p (Finset.mem_range.mp hp)
    rw [Roomy] at hge
    omega
  rw [h.full_iff, h.size, hcard] at hf
  omega

/-- One turn of the loop without a callback, at a chunk that does not hold the key. -/
theorem insertLoop_turn {t : PetHash V} {key : UInt64} {pos : ℕ}
    (hfind : (t.chunkTable pos).find key (tagOf key) = none) (value : V) (force : Bool)
    (fuel i : ℕ) :
    insertLoop key value none force (fuel + 1) i pos t =
      if t.Roomy pos then
        match (t.chunkTable pos).insert key value (tagOf key) with
        | .error e => .error e
        | .ok (c, id) =>
          .ok ({ t.modifyChunk pos fun _ => c with size := (t.size + 1) % 2 ^ 64 }, pos, id)
      else if t.Full then
        if force then
          match t.delete ((t.chunkTable pos).value
            (Fin.ofNat 14 ((tagOf key).toNat + i))).first with
          | .error e => .error e
          | .ok t => insertLoop key value none force fuel (i + 1) pos t
        else .error .dictFull
      else
        insertLoop key value none force fuel (i + 1) (t.nextPos (stepOf key) pos)
          (t.modifyChunk pos F14Chunk.incOverflow) := by
  rw [insertLoop]
  simp only [expireChunk, hfind]
  rfl

/-- A turn that goes on in a table that is not full keeps the room it is heading for. -/
theorem Good.onward {t t₁ : PetHash V} {key : UInt64} {fuel j : ℕ} (h : t.Good (t.walked key j))
    (habs : t.Absent key) (hroom : ¬ t.Roomy (t.probeAt key j)) (hfull : ¬ t.Full)
    (hahead : ∃ d, j ≤ d ∧ d < j + (fuel + 1) ∧ t.Roomy (t.probeAt key d))
    (ht₁ : t₁ = t.modifyChunk (t.probeAt key j) F14Chunk.incOverflow) :
    t₁.Good (t₁.walked key (j + 1)) ∧ t₁.Absent key ∧ Recount t t₁ ∧
      t.nextPos (stepOf key) (t.probeAt key j) = t₁.probeAt key (j + 1) ∧ ¬ t₁.Full ∧
      ∃ d, j + 1 ≤ d ∧ d < j + 1 + fuel ∧ t₁.Roomy (t₁.probeAt key d) := by
  obtain ⟨h₁, habs₁, hr, hnext⟩ := h.advanced habs ht₁
  refine ⟨h₁, habs₁, hr, hnext, hr.full_iff.not.mpr hfull, ?_⟩
  obtain ⟨d, hjd, hd, hroomd⟩ := hahead
  refine ⟨d, ?_, by omega, ?_⟩
  · rcases Nat.eq_or_lt_of_le hjd with rfl | hlt
    · exact absurd hroomd hroom
    · exact hlt
  · rw [probeAt_congr hr.chunkNum, hr.roomy_iff]
    exact hroomd

/-- The loop when some chunk ahead has room, and the present one has or the table is not full. -/
theorem insertLoop_plain {key : UInt64} (value : V) (force : Bool) :
    ∀ (fuel i j : ℕ) {t : PetHash V}, t.Good (t.walked key j) → t.Absent key →
      j + fuel ≤ t.chunkNum → (∃ d, j ≤ d ∧ d < j + fuel ∧ t.Roomy (t.probeAt key d)) →
      (t.Roomy (t.probeAt key j) ∨ ¬ t.Full) →
      ∃ t' pos id, insertLoop key value none force fuel i (t.probeAt key j) t = .ok (t', pos, id) ∧
        t'.Inv ∧ t'.chunkNum = t.chunkNum ∧ pos < t.chunkNum ∧
        t'.slotEntry (pos, id) = some ⟨key, value⟩ ∧ t'.entries = ⟨key, value⟩ ::ₘ t.entries := by
  intro fuel
  induction fuel with
  | zero => rintro i j t _ _ _ ⟨d, hjd, hd, -⟩ _; omega
  | succ fuel ih =>
    intro i j t h habs hfuel hahead hcalm
    have hp := h.shape.probeAt_lt key j
    rw [insertLoop_turn (habs.find_eq_none hp)]
    by_cases hroom : t.Roomy (t.probeAt key j)
    · rw [← add_zero (t.walked key j : Multiset ℕ)] at h
      obtain ⟨c, i', hins, t₂, ht₂, hinv, hent, hch, -⟩ := h.put (by omega) habs hroom value
      rw [if_pos hroom, hins]
      refine ⟨t₂, t.probeAt key j, i', ?_, hinv, ?_, hp, hch.self, hent⟩
      · rw [ht₂]
      · rw [ht₂]; rfl
    · have hfull : ¬ t.Full := hcalm.resolve_left hroom
      rw [if_neg hroom, if_neg hfull]
      set t₁ := t.modifyChunk (t.probeAt key j) F14Chunk.incOverflow with ht₁
      obtain ⟨h₁, habs₁, hr, hnext, hfull₁, hd'⟩ := h.onward habs hroom hfull hahead ht₁
      obtain ⟨t', pos, id, hrun, hinv, hN', hpos, hslot, hent⟩ := ih (i + 1) (j + 1) h₁ habs₁
        (by rw [hr.chunkNum]; omega) hd' (Or.inr hfull₁)
      rw [hnext]
      exact ⟨t', pos, id, hrun, hinv, hN'.trans hr.chunkNum, hr.chunkNum ▸ hpos, hslot,
        hr.entries ▸ hent⟩

/-- A table that is not crowded has room on the probe path. -/
theorem Good.room_ahead {t : PetHash V} (h : t.Inv) {key : UInt64} (hcalm : ¬ t.Crowded key) :
    (∃ d, 0 ≤ d ∧ d < 0 + t.chunkNum ∧ t.Roomy (t.probeAt key d)) ∧
      (t.Roomy (t.probeAt key 0) ∨ ¬ t.Full) := by
  have hroom : t.Roomy (t.probeAt key 0) ∨ ¬ t.Full := by
    rw [h.shape.probeAt_zero]
    by_contra hboth
    push Not at hboth
    exact hcalm hboth
  refine ⟨?_, hroom⟩
  rcases hroom with hroom | hf
  · exact ⟨0, le_rfl, by have := h.shape.chunkNum_pos; omega, hroom⟩
  · obtain ⟨p, hp, hroom⟩ := h.exists_roomy hf
    obtain ⟨d, hd, rfl⟩ := Walk.exists_strideAt_eq (t.homeChunk key) (h.shape.coprime key) hp
    exact ⟨d, Nat.zero_le d, by omega, hroom⟩

/-- **Insertion of a new key**, unless the home chunk and the table are both full. -/
theorem Good.insert_plain {t : PetHash V} (h : t.Inv) {key : UInt64} (habs : t.Absent key)
    (hcalm : ¬ t.Crowded key) (value : V) (force : Bool) :
    ∃ t' pos id, t.insert key value none force = .ok (t', pos, id) ∧ t'.Inv ∧
      t'.chunkNum = t.chunkNum ∧ pos < t.chunkNum ∧ t'.slotEntry (pos, id) = some ⟨key, value⟩ ∧
      t'.entries = ⟨key, value⟩ ::ₘ t.entries := by
  have hzero := h.shape.probeAt_zero key
  obtain ⟨hd, hroom⟩ := h.room_ahead hcalm
  have hrun := insertLoop_plain value force t.chunkNum 0 0 h habs (by omega) hd hroom
  rwa [hzero] at hrun

/-- The slot `Insert` evicts from in a crowded table. -/
def evictSlot (key : UInt64) : Slot := Fin.ofNat 14 (tagOf key).toNat

/-- The key a forced insertion of `key` evicts. -/
def evictee (t : PetHash V) (key : UInt64) : UInt64 :=
  ((t.chunkTable (t.homeChunk key)).value (evictSlot key)).first

/-- **Forced insertion into a crowded table** evicts one key of the home chunk, and takes its
slot. -/
theorem Good.insert_evict {t : PetHash V} (h : t.Inv) {key : UInt64} (habs : t.Absent key)
    (hcrowd : t.Crowded key) (hN : 1 < t.chunkNum) (value : V) :
    ∃ t' pos id v rest, t.insert key value none true = .ok (t', pos, id) ∧ t'.Inv ∧
      t'.chunkNum = t.chunkNum ∧ pos < t.chunkNum ∧ t'.slotEntry (pos, id) = some ⟨key, value⟩ ∧
      t.entries = ⟨t.evictee key, v⟩ ::ₘ rest ∧ t'.entries = ⟨key, value⟩ ::ₘ rest := by
  have hp := h.shape.homeChunk_lt key
  obtain ⟨fuel, hfuel⟩ : ∃ m, t.chunkNum = m + 1 := ⟨t.chunkNum - 1, by omega⟩
  have he := h.slotEntry_of_full hp hcrowd.1 (evictSlot key)
  obtain ⟨t₁, hdel, h₁, hd, hent⟩ := h.delete_of_mem (s := (t.homeChunk key, evictSlot key)) hp he
  have hN₁ : t₁.chunkNum = t.chunkNum := hd.change.chunkNum
  have habs₁ : t₁.Absent key := habs.mono (hent ▸ Multiset.le_cons_self _ _)
  have hzero₁ : t₁.probeAt key 0 = t.homeChunk key := by
    rw [probeAt_congr hN₁, h.shape.probeAt_zero]
  have hroom₁ : t₁.Roomy (t₁.probeAt key 0) := by
    rw [hzero₁]
    exact hd.roomy h.shape hp
  obtain ⟨t', pos, id, hrun, hinv, hN', hpos, hslot, hent'⟩ :=
    insertLoop_plain value true fuel 1 0 h₁ habs₁ (by omega)
      ⟨0, le_rfl, by omega, hroom₁⟩ (Or.inl hroom₁)
  refine ⟨t', pos, id, _, t₁.entries, ?_, hinv, hN'.trans hN₁, hN₁ ▸ hpos, hslot, hent, hent'⟩
  rw [hzero₁] at hrun
  rw [PetHash.insert, hfuel, insertLoop_turn (habs.find_eq_none hp), if_neg hcrowd.1,
    if_pos hcrowd.2, if_pos rfl, Nat.add_zero, ← evictSlot, hdel]
  exact hrun

/-- Without force the crowded case is fatal, and with a single chunk it is fatal too. -/
theorem Good.insert_fatal {t : PetHash V} (h : t.Inv) {key : UInt64} (habs : t.Absent key)
    (hcrowd : t.Crowded key) (value : V) :
    t.insert key value none false = .error .dictFull ∧
      (t.chunkNum = 1 → t.insert key value none true = .error .dictOOM) := by
  have hp := h.shape.homeChunk_lt key
  constructor
  · obtain ⟨fuel, hfuel⟩ : ∃ m, t.chunkNum = m + 1 := ⟨t.chunkNum - 1, by omega⟩
    rw [PetHash.insert, hfuel, insertLoop_turn (habs.find_eq_none hp), if_neg hcrowd.1,
      if_pos hcrowd.2, if_neg Bool.false_ne_true]
  · intro hone
    have he := h.slotEntry_of_full hp hcrowd.1 (evictSlot key)
    obtain ⟨t₁, hdel, -⟩ := h.delete_of_mem (s := (t.homeChunk key, evictSlot key)) hp he
    rw [PetHash.insert, hone, insertLoop_turn (habs.find_eq_none hp), if_neg hcrowd.1,
      if_pos hcrowd.2, if_pos rfl, Nat.add_zero, ← evictSlot, hdel]
    rfl

/-! ### Overwriting -/

/-- **A store through the pointer to a value** replaces the value and nothing else. -/
theorem Good.setValue {t : PetHash V} {ahead : Multiset ℕ} (h : t.Good ahead) {pos : ℕ} {i : Slot}
    {e : EntryT V} (hp : pos < t.chunkNum) (he : t.slotEntry (pos, i) = some e) (value : V) :
    (t.setValue pos i value).Good ahead ∧
      SlotChange t (t.setValue pos i value) (pos, i) (some ⟨e.first, value⟩) ∧
      ∃ rest, t.entries = e ::ₘ rest ∧
        (t.setValue pos i value).entries = ⟨e.first, value⟩ ::ₘ rest := by
  obtain ⟨k, hN⟩ := h.shape.pow
  obtain ⟨hs', hch⟩ := h.shape.overwrite hp (F14Chunk.entry_eq_some.mp he).1 e.first value
  rw [h.shape.setValue_eq hp he]
  set t' := t.modifyChunk pos fun c => c.set i (tagOf e.first) ⟨e.first, value⟩ with ht'
  have hx := entries_replace hch (mem_slots.mpr hp) he
  obtain ⟨rest, hrest⟩ := Multiset.exists_cons_of_mem (mem_entries.mpr ⟨_, hp, he⟩)
  have hent : t'.entries = ⟨e.first, value⟩ ::ₘ rest := by
    rw [hrest, Multiset.cons_swap] at hx
    exact (Multiset.cons_inj_right _).mp hx
  refine ⟨⟨hs', ?_, ?_, ?_, ?_⟩, hch, rest, hrest, hent⟩
  · exact fun p hpN => (modifyChunk_field _ _ _ F14Chunk.isMigrating rfl p).trans (h.calm p hpN)
  · have hl := h.ledger.change hN hp hch (modifyChunk_field _ _ _ F14Chunk.overflowCount rfl)
    rw [he] at hl
    exact hl.rebalance (by simp)
  · have hn := h.nodup
    rw [NodupKeys, hrest, Multiset.map_cons] at hn
    rw [NodupKeys, hent, Multiset.map_cons]
    exact hn
  · rw [hent, Multiset.card_cons, ← Multiset.card_cons e, ← hrest, ← h.size]
    rfl

/-- `Set` of a stored key. -/
theorem Good.set_of_mem {t : PetHash V} (h : t.Inv) {key : UInt64} {v : V}
    (hv : ⟨key, v⟩ ∈ t.entries) (value : V) (check : Option (CheckFunc V)) (force : Bool) :
    ∃ t' rest, t.set key value check force = .ok t' ∧ t'.Inv ∧ t'.chunkNum = t.chunkNum ∧
      t.entries = ⟨key, v⟩ ::ₘ rest ∧ t'.entries = ⟨key, value⟩ ::ₘ rest := by
  obtain ⟨⟨pos, i⟩, hp, he⟩ := mem_entries.mp hv
  obtain ⟨hinv, hch, rest, hrest, hent⟩ := h.setValue hp he value
  refine ⟨t.setValue pos i value, rest, ?_, hinv, hch.chunkNum, hrest, hent⟩
  have hget := h.getInternal_of_mem hp he
  rw [PetHash.set, hget]

/-- `Set` of a new key is `Insert`. -/
theorem Good.set_of_absent {t : PetHash V} (h : t.Inv) {key : UInt64} (habs : t.Absent key)
    (value : V) (check : Option (CheckFunc V)) (force : Bool) :
    t.set key value check force = match t.insert key value check force with
      | .ok (t, _, _) => .ok t
      | .error e => .error e := by
  cases hins : t.insert key value check force <;>
    simp only [PetHash.set, h.getInternal_of_notMem habs, hins]

/-- **`Set` keeps the invariant**, whatever the callback and the force flag. -/
theorem Good.set {t t' : PetHash V} (h : t.Inv) {key : UInt64} {value : V}
    {check : Option (CheckFunc V)} {force : Bool} (hrun : t.set key value check force = .ok t') :
    t'.Inv ∧ t'.chunkNum = t.chunkNum := by
  by_cases habs : t.Absent key
  · rw [h.set_of_absent habs] at hrun
    cases hins : t.insert key value check force with
    | error e => rw [hins] at hrun; simp at hrun
    | ok r =>
      obtain ⟨t₁, pos, id⟩ := r
      rw [hins] at hrun
      simp only [Except.ok.injEq] at hrun
      rw [PetHash.insert, ← h.shape.probeAt_zero key] at hins
      obtain ⟨hinv, hN, -⟩ := insertLoop_good t.chunkNum 0 0 h habs le_rfl (by omega) hins
      exact hrun ▸ ⟨hinv, hN⟩
  · rw [Absent] at habs
    push Not at habs
    obtain ⟨v, hv⟩ := habs
    obtain ⟨t₁, rest, hset, hinv, hN, -⟩ := h.set_of_mem hv value check force
    rw [hset, Except.ok.injEq] at hrun
    exact hrun ▸ ⟨hinv, hN⟩

/-- **`Delete` keeps the invariant** and always completes. -/
theorem Good.delete {t : PetHash V} (h : t.Inv) (key : UInt64) :
    ∃ t', t.delete key = .ok t' ∧ t'.Inv ∧ t'.chunkNum = t.chunkNum := by
  by_cases habs : ∀ v, (⟨key, v⟩ : EntryT V) ∉ t.entries
  · exact ⟨t, h.delete_of_notMem habs, h, rfl⟩
  · push Not at habs
    obtain ⟨v, hv⟩ := habs
    obtain ⟨s, hs, he⟩ := mem_entries.mp hv
    obtain ⟨t', hdel, hinv, hd, -⟩ := h.delete_of_mem hs he
    exact ⟨t', hdel, hinv, hd.change.chunkNum⟩

/-! ### The empty table -/

theorem next2PowerLoop_eq (size : ℕ) : ∀ fuel newSize,
    ∃ k, next2PowerLoop size fuel newSize = newSize * 2 ^ k := by
  intro fuel
  induction fuel with
  | zero => exact fun n => ⟨0, by simp [next2PowerLoop]⟩
  | succ fuel ih =>
    intro n
    rw [next2PowerLoop]
    split_ifs
    · obtain ⟨k, hk⟩ := ih (n * 2)
      exact ⟨k + 1, by rw [hk, pow_succ]; ring⟩
    · exact ⟨0, by simp⟩

theorem exists_overFallChunkNum_eq (capacity : ℕ) : ∃ k, overFallChunkNum capacity = 2 ^ k := by
  obtain ⟨k, hk⟩ := next2PowerLoop_eq ((capacity + 13) % 2 ^ 64 / 14) 64 1
  exact ⟨k, by rw [overFallChunkNum, next2Power, hk, Nat.one_mul]⟩

/-- The capacities of a table with a single chunk, of which those next to `2 ^ 64` wrap around. -/
theorem overFallChunkNum_eq_one_iff {capacity : ℕ} :
    overFallChunkNum capacity = 1 ↔ (capacity + 13) % 2 ^ 64 < 28 := by
  rw [overFallChunkNum, next2Power, next2PowerLoop]
  split_ifs with hlt
  · obtain ⟨k, hk⟩ := next2PowerLoop_eq ((capacity + 13) % 2 ^ 64 / 14) 63 (1 * 2)
    have hpos := Nat.two_pow_pos k
    rw [hk]
    omega
  · omega

theorem slotEntry_initial [Inhabited V] {t : PetHash V}
    (h : ∀ p, t.chunkTable p = F14Chunk.initial) (s : ℕ × Slot) : t.slotEntry s = none := by
  rw [slotEntry, h]
  rfl

theorem initializeTable_chunkNum [Inhabited V] {capacity : ℕ} {ignoreLoadFactor : Bool}
    {t : PetHash V} (h : initializeTable capacity ignoreLoadFactor = some t) :
    t.chunkNum = overFallChunkNum (scaleCapacity capacity ignoreLoadFactor) := by
  rw [initializeTable] at h
  split_ifs at h
  cases h
  rfl

/-- **`Initialize`** sets up an empty table that satisfies the invariant. -/
theorem initializeTable_inv [Inhabited V] {capacity : ℕ} {ignoreLoadFactor : Bool} {t : PetHash V}
    (h : initializeTable capacity ignoreLoadFactor = some t) : t.Inv ∧ t.entries = 0 := by
  rw [initializeTable] at h
  split_ifs at h with hfits
  simp only [Option.some.injEq] at h
  have hchunk : ∀ p, t.chunkTable p = F14Chunk.initial := fun p => by rw [← h]
  have hnone := slotEntry_initial hchunk
  have hent : t.entries = 0 := by simp [entries, slotSum, hnone]
  refine ⟨⟨⟨?_, ?_, ?_, fun p _ => hchunk p ▸ F14Chunk.sound_initial⟩, ?_, ?_, ?_, ?_⟩, hent⟩
  · obtain ⟨k, hk⟩ := exists_overFallChunkNum_eq (scaleCapacity capacity ignoreLoadFactor)
    exact ⟨k, by rw [← h, hk]⟩
  · have hspace := hfits.2
    rw [memorySize] at hspace
    rw [← h]
    exact (Nat.le_add_left _ _).trans hspace
  · rw [← h]
  · exact fun p _ => by rw [hchunk]; rfl
  · intro c _
    right
    simp [hchunk, passCount, slotSum, hnone, F14Chunk.initial]
  · simp [NodupKeys, hent]
  · rw [hent, ← h]
    rfl

end PetHash

end PetPS
