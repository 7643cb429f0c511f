import PetPS.PetHash.ForceSet

/-!
# Insertion with expiry

With a callback, `Insert` deletes entries while it looks for a place: at each chunk with at least 12
entries it asks `check_func(.., false)` about every entry and deletes those that are rejected, and
where it finds the table full it tells `check_func(.., true)` which entry it is going to evict.

`insertTurns` lists the turns of the loop with the calls of `check_func` that they make. What the
whole loop removes is then a statement about slots: `Pruned t t' gone` says that `t'` is `t` without
the entries that `gone` picks, and such statements compose. An eviction happens once at most,
because the next turn finds room in the same chunk.

## Main results

* `insertLoop_eq_turn` — the turns are those of the loop
* `expireChunk_pruned` — the expiry scan of one turn
* `insertLoop_swept` — what the loop removes, slot by slot
* `insert_expires` — the contents after `Insert`
-/

namespace PetPS

namespace PetHash

variable {V : Type}

/-! ### The turns of the loop -/

/-- A call `check_func(entry.first, entry.second, force_delete)`. -/
structure CheckCall (V : Type) where
  /-- The table at the time of the call. -/
  table : PetHash V
  /-- The entry it is about. -/
  entry : EntryT V
  /-- The last argument. -/
  forceDelete : Bool

/-- A turn of the loop of `Insert`. -/
structure InsertTurn (V : Type) where
  /-- The chunk it visits. -/
  pos : ℕ
  /-- The table it finds. -/
  before : PetHash V
  /-- The calls of `check_func`. -/
  calls : List (CheckCall V)

/-- The calls the expiry scan makes. -/
def expireCalls (check : CheckFunc V) (i pos : ℕ) : List Slot → PetHash V → List (CheckCall V)
  | [], _ => []
  | id :: ids, t =>
    let it := (t.chunkTable pos).value id
    if (t.chunkTable pos).InUse id then
      ⟨t, it, false⟩ ::
        if check i it.first it.second false = false then
          match t.delete it.first with
          | .ok t => expireCalls check i pos ids t
          | .error _ => []
        else expireCalls check i pos ids t
    else expireCalls check i pos ids t

/-- The calls of the expiry step of turn `i`. -/
def expireChunkCalls (check : Option (CheckFunc V)) (i pos : ℕ) (t : PetHash V) :
    List (CheckCall V) :=
  match check with
  | none => []
  | some check =>
    if 14 - 2 ≤ (t.chunkTable pos).size then expireCalls check i pos (List.finRange 14) t else []

/-- The turns of `insertLoop`. -/
def insertLoopTurns (key : UInt64) (check : Option (CheckFunc V)) (force : Bool) :
    ℕ → ℕ → ℕ → PetHash V → List (InsertTurn V)
  | 0, _, _, _ => []
  | fuel + 1, i, pos, t =>
    let scan := expireChunkCalls check i pos t
    match expireChunk check i pos t with
    | .error _ => [⟨pos, t, scan⟩]
    | .ok t₁ =>
      let chunk := t₁.chunkTable pos
      if (chunk.find key (tagOf key)).isSome then [⟨pos, t, scan⟩]
      else if chunk.size < 14 then [⟨pos, t, scan⟩]
      else if t₁.Full then
        if force then
          let it := chunk.value (Fin.ofNat 14 ((tagOf key).toNat + i))
          ⟨pos, t, scan ++ if check.isSome then [⟨t₁, it, true⟩] else []⟩ ::
            match t₁.delete it.first with
            | .error _ => []
            | .ok t₂ => insertLoopTurns key check force fuel (i + 1) pos t₂
        else [⟨pos, t, scan⟩]
      else
        ⟨pos, t, scan⟩ :: insertLoopTurns key check force fuel (i + 1)
          (t₁.nextPos (stepOf key) pos) (t₁.modifyChunk pos F14Chunk.incOverflow)

/-- The turns of `Insert`. -/
def insertTurns (t : PetHash V) (key : UInt64) (check : Option (CheckFunc V)) (force : Bool) :
    List (InsertTurn V) :=
  insertLoopTurns key check force t.chunkNum 0 (t.homeChunk key) t

/-- The call of `check_func` before an eviction. -/
def TurnEnd.calls (check : Option (CheckFunc V)) : TurnEnd V → List (CheckCall V)
  | .evict t it => if check.isSome then [⟨t, it, true⟩] else []
  | _ => []

/-- **The turns are those of the loop.** -/
theorem insertLoopTurns_succ (key : UInt64) (value : V) (check : Option (CheckFunc V))
    (force : Bool) (fuel i pos : ℕ) (t : PetHash V) :
    insertLoopTurns key check force (fuel + 1) i pos t =
      ⟨pos, t, expireChunkCalls check i pos t ++
          (insertTurn key value check force i pos t).calls check⟩ ::
        ((insertTurn key value check force i pos t).next key pos).elim []
          fun next => insertLoopTurns key check force fuel (i + 1) next.1 next.2 := by
  rw [insertLoopTurns, insertTurn]
  cases expireChunk check i pos t with
  | error e => simp only [TurnEnd.calls, TurnEnd.next, List.append_nil, Option.elim_none]
  | ok t₁ =>
    simp only
    cases (t₁.chunkTable pos).find key (tagOf key) with
    | some id =>
      simp only [Option.isSome_some, if_true, TurnEnd.calls, TurnEnd.next, List.append_nil,
        Option.elim_none]
    | none =>
      simp only [Option.isSome_none, Bool.false_eq_true, if_false]
      by_cases hroom : (t₁.chunkTable pos).size < 14
      · simp only [if_pos hroom]
        cases (t₁.chunkTable pos).insert key value (tagOf key) <;>
          simp only [TurnEnd.calls, TurnEnd.next, List.append_nil, Option.elim_none]
      by_cases hfull : t₁.Full
      · simp only [if_neg hroom, if_pos hfull]
        cases force with
        | false =>
          simp only [Bool.false_eq_true, if_false, TurnEnd.calls, TurnEnd.next, List.append_nil,
            Option.elim_none]
        | true =>
          cases hdel : t₁.delete
              ((t₁.chunkTable pos).value (Fin.ofNat 14 ((tagOf key).toNat + i))).first with
          | error e => simp only [if_true, TurnEnd.calls, TurnEnd.next, hdel, Option.elim_none]
          | ok t₂ => simp only [if_true, TurnEnd.calls, TurnEnd.next, hdel, Option.elim_some]
      · simp only [if_neg hroom, if_neg hfull, TurnEnd.calls, TurnEnd.next, List.append_nil,
          Option.elim_some]

/-- **The loop goes on from each of its turns**: turn `n` of the list is where the loop is after
`n` turns. -/
theorem insertLoop_eq_turn {key : UInt64} (value : V) {check : Option (CheckFunc V)}
    {force : Bool} : ∀ (fuel i pos n : ℕ) (t : PetHash V) {turn : InsertTurn V},
      (insertLoopTurns key check force fuel i pos t)[n]? = some turn →
      insertLoop key value check force fuel i pos t =
        insertLoop key value check force (fuel - n) (i + n) turn.pos turn.before := by
  intro fuel
  induction fuel with
  | zero => intro i pos n t turn h; cases h
  | succ fuel ih =>
    intro i pos n t turn h
    rw [insertLoopTurns_succ key value] at h
    cases n with
    | zero =>
      obtain rfl := Option.some.inj h
      rfl
    | succ n =>
      rw [List.getElem?_cons_succ] at h
      rw [insertLoop_succ]
      cases hnext : (insertTurn key value check force i pos t).next key pos with
      | none =>
        rw [hnext] at h
        cases h
      | some next =>
        rw [hnext, Option.elim_some] at h
        rw [Option.elim_some, ih (i + 1) next.1 n next.2 h, Nat.add_right_comm,
          Nat.add_sub_add_right, Nat.add_assoc]

/-- The chunk at `pos` is visited while it holds at least 12 entries. -/
def Scanned (turns : List (InsertTurn V)) (pos : ℕ) : Prop :=
  ∃ turn ∈ turns, turn.pos = pos ∧ 12 ≤ (turn.before.chunkTable pos).size

theorem scanned_cons (turn : InsertTurn V) (turns : List (InsertTurn V)) (pos : ℕ) :
    Scanned (turn :: turns) pos ↔
      turn.pos = pos ∧ 12 ≤ (turn.before.chunkTable pos).size ∨ Scanned turns pos := by
  rw [Scanned, List.exists_mem_cons_iff, Scanned]

theorem scanned_singleton (turn : InsertTurn V) (pos : ℕ) :
    Scanned [turn] pos ↔ turn.pos = pos ∧ 12 ≤ (turn.before.chunkTable pos).size := by
  simp [Scanned]

/-- The callback lets `e` expire. -/
def Rejects (check : UInt64 → V → Bool → Bool) (e : EntryT V) : Prop :=
  check e.first e.second false = false

instance (check : UInt64 → V → Bool → Bool) (e : EntryT V) : Decidable (Rejects check e) :=
  inferInstanceAs (Decidable (_ = _))

/-- The entry `e` is evicted: the insertion is forced, and `check_func` is told about `e` when the
table is full. -/
def Evicts (force : Bool) (turns : List (InsertTurn V)) (e : EntryT V) : Prop :=
  force = true ∧ ∃ turn ∈ turns, ∃ call ∈ turn.calls,
    call.entry = e ∧ call.forceDelete = true ∧ call.table.Full

theorem Evicts.cons {force : Bool} {turns : List (InsertTurn V)} {e : EntryT V}
    (h : Evicts force turns e) (turn : InsertTurn V) : Evicts force (turn :: turns) e := by
  obtain ⟨hforce, turn', hturn, hcall⟩ := h
  exact ⟨hforce, turn', List.mem_cons_of_mem _ hturn, hcall⟩

/-! ### Tables with entries taken out -/

/-- `t'` is `t` without the entries that `gone` picks. -/
structure Pruned (t t' : PetHash V) (gone : ℕ × Slot → EntryT V → Prop) : Prop where
  /-- The array is the same. -/
  chunkNum : t'.chunkNum = t.chunkNum
  /-- What is left. -/
  entry : ∀ s e, t'.slotEntry s = some e ↔ t.slotEntry s = some e ∧ ¬ gone s e

section Pruned

variable {t t₁ t₂ : PetHash V} {gone gone₁ gone₂ : ℕ × Slot → EntryT V → Prop}

theorem pruned_refl (t : PetHash V) : Pruned t t fun _ _ => False :=
  ⟨rfl, fun _ _ => (and_iff_left not_false).symm⟩

theorem Pruned.trans (h : Pruned t t₁ gone₁) (h' : Pruned t₁ t₂ gone₂) :
    Pruned t t₂ fun s e => gone₁ s e ∨ gone₂ s e := by
  refine ⟨h'.chunkNum.trans h.chunkNum, fun s e => ?_⟩
  rw [h'.entry, h.entry, and_assoc, not_or]

/-- Only what is said about stored entries matters. -/
theorem Pruned.congr (h : Pruned t t₁ gone)
    (heq : ∀ s e, t.slotEntry s = some e → (gone s e ↔ gone₁ s e)) : Pruned t t₁ gone₁ := by
  refine ⟨h.chunkNum, fun s e => ?_⟩
  rw [h.entry]
  exact and_congr_right fun he => not_congr (heq s e he)

theorem Deleted.pruned {s : ℕ × Slot} (h : Deleted t t₁ s) : Pruned t t₁ fun s' _ => s' = s := by
  refine ⟨h.change.chunkNum, fun s' e => ?_⟩
  by_cases hs : s' = s
  · rw [hs, h.change.self]
    simp
  · rw [h.change.other s' hs]
    exact (and_iff_left hs).symm

theorem SameSlots.pruned (h : SameSlots t t₁) : Pruned t t₁ fun _ _ => False := by
  refine ⟨h.chunkNum, fun s e => ?_⟩
  rw [h.entry]
  exact (and_iff_left not_false).symm

end Pruned

/-! ### The expiry scan -/

theorem Deleted.size_le {t t' : PetHash V} {s : ℕ × Slot} (h : Deleted t t' s) (p : ℕ) :
    (t'.chunkTable p).size ≤ (t.chunkTable p).size := by
  by_cases hp : p = s.1
  · rw [hp, h.room]
    omega
  · rw [h.sizes p hp]

/-- The scan of the slots `ids` takes out the rejected entries in them. A slot that is not in
use, or whose entry is not rejected, is passed over. -/
theorem expire_pruned {check : CheckFunc V} {i pos : ℕ} :
    ∀ (ids : List Slot) {t t' : PetHash V} {ahead : Multiset ℕ}, t.Good ahead → pos < t.chunkNum →
      expire check i pos ids t = .ok t' →
      Pruned t t' (fun s e => s.1 = pos ∧ s.2 ∈ ids ∧ Rejects (check i) e) ∧
        ∀ p, (t'.chunkTable p).size ≤ (t.chunkTable p).size := by
  intro ids
  induction ids with
  | nil =>
    intro t t' ahead _ _ hrun
    obtain rfl : t = t' := by simpa only [expire, Except.ok.injEq] using hrun
    exact ⟨(pruned_refl t).congr fun _ _ _ => by simp, fun _ => le_rfl⟩
  | cons id ids ih =>
    intro t t' ahead h hp hrun
    rw [expire] at hrun
    split_ifs at hrun with hcond
    · have he : t.slotEntry (pos, id) = some ((t.chunkTable pos).value id) :=
        F14Chunk.entry_eq_some.mpr ⟨hcond.1, rfl⟩
      obtain ⟨t₁, hdel, hg, hd, -⟩ := h.delete_of_mem (s := (pos, id)) hp he
      rw [hdel] at hrun
      obtain ⟨hpr, hle⟩ := ih hg (hd.change.chunkNum ▸ hp) hrun
      refine ⟨(hd.pruned.trans hpr).congr fun s e hs => ?_, fun p => (hle p).trans (hd.size_le p)⟩
      have hself : s = (pos, id) → Rejects (check i) e := by
        rintro rfl
        obtain rfl := Option.some.inj (he.symm.trans hs)
        exact hcond.2
      rw [Prod.ext_iff] at hself ⊢
      rw [List.mem_cons]
      tauto
    · obtain ⟨hpr, hle⟩ := ih h hp hrun
      refine ⟨hpr.congr fun s e hs => ?_, hle⟩
      have hself : s = (pos, id) → ¬ Rejects (check i) e := by
        rintro rfl hrej
        obtain ⟨huse, rfl⟩ := F14Chunk.entry_eq_some.mp hs
        exact hcond ⟨huse, hrej⟩
      rw [Prod.ext_iff] at hself
      rw [List.mem_cons]
      tauto

/-- **The expiry step of a turn** takes out the rejected entries of the chunk, if the chunk holds at
least 12 entries. -/
theorem expireChunk_pruned {check : UInt64 → V → Bool → Bool} {i pos : ℕ} {t t' : PetHash V}
    {ahead : Multiset ℕ} (h : t.Good ahead) (hp : pos < t.chunkNum)
    (hrun : expireChunk (some fun _ => check) i pos t = .ok t') :
    Pruned t t' (fun s e => Rejects check e ∧ pos = s.1 ∧ 12 ≤ (t.chunkTable s.1).size) ∧
      ∀ p, (t'.chunkTable p).size ≤ (t.chunkTable p).size := by
  simp only [expireChunk] at hrun
  split_ifs at hrun with hc
  · obtain ⟨hpr, hle⟩ := expire_pruned _ h hp hrun
    refine ⟨hpr.congr fun s e _ => ?_, hle⟩
    constructor
    · rintro ⟨rfl, -, hrej⟩
      exact ⟨hrej, rfl, hc⟩
    · rintro ⟨hrej, rfl, -⟩
      exact ⟨rfl, List.mem_finRange _, hrej⟩
  · obtain rfl : t = t' := by simpa only [Except.ok.injEq] using hrun
    refine ⟨(pruned_refl t).congr fun s e _ => ?_, fun _ => le_rfl⟩
    refine iff_of_false not_false ?_
    rintro ⟨-, rfl, hle⟩
    exact hc hle

/-! ### The loop -/

/-- What the turns of an insertion take out of `t`, up to the table `t₁` in which the key is put. -/
structure Swept (check : UInt64 → V → Bool → Bool) (force : Bool) (turns : List (InsertTurn V))
    (t t₁ : PetHash V) (victim : Option (ℕ × Slot)) : Prop where
  /-- The rejected entries of the scanned chunks are taken out, and the victim. -/
  pruned : Pruned t t₁ fun s e => (Rejects check e ∧ Scanned turns s.1) ∨ s ∈ victim
  /-- The victim is an entry that did not expire, and it is evicted as the code evicts. -/
  evicts : ∀ s ∈ victim, s.1 < t.chunkNum ∧
    ∃ e, t.slotEntry s = some e ∧ ¬ (Rejects check e ∧ Scanned turns s.1) ∧ Evicts force turns e

section Turn

variable {t t₁ t₂ t₃ t' : PetHash V} {key : UInt64} {value : V} {check : UInt64 → V → Bool → Bool}
  {force : Bool} {turn : InsertTurn V} {turns : List (InsertTurn V)} {victim : Option (ℕ × Slot)}
  {fuel i j pos : ℕ} {id : Slot}

/-- The chunk a turn visits is scanned, apart from what later turns scan. -/
theorem rejects_scanned_cons {e : EntryT V} {p : ℕ} :
    Rejects check e ∧ Scanned (turn :: turns) p ↔
      (Rejects check e ∧ turn.pos = p ∧ 12 ≤ (turn.before.chunkTable p).size) ∨
        (Rejects check e ∧ Scanned turns p) := by
  rw [scanned_cons, and_or_left]

/-- A turn that leaves its chunk behind, and the turns after it. -/
theorem Swept.cons (hpr : Pruned t t₂ fun s e =>
      Rejects check e ∧ turn.pos = s.1 ∧ 12 ≤ (turn.before.chunkTable s.1).size)
    (h : Swept check force turns t₂ t₃ victim) :
    Swept check force (turn :: turns) t t₃ victim := by
  refine ⟨(hpr.trans h.pruned).congr fun s e _ => ?_, fun s hs => ?_⟩
  · rw [rejects_scanned_cons, or_assoc]
  · obtain ⟨hlt, e, he, hkept, hev⟩ := h.evicts s hs
    obtain ⟨he, hkept'⟩ := (hpr.entry s e).mp he
    refine ⟨hpr.chunkNum ▸ hlt, e, he, ?_, hev.cons turn⟩
    rw [rejects_scanned_cons]
    exact not_or.mpr ⟨hkept', hkept⟩

/-- A turn that evicts, and the turns after it, which do not. -/
theorem Swept.evict {s : ℕ × Slot} {e : EntryT V} (hpr : Pruned t t₁ fun s e =>
      Rejects check e ∧ turn.pos = s.1 ∧ 12 ≤ (turn.before.chunkTable s.1).size)
    (hpos : turn.pos = s.1) (hscan : 12 ≤ (turn.before.chunkTable s.1).size) (hs : s.1 < t.chunkNum)
    (he : t₁.slotEntry s = some e) (hdel : Pruned t₁ t₂ fun s' _ => s' = s)
    (h : Swept check force turns t₂ t₃ none) (hev : Evicts force (turn :: turns) e) :
    Swept check force (turn :: turns) t t₃ (some s) := by
  obtain ⟨het, hkept⟩ := (hpr.entry s e).mp he
  have hrej : ¬ Rejects check e := fun hrej => hkept ⟨hrej, hpos, hscan⟩
  refine ⟨((hpr.trans hdel).trans h.pruned).congr fun s' e' _ => ?_, fun s' hs' => ?_⟩
  · rw [rejects_scanned_cons, Option.mem_def, Option.mem_def, Option.some.injEq, eq_comm (a := s)]
    simp only [reduceCtorEq, or_false]
    exact or_right_comm
  · obtain rfl : s = s' := Option.some.inj hs'
    exact ⟨hs, e, het, fun hboth => hrej hboth.1, hev⟩

/-- A turn that finds room in its chunk is the last one. -/
theorem Good.swept_last (h : t.Good (t.walked key j)) (habs : t.Absent key) (hj : j < t.chunkNum)
    (hexp : expireChunk (some fun _ => check) i (t.probeAt key j) t = .ok t₁)
    (hroom : t₁.Roomy (t.probeAt key j))
    (hrun : insertLoop key value (some fun _ => check) force (fuel + 1) i (t.probeAt key j) t
      = .ok (t', pos, id)) :
    Swept check force (insertLoopTurns key (some fun _ => check) force (fuel + 1) i
        (t.probeAt key j) t) t t₁ none ∧
      SlotChange t₁ t' (pos, id) (some ⟨key, value⟩) ∧ t₁.slotEntry (pos, id) = none ∧
      pos < t₁.chunkNum := by
  obtain ⟨h₁, habs₁, hN₁, hat, -⟩ := h.expired habs hexp
  obtain ⟨hpr, -⟩ := expireChunk_pruned h (h.shape.probeAt_lt key j) hexp
  have hp := h₁.shape.probeAt_lt key j
  have hfind := habs₁.find_eq_none hp
  rw [Roomy, ← hat] at hroom
  have hturns : insertLoopTurns key (some fun _ => check) force (fuel + 1) i (t.probeAt key j) t
      = [⟨t.probeAt key j, t, expireChunkCalls (some fun _ => check) i (t.probeAt key j) t⟩] := by
    rw [insertLoopTurns, hexp, ← hat]
    simp only [hfind, Option.isSome_none, Bool.false_eq_true, if_false, if_pos hroom]
  rw [insertLoop, hexp, ← hat] at hrun
  simp only [hfind, if_pos hroom] at hrun
  rw [← add_zero (t₁.walked key j : Multiset ℕ)] at h₁
  obtain ⟨c, i', hins, t₂, ht₂, -, -, hch, hnone, -⟩ := h₁.put (hN₁ ▸ hj) habs₁ hroom value
  rw [hins] at hrun
  simp only [Except.ok.injEq, Prod.mk.injEq] at hrun
  obtain ⟨hteq, rfl, rfl⟩ := hrun
  rw [modifyChunk_size, ← ht₂] at hteq
  refine ⟨⟨?_, fun s hs => absurd hs (Option.not_mem_none s)⟩, hteq ▸ hch, hnone, hp⟩
  rw [hturns]
  refine hpr.congr fun s e _ => ?_
  rw [scanned_singleton, Option.mem_def]
  simp only [reduceCtorEq, or_false]

/-- The turn after an eviction finds room where the evicted entry was. -/
theorem Good.swept_after_evict (h : t.Good (t.walked key j)) (habs : t.Absent key)
    (hj : j < t.chunkNum) (hroom : t.Roomy (t.probeAt key j))
    (hrun : insertLoop key value (some fun _ => check) force fuel i (t.probeAt key j) t
      = .ok (t', pos, id)) :
    ∃ t₁, Swept check force (insertLoopTurns key (some fun _ => check) force fuel i
        (t.probeAt key j) t) t t₁ none ∧
      SlotChange t₁ t' (pos, id) (some ⟨key, value⟩) ∧ t₁.slotEntry (pos, id) = none ∧
      pos < t₁.chunkNum := by
  cases fuel with
  | zero => simp [insertLoop] at hrun
  | succ fuel =>
    cases hexp : expireChunk (some fun _ => check) i (t.probeAt key j) t with
    | error e => rw [insertLoop, hexp] at hrun; simp at hrun
    | ok t₁ =>
      obtain ⟨-, hle⟩ := expireChunk_pruned h (h.shape.probeAt_lt key j) hexp
      exact ⟨t₁, h.swept_last habs hj hexp ((hle _).trans_lt hroom) hrun⟩

end Turn

/-- **What the loop takes out**, and where the key lands. The induction is on the turns left. -/
theorem insertLoop_swept {key : UInt64} {value : V} {check : UInt64 → V → Bool → Bool}
    {force : Bool} :
    ∀ (fuel i j : ℕ) {t t' : PetHash V} {pos : ℕ} {id : Slot}, t.Good (t.walked key j) →
      t.Absent key → j ≤ i → i + fuel ≤ t.chunkNum →
      insertLoop key value (some fun _ => check) force fuel i (t.probeAt key j) t
        = .ok (t', pos, id) →
      ∃ t₁ victim, Swept check force
          (insertLoopTurns key (some fun _ => check) force fuel i (t.probeAt key j) t) t t₁ victim ∧
        SlotChange t₁ t' (pos, id) (some ⟨key, value⟩) ∧ t₁.slotEntry (pos, id) = none ∧
        pos < t₁.chunkNum := by
  intro fuel
  induction fuel with
  | zero => intro i j t t' pos id _ _ _ _ hrun; simp [insertLoop] at hrun
  | succ fuel ih =>
    intro i j t t' pos id h habs hji hfuel hrun
    cases hexp : expireChunk (some fun _ => check) i (t.probeAt key j) t with
    | error e => rw [insertLoop, hexp] at hrun; simp at hrun
    | ok t₁ =>
      obtain ⟨h₁, habs₁, hN₁, hat, -⟩ := h.expired habs hexp
      obtain ⟨hpr, hle⟩ := expireChunk_pruned h (h.shape.probeAt_lt key j) hexp
      have hp₁ := h₁.shape.probeAt_lt key j
      by_cases hroom : t₁.Roomy (t.probeAt key j)
      · exact ⟨t₁, none, h.swept_last habs (by omega) hexp hroom hrun⟩
      · have hfull₁ : ¬ (t₁.chunkTable (t₁.probeAt key j)).size < 14 := hat ▸ hroom
        rw [insertLoop, hexp] at hrun
        rw [insertLoopTurns, hexp]
        simp only [← hat] at hrun hpr ⊢
        simp only [habs₁.find_eq_none hp₁, if_neg hfull₁, Option.isSome_none, Option.isSome_some,
          Bool.false_eq_true, if_false, if_true] at hrun ⊢
        split_ifs at hrun ⊢ with hfull hforce
        · -- evict, and land in the next turn
          obtain ⟨t₂, hdel, h₂, habs₂, hd, hat₂, -⟩ := h₁.evicted habs₁ hfull₁
            (Fin.ofNat 14 ((tagOf key).toNat + i))
          have hroom₂ : t₂.Roomy (t₂.probeAt key j) := hat₂ ▸ hd.roomy h₁.shape hp₁
          have hN₂ := hd.change.chunkNum
          simp only [hdel] at hrun ⊢
          rw [← hat₂] at hrun
          obtain ⟨t₃, hswept, hch, hnone, hpos⟩ :=
            h₂.swept_after_evict habs₂ (by omega) hroom₂ hrun
          rw [hat₂] at hswept
          have hbig : 12 ≤ (t.chunkTable (t₁.probeAt key j)).size := by
            have := hle (t₁.probeAt key j)
            omega
          refine ⟨t₃, _, Swept.evict hpr rfl hbig (hN₁ ▸ hp₁)
            (h₁.slotEntry_of_full hp₁ hfull₁ _) hd.pruned hswept ⟨hforce, _,
              List.mem_cons_self, ?_⟩,
            hch, hnone, hpos⟩
          exact ⟨_, List.mem_append_right _ List.mem_cons_self, rfl, rfl, hfull⟩
        · -- go on to the next chunk
          obtain ⟨h₂, habs₂, hr, hnext⟩ := h₁.advanced habs₁ rfl
          have hN₂ := hr.chunkNum
          rw [hnext] at hrun ⊢
          obtain ⟨t₃, victim, hswept, hch, hnone, hpos⟩ :=
            ih (i + 1) (j + 1) h₂ habs₂ (by omega) (by omega) hrun
          refine ⟨t₃, victim, Swept.cons ?_ hswept, hch, hnone, hpos⟩
          exact (hpr.trans hr.toSameSlots.pruned).congr fun _ _ _ => or_iff_left not_false

/-! ### The contents afterwards -/

/-- The entry `e` is rejected and stored in a chunk that is visited while it holds at least 12
entries. -/
def Expired (t : PetHash V) (check : UInt64 → V → Bool → Bool) (turns : List (InsertTurn V))
    (e : EntryT V) : Prop :=
  Rejects check e ∧ ∃ s, s.1 < t.chunkNum ∧ t.slotEntry s = some e ∧ Scanned turns s.1

section Contents

variable {t t₁ : PetHash V} {check : UInt64 → V → Bool → Bool} {force : Bool}
  {turns : List (InsertTurn V)} {victim : Option (ℕ × Slot)}

theorem NodupKeys.expired_iff (h : t.NodupKeys) {s : ℕ × Slot} {e : EntryT V}
    (hs : s.1 < t.chunkNum) (he : t.slotEntry s = some e) :
    t.Expired check turns e ↔ Rejects check e ∧ Scanned turns s.1 := by
  refine and_congr_right fun _ => ⟨?_, fun hscan => ⟨s, hs, he, hscan⟩⟩
  rintro ⟨s', hs', he', hscan⟩
  exact h.slot_unique hs hs' he he' rfl ▸ hscan

/-- The entries left, told by entry and no longer by slot. -/
theorem Swept.mem_entries_iff (h : Swept check force turns t t₁ victim) (hnodup : t.NodupKeys)
    (e : EntryT V) :
    e ∈ t₁.entries ↔
      e ∈ t.entries ∧ ¬ t.Expired check turns e ∧ e ∉ victim.bind t.slotEntry := by
  constructor
  · intro he
    obtain ⟨s, hs, he₁⟩ := mem_entries.mp he
    rw [h.pruned.chunkNum] at hs
    obtain ⟨het, hkept⟩ := (h.pruned.entry s e).mp he₁
    obtain ⟨hexp, hvictim⟩ := not_or.mp hkept
    refine ⟨mem_entries.mpr ⟨s, hs, het⟩, by rwa [hnodup.expired_iff hs het], fun hev => ?_⟩
    obtain ⟨s', hs', he'⟩ := Option.bind_eq_some_iff.mp hev
    exact hvictim (hnodup.slot_unique (h.evicts s' hs').1 hs he' het rfl ▸ hs')
  · rintro ⟨he, hexp, hev⟩
    obtain ⟨s, hs, het⟩ := mem_entries.mp he
    rw [hnodup.expired_iff hs het] at hexp
    refine mem_entries.mpr ⟨s, h.pruned.chunkNum ▸ hs, (h.pruned.entry s e).mpr ⟨het, ?_⟩⟩
    exact not_or.mpr ⟨hexp, fun hvictim => hev (Option.bind_eq_some_iff.mpr ⟨s, hvictim, het⟩)⟩

end Contents

/-- **`Insert` with expiry removes only what the callback rejects.** In a table in order, let
`Insert` of a key that is not stored return, with a pure callback. The new contents are the old ones
and the new entry, without exactly the entries that the callback rejects in the chunks visited while
they held at least 12 entries, and without at most one further entry. That one is removed only by a
forced insertion into a full table, after the callback was called for it with `force_delete = true`.
`Get` finds these contents. -/
theorem insert_expires {t t' : PetHash V} (h : t.Inv) {key : UInt64}
    (habs : t.Absent key) {value : V}
    {check : UInt64 → V → Bool → Bool} {force : Bool} {pos : ℕ} {id : Slot}
    (hins : t.insert key value (some fun _ => check) force = .ok (t', pos, id)) :
    ∃ evicted : Option (EntryT V),
      (∀ e ∈ evicted, e ∈ t.entries ∧
        ¬ t.Expired check (t.insertTurns key (some fun _ => check) force) e ∧
        Evicts force (t.insertTurns key (some fun _ => check) force) e) ∧
      (∀ e, e ∈ t'.entries ↔ e = ⟨key, value⟩ ∨
        (e ∈ t.entries ∧ ¬ t.Expired check (t.insertTurns key (some fun _ => check) force) e ∧
          e ∉ evicted)) ∧
      (∀ k v, t'.get k = .ok (some v) ↔ (k = key ∧ v = value) ∨ (t.get k = .ok (some v) ∧
        ¬ t.Expired check (t.insertTurns key (some fun _ => check) force) ⟨k, v⟩ ∧
          ⟨k, v⟩ ∉ evicted)) ∧
      t'.Inv := by
  rw [PetHash.insert, ← h.shape.probeAt_zero key] at hins
  rw [insertTurns, ← h.shape.probeAt_zero key]
  obtain ⟨hinv, -⟩ := insertLoop_good t.chunkNum 0 0 h habs le_rfl (by omega) hins
  obtain ⟨t₁, victim, hswept, hch, hnone, hpos⟩ :=
    insertLoop_swept t.chunkNum 0 0 h habs le_rfl (by omega) hins
  set turns := insertLoopTurns key (some fun _ => check) force t.chunkNum 0 (t.probeAt key 0) t
  have hmem : ∀ e, e ∈ t'.entries ↔ e = ⟨key, value⟩ ∨
      (e ∈ t.entries ∧ ¬ t.Expired check turns e ∧ e ∉ victim.bind t.slotEntry) := by
    intro e
    rw [entries_put hch (mem_slots.mpr hpos) hnone, Multiset.mem_cons,
      hswept.mem_entries_iff h.nodup]
  refine ⟨victim.bind t.slotEntry, fun e he => ?_, hmem, fun k v => ?_, hinv⟩
  · obtain ⟨s, hs, hse⟩ := Option.bind_eq_some_iff.mp he
    obtain ⟨hlt, e', he', hkept, hev⟩ := hswept.evicts s hs
    obtain rfl : e' = e := Option.some.inj (he'.symm.trans hse)
    exact ⟨mem_entries.mpr ⟨s, hlt, hse⟩, by rwa [h.nodup.expired_iff hlt hse], hev⟩
  · rw [hinv.get_eq_some_iff, hmem, h.get_eq_some_iff, EntryT.mk.injEq]

/-- Thirteen keys in one of two chunks. The key `0` is the one that expires. -/
def thirteen : List (Op UInt64) :=
  (List.range 13).map fun k => .set (UInt64.ofNat (2 * k)) (UInt64.ofNat k) false

theorem insert_expires_key_zero : ∃ t₀ t t' : PetHash UInt64, ∃ pos id,
    initializeTable 28 true = some t₀ ∧ Run.run step t₀ thirteen = some t ∧
      t.insert 26 13 (some fun _ _ v _ => decide (v ≠ 0)) false = .ok (t', pos, id) ∧
      t'.get 0 = .ok none ∧ t'.get 2 = .ok (some 1) := by
  have heval : ((initializeTable 28 true : Option (PetHash UInt64)).any fun t₀ =>
      (Run.run step t₀ thirteen).any fun t => (t.get 26).toOption.any Option.isNone &&
        ((t.get 2).toOption.any fun o => o.any fun v => decide (v = 1)) &&
        ((t.insert 26 13 (some fun _ _ v _ => decide (v ≠ 0)) false).toOption.any fun r =>
          (r.1.get 0).toOption.any Option.isNone)) = true := by
    decide +kernel
  simp only [Option.any_eq_true, Bool.and_eq_true, decide_eq_true_eq] at heval
  obtain ⟨t₀, hinit, t, hrun, ⟨⟨o, habs, ho⟩, o₂, htwo, v, rfl, rfl⟩, ⟨t', pos, id⟩, hins, o₀,
    hzero, ho₀⟩ :=
    heval
  have hinv : t.Inv := Run.run_invariant (P := PetHash.Inv) (fun _ _ _ h hstep => h.op hstep)
    (initializeTable_inv hinit).1 hrun
  have habs' : t.Absent 26 := by
    intro v hv
    have := eq_ok_of_toOption habs
    rw [hinv.get_of_mem hv, Except.ok.injEq] at this
    rw [← this] at ho
    cases ho
  have hins' := eq_ok_of_toOption hins
  obtain ⟨evicted, hev, -, hget, -⟩ := insert_expires hinv habs' hins'
  refine ⟨t₀, t, t', pos, id, hinit, hrun, hins', ?_, (hget 2 1).mpr (Or.inr ⟨?_, ?_, ?_⟩)⟩
  · rw [eq_ok_of_toOption hzero, Option.isNone_iff_eq_none.mp ho₀]
  · exact eq_ok_of_toOption htwo
  · exact fun hexp => absurd hexp.1 (by decide)
  · exact fun hmem => absurd (hev _ hmem).2.2.1 (by decide)

end PetHash

end PetPS
