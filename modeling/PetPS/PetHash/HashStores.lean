import PetPS.Lib.Cut
import PetPS.PetHash.Reload

/-!
# The stores of the dictionary

What `Delete` and `Insert` write into the mapped table, store by store and in program order, up
to the point where they return or abort. Applying all of them gives the table the function returns.

Each store changes one of five things: a counter of passes, an element count, a key, a value or
a tag of one chunk, or the size of the table. `Valid` compares tags with the counts, `Reload` looks
at keys only. An insertion that is cut therefore leaves a table that `Valid` rejects, or one in
which `Reload` finds no more keys than before (`Torn`).

## Main results

* `exec_deleteStores`, `exec_insertLoopStores` — the stores are those of the functions
* `card_keyedEntries_exec` — the keys `Reload` finds
* `Good.insertStores_plain`, `Good.insertStores_crowded` — `Insert` of a new key, cut anywhere
-/

namespace PetPS

open Cut

/-- A store into the mapped table. -/
inductive HashStore (V : Type)
  /-- `overflow_count_` of the chunk at `pos`. -/
  | overflow (pos v : ℕ)
  /-- `size_` of the chunk at `pos`. -/
  | chunkSize (pos v : ℕ)
  /-- `value_[i].first`. -/
  | key (pos : ℕ) (i : Slot) (k : UInt64)
  /-- `value_[i].second`. -/
  | value (pos : ℕ) (i : Slot) (v : V)
  /-- `tags_[i]`. -/
  | tag (pos : ℕ) (i : Slot) (tag : UInt8)
  /-- `size_` of the table. -/
  | size (v : ℕ)

namespace HashStore

variable {V : Type}

/-- The store puts a key where `Reload` finds it. -/
def putsKey : HashStore V → Bool
  | .key _ _ k => k != emptyKey
  | _ => false

/-- The store is to the size of the table. -/
def counts : HashStore V → Bool
  | .size _ => true
  | _ => false

/-- The store is to the tag of a slot. -/
def setsTag : HashStore V → Bool
  | .tag .. => true
  | _ => false

/-- The store is to the element count of a chunk. -/
def setsChunkSize : HashStore V → Bool
  | .chunkSize .. => true
  | _ => false

/-- The store is to a counter of passes. -/
def isOverflow : HashStore V → Bool
  | .overflow .. => true
  | _ => false

theorem eq_overflow {a : HashStore V} (h : a.isOverflow = true) : ∃ pos v, a = .overflow pos v := by
  cases a with
  | overflow pos v => exact ⟨pos, v, rfl⟩
  | _ => cases h

end HashStore

namespace PetHash

variable {V : Type}

/-- The effect of a store. -/
def apply (t : PetHash V) : HashStore V → PetHash V
  | .overflow pos v => t.modifyChunk pos fun c => { c with overflowCount := v }
  | .chunkSize pos v => t.modifyChunk pos fun c => { c with size := v }
  | .key pos i k => t.modifyChunk pos fun c =>
      { c with value := Function.update c.value i { c.value i with first := k } }
  | .value pos i v => t.setValue pos i v
  | .tag pos i tag => t.modifyChunk pos fun c => { c with tags := Function.update c.tags i tag }
  | .size v => { t with size := v }

/-! ### The stores of each function -/

/-- The store to `overflow_count_`, which is not made at the cap. -/
def overflowStores (pos : ℕ) (c : F14Chunk V) (v : ℕ) : List (HashStore V) :=
  if c.overflowCount ≠ 255 then [.overflow pos v] else []

/-- `IncOverflow`. -/
def incStores (pos : ℕ) (c : F14Chunk V) : List (HashStore V) :=
  overflowStores pos c c.incOverflow.overflowCount

/-- `DecOverflow`. -/
def decStores (pos : ℕ) (c : F14Chunk V) : List (HashStore V) :=
  overflowStores pos c c.decOverflow.overflowCount

/-- `F14Chunk::Delete`. -/
def chunkDeleteStores (pos : ℕ) (c : F14Chunk V) (i : Slot) : List (HashStore V) :=
  [.tag pos i 0, .key pos i emptyKey, .chunkSize pos (c.delete i).size]

/-- `F14Chunk::Insert`. -/
def chunkInsertStores (pos : ℕ) (c : F14Chunk V) (key : UInt64) (value : V) (sign : UInt8) :
    List (HashStore V) :=
  if c.size < 14 then
    .chunkSize pos ((c.size + 1) % 256) ::
      if c.matchTag 0 ≠ 0 then
        let i := F14Chunk.nextSlot (c.matchTag 0)
        [.key pos i key, .value pos i value, .tag pos i sign]
      else []
  else []

/-- The loop of `Delete` along the probe path. -/
def decPathStores (step chunkId : ℕ) : ℕ → ℕ → PetHash V → List (HashStore V)
  | 0, _, _ => []
  | fuel + 1, pos, t =>
    if pos = chunkId then []
    else
      decStores pos (t.chunkTable pos) ++
        decPathStores step chunkId fuel (t.nextPos step pos)
          (t.modifyChunk pos F14Chunk.decOverflow)

/-- `Delete`. -/
def deleteStores (t : PetHash V) (key : UInt64) : List (HashStore V) :=
  match t.getInternal key with
  | .retry => []
  | .absent => []
  | .found pos id =>
    decPathStores (stepOf key) pos t.chunkNum (t.homeChunk key) t ++
      match t.decPath (stepOf key) (t.homeChunk key) pos with
      | none => []
      | some t =>
        chunkDeleteStores pos (t.chunkTable pos) id ++ [.size ((t.size + (2 ^ 64 - 1)) % 2 ^ 64)]

/-- The probing loop of `Insert` without a callback. -/
def insertLoopStores (key : UInt64) (value : V) (force : Bool) :
    ℕ → ℕ → ℕ → PetHash V → List (HashStore V)
  | 0, _, _, _ => []
  | fuel + 1, i, pos, t =>
    let chunk := t.chunkTable pos
    match chunk.find key (tagOf key) with
    | some id => [.value pos id value]
    | none =>
      if chunk.size < 14 then
        chunkInsertStores pos chunk key value (tagOf key) ++
          match chunk.insert key value (tagOf key) with
          | .error _ => []
          | .ok _ => [.size ((t.size + 1) % 2 ^ 64)]
      else if t.Full then
        if force then
          let victim := (chunk.value (Fin.ofNat 14 ((tagOf key).toNat + i))).first
          t.deleteStores victim ++
            match t.delete victim with
            | .error _ => []
            | .ok t => insertLoopStores key value force fuel (i + 1) pos t
        else []
      else
        incStores pos chunk ++
          insertLoopStores key value force fuel (i + 1) (t.nextPos (stepOf key) pos)
            (t.modifyChunk pos F14Chunk.incOverflow)

/-- `Insert` without a callback. -/
def insertStores (t : PetHash V) (key : UInt64) (value : V) (force : Bool) : List (HashStore V) :=
  insertLoopStores key value force t.chunkNum 0 (t.homeChunk key) t

/-! ### The stores are those of the functions -/

theorem modifyChunk_modifyChunk (t : PetHash V) (pos : ℕ) (f g : F14Chunk V → F14Chunk V) :
    (t.modifyChunk pos f).modifyChunk pos g = t.modifyChunk pos fun c => g (f c) := by
  simp [modifyChunk]

theorem exec_overflowStores (t : PetHash V) (pos v : ℕ)
    (h : (t.chunkTable pos).overflowCount = 255 → v = 255) :
    exec apply t (overflowStores pos (t.chunkTable pos) v) =
      t.modifyChunk pos fun c => { c with overflowCount := v } := by
  rw [overflowStores]
  split_ifs with hcap
  · rfl
  · have hself : ({ t.chunkTable pos with overflowCount := v } : F14Chunk V) =
      t.chunkTable pos := by
      rw [h (not_not.mp hcap), ← not_not.mp hcap]
    rw [modifyChunk, hself, Function.update_eq_self]
    rfl

theorem exec_incStores (t : PetHash V) (pos : ℕ) :
    exec apply t (incStores pos (t.chunkTable pos)) = t.modifyChunk pos F14Chunk.incOverflow := by
  rw [incStores, exec_overflowStores _ _ _ fun h => by simp [F14Chunk.incOverflow, Tally.inc, h]]
  rfl

theorem exec_decStores (t : PetHash V) (pos : ℕ) :
    exec apply t (decStores pos (t.chunkTable pos)) = t.modifyChunk pos F14Chunk.decOverflow := by
  rw [decStores, exec_overflowStores _ _ _ fun h => by simp [F14Chunk.decOverflow, Tally.dec, h]]
  rfl

theorem exec_chunkDeleteStores (t : PetHash V) (pos : ℕ) (i : Slot) :
    exec apply t (chunkDeleteStores pos (t.chunkTable pos) i) =
      t.modifyChunk pos fun c => c.delete i := by
  simp only [chunkDeleteStores, exec_cons, exec_nil, apply, modifyChunk_modifyChunk]
  rfl

theorem exec_chunkInsertStores {t : PetHash V} {pos : ℕ} {key : UInt64} {value : V} {sign : UInt8}
    {c : F14Chunk V} {i : Slot} (h : (t.chunkTable pos).insert key value sign = .ok (c, i)) :
    exec apply t (chunkInsertStores pos (t.chunkTable pos) key value sign) =
      t.modifyChunk pos fun _ => c := by
  have hmatch : ∀ size, ({ t.chunkTable pos with size } : F14Chunk V).matchTag 0 =
      (t.chunkTable pos).matchTag 0 := fun _ => rfl
  simp only [F14Chunk.insert, hmatch] at h
  rw [chunkInsertStores]
  split_ifs at h ⊢ with hroom hempty
  cases h
  simp only [exec_cons, exec_nil, apply, setValue, modifyChunk_modifyChunk]
  simp [modifyChunk, F14Chunk.set]

theorem exec_decPathStores (step chunkId : ℕ) : ∀ (fuel pos : ℕ) {t t₀ t' : PetHash V},
    t.chunkNum = t₀.chunkNum →
    Walk.whileNe (t₀.nextPos step)
      (fun pos t => t.modifyChunk pos F14Chunk.decOverflow) chunkId fuel
      pos t = some t' →
    exec apply t (decPathStores step chunkId fuel pos t) = t' := by
  intro fuel
  induction fuel with
  | zero => intro pos t t₀ t' _ h; cases h
  | succ fuel ih =>
    intro pos t t₀ t' hN h
    rw [Walk.whileNe] at h
    rw [decPathStores]
    split_ifs at h ⊢ with hend
    · exact Option.some.inj h
    · have hnext : t.nextPos step pos = t₀.nextPos step pos := by rw [nextPos, nextPos, hN]
      rw [exec_append, exec_decStores, hnext]
      exact ih _ hN h

/-- **`Delete`.** -/
theorem exec_deleteStores {t t' : PetHash V} {key : UInt64} (h : t.delete key = .ok t') :
    exec apply t (t.deleteStores key) = t' := by
  rw [delete] at h
  rw [deleteStores]
  cases hget : t.getInternal key with
  | retry => rw [hget] at h; cases h
  | absent => rw [hget] at h; cases h; rfl
  | found pos id =>
    simp only [hget] at h ⊢
    cases hdec : t.decPath (stepOf key) (t.homeChunk key) pos with
    | none => rw [hdec] at h; cases h
    | some t₁ =>
      rw [hdec] at h
      cases h
      simp only [exec_append, exec_decPathStores _ _ _ _ rfl hdec, exec_chunkDeleteStores]
      rfl

/-- **`Insert`.** -/
theorem exec_insertLoopStores {key : UInt64} {value : V} {force : Bool} :
    ∀ (fuel i pos : ℕ) {t t' : PetHash V} {pos' : ℕ} {id : Slot},
      insertLoop key value none force fuel i pos t = .ok (t', pos', id) →
      exec apply t (insertLoopStores key value force fuel i pos t) = t' := by
  intro fuel
  induction fuel with
  | zero => intro i pos t t' pos' id h; cases h
  | succ fuel ih =>
    intro i pos t t' pos' id h
    rw [insertLoop] at h
    simp only [expireChunk] at h
    rw [insertLoopStores]
    cases hfind : (t.chunkTable pos).find key (tagOf key) with
    | some id₁ =>
      simp only [hfind] at h ⊢
      cases h
      rfl
    | none =>
      simp only [hfind] at h ⊢
      split_ifs at h ⊢ with hroom hfull
      · cases hins : (t.chunkTable pos).insert key value (tagOf key) with
        | error e => rw [hins] at h; cases h
        | ok r =>
          obtain ⟨c, i⟩ := r
          rw [hins] at h
          cases h
          rw [exec_append, exec_chunkInsertStores hins]
          rfl
      · cases hdel : t.delete
          ((t.chunkTable pos).value (Fin.ofNat 14 ((tagOf key).toNat + i))).first with
        | error e => rw [hdel] at h; cases h
        | ok t₁ =>
          rw [hdel] at h
          rw [exec_append, exec_deleteStores hdel]
          exact ih (i + 1) pos h
      · rw [exec_append, exec_incStores]
        exact ih (i + 1) _ h

/-! ### What a store leaves alone -/

theorem apply_chunkNum (t : PetHash V) (a : HashStore V) : (t.apply a).chunkNum = t.chunkNum := by
  cases a <;> rfl

theorem apply_capacity (t : PetHash V) (a : HashStore V) : (t.apply a).capacity = t.capacity := by
  cases a <;> rfl

/-- A field of the table that no store of the list changes. -/
theorem exec_field {β : Type} (g : PetHash V → β) : ∀ {as : List (HashStore V)} {t : PetHash V},
    (∀ t : PetHash V, ∀ a ∈ as, g (t.apply a) = g t) → g (exec apply t as) = g t := by
  intro as
  induction as with
  | nil => exact fun _ => rfl
  | cons a as ih =>
    intro t h
    rw [exec_cons, ih fun t b hb => h t b (List.mem_cons_of_mem a hb), h t a List.mem_cons_self]

theorem exec_chunkNum (t : PetHash V) (as : List (HashStore V)) :
    (exec apply t as).chunkNum = t.chunkNum :=
  exec_field PetHash.chunkNum fun t a _ => apply_chunkNum t a

theorem exec_capacity (t : PetHash V) (as : List (HashStore V)) :
    (exec apply t as).capacity = t.capacity :=
  exec_field PetHash.capacity fun t a _ => apply_capacity t a

/-- The tags of all slots. -/
def tagsOf (t : PetHash V) (pos : ℕ) (i : Slot) : UInt8 := (t.chunkTable pos).tags i

/-- The element counts of all chunks. -/
def sizesOf (t : PetHash V) (pos : ℕ) : ℕ := (t.chunkTable pos).size

theorem card_entries_congr {t t' : PetHash V} (hN : t'.chunkNum = t.chunkNum)
    (h : t'.tagsOf = t.tagsOf) : t'.entries.card = t.entries.card := by
  rw [card_entries_eq_used, card_entries_eq_used, hN]
  refine Finset.sum_congr rfl fun p _ => congrArg Finset.card ?_
  ext i
  rw [F14Chunk.mem_used, F14Chunk.mem_used]
  exact not_congr (Eq.congr_left (congrFun (congrFun h p) i))

theorem tagsOf_modifyChunk (t : PetHash V) (pos : ℕ) {f : F14Chunk V → F14Chunk V}
    (hf : ∀ c, (f c).tags = c.tags) : (t.modifyChunk pos f).tagsOf = t.tagsOf := by
  funext p i
  exact congrFun (modifyChunk_field t pos f F14Chunk.tags (hf _) p) i

theorem sizesOf_modifyChunk (t : PetHash V) (pos : ℕ) {f : F14Chunk V → F14Chunk V}
    (hf : ∀ c, (f c).size = c.size) : (t.modifyChunk pos f).sizesOf = t.sizesOf := by
  funext p
  exact modifyChunk_field t pos f F14Chunk.size (hf _) p

theorem apply_tagsOf (t : PetHash V) {a : HashStore V} (h : a.setsTag = false) :
    (t.apply a).tagsOf = t.tagsOf := by
  cases a with
  | tag pos i v => cases h
  | size v => rfl
  | _ =>
    rw [apply]
    exact tagsOf_modifyChunk t _ fun _ => rfl

theorem apply_sizesOf (t : PetHash V) {a : HashStore V} (h : a.setsChunkSize = false) :
    (t.apply a).sizesOf = t.sizesOf := by
  cases a with
  | chunkSize pos v => cases h
  | size v => rfl
  | _ =>
    rw [apply]
    exact sizesOf_modifyChunk t _ fun _ => rfl

theorem apply_size (t : PetHash V) {a : HashStore V} (h : a.counts = false) :
    (t.apply a).size = t.size := by
  cases a with
  | size v => cases h
  | _ => rfl

/-! ### The keys that `Reload` finds -/

/-- A store to the keys of one slot. -/
theorem card_keyed_key (c : F14Chunk V) (i : Slot) (k : UInt64) :
    ({ c with value := Function.update c.value i { c.value i with first := k } } :
      F14Chunk V).keyed.card ≤ c.keyed.card + if k = emptyKey then 0 else 1 := by
  have hmem : ∀ j ∈ ({ c with value := Function.update c.value i { c.value i with first := k } } :
      F14Chunk V).keyed, j ∈ c.keyed ∨ (j = i ∧ k ≠ emptyKey) := by
    intro j hj
    rw [F14Chunk.mem_keyed] at hj
    by_cases hji : j = i
    · subst hji
      simp only [Function.update_self] at hj
      exact Or.inr ⟨rfl, hj⟩
    · simp only [Function.update_of_ne hji] at hj
      exact Or.inl (F14Chunk.mem_keyed.mpr hj)
  split_ifs with hk
  · exact Finset.card_le_card fun j hj => (hmem j hj).resolve_right fun h => h.2 hk
  · refine le_trans (Finset.card_le_card (t := Insert.insert i c.keyed) fun j hj => ?_)
      (Finset.card_insert_le _ _)
    rcases hmem j hj with h | ⟨rfl, -⟩
    exacts [Finset.mem_insert_of_mem h, Finset.mem_insert_self _ _]

theorem card_keyedEntries_modifyChunk (t : PetHash V) (pos d : ℕ) {f : F14Chunk V → F14Chunk V}
    (hf : ∀ c, (f c).keyed.card ≤ c.keyed.card + d) :
    (t.modifyChunk pos f).keyedEntries.card ≤ t.keyedEntries.card + d := by
  rw [card_keyedEntries, card_keyedEntries, modifyChunk_chunkNum]
  by_cases hp : pos ∈ Finset.range t.chunkNum
  · have hx := Tally.sum_exchange (f := fun p => ((t.modifyChunk pos f).chunkTable p).keyed.card)
      (g := fun p => (t.chunkTable p).keyed.card) hp fun p _ hne => by
        rw [modifyChunk_of_ne _ _ _ hne]
    have hd := hf (t.chunkTable pos)
    simp only [modifyChunk_self] at hx
    omega
  · have hsame : ∑ p ∈ Finset.range t.chunkNum, ((t.modifyChunk pos f).chunkTable p).keyed.card
        = ∑ p ∈ Finset.range t.chunkNum, (t.chunkTable p).keyed.card :=
      Finset.sum_congr rfl fun p hmem => by
        have hne : p ≠ pos := fun heq => hp (heq ▸ hmem)
        rw [modifyChunk_of_ne t pos f hne]
    rw [hsame]
    exact Nat.le_add_right _ _

theorem card_keyedEntries_apply (t : PetHash V) (a : HashStore V) :
    (t.apply a).keyedEntries.card ≤ t.keyedEntries.card + if a.putsKey then 1 else 0 := by
  cases a with
  | key pos i k =>
    refine card_keyedEntries_modifyChunk t pos _ fun c => (card_keyed_key c i k).trans ?_
    by_cases hk : k = emptyKey <;> simp [HashStore.putsKey, hk]
  | value pos i v =>
    refine card_keyedEntries_modifyChunk t pos 0 fun c => ?_
    rw [Nat.add_zero]
    refine Finset.card_le_card fun j hj => ?_
    rw [F14Chunk.mem_keyed] at hj ⊢
    by_cases hji : j = i
    · subst hji
      simpa using hj
    · simpa [hji] using hj
  | overflow pos v => exact card_keyedEntries_modifyChunk t pos 0 fun c => le_rfl
  | chunkSize pos v => exact card_keyedEntries_modifyChunk t pos 0 fun c => le_rfl
  | tag pos i v => exact card_keyedEntries_modifyChunk t pos 0 fun c => le_rfl
  | size v => exact le_rfl

/-- **The keys that `Reload` finds** grow with the stores of keys only. -/
theorem card_keyedEntries_exec : ∀ (as : List (HashStore V)) (t : PetHash V),
    (exec apply t as).keyedEntries.card ≤ t.keyedEntries.card + as.countP HashStore.putsKey := by
  intro as
  induction as with
  | nil => exact fun t => le_rfl
  | cons a as ih =>
    intro t
    have hrest := ih (t.apply a)
    have ha := card_keyedEntries_apply t a
    rw [exec_cons, List.countP_cons]
    omega

/-! ### Cutting `Insert` -/

theorem mem_overflowStores {pos v : ℕ} {c : F14Chunk V} {a : HashStore V}
    (h : a ∈ overflowStores pos c v) : a = .overflow pos v := by
  rw [overflowStores] at h
  split_ifs at h
  · exact List.mem_singleton.mp h
  · cases h

theorem countP_putsKey_overflowStores (pos v : ℕ) (c : F14Chunk V) :
    (overflowStores pos c v).countP HashStore.putsKey = 0 :=
  List.countP_eq_zero.mpr fun a ha => by
    rw [mem_overflowStores ha]
    exact Bool.false_ne_true

theorem countP_putsKey_decPathStores (step chunkId : ℕ) : ∀ (fuel pos : ℕ) (t : PetHash V),
    (decPathStores step chunkId fuel pos t).countP HashStore.putsKey = 0 := by
  intro fuel
  induction fuel with
  | zero => exact fun _ _ => rfl
  | succ fuel ih =>
    intro pos t
    rw [decPathStores]
    split_ifs
    · rfl
    · rw [List.countP_append, ih, decStores, countP_putsKey_overflowStores]

/-- A deletion puts no key. -/
theorem countP_putsKey_deleteStores (t : PetHash V) (key : UInt64) :
    (t.deleteStores key).countP HashStore.putsKey = 0 := by
  rw [deleteStores]
  cases t.getInternal key with
  | retry => rfl
  | absent => rfl
  | found pos id =>
    simp only [List.countP_append, countP_putsKey_decPathStores, Nat.zero_add]
    cases t.decPath (stepOf key) (t.homeChunk key) pos with
    | none => rfl
    | some t => rfl

theorem countP_putsKey_chunkInsertStores (pos : ℕ) (c : F14Chunk V) (key : UInt64) (value : V)
    (sign : UInt8) : (chunkInsertStores pos c key value sign).countP HashStore.putsKey ≤ 1 := by
  rw [chunkInsertStores]
  split_ifs
  · simp only [List.countP_cons, List.countP_nil, HashStore.putsKey, Bool.false_eq_true, if_false]
    by_cases hk : key = emptyKey <;> simp [hk]
  · exact Nat.zero_le 1
  · exact Nat.zero_le 1

/-- An insertion puts at most one. -/
theorem countP_putsKey_insertLoopStores (key : UInt64) (value : V) (force : Bool) :
    ∀ (fuel i pos : ℕ) (t : PetHash V),
      (insertLoopStores key value force fuel i pos t).countP HashStore.putsKey ≤ 1 := by
  intro fuel
  induction fuel with
  | zero => exact fun _ _ _ => Nat.zero_le 1
  | succ fuel ih =>
    intro i pos t
    rw [insertLoopStores]
    cases (t.chunkTable pos).find key (tagOf key) with
    | some id => exact Nat.zero_le 1
    | none =>
      simp only
      split_ifs
      · rw [List.countP_append]
        have hput := countP_putsKey_chunkInsertStores pos (t.chunkTable pos) key value (tagOf key)
        cases (t.chunkTable pos).insert key value (tagOf key) with
        | error e => exact hput
        | ok r => exact hput
      · rw [List.countP_append, countP_putsKey_deleteStores, Nat.zero_add]
        cases t.delete ((t.chunkTable pos).value (Fin.ofNat 14 ((tagOf key).toNat + i))).first with
        | error e => exact Nat.zero_le 1
        | ok t₁ => exact ih (i + 1) pos t₁
      · exact Nat.zero_le 1
      · rw [List.countP_append, incStores, countP_putsKey_overflowStores, Nat.zero_add]
        exact ih (i + 1) _ _

/-- The table is rejected by `Valid`, or `Reload` finds at most `n` keys in it. -/
def Torn (t : PetHash V) (n : ℕ) : Prop :=
  t.keyedEntries.card ≤ n ∨ ∀ fileSize, t.valid fileSize ≠ .ok true

/-- One turn at a chunk that does not hold the key. -/
theorem insertLoopStores_turn {t : PetHash V} {key : UInt64} {pos : ℕ}
    (hfind : (t.chunkTable pos).find key (tagOf key) = none) (value : V) (force : Bool)
    (fuel i : ℕ) :
    insertLoopStores key value force (fuel + 1) i pos t =
      if t.Roomy pos then
        chunkInsertStores pos (t.chunkTable pos) key value (tagOf key) ++
          match (t.chunkTable pos).insert key value (tagOf key) with
          | .error _ => []
          | .ok _ => [.size ((t.size + 1) % 2 ^ 64)]
      else if t.Full then
        if force then
          t.deleteStores
              ((t.chunkTable pos).value (Fin.ofNat 14 ((tagOf key).toNat + i))).first ++
            match t.delete
              ((t.chunkTable pos).value (Fin.ofNat 14 ((tagOf key).toNat + i))).first with
            | .error _ => []
            | .ok t => insertLoopStores key value force fuel (i + 1) pos t
        else []
      else
        incStores pos (t.chunkTable pos) ++
          insertLoopStores key value force fuel (i + 1) (t.nextPos (stepOf key) pos)
            (t.modifyChunk pos F14Chunk.incOverflow) := by
  rw [insertLoopStores]
  simp only [hfind]
  rfl

/-- **An insertion that evicts, cut anywhere.** The deletion comes first and takes a key away. -/
theorem Good.insertStores_crowded {t : PetHash V} (h : t.Inv) {key : UInt64} (habs : t.Absent key)
    (hcrowd : t.Crowded key) (value : V) :
    Always apply (fun _ t' => t'.Torn t.entries.card) t (t.insertStores key value true) := by
  have hp := h.shape.homeChunk_lt key
  obtain ⟨fuel, hfuel⟩ : ∃ m, t.chunkNum = m + 1 :=
    ⟨t.chunkNum - 1, by have := h.shape.chunkNum_pos; omega⟩
  have he := h.slotEntry_of_full hp hcrowd.1 (evictSlot key)
  obtain ⟨t₁, hdel, h₁, -, hent⟩ := h.delete_of_mem (s := (t.homeChunk key, evictSlot key)) hp he
  rw [← evictee] at hdel
  have hstores : t.insertStores key value true = t.deleteStores (t.evictee key) ++
      insertLoopStores key value true fuel 1 (t.homeChunk key) t₁ := by
    rw [insertStores, hfuel, insertLoopStores_turn (habs.find_eq_none hp), if_neg hcrowd.1,
      if_pos hcrowd.2, if_pos rfl, Nat.add_zero, ← evictSlot, ← evictee, hdel]
  rw [hstores]
  refine always_append.mpr ⟨fun done hd => Or.inl ?_, fun done hd => Or.inl ?_⟩
  · have hkeys := hd.sublist.countP_le (p := HashStore.putsKey)
    have hle := card_keyedEntries_exec done t
    have hn := h.shape.card_keyedEntries_le.1
    rw [countP_putsKey_deleteStores] at hkeys
    omega
  · rw [exec_deleteStores hdel]
    have hkeys := hd.sublist.countP_le (p := HashStore.putsKey)
    have hone := countP_putsKey_insertLoopStores key value true fuel 1 (t.homeChunk key) t₁
    have hle := card_keyedEntries_exec done t₁
    have hn := h₁.shape.card_keyedEntries_le.1
    have hcard := congrArg Multiset.card hent
    rw [Multiset.card_cons] at hcard
    omega

theorem chunkInsertStores_of_ok {c : F14Chunk V} {key : UInt64} {value : V} {sign : UInt8}
    {r : F14Chunk V × Slot} (h : c.insert key value sign = .ok r) (pos : ℕ) :
    c.tags r.2 = 0 ∧ ∃ n, chunkInsertStores pos c key value sign =
      [.chunkSize pos n, .key pos r.2 key, .value pos r.2 value, .tag pos r.2 sign] := by
  have hmatch : ∀ size, ({ c with size } : F14Chunk V).matchTag 0 = c.matchTag 0 := fun _ => rfl
  simp only [F14Chunk.insert, hmatch] at h
  rw [chunkInsertStores]
  split_ifs at h ⊢ with hroom hempty
  cases h
  exact ⟨F14Chunk.tags_nextSlot hempty, _, rfl⟩

/-- The stores of an insertion that finds room: counters on the way, then the slot. -/
theorem insertLoopStores_plain {key : UInt64} (value : V) (force : Bool) :
    ∀ (fuel i j : ℕ) {t : PetHash V}, t.Good (t.walked key j) → t.Absent key →
      j + fuel ≤ t.chunkNum → (∃ d, j ≤ d ∧ d < j + fuel ∧ t.Roomy (t.probeAt key d)) →
      (t.Roomy (t.probeAt key j) ∨ ¬ t.Full) →
      ∃ incs pos id n m, (∀ a ∈ incs, HashStore.isOverflow a = true) ∧
        insertLoopStores key value force fuel i (t.probeAt key j) t =
          incs ++ [.chunkSize pos n, .key pos id key, .value pos id value, .tag pos id (tagOf key),
            .size m] := by
  intro fuel
  induction fuel with
  | zero => rintro i j t _ _ _ ⟨d, hjd, hd, -⟩ _; omega
  | succ fuel ih =>
    intro i j t h habs hfuel hahead hcalm
    have hp := h.shape.probeAt_lt key j
    rw [insertLoopStores_turn (habs.find_eq_none hp)]
    by_cases hroom : t.Roomy (t.probeAt key j)
    · rw [← add_zero (t.walked key j : Multiset ℕ)] at h
      obtain ⟨c, i', hins, -⟩ := h.put (by omega) habs hroom value
      obtain ⟨-, n, hstores⟩ := chunkInsertStores_of_ok hins (t.probeAt key j)
      rw [if_pos hroom, hins, hstores]
      exact ⟨[], _, _, _, _, fun a ha => absurd ha List.not_mem_nil, rfl⟩
    · have hfull : ¬ t.Full := hcalm.resolve_left hroom
      rw [if_neg hroom, if_neg hfull]
      obtain ⟨t₁, ht₁⟩ : ∃ t₁, t₁ = t.modifyChunk (t.probeAt key j) F14Chunk.incOverflow := ⟨_, rfl⟩
      obtain ⟨h₁, habs₁, hr, hnext, hfull₁, hd'⟩ := h.onward habs hroom hfull hahead ht₁
      obtain ⟨incs, pos, id, n, m, hincs, hstores⟩ := ih (i + 1) (j + 1) h₁ habs₁
        (by rw [hr.chunkNum]; omega) hd' (Or.inr hfull₁)
      rw [← ht₁, hnext, hstores, ← List.append_assoc]
      refine ⟨_, pos, id, n, m, fun a ha => ?_, rfl⟩
      rcases List.mem_append.mp ha with ha | ha
      · rw [mem_overflowStores ha]
        rfl
      · exact hincs a ha

/-- The counts disagree with the tags. -/
theorem valid_ne_of_counts {t : PetHash V} (hcap : t.capacity = t.chunkNum * 14)
    (hint : t.chunkNum ≤ 2 ^ 31)
    (h : t.entries.card ≠ t.size ∨ t.entries.card ≠ ∑ p ∈ Finset.range t.chunkNum, t.sizesOf p)
    (fileSize : ℕ) : t.valid fileSize ≠ .ok true := by
  intro hvalid
  obtain ⟨hsize, hsizes⟩ := valid_counts hcap hint hvalid
  exact h.elim (fun hne => hne hsize) fun hne => hne hsizes

section Torn

variable {t t' : PetHash V} {as : List (HashStore V)}

/-- No key is there yet. -/
theorem Good.torn_of_no_key (h : t.Inv) (has : as.countP HashStore.putsKey = 0) :
    (exec apply t as).Torn t.entries.card := by
  have hle := card_keyedEntries_exec as t
  have hn := h.shape.card_keyedEntries_le.1
  exact Or.inl (by omega)

theorem Good.exec_capacity_eq (h : t.Inv) (as : List (HashStore V)) :
    (exec apply t as).capacity = (exec apply t as).chunkNum * 14 := by
  rw [exec_capacity, exec_chunkNum, h.shape.capacity]

/-- The element counts are those of the end, the tags those of the beginning. -/
theorem Good.torn_of_sizes_ahead (h : t.Inv) (hint : t.chunkNum ≤ 2 ^ 31) (h' : t'.Inv)
    (hN : t'.chunkNum = t.chunkNum)
    (hcard : t'.entries.card = t.entries.card + 1) (bs : List (HashStore V))
    (heq : exec apply t (as ++ bs) = t') (has : ∀ a ∈ as, HashStore.setsTag a = false)
    (hbs : ∀ b ∈ bs, HashStore.setsChunkSize b = false) :
    (exec apply t as).Torn t.entries.card := by
  refine Or.inr (valid_ne_of_counts (h.exec_capacity_eq as) (by rwa [exec_chunkNum]) (Or.inr ?_))
  have htags := card_entries_congr (exec_chunkNum t as)
    (exec_field tagsOf fun t a ha => apply_tagsOf t (has a ha))
  have hsizes : t'.sizesOf = (exec apply t as).sizesOf := by
    rw [← heq, exec_append]
    exact exec_field sizesOf fun t b hb => apply_sizesOf t (hbs b hb)
  have hsum : t'.entries.card = ∑ p ∈ Finset.range t'.chunkNum, t'.sizesOf p :=
    h'.shape.card_entries
  rw [htags, exec_chunkNum, ← hN, ← hsizes, ← hsum, hcard]
  omega

/-- The tags are those of the end, the size that of the beginning. -/
theorem Good.torn_of_size_behind {m : ℕ} (h : t.Inv) (hint : t.chunkNum ≤ 2 ^ 31)
    (hcard : t'.entries.card = t.entries.card + 1)
    (heq : exec apply t (as ++ [.size m]) = t') (has : ∀ a ∈ as, HashStore.counts a = false) :
    (exec apply t as).Torn t.entries.card := by
  refine Or.inr (valid_ne_of_counts (h.exec_capacity_eq as) (by rwa [exec_chunkNum]) (Or.inl ?_))
  have hsize := exec_field (t := t) PetHash.size fun t a ha => apply_size t (has a ha)
  have htags : t'.entries.card = (exec apply t as).entries.card := by
    rw [← heq, exec_concat]
    rfl
  rw [← htags, hcard, hsize, h.size]
  omega

end Torn

/-- **An insertion that finds room, cut before its last store.** Until the key is there `Reload`
finds no more keys than before; from then until the tag is there the element counts are one ahead
of the tags, and until the last store the tags are one ahead of the size. -/
theorem Good.insertStores_plain {t : PetHash V} (h : t.Inv) (hint : t.chunkNum ≤ 2 ^ 31)
    {key : UInt64} (habs : t.Absent key) (hcalm : ¬ t.Crowded key) (value : V) :
    ∃ pre m, t.insertStores key value true = pre ++ [.size m] ∧
      (∀ a ∈ pre, HashStore.counts a = false) ∧
      Always apply (fun _ t' => t'.Torn t.entries.card) t pre := by
  obtain ⟨hd, hroom⟩ := h.room_ahead hcalm
  obtain ⟨incs, pos, id, n, m, hincs, hstores⟩ :=
    insertLoopStores_plain value true t.chunkNum 0 0 h habs (by omega) hd hroom
  rw [h.shape.probeAt_zero, ← insertStores] at hstores
  obtain ⟨t', pos', id', hins, hinv, hN, -, -, hent⟩ := h.insert_plain habs hcalm value true
  have hexec : exec apply t (t.insertStores key value true) = t' :=
    exec_insertLoopStores _ _ _ hins
  rw [hstores] at hexec
  have hcard : t'.entries.card = t.entries.card + 1 := by rw [hent, Multiset.card_cons]
  have hkind : ∀ a ∈ incs, HashStore.putsKey a = false ∧ HashStore.setsTag a = false ∧
      HashStore.counts a = false := fun a ha => by
    obtain ⟨p, v, rfl⟩ := HashStore.eq_overflow (hincs a ha)
    exact ⟨rfl, rfl, rfl⟩
  have hincs0 : incs.countP HashStore.putsKey = 0 := List.countP_eq_zero.mpr fun a ha => by
    rw [(hkind a ha).1]
    exact Bool.false_ne_true
  have htag : ∀ a ∈ incs, HashStore.setsTag a = false := fun a ha => (hkind a ha).2.1
  have hcount : ∀ a ∈ incs, HashStore.counts a = false := fun a ha => (hkind a ha).2.2
  refine ⟨incs ++ [.chunkSize pos n, .key pos id key, .value pos id value,
    .tag pos id (tagOf key)], m,
    ?_, ?_, always_append.mpr ⟨fun done hd => h.torn_of_no_key ?_, ?_⟩⟩
  · rw [hstores, List.append_assoc]
    rfl
  · simpa [HashStore.counts, or_imp, forall_and] using hcount
  · exact Nat.le_zero.mp (hincs0 ▸ hd.sublist.countP_le)
  · -- one cut before each of the four stores, and one after the last
    simp only [always_cons, always_nil, ← exec_concat]
    refine ⟨h.torn_of_no_key hincs0, h.torn_of_no_key ?_,
      h.torn_of_sizes_ahead hint hinv hN hcard
        [.value pos id value, .tag pos id (tagOf key), .size m] ?_ ?_ ?_,
      h.torn_of_sizes_ahead hint hinv hN hcard [.tag pos id (tagOf key), .size m] ?_ ?_ ?_,
      h.torn_of_size_behind hint hcard (m := m) ?_ ?_⟩
    · rw [List.countP_append, hincs0]
      rfl
    · simpa using hexec
    · simpa [HashStore.setsTag, or_imp, forall_and] using htag
    · simp [HashStore.setsChunkSize]
    · simpa using hexec
    · simpa [HashStore.setsTag, or_imp, forall_and] using htag
    · simp [HashStore.setsChunkSize]
    · simpa using hexec
    · simpa [HashStore.counts, or_imp, forall_and] using hcount

end PetHash

end PetPS
