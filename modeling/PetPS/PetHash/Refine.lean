import PetPS.Lib.Run
import PetPS.PetHash.Insert

/-!
# The dictionary refines a finite map

The abstract side is the history itself: what a key maps to is decided by the last operation on it.
`Refines` relates a table to a history, each operation extends the relation by one
(`Refines.step`), and `Run.run_total` carries it over a whole run.

An insertion into a full chunk of a `Full` table is the one thing that can go wrong. `meetsFull`
asks the code: it is the point at which an unforced `Set` gives up with "dict OOM".

## Main results

* `run_refines_map` — after any run, `Get` and `Size` are those of the finite map
-/

namespace PetPS

namespace PetHash

variable {V : Type}

/-! ### Operations -/

/-- A call of `Set(key, value, nullptr, is_force)` or of `Delete(key)`. -/
inductive Op (V : Type)
  /-- `Set` without a callback. -/
  | set (key : UInt64) (value : V) (isForce : Bool)
  /-- `Delete`. -/
  | delete (key : UInt64)

/-- The key an operation works on. -/
def Op.key : Op V → UInt64
  | .set key _ _ => key
  | .delete key => key

/-- The value the key has after the operation. -/
def Op.value : Op V → Option V
  | .set _ value _ => some value
  | .delete _ => none

/-- Perform an operation. -/
def Op.exec (t : PetHash V) : Op V → Except Abort (PetHash V)
  | .set key value isForce => t.set key value none isForce
  | .delete key => t.delete key

/-- The operation finds `Full()` true at a full chunk. -/
def Op.meetsFull (t : PetHash V) : Op V → Bool
  | .set key value _ =>
    match t.set key value none false with
    | .error .dictFull => true
    | _ => false
  | .delete _ => false

/-- The table after an operation that returns. -/
def step (t : PetHash V) (op : Op V) : Option (PetHash V) := (op.exec t).toOption

/-! ### The finite map of a history -/

/-- The last operation on `key`. -/
def lastOp (ops : List (Op V)) (key : UInt64) : Option (Op V) :=
  ops.reverse.find? fun op => op.key == key

/-- What `key` maps to after `ops`. -/
def mapOf (ops : List (Op V)) (key : UInt64) : Option V := (lastOp ops key).bind Op.value

/-- The keys present after `ops`. -/
def presentKeys (ops : List (Op V)) : Finset UInt64 :=
  (ops.map Op.key).toFinset.filter fun key => (mapOf ops key).isSome

theorem lastOp_concat (ops : List (Op V)) (op : Op V) (key : UInt64) :
    lastOp (ops ++ [op]) key = if op.key = key then some op else lastOp ops key :=
  Run.lastOn_concat Op.key ops op key

theorem mapOf_concat_self (ops : List (Op V)) (op : Op V) :
    mapOf (ops ++ [op]) op.key = op.value := by
  rw [mapOf, lastOp_concat, if_pos rfl, Option.bind_some]

theorem mapOf_concat_of_ne (ops : List (Op V)) {op : Op V} {key : UInt64} (h : key ≠ op.key) :
    mapOf (ops ++ [op]) key = mapOf ops key := by
  rw [mapOf, lastOp_concat, if_neg h.symm, mapOf]

theorem mem_presentKeys {ops : List (Op V)} {key : UInt64} :
    key ∈ presentKeys ops ↔ (mapOf ops key).isSome := by
  rw [presentKeys, Finset.mem_filter, and_iff_right_iff_imp]
  intro h
  cases hlast : lastOp ops key with
  | none => rw [mapOf, hlast] at h; simp at h
  | some op =>
    have hmem := List.mem_of_find?_eq_some hlast
    have hkey := List.find?_some hlast
    rw [List.mem_toFinset]
    exact List.mem_map.mpr ⟨op, List.mem_reverse.mp hmem, by simpa using hkey⟩

/-! ### Contents of a table with one entry singled out -/

theorem NodupKeys.notMem_rest {t : PetHash V} (h : t.NodupKeys) {key : UInt64} {v w : V}
    {rest : Multiset (EntryT V)} (he : t.entries = ⟨key, v⟩ ::ₘ rest) : ⟨key, w⟩ ∉ rest := by
  intro hw
  rw [NodupKeys, he, Multiset.map_cons, Multiset.nodup_cons] at h
  exact h.1 (Multiset.mem_map.mpr ⟨_, hw, rfl⟩)

theorem NodupKeys.mem_iff {t : PetHash V} (h : t.NodupKeys) {key : UInt64} {v : V}
    {rest : Multiset (EntryT V)} (he : t.entries = ⟨key, v⟩ ::ₘ rest) (k : UInt64) (x : V) :
    ⟨k, x⟩ ∈ t.entries ↔ if k = key then x = v else ⟨k, x⟩ ∈ rest := by
  rw [he, Multiset.mem_cons, EntryT.mk.injEq]
  split_ifs with hk
  · subst hk
    have hrest := h.notMem_rest (w := x) he
    tauto
  · tauto

/-! ### The refinement -/

/-- The table holds the finite map of the history. -/
structure Refines (ops : List (Op V)) (t : PetHash V) : Prop where
  /-- The table is in order. -/
  inv : t.Inv
  /-- Its entries are those of the map. -/
  mem : ∀ key v, ⟨key, v⟩ ∈ t.entries ↔ mapOf ops key = some v

theorem Refines.set {ops : List (Op V)} {t t' : PetHash V} (h : Refines ops t) {key : UInt64}
    {value : V} {isForce : Bool} {rest : Multiset (EntryT V)} (hinv : t'.Inv)
    (hrest : ∀ k x, k ≠ key → (⟨k, x⟩ ∈ rest ↔ ⟨k, x⟩ ∈ t.entries))
    (hent : t'.entries = ⟨key, value⟩ ::ₘ rest) :
    Refines (ops ++ [.set key value isForce]) t' := by
  refine ⟨hinv, fun k x => ?_⟩
  rw [hinv.nodup.mem_iff hent]
  split_ifs with hk
  · have hself : mapOf (ops ++ [.set key value isForce]) key = some value :=
      mapOf_concat_self ops (.set key value isForce)
    rw [hk, hself, Option.some.injEq, eq_comm]
  · rw [hrest k x hk, h.mem, mapOf_concat_of_ne ops hk]

/-- A table outside the eviction case is not crowded. -/
theorem Good.not_crowded {t : PetHash V} (h : t.Inv) {key : UInt64}
    (habs : t.Absent key) {value : V}
    {isForce : Bool} (hcalm : ¬ (Op.set key value isForce).meetsFull t = true) :
    ¬ t.Crowded key := by
  intro hcrowd
  apply hcalm
  rw [Op.meetsFull, h.set_of_absent habs, (h.insert_fatal habs hcrowd value).1]

/-- **One operation**: it returns, and the table holds the updated map. -/
theorem Refines.step {ops : List (Op V)} {t : PetHash V} {op : Op V} (h : Refines ops t)
    (hcalm : ¬ op.meetsFull t = true) : ∃ t', t.step op = some t' ∧ Refines (ops ++ [op]) t' := by
  cases op with
  | set key value isForce =>
    by_cases habs : t.Absent key
    · obtain ⟨t', pos, id, hins, hinv, -, -, -, hent⟩ :=
        h.inv.insert_plain habs (h.inv.not_crowded habs hcalm) value isForce
      refine ⟨t', ?_, h.set hinv (fun _ _ _ => Iff.rfl) hent⟩
      rw [PetHash.step, Op.exec, h.inv.set_of_absent habs, hins]
      rfl
    · rw [Absent] at habs
      push Not at habs
      obtain ⟨v, hv⟩ := habs
      obtain ⟨t', rest, hset, hinv, -, hrest, hent⟩ := h.inv.set_of_mem hv value none isForce
      refine ⟨t', ?_, h.set hinv (fun k x hk => ?_) hent⟩
      · rw [PetHash.step, Op.exec, hset]
        rfl
      · rw [h.inv.nodup.mem_iff hrest k x, if_neg hk]
  | delete key =>
    have hself : mapOf (ops ++ [.delete key]) key = none := mapOf_concat_self ops (.delete key)
    by_cases habs : t.Absent key
    · refine ⟨t, ?_, h.inv, fun k x => ?_⟩
      · rw [PetHash.step, Op.exec, h.inv.delete_of_notMem habs]
        rfl
      · by_cases hk : k = key
        · rw [hk, hself]
          exact iff_of_false (habs x) (by simp)
        · rw [h.mem, mapOf_concat_of_ne ops hk]
    · rw [Absent] at habs
      push Not at habs
      obtain ⟨v, hv⟩ := habs
      obtain ⟨s, hs, he⟩ := mem_entries.mp hv
      obtain ⟨t', hdel, hinv, -, hent⟩ := h.inv.delete_of_mem hs he
      refine ⟨t', ?_, hinv, fun k x => ?_⟩
      · rw [PetHash.step, Op.exec, hdel]
        rfl
      · by_cases hk : k = key
        · rw [hk, hself]
          exact iff_of_false (h.inv.nodup.notMem_rest hent) (by simp)
        · rw [mapOf_concat_of_ne ops hk, ← h.mem, h.inv.nodup.mem_iff hent, if_neg hk]

/-- The number of entries is the number of keys present. -/
theorem Refines.size {ops : List (Op V)} {t : PetHash V} (h : Refines ops t) :
    t.size = (presentKeys ops).card := by
  have hkeys : (t.entries.map EntryT.first).toFinset = presentKeys ops := by
    ext key
    rw [Multiset.mem_toFinset, Multiset.mem_map, mem_presentKeys, Option.isSome_iff_exists]
    constructor
    · rintro ⟨⟨k, v⟩, hv, rfl⟩
      exact ⟨v, (h.mem _ _).mp hv⟩
    · rintro ⟨v, hv⟩
      exact ⟨⟨key, v⟩, (h.mem _ _).mpr hv, rfl⟩
  rw [← hkeys, Multiset.toFinset_card_of_nodup h.inv.nodup, Multiset.card_map, h.inv.size]

theorem Refines.get {ops : List (Op V)} {t : PetHash V} (h : Refines ops t) (key : UInt64) :
    t.get key = .ok (mapOf ops key) := by
  cases hmap : mapOf ops key with
  | some v => exact h.inv.get_of_mem ((h.mem key v).mpr hmap)
  | none =>
    refine h.inv.get_of_notMem fun v hv => ?_
    rw [h.mem, hmap] at hv
    simp at hv

theorem Refines.initial [Inhabited V] {capacity : ℕ} {ignoreLoadFactor : Bool} {t : PetHash V}
    (h : initializeTable capacity ignoreLoadFactor = some t) : Refines [] t := by
  obtain ⟨hinv, hent⟩ := initializeTable_inv h
  exact ⟨hinv, fun key v => by simp [hent, mapOf, lastOp]⟩

theorem mapOf_eq_some {ops : List (Op V)} {key : UInt64} {v : V} :
    mapOf ops key = some v ↔ ∃ isForce, lastOp ops key = some (.set key v isForce) := by
  rw [mapOf, Option.bind_eq_some_iff]
  constructor
  · rintro ⟨op, hop, hv⟩
    have hkey : op.key = key := by simpa using List.find?_some hop
    cases op with
    | set k x isForce =>
      obtain rfl : k = key := hkey
      obtain rfl : x = v := by simpa [Op.value] using hv
      exact ⟨isForce, hop⟩
    | delete k => simp [Op.value] at hv
  · rintro ⟨isForce, hop⟩
    exact ⟨_, hop, rfl⟩

theorem mapOf_eq_none {ops : List (Op V)} {key : UInt64} :
    mapOf ops key = none ↔ lastOp ops key = none ∨ lastOp ops key = some (.delete key) := by
  rw [mapOf]
  cases hop : lastOp ops key with
  | none => simp
  | some op =>
    have hkey : op.key = key := by simpa using List.find?_some hop
    cases op with
    | set k x isForce => simp [Op.value]
    | delete k =>
      obtain rfl : k = key := hkey
      simp [Op.value]

/-- **`PetHash` refines a finite map.** Whatever the capacity, a run of `Set` and `Delete` on a
freshly initialised table in which no operation finds `Full()` at a full chunk completes. Then `Get`
returns the value of the last `Set` exactly for the keys that were not deleted since, and `Size`
counts the keys present. -/
theorem run_refines_map [Inhabited V] {capacity : ℕ} {ignoreLoadFactor : Bool} {t₀ : PetHash V}
    (hinit : initializeTable capacity ignoreLoadFactor = some t₀) (ops : List (Op V))
    (hfull : Run.Guarded step (fun t op => ¬ op.meetsFull t = true) t₀ ops) :
    ∃ t, Run.run step t₀ ops = some t ∧
      (∀ key v, t.get key = .ok (some v) ↔
        ∃ isForce, lastOp ops key = some (.set key v isForce)) ∧
      (∀ key, t.get key = .ok none ↔
        lastOp ops key = none ∨ lastOp ops key = some (.delete key)) ∧
      ((presentKeys ops).card < 2 ^ 32 → t.sizeU32 = (presentKeys ops).card) := by
  obtain ⟨t, hrun, href⟩ := Run.run_total (P := Refines)
    (fun _ _ _ h hcalm => h.step hcalm) [] (Refines.initial hinit) hfull
  rw [List.nil_append] at href
  refine ⟨t, hrun, fun key v => ?_, fun key => ?_, fun hlt => ?_⟩
  · rw [href.get, Except.ok.injEq, mapOf_eq_some]
  · rw [href.get, Except.ok.injEq, mapOf_eq_none]
  · rw [sizeU32, href.size, Nat.mod_eq_of_lt hlt]

theorem run_refines_map_two_keys :
    ∃ t₀ t : PetHash UInt64, initializeTable 28 true = some t₀ ∧
      Run.run step t₀ [.set 1 10 false, .set 3 30 false, .delete 1] = some t ∧
      t.get 3 = .ok (some 30) ∧ t.get 1 = .ok none ∧ t.sizeU32 = 1 := by
  have hinit : initializeTable 28 true
      = some ((initializeTable 28 true).get (by decide) : PetHash UInt64) :=
    (Option.some_get _).symm
  obtain ⟨t, hrun, hsome, hnone, hsize⟩ :=
    run_refines_map hinit [.set 1 10 false, .set 3 30 false, .delete 1] (by decide +kernel)
  exact ⟨_, t, hinit, hrun, (hsome 3 30).mpr ⟨false, rfl⟩, (hnone 1).mpr (Or.inr rfl),
    hsize (by decide)⟩

end PetHash

end PetPS
