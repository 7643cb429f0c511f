import PetPS.PetHash.HashStores
import PetPS.PetHash.MoveHome

/-!
# The stores of a migration

What one turn of `HotnessAwareMigration` writes, store by store and in program order, up to the
point where it ends or aborts: the stores of `HashStores` and those to `is_migrating`. Applying all
of them gives the table that `migrateKey` returns.

## Main results

* `exec_traverseStores` — `ChainTraverseReverse`
* `exec_migrateStores` — the stores are those of the function
-/

namespace PetPS

open Cut

/-- A store of the migration. -/
inductive MigrationStore (V : Type)
  /-- A store to the slots or counters. -/
  | hash (a : HashStore V)
  /-- `is_migrating` of the chunk at `pos`. -/
  | mark (pos : ℕ) (b : Bool)

namespace PetHash

variable {V : Type}

/-- The effect of a store of the migration. -/
def applyStore (t : PetHash V) : MigrationStore V → PetHash V
  | .hash a => t.apply a
  | .mark pos b => t.modifyChunk pos (setMigrating b)

/-! ### The stores of each function -/

/-- The chunks that `ChainTraverseReverse(start, end, step, func)` comes to. -/
def chainPlaces (t : PetHash V) (start fin step : ℕ) : List ℕ :=
  match Walk.whileNe (t.prevChunk step)
    (fun pos places => places ++ [pos]) start t.chunkNum fin [] with
  | none => []
  | some places => places ++ [start]

/-- `func` makes the stores `stores` at each of the places. -/
def traverseStores (stores : ℕ → F14Chunk V → List (MigrationStore V)) :
    List ℕ → PetHash V → List (MigrationStore V)
  | [], _ => []
  | pos :: places, t =>
    stores pos (t.chunkTable pos) ++
      traverseStores stores places (exec applyStore t (stores pos (t.chunkTable pos)))

/-- `each->is_migrating = b`. -/
def markStores (b : Bool) (pos : ℕ) (_ : F14Chunk V) : List (MigrationStore V) := [.mark pos b]

/-- `each->is_migrating = false; if (each == current_chunk) return; each->DecOverflow()`. -/
def unmarkStores (cur : ℕ) (pos : ℕ) (c : F14Chunk V) : List (MigrationStore V) :=
  .mark pos false :: if pos = cur then [] else (decStores pos c).map .hash

/-- `F14Chunk::Set`. -/
def setStores (pos : ℕ) (i : Slot) (tag : UInt8) (e : EntryT V) : List (HashStore V) :=
  [.key pos i e.first, .value pos i e.second, .tag pos i tag]

/-- Step 2.2. -/
def placeVictimStores (victim : EntryT V) : ℕ → ℕ → PetHash V → List (HashStore V)
  | 0, _, _ => []
  | fuel + 1, pos, t =>
    if (t.chunkTable pos).size ≠ 14 then
      chunkInsertStores pos (t.chunkTable pos) victim.first victim.second (tagOf victim.first)
    else if t.Full then []
    else
      incStores pos (t.chunkTable pos) ++
        placeVictimStores victim fuel (t.nextPos (stepOf victim.first) pos)
          (t.modifyChunk pos F14Chunk.incOverflow)

/-- Case 1. -/
def migrateToFreeStores (t : PetHash V) (key : UInt64) (value : V) (cur : ℕ) (id : Slot) :
    List (MigrationStore V) :=
  let home := t.homeChunk key
  (chunkInsertStores home (t.chunkTable home) key value (tagOf key)).map .hash ++
    match (t.chunkTable home).insert key value (tagOf key) with
    | .error _ => []
    | .ok (c, _) =>
      let t₁ := t.modifyChunk home fun _ => c
      let t₂ := t₁.modifyChunk cur fun c => c.delete id
      let t₃ := t₂.modifyChunk cur F14Chunk.decOverflow
      (chunkDeleteStores cur (t₁.chunkTable cur) id ++ decStores cur
        (t₂.chunkTable cur)).map .hash ++
        traverseStores (markStores false) (t₃.chainPlaces home cur (stepOf key)) t₃

/-- Case 2. -/
def migrateByVictimStores (t : PetHash V) (key : UInt64) (value : V) (cur : ℕ) (id : Slot) :
    List (MigrationStore V) :=
  let home := t.homeChunk key
  if (t.chunkTable home).InUse 0 then
    let victim := (t.chunkTable home).value 0
    let pos := t.nextPos (stepOf victim.first) home
    (placeVictimStores victim t.chunkNum pos t).map .hash ++
      match placeVictim victim home t.chunkNum pos t with
      | .error _ => []
      | .ok t₁ =>
        let t₂ := t₁.modifyChunk home F14Chunk.incOverflow
        let t₃ := t₂.modifyChunk home fun c => c.set 0 (tagOf key) ⟨key, value⟩
        let t₄ := t₃.modifyChunk cur fun c => c.delete id
        (incStores home (t₁.chunkTable home) ++ setStores home 0 (tagOf key) ⟨key, value⟩ ++
            chunkDeleteStores cur (t₃.chunkTable cur) id).map .hash ++
          traverseStores (unmarkStores cur) (t₄.chainPlaces home cur (stepOf key)) t₄
  else []

/-- One turn of `HotnessAwareMigration`. -/
def migrateStores (t : PetHash V) (key : UInt64) : List (MigrationStore V) :=
  let home := t.homeChunk key
  match (t.chunkTable home).find key (tagOf key) with
  | some _ => []
  | none =>
    match t.getInternal key with
    | .retry => []
    | .absent => []
    | .found cur id =>
      let value := ((t.chunkTable cur).value id).second
      traverseStores (markStores true) (t.chainPlaces home cur (stepOf key)) t ++
        match t.chainTraverseReverse home cur (stepOf key) fun _ => setMigrating true with
        | .error _ => []
        | .ok t =>
          if (t.chunkTable home).size ≠ 14 then t.migrateToFreeStores key value cur id
          else t.migrateByVictimStores key value cur id

/-! ### The stores are those of the functions -/

theorem exec_hash (t : PetHash V) (as : List (HashStore V)) :
    exec applyStore t (as.map .hash) = exec apply t as :=
  exec_map (g := fun t : PetHash V => t) (fun _ _ => rfl) as

theorem exec_markStores (b : Bool) (t : PetHash V) (pos : ℕ) :
    exec applyStore t (markStores b pos (t.chunkTable pos)) =
      t.modifyChunk pos (setMigrating b) := rfl

theorem exec_unmarkStores (cur : ℕ) (t : PetHash V) (pos : ℕ) :
    exec applyStore t (unmarkStores cur pos (t.chunkTable pos)) = t.modifyChunk pos fun c =>
      if pos = cur then setMigrating false c else (setMigrating false c).decOverflow := by
  rw [unmarkStores, exec_cons]
  split_ifs
  · rfl
  · have hdec := exec_decStores (t.modifyChunk pos (setMigrating false)) pos
    rw [modifyChunk_self, modifyChunk_modifyChunk] at hdec
    rw [exec_hash]
    exact hdec

theorem exec_setStores (t : PetHash V) (pos : ℕ) (i : Slot) (tag : UInt8) (e : EntryT V) :
    exec apply t (setStores pos i tag e) = t.modifyChunk pos fun c => c.set i tag e := by
  simp only [setStores, exec_cons, exec_nil, apply, setValue, modifyChunk_modifyChunk]
  simp [modifyChunk, F14Chunk.set]

/-- The stores at a list of places. -/
theorem exec_traverse {stores : ℕ → F14Chunk V → List (MigrationStore V)}
    {func : ℕ → F14Chunk V → F14Chunk V}
    (h : ∀ (t : PetHash V) pos, exec applyStore t (stores pos (t.chunkTable pos))
      = t.modifyChunk pos (func pos)) (places : List ℕ) (t : PetHash V) :
    exec applyStore t (traverseStores stores places t) = t.modifyAll places func := by
  induction places generalizing t with
  | nil => rfl
  | cons pos places ih =>
    rw [traverseStores, exec_append, ih, h]
    rfl

/-- The loop of `ChainTraverseReverse` updates the chunks it comes to. -/
theorem eq_modifyAll_of_chainTraverseReverse {func : ℕ → F14Chunk V → F14Chunk V} {t t' : PetHash V}
    {start fin step : ℕ} (h : t.chainTraverseReverse start fin step func = .ok t') :
    t' = t.modifyAll (t.chainPlaces start fin step) func := by
  rw [chainTraverseReverse] at h
  split at h
  · cases h
  · next t₁ hloop =>
    obtain ⟨places, hplaces, ht₁⟩ := Walk.whileNe_places [] hloop
    have hchain : t.chainPlaces start fin step = places ++ [start] := by
      rw [chainPlaces, hplaces]
      rfl
    rw [hchain, modifyAll, List.foldl_append, ← ht₁]
    exact (Except.ok.inj h).symm

/-- **`ChainTraverseReverse`.** -/
theorem exec_traverseStores {stores : ℕ → F14Chunk V → List (MigrationStore V)}
    {func : ℕ → F14Chunk V → F14Chunk V}
    (h : ∀ (t : PetHash V) pos, exec applyStore t (stores pos (t.chunkTable pos))
      = t.modifyChunk pos (func pos)) {t t' : PetHash V} {start fin step : ℕ}
    (hrun : t.chainTraverseReverse start fin step func = .ok t') :
    exec applyStore t (traverseStores stores (t.chainPlaces start fin step) t) = t' := by
  rw [exec_traverse h, eq_modifyAll_of_chainTraverseReverse hrun]

theorem chainPlaces_congr {t t' : PetHash V} (hN : t'.chunkNum = t.chunkNum) (start fin step : ℕ) :
    t'.chainPlaces start fin step = t.chainPlaces start fin step := by
  have hprev : t'.prevChunk step = t.prevChunk step := by
    funext pos
    rw [prevChunk, prevChunk, hN]
  rw [chainPlaces, hprev, hN, chainPlaces]

theorem Shape.chainPlaces_eq {t : PetHash V} (h : t.Shape) (key : UInt64) {pos : ℕ}
    (hp : pos < t.chunkNum) :
    t.chainPlaces (t.homeChunk key) pos (stepOf key) = t.chain key pos := by
  have hback := Walk.whileNe_back (fun pos places => places ++ [pos]) [] (h.coprime key)
    (h.homeChunk_lt key) hp fun q hq => h.prevChunk_stride key hq
  have hfold : ∀ (ps qs : List ℕ), ps.foldl (fun places pos => places ++ [pos]) qs = qs ++ ps := by
    intro ps
    induction ps with
    | nil => exact fun qs => (List.append_nil qs).symm
    | cons p ps ih => exact fun qs => by rw [List.foldl_cons, ih, List.append_assoc,
      List.singleton_append]
  rw [hfold, List.nil_append] at hback
  obtain ⟨places, hplaces, hchain⟩ := Option.map_eq_some_iff.mp hback
  rw [chainPlaces, hplaces]
  exact hchain

theorem exec_placeVictimStores (victim : EntryT V) {home : ℕ} :
    ∀ (fuel pos : ℕ) {t t' : PetHash V}, placeVictim victim home fuel pos t = .ok t' →
      exec apply t (placeVictimStores victim fuel pos t) = t' := by
  intro fuel
  induction fuel with
  | zero => intro pos t t' h; cases h
  | succ fuel ih =>
    intro pos t t' h
    rw [placeVictim] at h
    rw [placeVictimStores]
    by_cases hroom : (t.chunkTable pos).size ≠ 14
    · rw [if_pos hroom] at h ⊢
      cases hins : (t.chunkTable pos).insert victim.first victim.second (tagOf victim.first) with
      | error e => rw [hins] at h; cases h
      | ok r =>
        simp only [hins] at h
        split_ifs at h
        rw [exec_chunkInsertStores hins]
        exact Except.ok.inj h
    · rw [if_neg hroom] at h ⊢
      split_ifs at h ⊢
      rw [exec_append, exec_incStores]
      exact ih _ h

theorem exec_migrateToFreeStores {t t' : PetHash V} {key : UInt64} {value : V} {cur : ℕ} {id : Slot}
    (h : t.migrateToFree key value cur id = .ok t') :
    exec applyStore t (t.migrateToFreeStores key value cur id) = t' := by
  rw [migrateToFree] at h
  rw [migrateToFreeStores]
  cases hins : (t.chunkTable (t.homeChunk key)).insert key value (tagOf key) with
  | error e => simp only [hins] at h; cases h
  | ok r =>
    simp only [hins] at h ⊢
    rw [exec_append, exec_hash, exec_chunkInsertStores hins, exec_append, exec_hash, exec_append,
      exec_chunkDeleteStores, exec_decStores]
    exact exec_traverseStores (exec_markStores false) h

theorem exec_migrateByVictimStores {t t' : PetHash V} {key : UInt64} {value : V}
    {cur : ℕ} {id : Slot} (h : t.migrateByVictim key value cur id = .ok t') :
    exec applyStore t (t.migrateByVictimStores key value cur id) = t' := by
  rw [migrateByVictim] at h
  rw [migrateByVictimStores]
  by_cases huse : (t.chunkTable (t.homeChunk key)).InUse 0
  · simp only [if_pos huse] at h ⊢
    cases hplace : placeVictim ((t.chunkTable (t.homeChunk key)).value 0)
      (t.homeChunk key) t.chunkNum
        (t.nextPos (stepOf ((t.chunkTable (t.homeChunk key)).value 0).first)
          (t.homeChunk key)) t with
    | error e => simp only [hplace] at h; cases h
    | ok t₁ =>
      simp only [hplace] at h ⊢
      rw [exec_append, exec_hash, exec_placeVictimStores _ _ _ hplace, exec_append,
        exec_hash, exec_append,
        exec_append, exec_incStores, exec_setStores, exec_chunkDeleteStores]
      exact exec_traverseStores (exec_unmarkStores cur) h
  · simp only [if_neg huse] at h
    cases h

/-- **One turn of the migration.** -/
theorem exec_migrateStores {t t' : PetHash V} {key : UInt64} (h : t.migrateKey key = .ok t') :
    exec applyStore t (t.migrateStores key) = t' := by
  rw [migrateKey] at h
  rw [migrateStores]
  cases hfind : (t.chunkTable (t.homeChunk key)).find key (tagOf key) with
  | some i =>
    simp only [hfind] at h ⊢
    exact Except.ok.inj h
  | none =>
    simp only [hfind] at h ⊢
    cases hget : t.getInternal key with
    | retry => simp only [hget] at h; cases h
    | absent => simp only [hget] at h; cases h
    | found cur id =>
      simp only [hget] at h ⊢
      cases htrav : t.chainTraverseReverse (t.homeChunk key) cur (stepOf key) fun _ =>
          setMigrating true with
      | error e => simp only [htrav] at h; cases h
      | ok t₁ =>
        simp only [htrav] at h ⊢
        rw [exec_append, exec_traverseStores (exec_markStores true) htrav]
        split_ifs at h ⊢
        · exact exec_migrateToFreeStores h
        · exact exec_migrateByVictimStores h

end PetHash

end PetPS
