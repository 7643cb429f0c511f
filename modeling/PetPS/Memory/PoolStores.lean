import PetPS.Lib.Cut
import PetPS.Memory.PoolReopen

/-!
# The stores of the pool

What `New`, `memcpy` and `Free` write into the mapped file, store by store and in program order,
up to the point where they return or abort. `memset` and `memcpy` are cut into words and bytes.
Applying all the stores of a call gives the file that the call leaves behind.

A call of `New` falls into two parts: until the bit of the slab is set, recovery counts the same
blocks as before (`Quiet`), and afterwards only bytes of the new slab are written.

## Main results

* `exec_useStores`, `exec_freeStores`, `exec_memcpyStores` — the stores are those of the functions
* `Inv.newStores_cut` — `New`, cut anywhere
-/

namespace PetPS

open Cut

/-- A store into the pool file. -/
inductive PoolStore
  /-- `slab_size_`. -/
  | slabSize (c v : ℕ)
  /-- `nr_entries_`. -/
  | nrEntries (c v : ℕ)
  /-- `n` of the bitmap. -/
  | bitmapSize (c v : ℕ)
  /-- One word of `memset(bits, 0, n / 8)`. -/
  | clearWord (c i : ℕ)
  /-- `is_used = true`. -/
  | isUsed (c : ℕ)
  /-- The store of `SetZeroPos`. -/
  | setBit (c pos : ℕ)
  /-- The store of `Clear(pos)`. -/
  | clearBit (c pos : ℕ)
  /-- Bytes of a block. -/
  | bytes (a : ℕ) (bs : List UInt8)

namespace PoolStore

/-- The store makes a block. -/
def allocates : PoolStore → Bool
  | .setBit .. => true
  | _ => false

/-- The store frees a block. -/
def frees : PoolStore → Bool
  | .clearBit .. => true
  | _ => false

/-- The store is into the bytes of a block. -/
def isBytes : PoolStore → Bool
  | .bytes .. => true
  | _ => false

theorem countP_frees_of_isBytes {as : List PoolStore} (h : ∀ a ∈ as, a.isBytes = true) :
    as.countP frees = 0 :=
  List.countP_eq_zero.mpr fun a ha => by
    cases a with
    | bytes a bs => exact Bool.false_ne_true
    | _ => cases h _ ha

end PoolStore

namespace PoolFile

/-- Change the header of chunk `c`. -/
def modifyHeader (file : PoolFile) (c : ℕ) (f : ChunkHeader → ChunkHeader) : PoolFile :=
  { file with header := Function.update file.header c (f (file.header c)) }

/-- The effect of a store. -/
def apply (file : PoolFile) : PoolStore → PoolFile
  | .slabSize c v => file.modifyHeader c fun h => { h with slabSize := v }
  | .nrEntries c v => file.modifyHeader c fun h => { h with nrEntries := v }
  | .bitmapSize c v => file.modifyHeader c fun h => { h with bitmap := { h.bitmap with n := v } }
  | .clearWord c i => file.modifyHeader c fun h =>
      { h with bitmap := { h.bitmap with bits := Function.update h.bitmap.bits i 0#64 } }
  | .isUsed c => file.modifyHeader c fun h => { h with isUsed := true }
  | .setBit c pos => file.modifyHeader c fun h => { h with bitmap := h.bitmap.set pos }
  | .clearBit c pos => file.modifyHeader c fun h => { h with bitmap := h.bitmap.clear pos }
  | .bytes a bs => { file with bytes := Bytes.store file.bytes a bs }

end PoolFile

namespace PersistMemoryPool

/-! ### The stores of each function -/

/-- `memset(bits, 0, n / 8)`. -/
def memsetStores (c n : ℕ) : List PoolStore := (List.range (n / 64)).map (.clearWord c)

/-- `Chunk::Use` up to the mark. The bitmap is cleared by its constructor and once more by
`Clear`. -/
def setupStores (c slabSize : ℕ) : List PoolStore :=
  let n := useEntries slabSize
  [.slabSize c slabSize, .nrEntries c n, .bitmapSize c n] ++ memsetStores c n ++ memsetStores c n

/-- `Chunk::Use`. -/
def useStores (c slabSize : ℕ) : List PoolStore := setupStores c slabSize ++ [.isUsed c]

/-- `Chunk::Malloc`. -/
def mallocStores (p : PersistMemoryPool) (c : ℕ) : List PoolStore :=
  match (p.header c).bitmap.setZeroPos with
  | none => []
  | some (_, id) => [.setBit c id]

/-- The branch of `NewInternal` that takes a fresh chunk. -/
def newFromFreeStores (p : PersistMemoryPool) (slabSize front : ℕ) (rest : List ℕ) :
    List PoolStore :=
  match { p with freeChunks := rest }.use front slabSize with
  | .error _ => []
  | .ok p =>
    useStores front slabSize ++
      match p.sizeToChunks slabSize with
      | none => []
      | some _ => p.mallocStores front

/-- The branch of `NewInternal` that scans the size class. -/
def newFromClassStores (p : PersistMemoryPool) (slabSize : ℕ) : List PoolStore :=
  match p.sizeToChunks slabSize with
  | none => []
  | some chunks =>
    match chunks.find? fun c => !p.full c with
    | none => []
    | some c => p.mallocStores c

/-- `NewInternal`. -/
def newInternalStores (p : PersistMemoryPool) (slabSize : ℕ) : List PoolStore :=
  match p.lastUsedRoom slabSize with
  | some c => p.mallocStores c
  | none =>
    match p.freeChunks with
    | front :: rest => p.newFromFreeStores slabSize front rest
    | [] => p.newFromClassStores slabSize

/-- `New`. -/
def newStores (p : PersistMemoryPool) (memorySize : ℕ) : List PoolStore :=
  if p.perfectFit then p.newInternalStores memorySize
  else
    match p.lowerBound (kMetaDataSize + memorySize) with
    | none => []
    | some slabSize =>
      p.newInternalStores slabSize ++
        match p.newInternal slabSize with
        | .error _ => []
        | .ok (_, ptr) => [.bytes ptr (Bytes.encode32 memorySize)]

/-- `memcpy` to address `a`. -/
def memcpyStores : ℕ → List UInt8 → List PoolStore
  | _, [] => []
  | a, b :: bs => .bytes a [b] :: memcpyStores (a + 1) bs

/-- `Free`. -/
def freeStores (p : PersistMemoryPool) (memoryData : ℕ) : List PoolStore :=
  let memoryData := memoryData - p.metaSize
  let chunkId := memoryData / kChunkSize
  if chunkId < p.nrChunks then
    [.clearBit chunkId ((p.recovery chunkId).entryId chunkId memoryData)]
  else []

/-! ### The stores are those of the functions -/

section Exec

variable {p p' : PersistMemoryPool} {file : PoolFile} {c ptr : ℕ}

theorem modifyHeader_modifyHeader (f g : ChunkHeader → ChunkHeader) :
    (file.modifyHeader c f).modifyHeader c g = file.modifyHeader c fun h => g (f h) := by
  simp [PoolFile.modifyHeader]

theorem exec_memsetStores (n : ℕ) : exec PoolFile.apply file (memsetStores c n) =
    file.modifyHeader c fun h => { h with
      bitmap := { h.bitmap with
        bits := fun i => if i < n / 64 then 0#64 else h.bitmap.bits i } } := by
  rw [memsetStores]
  induction n / 64 with
  | zero =>
    simp [PoolFile.modifyHeader]
  | succ k ih =>
    rw [List.range_succ, List.map_append, exec_append, ih]
    simp only [List.map_singleton, exec_cons, exec_nil, PoolFile.apply, modifyHeader_modifyHeader]
    congr 1
    funext h
    congr 2
    funext i
    by_cases hi : i = k
    · simp [hi]
    · rw [Function.update_of_ne hi]
      exact if_congr (by omega) rfl rfl

/-- The header that `Use` leaves behind. -/
theorem exec_useStores (slabSize : ℕ) : exec PoolFile.apply file (useStores c slabSize) =
    file.modifyHeader c fun h => ⟨true, slabSize, useEntries slabSize,
      (BitMap.construct h.bitmap.bits (useEntries slabSize)).clearAll⟩ := by
  simp only [useStores, setupStores, exec_append, exec_cons, exec_nil, exec_memsetStores,
    PoolFile.apply, modifyHeader_modifyHeader]
  rfl

theorem recovery_file (p : PersistMemoryPool) (c : ℕ) : (p.recovery c).file = p.file := by
  rw [recovery]
  split_ifs <;> rfl

theorem chunkMalloc_eq_some (h : p.chunkMalloc c = some (p', ptr)) :
    ∃ id, p.mallocStores c = [.setBit c id] ∧
      exec PoolFile.apply p.file (p.mallocStores c) = p'.file := by
  have hheader : (p.recovery c).header = p.header := by
    funext c'
    rw [header, recovery_file]
    rfl
  rw [chunkMalloc, hheader, BitMap.setZeroPos_eq] at h
  rw [mallocStores, BitMap.setZeroPos_eq]
  cases hpos : (p.header c).bitmap.firstZeroPos with
  | none => simp [hpos] at h
  | some id =>
    simp only [hpos, Option.map_some, Option.some.injEq, Prod.mk.injEq] at h ⊢
    refine ⟨id, rfl, ?_⟩
    rw [← h.1, setBitmap, hheader]
    simp only [setChunk, setHeader, recovery_file]
    rfl

theorem chunkMalloc_eq_none (h : p.chunkMalloc c = none) : p.mallocStores c = [] := by
  have hheader : (p.recovery c).header = p.header := by
    funext c'
    rw [header, recovery_file]
    rfl
  rw [chunkMalloc, hheader] at h
  rw [mallocStores]
  cases hpos : (p.header c).bitmap.setZeroPos with
  | none => rfl
  | some r => simp [hpos] at h

/-- **`Free`** is one store. -/
theorem exec_freeStores {memoryData : ℕ} {b : Bool} (h : p.free memoryData = (p', b)) :
    exec PoolFile.apply p.file (p.freeStores memoryData) = p'.file := by
  rw [free] at h
  rw [freeStores]
  split_ifs at h ⊢
  · rw [← (Prod.mk.inj h).1]
    simp only [chunkFree, setBitmap, setChunk, setHeader, header, recovery_file]
    rfl
  · rw [← (Prod.mk.inj h).1]
    rfl

theorem exec_memcpyStores : ∀ (bs : List UInt8) (a : ℕ) (file : PoolFile),
    exec PoolFile.apply file (memcpyStores a bs) =
      { file with bytes := Bytes.store file.bytes a bs } := by
  intro bs
  induction bs with
  | nil =>
    intro a file
    rw [Bytes.store_nil]
    rfl
  | cons b bs ih =>
    intro a file
    rw [memcpyStores, exec_cons, ih, ← Bytes.store_cons]
    rfl

theorem mem_memcpyStores (a : ℕ) (bs : List UInt8) : ∀ x ∈ memcpyStores a bs, x.isBytes = true := by
  induction bs generalizing a with
  | nil => exact fun x hx => absurd hx List.not_mem_nil
  | cons b bs ih =>
    intro x hx
    rcases List.mem_cons.mp hx with rfl | hx
    · rfl
    · exact ih (a + 1) x hx

end Exec

/-! ### Cutting `New` -/

/-- Recovery finds the same blocks, with the same bytes. -/
structure Quiet (slabSizes : List ℕ) (file file' : PoolFile) : Prop where
  bytes : file'.bytes = file.bytes
  usedBits : ∀ c, file'.usedBits c = file.usedBits c
  classed : ∀ n, file.Classed n slabSizes → file'.Classed n slabSizes

section Cut

variable {p : PersistMemoryPool} {file file' : PoolFile} {c slabSize : ℕ} {slabSizes : List ℕ}

theorem Quiet.refl (slabSizes : List ℕ) (file : PoolFile) : Quiet slabSizes file file :=
  ⟨rfl, fun _ => rfl, fun _ h => h⟩

/-- The header of a chunk that recovery counts no block of is changed. -/
theorem Quiet.of_header (hbytes : file'.bytes = file.bytes)
    (hother : ∀ c', c' ≠ c → file'.header c' = file.header c') (hbits : file.usedBits c = 0)
    (hbits' : file'.usedBits c = 0)
    (hclass : (file'.header c).isUsed = true → (file'.header c).slabSize ∈ slabSizes) :
    Quiet slabSizes file file' := by
  refine ⟨hbytes, fun c' => ?_, fun n h c' hc' hu => ?_⟩
  · by_cases hne : c' = c
    · rw [hne, hbits, hbits']
    · rw [PoolFile.usedBits, PoolFile.usedBits, hother c' hne]
  · by_cases hne : c' = c
    · subst hne
      exact hclass hu
    · rw [hother c' hne] at hu ⊢
      exact h c' hc' hu

theorem usedBits_of_unused (h : (file.header c).isUsed = false) : file.usedBits c = 0 :=
  if_neg (by rw [h]; exact Bool.false_ne_true)

theorem mem_setupStores {a : PoolStore} (h : a ∈ setupStores c slabSize) :
    a.allocates = false ∧ a.frees = false ∧ ∀ file : PoolFile, (file.apply a).bytes = file.bytes ∧
      (∀ c', c' ≠ c → (file.apply a).header c' = file.header c') ∧
      ((file.apply a).header c).isUsed = (file.header c).isUsed := by
  simp only [setupStores, memsetStores, List.mem_append, List.mem_cons, List.not_mem_nil, or_false,
    List.mem_map] at h
  rcases h with ((rfl | rfl | rfl) | ⟨i, -, rfl⟩) | ⟨i, -, rfl⟩
  all_goals
    refine ⟨rfl, rfl, fun file => ⟨rfl, fun c' hne => Function.update_of_ne hne _ _, ?_⟩⟩
    simp only [PoolFile.apply, PoolFile.modifyHeader, Function.update_self]

/-- **`Use` cut anywhere**: the chunk is marked last, when its bitmap is empty. -/
theorem useStores_cut (hu : (file.header c).isUsed = false) (hmem : slabSize ∈ slabSizes) :
    Always PoolFile.apply (fun _ => Quiet slabSizes file) file (useStores c slabSize) := by
  have hsetup : Always PoolFile.apply (fun _ => Quiet slabSizes file) file
      (setupStores c slabSize) := by
    have hstep : Always PoolFile.apply (fun _ file' => file'.bytes = file.bytes ∧
        (∀ c', c' ≠ c → file'.header c' = file.header c') ∧ (file'.header c).isUsed = false) file
        (setupStores c slabSize) := by
      refine always_of_step (fun file' a ha h => ?_) ⟨rfl, fun _ _ => rfl, hu⟩
      obtain ⟨-, -, happly⟩ := mem_setupStores ha
      obtain ⟨hbytes, hother, hunused⟩ := h
      obtain ⟨hbytes', hother', hunused'⟩ := happly file'
      exact ⟨hbytes'.trans hbytes, fun c' hne => (hother' c' hne).trans (hother c' hne),
        hunused'.trans hunused⟩
    refine hstep.mono fun _ file' h => ?_
    obtain ⟨hbytes, hother, hunused⟩ := h
    refine .of_header hbytes hother (usedBits_of_unused hu) (usedBits_of_unused hunused) fun h => ?_
    rw [hunused] at h
    cases h
  refine always_append.mpr ⟨hsetup, always_cons.mpr ⟨hsetup.exec, always_nil.mpr ?_⟩⟩
  change Quiet slabSizes file (exec PoolFile.apply (exec PoolFile.apply file _) [.isUsed c])
  rw [← exec_append, ← useStores, exec_useStores, PoolFile.modifyHeader]
  refine .of_header rfl (fun c' hne => Function.update_of_ne hne _ _) (usedBits_of_unused hu) ?_ ?_
  · simp only [PoolFile.usedBits, Function.update_self, if_true]
    rw [BitMap.numberOfOnes_eq, ones_clearAll_construct, Finset.card_empty]
  · simpa using hmem

/-- The stores of an allocation with result `r`: `pre` up to the bit, `post` from there. -/
structure NewCut (p : PersistMemoryPool) (r : Except Abort (PersistMemoryPool × ℕ))
    (pre post : List PoolStore) : Prop where
  /-- Recovery sees nothing of the first part. -/
  quiet : Always PoolFile.apply (fun _ => Quiet p.allocatedSlabSizes p.file) p.file pre
  silent : ∀ a ∈ pre, a.allocates = false ∧ a.frees = false
  /-- An allocation that aborts sets no bit. -/
  error : ∀ e, r = .error e → post = []
  /-- One that returns sets one, and then writes bytes. -/
  ok : ∀ p' ptr, r = .ok (p', ptr) → ∃ c id w, post = .setBit c id :: w ∧
    (∀ a ∈ w, a.isBytes = true) ∧ exec PoolFile.apply p.file (pre ++ post) = p'.file

/-- The common end of the branches of `NewInternal`, in a pool `q` that differs from `p` by the
stores `pre`. -/
theorem newCut_finish {q : PersistMemoryPool} {pre : List PoolStore}
    (hquiet : Always PoolFile.apply (fun _ => Quiet p.allocatedSlabSizes p.file) p.file pre)
    (hsilent : ∀ a ∈ pre, a.allocates = false ∧ a.frees = false)
    (hq : exec PoolFile.apply p.file pre = q.file) (c : ℕ) :
    NewCut p (finish (q.chunkMalloc c)) pre (q.mallocStores c) := by
  refine ⟨hquiet, hsilent, fun e he => ?_, fun p' ptr hok => ?_⟩
  · cases hm : q.chunkMalloc c with
    | none => exact chunkMalloc_eq_none hm
    | some r => rw [hm, finish] at he; cases he
  · cases hm : q.chunkMalloc c with
    | none => rw [hm, finish] at hok; cases hok
    | some r =>
      obtain ⟨p₁, ptr₁⟩ := r
      obtain ⟨id, hstores, hexec⟩ := chunkMalloc_eq_some hm
      rw [hm, finish] at hok
      cases hok
      refine ⟨c, id, [], hstores, fun a ha => absurd ha List.not_mem_nil, ?_⟩
      rw [exec_append, hq, hexec]

/-- No store at all. -/
theorem newCut_error (p : PersistMemoryPool) (e : Abort) : NewCut p (.error e) [] [] :=
  ⟨always_nil.mpr (.refl _ _), fun a ha => absurd ha List.not_mem_nil, fun _ _ => rfl,
    fun p' ptr h => by cases h⟩

theorem newFromFreeStores_eq (p : PersistMemoryPool) (slabSize front : ℕ) (rest : List ℕ) :
    p.newFromFreeStores slabSize front rest =
      if 0 < useEntries slabSize then
        useStores front slabSize ++
          match p.sizeToChunks slabSize with
          | none => []
          | some chunks => (p.takeChunk slabSize front rest chunks).mallocStores front
      else [] := by
  rw [newFromFreeStores, use]
  by_cases hpos : 0 < useEntries slabSize
  · simp only [if_pos hpos]
    cases hclass : p.sizeToChunks slabSize with
    | none => simp only [setChunk, setHeader, hclass]
    | some chunks => simp only [setChunk, setHeader, hclass, takeChunk]; rfl
  · simp only [if_neg hpos]

/-- **`NewInternal` cut anywhere.** -/
theorem Inv.newInternalStores_cut (h : p.Inv) (hmem : slabSize ∈ p.allocatedSlabSizes) :
    ∃ pre post, p.newInternalStores slabSize = pre ++ post ∧
      NewCut p (p.newInternal slabSize) pre post := by
  have hnil : Always PoolFile.apply (fun _ => Quiet p.allocatedSlabSizes p.file) p.file [] :=
    always_nil.mpr (.refl _ _)
  have hnone : ∀ a ∈ ([] : List PoolStore), a.allocates = false ∧ a.frees = false :=
    fun a ha => absurd ha List.not_mem_nil
  rw [newInternalStores, PersistMemoryPool.newInternal]
  cases hlast : p.lastUsedRoom slabSize with
  | some c => exact ⟨[], _, rfl, newCut_finish hnil hnone rfl c⟩
  | none =>
    cases hq : p.freeChunks with
    | cons front rest =>
      simp only [newFromFreeStores_eq, newFromFree_eq]
      by_cases hpos : 0 < useEntries slabSize
      · rw [if_pos hpos, if_pos hpos]
        have hunused := (h.free front (hq ▸ List.mem_cons_self)).unused
        have hquiet := useStores_cut hunused hmem
        have hsilent : ∀ a ∈ useStores front slabSize, a.allocates = false ∧ a.frees = false := by
          intro a ha
          rcases List.mem_append.mp ha with ha | ha
          · obtain ⟨hset, hfree, -⟩ := mem_setupStores ha
            exact ⟨hset, hfree⟩
          · rw [List.mem_singleton.mp ha]
            exact ⟨rfl, rfl⟩
        cases hclass : p.sizeToChunks slabSize with
        | none =>
          exact ⟨_, [], rfl, hquiet, hsilent, fun _ _ => rfl, fun p' ptr hok => by cases hok⟩
        | some chunks =>
          refine ⟨_, _, rfl, newCut_finish hquiet hsilent ?_ front⟩
          rw [exec_useStores]
          rfl
      · rw [if_neg hpos, if_neg hpos]
        exact ⟨[], [], rfl, newCut_error p _⟩
    | nil =>
      simp only [newFromClassStores, newFromClass]
      cases hclass : p.sizeToChunks slabSize with
      | none => exact ⟨[], [], rfl, newCut_error p _⟩
      | some chunks =>
        simp only
        cases hfind : chunks.find? fun c => !p.full c with
        | none => exact ⟨[], [], rfl, newCut_error p _⟩
        | some c => exact ⟨[], _, rfl, newCut_finish hnil hnone rfl c⟩

/-- **`New` cut anywhere**, in the mode with lengths. -/
theorem Inv.newStores_cut (h : p.Inv) (hmode : p.perfectFit = false) (memorySize : ℕ) :
    ∃ pre post, p.newStores memorySize = pre ++ post ∧ NewCut p (p.new memorySize) pre post := by
  rw [newStores, PersistMemoryPool.new, hmode]
  simp only [Bool.false_eq_true, if_false]
  cases hlb : p.lowerBound (kMetaDataSize + memorySize) with
  | none => exact ⟨[], [], rfl, newCut_error p _⟩
  | some slabSize =>
    obtain ⟨pre, post, hstores, hcut⟩ := h.newInternalStores_cut (lowerBound_spec hlb).1
    simp only [hstores]
    cases hint : p.newInternal slabSize with
    | error e =>
      exact ⟨pre, post, List.append_nil _, hcut.quiet, hcut.silent, fun _ _ => hcut.error e hint,
        fun p' ptr hok => by cases hok⟩
    | ok r =>
      obtain ⟨p₁, ptr₁⟩ := r
      obtain ⟨c, id, w, rfl, hw, hexec⟩ := hcut.ok p₁ ptr₁ hint
      refine ⟨pre, _, List.append_assoc _ _ _, hcut.quiet, hcut.silent, fun e he => ?_,
        fun p' ptr hok => ⟨c, id, w ++ [_], rfl, fun a ha => ?_, ?_⟩⟩
      · cases he
      · rcases List.mem_append.mp ha with ha | ha
        · exact hw a ha
        · rw [List.mem_singleton.mp ha]
          rfl
      · cases hok
        rw [← List.append_assoc, exec_append, hexec]
        rfl

/-- Stores into bytes leave the headers alone. -/
theorem exec_header_of_isBytes : ∀ {as : List PoolStore} {file : PoolFile},
    (∀ a ∈ as, a.isBytes = true) → (exec PoolFile.apply file as).header = file.header := by
  intro as
  induction as with
  | nil => exact fun _ => rfl
  | cons a as ih =>
    intro file h
    rw [exec_cons, ih fun b hb => h b (List.mem_cons_of_mem a hb)]
    cases a with
    | bytes a bs => rfl
    | _ => cases h _ List.mem_cons_self

end Cut

end PersistMemoryPool

end PetPS
