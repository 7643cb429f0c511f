import PetPS.PetHash.Chunk
import PetPS.Lib.Walk

/-!
# `PetHash`: the dictionary

`pet_hash.h`, one definition per member function and in its order. A table is an array of
`chunkNum` chunks, a power of two; a key is hashed to a home chunk and probed for in odd steps.

Positions are natural numbers. The code masks them with `chunk_num_ - 1`, which
`Nat.and_two_pow_sub_one_eq_mod` turns into a remainder once the table is known to come from
`Initialize`; the definitions keep the mask. The array itself is a function on positions: the
flexible array member `chunk_table_[0]` has no length of its own.

Locks and prefetches are left out, and so are the log lines.
-/

namespace PetPS

/-- `PetHash<uint64, V>`. -/
structure PetHash (V : Type) where
  /-- `chunk_num_ * 14`. -/
  capacity : ℕ
  /-- The number of chunks. -/
  chunkNum : ℕ
  /-- The number of elements. -/
  size : ℕ
  /-- The chunks. -/
  chunkTable : ℕ → F14Chunk V

namespace PetHash

variable {V : Type}

/-! ### Hashing -/

/-- `Hash`. -/
def hash (key : UInt64) : UInt64 := key * 0xc6a4a7935bd1e995

/-- One bit of the CRC32-C instruction, reflected polynomial `0x82f63b78`. -/
def crc32Step (x : ℕ) : ℕ := x >>> 1 ^^^ if x % 2 = 1 then 0x82f63b78 else 0

/-- `_mm_crc32_u64(0, key)`. -/
def crc32U64 (key : ℕ) : ℕ := crc32Step^[64] key

/-- `Sign`: the top byte of the checksum with its high bit set. -/
def sign (h : UInt64) : UInt8 := UInt8.ofNat ((crc32U64 h.toNat >>> 24 ||| 0x80) &&& 0xff)

/-- `ProbeDelta`. -/
def probeDelta (key : ℕ) : ℕ := key * 2 ||| 1

/-- The tag of a key, `Sign(Hash(key))`. -/
def tagOf (key : UInt64) : UInt8 := sign (hash key)

/-- The probe step of a key. -/
def stepOf (key : UInt64) : ℕ := probeDelta (tagOf key).toNat

/-- `HomeChunk`, the position. -/
def homeChunk (t : PetHash V) (key : UInt64) : ℕ := (hash key).toNat &&& (t.chunkNum - 1)

/-- `(pos + step) & (chunk_num_ - 1)`. -/
def nextPos (t : PetHash V) (step pos : ℕ) : ℕ := (pos + step) &&& (t.chunkNum - 1)

/-! ### Chunk updates -/

/-- Apply `f` to the chunk at `pos`. -/
def modifyChunk (t : PetHash V) (pos : ℕ) (f : F14Chunk V → F14Chunk V) : PetHash V :=
  { t with chunkTable := Function.update t.chunkTable pos (f (t.chunkTable pos)) }

/-- Store through a `ValueT *` into slot `id` of the chunk at `pos`. -/
def setValue (t : PetHash V) (pos : ℕ) (id : Slot) (value : V) : PetHash V :=
  t.modifyChunk pos fun c =>
    { c with value := Function.update c.value id { c.value id with second := value } }

/-! ### Sizing -/

/-- The double nearest to `n / d`, ties to even, as a fraction; `n / d` is `0` or at least `1`. -/
def roundDouble (n d : ℕ) : ℕ × ℕ :=
  let e := Nat.log2 (n / d)
  let num := n * 2 ^ 52
  let den := d * 2 ^ e
  let m := num / den
  let r := num % den
  let m := if den < 2 * r ∨ (2 * r = den ∧ m % 2 = 1) then m + 1 else m
  (m * 2 ^ e, 2 ^ 52)

/-- `capacity /= kMaxLoadFactor / 100.0`: the divisor is the double `8106479329266893 / 2 ^ 53`. -/
def divLoadFactor (capacity : ℕ) : ℕ :=
  let a := roundDouble capacity 1
  let q := roundDouble (a.1 * 2 ^ 53) (a.2 * 8106479329266893)
  q.1 / q.2

/-- `while (new_size < size) new_size <<= 1`, for at most `fuel` turns. -/
def next2PowerLoop (size : ℕ) : ℕ → ℕ → ℕ
  | 0, newSize => newSize
  | fuel + 1, newSize => if newSize < size then next2PowerLoop size fuel (newSize * 2) else newSize

/-- `Next2Power`. Sixty-four turns pass every 64-bit size. -/
def next2Power (size : ℕ) : ℕ := next2PowerLoop size 64 1

/-- `OverFallChunkNum`, whose sum is one of `uint64_t`. -/
def overFallChunkNum (capacity : ℕ) : ℕ := next2Power ((capacity + 13) % 2 ^ 64 / 14)

/-- The capacity after the optional load factor. -/
def scaleCapacity (capacity : ℕ) (ignoreLoadFactor : Bool) : ℕ :=
  if ignoreLoadFactor then capacity else divLoadFactor capacity

/-- `MemorySize`: a 64-byte header, and 320 bytes (`sizeof(ChunkT)`) for every chunk. -/
def memorySize (capacity : ℕ) (ignoreLoadFactor : Bool) : ℕ :=
  64 + overFallChunkNum (scaleCapacity capacity ignoreLoadFactor) * 320

/-- `Initialize`, in memory of `MemorySize` bytes. A quotient that is no `uint64_t` has no
conversion, and there is no table larger than the address space. -/
def initializeTable [Inhabited V] (capacity : ℕ) (ignoreLoadFactor : Bool) : Option (PetHash V) :=
  if scaleCapacity capacity ignoreLoadFactor < 2 ^ 64 ∧
      memorySize capacity ignoreLoadFactor ≤ userSpace then
    let chunkNum := overFallChunkNum (scaleCapacity capacity ignoreLoadFactor)
    some
      { capacity := chunkNum * 14
        chunkNum := chunkNum
        size := 0
        chunkTable := fun _ => F14Chunk.initial }
  else none

/-- `Full`, in 64-bit arithmetic. -/
def Full (t : PetHash V) : Prop := t.capacity * 90 % 2 ^ 64 ≤ t.size * 100 % 2 ^ 64

instance (t : PetHash V) : Decidable t.Full :=
  inferInstanceAs (Decidable (t.capacity * 90 % 2 ^ 64 ≤ t.size * 100 % 2 ^ 64))

/-- `Size`, a `uint32_t`. -/
def sizeU32 (t : PetHash V) : ℕ := t.size % 2 ^ 32

/-! ### Lookup -/

/-- How one pass of `GetInternal` ends. -/
inductive Lookup
  /-- The key is in slot `id` of the chunk at `pos`. -/
  | found (pos : ℕ) (id : Slot)
  /-- The key is not in the table. -/
  | absent
  /-- The pass met a migrating chunk and found nothing: `goto RETRY`. -/
  | retry
  deriving DecidableEq

/-- The end of a pass that found nothing. -/
def missed (touchMigratingChunk : Bool) : Lookup :=
  if touchMigratingChunk then .retry else .absent

/-- The probing loop of `GetInternal`, with `fuel` turns left. -/
def getLoop (t : PetHash V) (key : UInt64) : ℕ → ℕ → Bool → Lookup
  | 0, _, touch => missed touch
  | fuel + 1, pos, touch =>
    let chunk := t.chunkTable pos
    let touch := touch || chunk.isMigrating
    match chunk.find key (tagOf key) with
    | some id => .found pos id
    | none =>
      if chunk.overflowCount = 0 then missed touch
      else getLoop t key fuel (t.nextPos (stepOf key) pos) touch

/-- One pass of `GetInternal`. -/
def getInternal (t : PetHash V) (key : UInt64) : Lookup :=
  t.getLoop key t.chunkNum (t.homeChunk key) false

/-- `Get`: the value, or `none` for the pair `(ValueT(), false)`. A pass over an unchanged table
that ends in `RETRY` is repeated for ever. -/
def get (t : PetHash V) (key : UInt64) : Except Abort (Option V) :=
  match t.getInternal key with
  | .found pos id => .ok (some ((t.chunkTable pos).value id).second)
  | .absent => .ok none
  | .retry => .error .spin

/-! ### Deletion -/

/-- `while (pos != chunk_id) { chunk_table_[pos].DecOverflow(); pos = next; }`. -/
def decPath (t : PetHash V) (step home chunkId : ℕ) : Option (PetHash V) :=
  Walk.whileNe (t.nextPos step) (fun pos t => t.modifyChunk pos F14Chunk.decOverflow) chunkId
    t.chunkNum home t

/-- `Delete`. -/
def delete (t : PetHash V) (key : UInt64) : Except Abort (PetHash V) :=
  match t.getInternal key with
  | .retry => .error .spin
  | .absent => .ok t
  | .found pos id =>
    match t.decPath (stepOf key) (t.homeChunk key) pos with
    | none => .error .spin
    | some t =>
      let t := t.modifyChunk pos fun c => c.delete id
      .ok { t with size := (t.size + (2 ^ 64 - 1)) % 2 ^ 64 }

/-! ### Insertion -/

/-- `CheckFuncT`: what `check_func(key, value, force_delete)` answers in turn `i` of `Insert`. The
callback may keep a state of its own; a turn asks it about no entry twice. -/
abbrev CheckFunc (V : Type) : Type := ℕ → UInt64 → V → Bool → Bool

/-- The expiry scan of `Insert`: delete the entries of the chunk that `check_func` rejects. -/
def expire (check : CheckFunc V) (i pos : ℕ) : List Slot → PetHash V → Except Abort (PetHash V)
  | [], t => .ok t
  | id :: ids, t =>
    let it := (t.chunkTable pos).value id
    if (t.chunkTable pos).InUse id ∧ check i it.first it.second false = false then
      match t.delete it.first with
      | .ok t => expire check i pos ids t
      | .error e => .error e
    else expire check i pos ids t

/-- The expiry step at the head of turn `i` of `Insert`. -/
def expireChunk (check : Option (CheckFunc V)) (i pos : ℕ) (t : PetHash V) :
    Except Abort (PetHash V) :=
  match check with
  | none => .ok t
  | some check =>
    if 14 - 2 ≤ (t.chunkTable pos).size then expire check i pos (List.finRange 14) t else .ok t

/-- The probing loop of `Insert`, with `fuel` turns left out of `chunk_num_` and `i` made. The
result is the table and the slot of the key. -/
def insertLoop (key : UInt64) (value : V) (check : Option (CheckFunc V)) (force : Bool) :
    ℕ → ℕ → ℕ → PetHash V → Except Abort (PetHash V × ℕ × Slot)
  | 0, _, _, _ => .error .dictOOM
  | fuel + 1, i, pos, t =>
    match expireChunk check i pos t with
    | .error e => .error e
    | .ok t =>
      let chunk := t.chunkTable pos
      match chunk.find key (tagOf key) with
      | some id => .ok (t.setValue pos id value, pos, id)
      | none =>
        if chunk.size < 14 then
          match chunk.insert key value (tagOf key) with
          | .error e => .error e
          | .ok (c, id) =>
            let t := t.modifyChunk pos fun _ => c
            .ok ({ t with size := (t.size + 1) % 2 ^ 64 }, pos, id)
        else if t.Full then
          if force then
            -- `check_func(.., true)` is called here too; its result is ignored
            match t.delete (chunk.value (Fin.ofNat 14 ((tagOf key).toNat + i))).first with
            | .error e => .error e
            | .ok t => insertLoop key value check force fuel (i + 1) pos t
          else .error .dictFull
        else
          insertLoop key value check force fuel (i + 1) (t.nextPos (stepOf key) pos)
            (t.modifyChunk pos F14Chunk.incOverflow)

/-- `Insert`. -/
def insert (t : PetHash V) (key : UInt64) (value : V) (check : Option (CheckFunc V))
    (force : Bool) : Except Abort (PetHash V × ℕ × Slot) :=
  insertLoop key value check force t.chunkNum 0 (t.homeChunk key) t

/-- `Set`. -/
def set (t : PetHash V) (key : UInt64) (value : V) (check : Option (CheckFunc V))
    (force : Bool) : Except Abort (PetHash V) :=
  match t.getInternal key with
  | .retry => .error .spin
  | .found pos id => .ok (t.setValue pos id value)
  | .absent =>
    match t.insert key value check force with
    | .ok (t, _, _) => .ok t
    | .error e => .error e

/-! ### Migration -/

/-- `PrevChunk`, in the code's 64-bit arithmetic: `(p - step + chunk_num_) % chunk_num_`. -/
def prevChunk (t : PetHash V) (step pos : ℕ) : ℕ :=
  ((2 ^ 64 + pos - step) % 2 ^ 64 + t.chunkNum) % 2 ^ 64 % t.chunkNum

/-- `ChainTraverseReverse(start, end, step, func)`: `func` on every chunk from `end` back to
`start`. -/
def chainTraverseReverse (t : PetHash V) (start fin step : ℕ)
    (func : ℕ → F14Chunk V → F14Chunk V) : Except Abort (PetHash V) :=
  match Walk.whileNe (t.prevChunk step) (fun pos t => t.modifyChunk pos (func pos)) start
    t.chunkNum fin t with
  | none => .error .spin
  | some t => .ok (t.modifyChunk start (func start))

/-- Mark or unmark a chunk as migrating. -/
def setMigrating (b : Bool) (c : F14Chunk V) : F14Chunk V := { c with isMigrating := b }

/-- Step 2.2 of the migration: put the victim into the first chunk with room, starting behind its
present one. -/
def placeVictim (victim : EntryT V) (home : ℕ) : ℕ → ℕ → PetHash V → Except Abort (PetHash V)
  | 0, _, _ => .error .check
  | fuel + 1, pos, t =>
    if (t.chunkTable pos).size ≠ 14 then
      match (t.chunkTable pos).insert victim.first victim.second (tagOf victim.first) with
      | .error e => .error e
      | .ok (c, _) => if home = pos then .error .check else .ok (t.modifyChunk pos fun _ => c)
    else if t.Full then .error .migrateFull
    else
      placeVictim victim home fuel (t.nextPos (stepOf victim.first) pos)
        (t.modifyChunk pos F14Chunk.incOverflow)

/-- Case 1 of the migration: the home chunk has an empty slot. -/
def migrateToFree (t : PetHash V) (key : UInt64) (value : V) (cur : ℕ) (id : Slot) :
    Except Abort (PetHash V) :=
  let home := t.homeChunk key
  match (t.chunkTable home).insert key value (tagOf key) with
  | .error e => .error e
  | .ok (c, _) =>
    let t := t.modifyChunk home fun _ => c
    let t := t.modifyChunk cur fun c => c.delete id
    let t := t.modifyChunk cur F14Chunk.decOverflow
    t.chainTraverseReverse home cur (stepOf key) fun _ => setMigrating false

/-- Case 2 of the migration: slot `0` of the full home chunk is the victim. -/
def migrateByVictim (t : PetHash V) (key : UInt64) (value : V) (cur : ℕ) (id : Slot) :
    Except Abort (PetHash V) :=
  let home := t.homeChunk key
  if (t.chunkTable home).InUse 0 then
    let victim := (t.chunkTable home).value 0
    match placeVictim victim home t.chunkNum (t.nextPos (stepOf victim.first) home) t with
    | .error e => .error e
    | .ok t =>
      let t := t.modifyChunk home F14Chunk.incOverflow
      let t := t.modifyChunk home fun c => c.set 0 (tagOf key) ⟨key, value⟩
      let t := t.modifyChunk cur fun c => c.delete id
      t.chainTraverseReverse home cur (stepOf key) fun pos c =>
        if pos = cur then setMigrating false c else (setMigrating false c).decOverflow
  else .error .check

/-- One turn of `HotnessAwareMigration`. -/
def migrateKey (t : PetHash V) (key : UInt64) : Except Abort (PetHash V) :=
  let home := t.homeChunk key
  match (t.chunkTable home).find key (tagOf key) with
  | some _ => .ok t
  | none =>
    match t.getInternal key with
    | .retry => .error .spin
    | .absent => .error .check
    | .found cur id =>
      let value := ((t.chunkTable cur).value id).second
      match t.chainTraverseReverse home cur (stepOf key) fun _ => setMigrating true with
      | .error e => .error e
      | .ok t =>
        if (t.chunkTable home).size ≠ 14 then t.migrateToFree key value cur id
        else t.migrateByVictim key value cur id

/-- `HotnessAwareMigration`. -/
def hotnessAwareMigration : List UInt64 → PetHash V → Except Abort (PetHash V)
  | [], t => .ok t
  | key :: keys, t =>
    match t.migrateKey key with
    | .error e => .error e
    | .ok t => hotnessAwareMigration keys t

end PetHash

end PetPS
