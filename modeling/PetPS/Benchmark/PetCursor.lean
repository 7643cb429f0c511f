import Mathlib.Algebra.BigOperators.Group.List.Basic
import Mathlib.Algebra.Order.Ring.Int
import PetPS.Basic
import PetPS.Lib.Bytes

/-!
# Dataset files

`parse_dataset.h`, `dataset_renumbering.cc`: a dataset file is a number of requests, each a number
of keys with their dimensions. `RenumberID`, `Check` and the reader walk over a file in the same way
and differ in what they do with a key; `RenumberID` writes its new number over it.

A file is read through a cursor that checks its end after each field. Numbers of requests and keys
are `int`s, and a negative one means none. `Has` says what a file contains, and the walks are
related to it: reading a file finds what it has, and renumbering changes what it has.

## Main results

* `parse_eq_ok_iff` — what is parsed is what the file has
* `Has.renumberID`, `Has.check` — renumbering and checking
-/

namespace PetPS

namespace Dataset

/-- `file_content`. -/
structure File where
  bytes : Bytes.Mem
  size : ℕ

/-- `PetCursor::ReadInt`: the number, and the position behind it. -/
def readInt (f : File) (pos : ℕ) : Except Abort (ℤ × ℕ) :=
  if pos + 4 ≤ f.size then .ok (toInt32 (Bytes.decode (Bytes.load f.bytes pos 4)), pos + 4)
  else .error .check

/-- `PetCursor::ReadUint64`. -/
def readUint64 (f : File) (pos : ℕ) : Except Abort (UInt64 × ℕ) :=
  if pos + 8 ≤ f.size then .ok (.ofNat (Bytes.decode (Bytes.load f.bytes pos 8)), pos + 8)
  else .error .check

/-- The checks of a dimension. -/
def dimOk (dim : ℤ) : Bool :=
  decide (4 ≤ dim ∧ dim ≤ 64) && decide (dim = 4 ∨ dim = 8 ∨ dim = 16 ∨ dim = 32 ∨ dim = 64)

/-- A request: the number of keys it says it has, and its keys with their dimensions. -/
structure Request where
  nrKeys : ℤ
  keys : List (UInt64 × ℤ)

/-- The contents of a file. -/
structure Parsed where
  nrRequest : ℤ
  requests : List Request

/-- The loop over the keys of a request; `body` is what is done with a key at a position. -/
def keyLoop (body : File → ℕ → UInt64 → Except Abort File) : ℕ → File → ℕ →
    Except Abort (File × ℕ × List (UInt64 × ℤ))
  | 0, f, pos => .ok (f, pos, [])
  | n + 1, f, pos =>
    match readUint64 f pos with
    | .error e => .error e
    | .ok (key, pos') =>
      match readInt f pos' with
      | .error e => .error e
      | .ok (dim, pos'') =>
        if dimOk dim then
          match body f pos key with
          | .error e => .error e
          | .ok f =>
            match keyLoop body n f pos'' with
            | .error e => .error e
            | .ok (f, pos, keys) => .ok (f, pos, (key, dim) :: keys)
        else .error .check

/-- The loop over the requests. -/
def requestLoop (body : File → ℕ → UInt64 → Except Abort File) : ℕ → File → ℕ →
    Except Abort (File × ℕ × List Request)
  | 0, f, pos => .ok (f, pos, [])
  | n + 1, f, pos =>
    match readInt f pos with
    | .error e => .error e
    | .ok (nrKeys, pos) =>
      match keyLoop body nrKeys.toNat f pos with
      | .error e => .error e
      | .ok (f, pos, keys) =>
        match requestLoop body n f pos with
        | .error e => .error e
        | .ok (f, pos, requests) => .ok (f, pos, ⟨nrKeys, keys⟩ :: requests)

/-- A walk over a file. -/
def walk (body : File → ℕ → UInt64 → Except Abort File) (f : File) :
    Except Abort (File × Parsed) :=
  match readInt f 0 with
  | .error e => .error e
  | .ok (nrRequest, pos) =>
    match requestLoop body nrRequest.toNat f pos with
    | .error e => .error e
    | .ok (f, _, requests) => .ok (f, ⟨nrRequest, requests⟩)

/-- `FileMeta`; the sum of the numbers of keys is an `int`, and is taken to wrap around. -/
structure FileMeta where
  nrRequest : ℤ
  nrKeys : ℤ
  deriving DecidableEq

/-- What `RenumberID` counts. -/
def Parsed.fileMeta (p : Parsed) : FileMeta :=
  ⟨p.nrRequest, toInt32 ((p.requests.map Request.nrKeys).sum % 2 ^ 32).toNat⟩

/-- The reading of a file, without the hashing of its keys. -/
def parse (f : File) : Except Abort Parsed := (walk (fun f _ _ => .ok f) f).map Prod.snd

/-- What `RenumberID` does with a key: its number is written over it. -/
def renumberKey (renumberMap : List (UInt64 × ℕ)) (f : File) (pos : ℕ) (key : UInt64) :
    Except Abort File :=
  match renumberMap.lookup key with
  | none => .error .check
  | some number => .ok { f with bytes := Bytes.store f.bytes pos (Bytes.encode64 number) }

/-- `RenumberID`: the file that is written, and what is counted. -/
def renumberID (renumberMap : List (UInt64 × ℕ)) (f : File) : Except Abort (File × FileMeta) :=
  (walk (renumberKey renumberMap) f).map fun r => (r.1, r.2.fileMeta)

/-- `Check`. -/
def check (maxKey : ℕ) (f : File) : Except Abort Unit :=
  (walk (fun f _ key => if key.toNat < maxKey then .ok f else .error .check) f).map fun _ => ()

/-- All keys of a file. -/
def Parsed.keys (p : Parsed) : List UInt64 := p.requests.flatMap fun r => r.keys.map Prod.fst

/-- The request with other keys. -/
def Request.mapKeys (number : UInt64 → ℕ) (r : Request) : Request :=
  ⟨r.nrKeys, r.keys.map fun p => (.ofNat (number p.1), p.2)⟩

/-- The same requests and dimensions, with other keys. -/
def Parsed.mapKeys (number : UInt64 → ℕ) (p : Parsed) : Parsed :=
  ⟨p.nrRequest, p.requests.map (Request.mapKeys number)⟩

theorem Parsed.keys_mapKeys (number : UInt64 → ℕ) (p : Parsed) :
    (p.mapKeys number).keys = p.keys.map fun id => .ofNat (number id) := by
  simp only [Parsed.mapKeys, Parsed.keys, Request.mapKeys, List.flatMap_map, List.map_flatMap,
    List.map_map, Function.comp_def]

/-! ### What a file has -/

/-- The file has these keys from `pos` on. -/
def HasKeys (f : File) : ℕ → List (UInt64 × ℤ) → Prop
  | _, [] => True
  | pos, (key, dim) :: keys => readUint64 f pos = .ok (key, pos + 8) ∧
      readInt f (pos + 8) = .ok (dim, pos + 12) ∧ dimOk dim = true ∧ HasKeys f (pos + 12) keys

/-- The bytes of a request. -/
def Request.length (r : Request) : ℕ := 4 + 12 * r.keys.length

/-- The file has these requests from `pos` on. -/
def HasRequests (f : File) : ℕ → List Request → Prop
  | _, [] => True
  | pos, r :: requests => readInt f pos = .ok (r.nrKeys, pos + 4) ∧
      r.keys.length = r.nrKeys.toNat ∧ HasKeys f (pos + 4) r.keys ∧
      HasRequests f (pos + r.length) requests

/-- The file has these contents. -/
structure Has (f : File) (p : Parsed) : Prop where
  count : readInt f 0 = .ok (p.nrRequest, 4)
  length : p.requests.length = p.nrRequest.toNat
  requests : HasRequests f 4 p.requests

/-- Where the requests end. -/
def endOf (pos : ℕ) (requests : List Request) : ℕ := pos + (requests.map Request.length).sum

theorem endOf_cons (pos : ℕ) (r : Request) (requests : List Request) :
    endOf pos (r :: requests) = endOf (pos + r.length) requests := by
  rw [endOf, endOf, List.map_cons, List.sum_cons, Nat.add_assoc]

theorem le_endOf (pos : ℕ) (requests : List Request) : pos ≤ endOf pos requests :=
  Nat.le_add_right _ _

/-! ### Reading -/

theorem pos_of_readInt {f : File} {pos pos' : ℕ} {x : ℤ} (h : readInt f pos = .ok (x, pos')) :
    pos' = pos + 4 := by
  rw [readInt] at h
  split_ifs at h
  exact (Prod.mk.inj (Except.ok.inj h)).2.symm

theorem pos_of_readUint64 {f : File} {pos pos' : ℕ} {x : UInt64}
    (h : readUint64 f pos = .ok (x, pos')) : pos' = pos + 8 := by
  rw [readUint64] at h
  split_ifs at h
  exact (Prod.mk.inj (Except.ok.inj h)).2.symm

/-- The files have the same bytes from `lo` to `hi`. -/
structure SameOn (f g : File) (lo hi : ℕ) : Prop where
  size : g.size = f.size
  bytes : ∀ x, lo ≤ x → x < hi → g.bytes x = f.bytes x

theorem SameOn.mono {f g : File} {lo hi lo' hi' : ℕ} (h : SameOn f g lo hi) (hlo : lo ≤ lo')
    (hhi : hi' ≤ hi) : SameOn f g lo' hi' :=
  ⟨h.size, fun x hx hx' => h.bytes x (hlo.trans hx) (hx'.trans_le hhi)⟩

theorem SameOn.trans {f g k : File} {lo hi : ℕ} (h : SameOn f g lo hi) (h' : SameOn g k lo hi) :
    SameOn f k lo hi :=
  ⟨h'.size.trans h.size, fun x hx hx' => (h'.bytes x hx hx').trans (h.bytes x hx hx')⟩

theorem SameOn.readInt {f g : File} {lo hi pos : ℕ} (h : SameOn f g lo hi) (hlo : lo ≤ pos)
    (hhi : pos + 4 ≤ hi) : readInt g pos = readInt f pos := by
  rw [Dataset.readInt, Dataset.readInt, h.size,
    Bytes.load_congr fun x hx hx' => h.bytes x (hlo.trans hx) (hx'.trans_le hhi)]

theorem SameOn.readUint64 {f g : File} {lo hi pos : ℕ} (h : SameOn f g lo hi) (hlo : lo ≤ pos)
    (hhi : pos + 8 ≤ hi) : readUint64 g pos = readUint64 f pos := by
  rw [Dataset.readUint64, Dataset.readUint64, h.size,
    Bytes.load_congr fun x hx hx' => h.bytes x (hlo.trans hx) (hx'.trans_le hhi)]

theorem HasKeys.congr {f g : File} {pos : ℕ} {keys : List (UInt64 × ℤ)} (h : HasKeys f pos keys)
    (hsame : SameOn f g pos (pos + 12 * keys.length)) : HasKeys g pos keys := by
  induction keys generalizing pos with
  | nil => trivial
  | cons key keys ih =>
    obtain ⟨hkey, hdim, hok, hrest⟩ := h
    rw [List.length_cons] at hsame
    refine ⟨?_, ?_, hok, ih hrest (hsame.mono (by omega) (by omega))⟩
    · rw [hsame.readUint64 le_rfl (by omega)]
      exact hkey
    · rw [hsame.readInt (by omega) (by omega)]
      exact hdim

theorem HasRequests.congr {f g : File} {pos : ℕ} {requests : List Request}
    (h : HasRequests f pos requests) (hsame : SameOn f g pos (endOf pos requests)) :
    HasRequests g pos requests := by
  induction requests generalizing pos with
  | nil => trivial
  | cons r requests ih =>
    obtain ⟨hcount, hlength, hkeys, hrest⟩ := h
    rw [endOf_cons] at hsame
    have hle := le_endOf (pos + r.length) requests
    rw [Request.length] at hle hsame hrest
    refine ⟨?_, hlength, hkeys.congr (hsame.mono (by omega) (by omega)),
      ih hrest (hsame.mono (by omega) le_rfl)⟩
    rw [hsame.readInt le_rfl (by omega)]
    exact hcount

/-! ### Walks that leave the file as it is -/

/-- What the walk of the keys finds. -/
theorem hasKeys_of_keyLoop {n : ℕ} {f f' : File} {pos pos' : ℕ} {keys : List (UInt64 × ℤ)}
    (h : keyLoop (fun f _ _ => .ok f) n f pos = .ok (f', pos', keys)) :
    f' = f ∧ pos' = pos + 12 * keys.length ∧ keys.length = n ∧ HasKeys f pos keys := by
  induction n generalizing pos keys with
  | zero =>
    cases h
    exact ⟨rfl, rfl, rfl, trivial⟩
  | succ n ih =>
    rw [keyLoop] at h
    rcases hkey : readUint64 f pos with e | ⟨key, pos₁⟩
    · rw [hkey] at h
      cases h
    obtain rfl := pos_of_readUint64 hkey
    rcases hdim : readInt f (pos + 8) with e | ⟨dim, pos₂⟩
    · simp only [hkey, hdim] at h
      cases h
    obtain rfl := pos_of_readInt hdim
    simp only [hkey, hdim] at h
    split_ifs at h with hok
    rcases hrest : keyLoop (fun f _ _ => .ok f) n f (pos + 8 + 4) with e | ⟨f₁, pos₁, rest⟩
    · rw [hrest] at h
      cases h
    · rw [hrest] at h
      cases h
      obtain ⟨rfl, rfl, rfl, hkeys⟩ := ih hrest
      refine ⟨rfl, ?_, rfl, hkey, hdim, hok, hkeys⟩
      rw [List.length_cons]
      omega

/-- The walk of the keys, when nothing is done with them. -/
theorem HasKeys.keyLoop_eq {body : File → ℕ → UInt64 → Except Abort File} {f : File} {pos : ℕ}
    {keys : List (UInt64 × ℤ)} (h : HasKeys f pos keys)
    (hbody : ∀ p ∈ keys, ∀ pos, body f pos p.1 = .ok f) :
    keyLoop body keys.length f pos = .ok (f, pos + 12 * keys.length, keys) := by
  induction keys generalizing pos with
  | nil => rfl
  | cons p keys ih =>
    obtain ⟨hkey, hdim, hok, hrest⟩ := h
    have htail := ih hrest fun q hq => hbody q (List.mem_cons_of_mem p hq)
    rw [List.length_cons, keyLoop]
    simp only [hkey, hdim, if_pos hok, hbody p List.mem_cons_self, htail]
    rw [Nat.mul_succ, Nat.add_assoc, Nat.add_comm 12]

theorem hasRequests_of_requestLoop {n : ℕ} {f f' : File} {pos pos' : ℕ} {requests : List Request}
    (h : requestLoop (fun f _ _ => .ok f) n f pos = .ok (f', pos', requests)) :
    f' = f ∧ requests.length = n ∧ HasRequests f pos requests := by
  induction n generalizing pos requests with
  | zero =>
    cases h
    exact ⟨rfl, rfl, trivial⟩
  | succ n ih =>
    rw [requestLoop] at h
    rcases hcount : readInt f pos with e | ⟨nrKeys, pos₁⟩
    · rw [hcount] at h
      cases h
    obtain rfl := pos_of_readInt hcount
    rcases hkeys : keyLoop (fun f _ _ => .ok f) nrKeys.toNat f (pos + 4) with e | ⟨f₁, pos₁, keys⟩
    · simp only [hcount, hkeys] at h
      cases h
    obtain ⟨rfl, rfl, hlength, hhas⟩ := hasKeys_of_keyLoop hkeys
    simp only [hcount, hkeys] at h
    rcases hrest : requestLoop (fun f _ _ => .ok f) n f₁ (pos + 4 + 12 * keys.length) with
      e | ⟨f₂, pos₂, rest⟩
    · rw [hrest] at h
      cases h
    · rw [hrest] at h
      cases h
      obtain ⟨rfl, rfl, hhas'⟩ := ih hrest
      refine ⟨rfl, rfl, hcount, hlength, hhas, ?_⟩
      rw [Request.length, ← Nat.add_assoc]
      exact hhas'

theorem HasRequests.requestLoop_eq {body : File → ℕ → UInt64 → Except Abort File} {f : File}
    {pos : ℕ} {requests : List Request} (h : HasRequests f pos requests)
    (hbody : ∀ r ∈ requests, ∀ p ∈ r.keys, ∀ pos, body f pos p.1 = .ok f) :
    requestLoop body requests.length f pos = .ok (f, endOf pos requests, requests) := by
  induction requests generalizing pos with
  | nil => rfl
  | cons r requests ih =>
    obtain ⟨hcount, hlength, hkeys, hrest⟩ := h
    have hloop := hkeys.keyLoop_eq (hbody r List.mem_cons_self)
    have htail := ih hrest fun s hs => hbody s (List.mem_cons_of_mem r hs)
    rw [hlength] at hloop
    rw [Request.length, hlength, ← Nat.add_assoc] at htail
    rw [List.length_cons, requestLoop]
    simp only [hcount, hloop, htail]
    rw [endOf_cons, Request.length, hlength, ← Nat.add_assoc]

theorem Has.walk_eq {body : File → ℕ → UInt64 → Except Abort File} {f : File} {p : Parsed}
    (h : Has f p) (hbody : ∀ key ∈ p.keys, ∀ pos, body f pos key = .ok f) :
    walk body f = .ok (f, p) := by
  have hloop : requestLoop body p.requests.length f 4 =
      .ok (f, endOf 4 p.requests, p.requests) := h.requests.requestLoop_eq fun r hr q hq =>
    hbody q.1 (List.mem_flatMap.mpr ⟨r, hr, List.mem_map_of_mem hq⟩)
  rw [h.length] at hloop
  rw [walk, h.count]
  simp only [hloop]

/-- **What is parsed is what the file has.** -/
theorem parse_eq_ok_iff {f : File} {p : Parsed} : parse f = .ok p ↔ Has f p := by
  constructor
  · intro h
    rw [parse, walk] at h
    rcases hcount : readInt f 0 with e | ⟨nrRequest, pos⟩
    · rw [hcount] at h
      cases h
    obtain rfl := pos_of_readInt hcount
    rcases hloop : requestLoop (fun f _ _ => .ok f) nrRequest.toNat f (0 + 4) with
      e | ⟨f', pos', requests⟩
    · simp only [hcount, hloop] at h
      cases h
    · simp only [hcount, hloop] at h
      cases h
      obtain ⟨-, hlength, hhas⟩ := hasRequests_of_requestLoop hloop
      exact ⟨hcount, hlength, hhas⟩
  · intro h
    rw [parse, h.walk_eq fun _ _ _ => rfl]
    rfl

/-- **`Check`** passes when the keys are small enough. -/
theorem Has.check {f : File} {p : Parsed} (h : Has f p) {maxKey : ℕ}
    (hkeys : ∀ key ∈ p.keys, key.toNat < maxKey) : check maxKey f = .ok () := by
  rw [Dataset.check, h.walk_eq fun key hkey _ => if_pos (hkeys key hkey)]
  rfl

/-! ### Renumbering -/

section Renumber

variable {renumberMap : List (UInt64 × ℕ)} {number : UInt64 → ℕ}

/-- The map has a number for the key. -/
def Numbers (renumberMap : List (UInt64 × ℕ)) (number : UInt64 → ℕ) (key : UInt64) : Prop :=
  renumberMap.lookup key = some (number key) ∧ number key < 2 ^ 64

/-- The file after a number has been written over a key. -/
def File.writeKey (f : File) (pos number : ℕ) : File :=
  { f with bytes := Bytes.store f.bytes pos (Bytes.encode64 number) }

theorem File.writeKey_bytes (f : File) {pos x : ℕ} (number : ℕ) (h : x < pos ∨ pos + 8 ≤ x) :
    (f.writeKey pos number).bytes x = f.bytes x :=
  Bytes.store_apply_of_notMem h

theorem readUint64_writeKey {f : File} {pos pos' number : ℕ} {key : UInt64}
    (h : readUint64 f pos = .ok (key, pos')) (hnumber : number < 2 ^ 64) :
    readUint64 (f.writeKey pos number) pos = .ok (.ofNat number, pos + 8) := by
  rw [readUint64] at h ⊢
  split_ifs at h with hsize
  have hload : Bytes.load (f.writeKey pos number).bytes pos 8 = Bytes.encode64 number :=
    Bytes.load_store_self
  have hsize' : pos + 8 ≤ (f.writeKey pos number).size := hsize
  rw [if_pos hsize', hload, Bytes.decode_encode64 hnumber]

/-- The file `f'` differs from `f` at most between `lo` and `hi`. -/
structure Within (f f' : File) (lo hi : ℕ) : Prop where
  size : f'.size = f.size
  bytes : ∀ x, x < lo ∨ hi ≤ x → f'.bytes x = f.bytes x

theorem Within.sameOn {f f' : File} {lo hi a b : ℕ} (h : Within f f' lo hi) (hd : b ≤ lo ∨ hi ≤ a) :
    SameOn f f' a b :=
  ⟨h.size, fun x hx hx' => h.bytes x (by omega)⟩

/-- Renumbering the keys of a request. Each key is written before the next one is read, so the
induction carries the changed file along. -/
theorem HasKeys.renumber {f : File} {pos : ℕ} {keys : List (UInt64 × ℤ)} (h : HasKeys f pos keys)
    (hmap : ∀ p ∈ keys, Numbers renumberMap number p.1) :
    ∃ f', keyLoop (renumberKey renumberMap) keys.length f pos =
        .ok (f', pos + 12 * keys.length, keys) ∧
      Within f f' pos (pos + 12 * keys.length) ∧
      HasKeys f' pos (keys.map fun p => (.ofNat (number p.1), p.2)) := by
  induction keys generalizing f pos with
  | nil => exact ⟨f, rfl, ⟨rfl, fun _ _ => rfl⟩, trivial⟩
  | cons p keys ih =>
    obtain ⟨key, dim⟩ := p
    obtain ⟨hkey, hdim, hok, hrest⟩ := h
    obtain ⟨hlookup, hsmall⟩ := hmap _ List.mem_cons_self
    have hwrite : Within f (f.writeKey pos (number key)) pos (pos + 8) :=
      ⟨rfl, fun x hx => f.writeKey_bytes _ hx⟩
    have hbody : renumberKey renumberMap f pos key = .ok (f.writeKey pos (number key)) := by
      rw [renumberKey, hlookup]
      rfl
    obtain ⟨f', hloop, hwithin, hhas⟩ :=
      ih (hrest.congr (hwrite.sameOn (Or.inr (by omega)))) fun q hq =>
        hmap q (List.mem_cons_of_mem _ hq)
    refine ⟨f', ?_, ⟨hwithin.size.trans hwrite.size, fun x hx => ?_⟩, ?_, ?_, hok, hhas⟩
    · rw [List.length_cons, keyLoop]
      simp only [hkey, hdim, if_pos hok, hbody, hloop]
      rw [Nat.mul_succ, Nat.add_assoc, Nat.add_comm 12]
    · rw [List.length_cons] at hx
      rw [hwithin.bytes x (by omega), hwrite.bytes x (by omega)]
    · have hsame := hwithin.sameOn (a := pos) (b := pos + 12) (Or.inl le_rfl)
      rw [hsame.readUint64 le_rfl (by omega)]
      exact readUint64_writeKey hkey hsmall
    · have hsame := (hwrite.sameOn (a := pos + 8) (b := pos + 12) (Or.inr le_rfl)).trans
        (hwithin.sameOn (Or.inl le_rfl))
      rw [hsame.readInt le_rfl le_rfl]
      exact hdim

/-- Renumbering the requests. -/
theorem HasRequests.renumber {f : File} {pos : ℕ} {requests : List Request}
    (h : HasRequests f pos requests)
    (hmap : ∀ r ∈ requests, ∀ p ∈ r.keys, Numbers renumberMap number p.1) :
    ∃ f' pos', requestLoop (renumberKey renumberMap) requests.length f pos =
        .ok (f', pos', requests) ∧
      Within f f' pos (endOf pos requests) ∧
      HasRequests f' pos (requests.map (Request.mapKeys number)) := by
  induction requests generalizing f pos with
  | nil => exact ⟨f, pos, rfl, ⟨rfl, fun _ _ => rfl⟩, trivial⟩
  | cons r requests ih =>
    obtain ⟨hcount, hlength, hkeys, hrest⟩ := h
    obtain ⟨f₁, hloop, hwithin, hhas⟩ := hkeys.renumber (hmap r List.mem_cons_self)
    have hend : pos + 4 + 12 * r.keys.length = pos + r.length := by
      rw [Request.length]
      omega
    rw [hend] at hloop hwithin
    obtain ⟨f', pos', hloop', hwithin', hhas'⟩ :=
      ih (hrest.congr (hwithin.sameOn (Or.inr le_rfl))) fun s hs =>
        hmap s (List.mem_cons_of_mem r hs)
    have hle := le_endOf (pos + r.length) requests
    have hlen : (Request.mapKeys number r).length = r.length := by
      rw [Request.length, Request.mapKeys, List.length_map, Request.length]
    refine ⟨f', pos', ?_, ⟨hwithin'.size.trans hwithin.size, fun x hx => ?_⟩, ?_, ?_, ?_, ?_⟩
    · rw [hlength] at hloop
      rw [List.length_cons, requestLoop]
      simp only [hcount, hloop, hloop']
    · rw [endOf_cons] at hx
      rw [hwithin'.bytes x (by omega), hwithin.bytes x (by omega)]
    · have hsame := (hwithin.sameOn (a := pos) (b := pos + 4) (Or.inl le_rfl)).trans
        (hwithin'.sameOn (Or.inl (by omega)))
      rw [hsame.readInt le_rfl le_rfl]
      exact hcount
    · rw [Request.mapKeys, List.length_map]
      exact hlength
    · refine hhas.congr (hwithin'.sameOn (Or.inl ?_))
      rw [List.length_map, ← hend]
    · rw [hlen]
      exact hhas'

/-- **`RenumberID`** of a file whose keys are in the map. -/
theorem Has.renumberID {f : File} {p : Parsed} (h : Has f p)
    (hmap : ∀ key ∈ p.keys, Numbers renumberMap number key) :
    ∃ f', renumberID renumberMap f = .ok (f', p.fileMeta) ∧ Has f' (p.mapKeys number) := by
  obtain ⟨f', pos', hloop, hwithin, hhas⟩ := h.requests.renumber fun r hr q hq =>
    hmap q.1 (List.mem_flatMap.mpr ⟨r, hr, List.mem_map_of_mem hq⟩)
  rw [h.length] at hloop
  refine ⟨f', ?_, ?_, ?_, hhas⟩
  · rw [Dataset.renumberID, walk, h.count]
    simp only [hloop]
    rfl
  · rw [(hwithin.sameOn (a := 0) (b := 4) (Or.inl le_rfl)).readInt le_rfl le_rfl]
    exact h.count
  · rw [Parsed.mapKeys, List.length_map]
    exact h.length

end Renumber

end Dataset

end PetPS
