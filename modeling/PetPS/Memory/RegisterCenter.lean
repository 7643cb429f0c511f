import Mathlib.Data.List.Basic
import Mathlib.Data.List.Range
import PetPS.Basic
import PetPS.Lib.CString
import PetPS.Lib.Run

/-!
# `PMMmapRegisterCenter`

`shm_file.h`: the device holds a metadata block with a table of named regions, and behind it the
regions. `Register` looks a name up and otherwise appends an entry at a bump pointer; the pointer is
not stored on the device but starts at the data start in every process and is moved past the regions
that the process registers.

A call that fails a `CHECK` ends the process, and what it has written to the device stays. The table
has 1000 entries; the entry past the last is written before the check of the count, into the rest of
the block.

What the `memset` of a region that reaches past the mapping does depends on the rest of the address
space: it faults if nothing is mapped there, and zeroes other memory if there are `behind` bytes of
it. `Center.registerOver` has this as a parameter, and `Center.register` is the case of nothing
behind.

## Main results

* `findIfExists_eq_some`, `findIfExists_eq_none` — what a lookup finds
* `registerOver_cases`, `registerOver_mismatch` — what a call can do
-/

namespace PetPS

/-- A file name: bytes without a null byte. -/
structure FileName where
  chars : List UInt8
  noNul : 0 ∉ chars
  deriving DecidableEq

namespace RegisterCenter

/-- `MetaBlock::MmMeta`. -/
structure MmMeta where
  /-- `file_name_`, 64 bytes. -/
  fileName : List UInt8
  /-- `offset_`. -/
  offset : ℕ
  /-- `size_`. -/
  size : ℕ
  /-- `magic_`. -/
  magic : ℕ

/-- `MetaBlock`. -/
structure MetaBlock where
  /-- `magic_`. -/
  magic : ℕ
  /-- `mmMetaNr_`. -/
  mmMetaNr : ℕ
  /-- `mmMeta_`. -/
  mmMeta : ℕ → MmMeta

/-- `MM_META_NR`. -/
def mmMetaMax : ℕ := 1000

/-- `sizeof(MetaBlock)`. -/
def metaBlockSize : ℕ := 2 * 4096 * 4096

/-- `align`. -/
def align : ℕ := 2 * 1024 * 1024

/-- `dax_mm_size_`. -/
def daxMmSize : ℕ := 140 * 1024 * 1024 * 1024

/-- The magic number of an entry. -/
def entryMagic : ℕ := 0x66666666

/-- The magic number of the block. -/
def blockMagic : ℕ := 0xdeadbeef

/-- The constructor of `MetaBlock`, on zeroed memory. -/
def MetaBlock.new : MetaBlock where
  magic := blockMagic
  mmMetaNr := 0
  mmMeta i := ⟨List.replicate 64 0, 0, 0, if i < mmMetaMax then entryMagic else 0⟩

/-- `PMMmapRegisterCenter` of one process, with the block it has mapped. -/
structure Center where
  /-- `metaBlock_`. -/
  metaBlock : MetaBlock
  /-- `shmfile_mmap_addr_start_`. -/
  mmapAddrStart : ℕ
  /-- `shmfile_mmap_addr_`. -/
  mmapAddr : ℕ
  /-- The static `flag` of `ReInitialize`. -/
  flag : Bool

/-- `shmfile_mmap_data_addr_start_`. -/
def Center.dataStart (c : Center) : ℕ := c.mmapAddrStart + metaBlockSize

/-- The constructor, for a device mapped at `data`. -/
def Center.construct (metaBlock : MetaBlock) (data : ℕ) : Center where
  metaBlock
  mmapAddrStart := data
  mmapAddr := data + metaBlockSize
  flag := false

/-- `Valid`. -/
def MetaBlock.valid (b : MetaBlock) : Bool :=
  b.magic = blockMagic && (List.range mmMetaMax).all fun i => (b.mmMeta i).magic = entryMagic

/-- `ReInitialize`. -/
def Center.reInitialize (c : Center) : Center × Except Abort Unit :=
  if c.flag then (c, .error .check)
  else
    let c := { c with flag := true, metaBlock := MetaBlock.new }
    (c, if c.metaBlock.valid then .ok () else .error .check)

/-- The name comparison of `FindIfExists`. -/
def MmMeta.named (item : MmMeta) (name : FileName) : Bool :=
  CString.strncmpEq item.fileName name.chars 64

/-- `FindIfExists`. -/
def MetaBlock.findIfExists (b : MetaBlock) (name : FileName) : Except Abort (Option ℕ) :=
  match (List.range b.mmMetaNr).find? fun i => (b.mmMeta i).named name with
  | none => .ok none
  | some i => if (b.mmMeta i).magic = entryMagic then .ok (some i) else .error .check

/-- The entry that `append_register` writes. -/
def MetaBlock.append (b : MetaBlock) (name : FileName) (offset size : ℕ) : MetaBlock :=
  let item := b.mmMeta b.mmMetaNr
  let fileName := CString.strncpy item.fileName name.chars 50
  { b with
    mmMeta := Function.update b.mmMeta b.mmMetaNr { item with fileName, offset, size }
    mmMetaNr := b.mmMetaNr + 1 }

/-- `new_size`: the size in multiples of `align`. -/
def newSize (size : ℕ) : ℕ := (size + align - 1) % 2 ^ 64 / align * align

/-- `append_register`, with `behind` bytes of other memory mapped behind the device; `memset` past
their end is a fault. -/
def Center.appendRegisterOver (behind : ℕ) (c : Center) (name : FileName) (size : ℕ) :
    Center × Except Abort ℕ :=
  if size = 0 then (c, .error .check)
  else
    let ret := c.mmapAddr
    let c' := { c with mmapAddr := (ret + newSize size) % 2 ^ 64 }
    if ret < c.dataStart then (c', .error .check)
    else if c.dataStart + daxMmSize ≤ (ret + size) % 2 ^ 64 then (c', .error .check)
    else if c.mmapAddrStart + daxMmSize + behind < ret + size then (c', .error .fault)
    else
      ({ c' with metaBlock := c.metaBlock.append name (ret - c.dataStart) size },
        if c.metaBlock.mmMetaNr + 1 ≤ mmMetaMax then .ok ret else .error .check)

/-- `append_register`, with nothing mapped behind the device. -/
def Center.appendRegister (c : Center) (name : FileName) (size : ℕ) : Center × Except Abort ℕ :=
  c.appendRegisterOver 0 name size

/-- `Register`, with `behind` bytes of other memory mapped behind the device: the address of the
region, and whether the call has zeroed it. -/
def Center.registerOver (behind : ℕ) (c : Center) (name : FileName) (size : ℕ) :
    Center × Except Abort (ℕ × Bool) :=
  match c.metaBlock.findIfExists name with
  | .error e => (c, .error e)
  | .ok none =>
    let (c, ret) := c.appendRegisterOver behind name size
    (c, ret.map (·, true))
  | .ok (some i) =>
    let item := c.metaBlock.mmMeta i
    if item.size ≠ size then
      match c.reInitialize with
      | (c, .error e) => (c, .error e)
      | (c, .ok ()) =>
        let (c, ret) := c.appendRegisterOver behind name size
        (c, ret.map (·, true))
    else
      let c := { c with
        mmapAddr := max c.mmapAddr ((c.dataStart + item.offset + item.size) % 2 ^ 64) }
      (c, .ok (c.dataStart + item.offset, false))

/-- `Register`, with nothing mapped behind the device. -/
def Center.register (c : Center) (name : FileName) (size : ℕ) : Center × Except Abort (ℕ × Bool) :=
  c.registerOver 0 name size

/-! ### Names -/

/-- The last 14 bytes of every name are null: nothing ever writes them. -/
def MetaBlock.Tailed (b : MetaBlock) : Prop :=
  ∀ i, (b.mmMeta i).fileName.drop 50 = List.replicate 14 0

theorem tailed_new : MetaBlock.new.Tailed := fun _ => rfl

theorem MetaBlock.Tailed.append {b : MetaBlock} (h : b.Tailed) (name : FileName) (offset size : ℕ) :
    (b.append name offset size).Tailed := by
  intro i
  by_cases hi : i = b.mmMetaNr
  · subst hi
    simp only [MetaBlock.append, Function.update_self]
    rw [CString.drop_strncpy]
    exact h _
  · simp only [MetaBlock.append, Function.update_of_ne hi]
    exact h i

/-- The entry holds the first 50 bytes of `name`. -/
def MmMeta.Holds (item : MmMeta) (name : FileName) : Prop :=
  item.fileName = name.chars.take 50 ++ List.replicate (50 - name.chars.length + 14) 0

/-- **Stored with 50 bytes, compared with 64.** -/
theorem MmMeta.Holds.named_iff {item : MmMeta} {name : FileName} (h : item.Holds name)
    (name' : FileName) :
    item.named name' = true ↔ name.chars.take 50 = name'.chars.take 64 := by
  have hnul : 0 ∉ name.chars.take 50 := fun h0 => name.noNul (List.mem_of_mem_take h0)
  rw [MmMeta.named, h, CString.strncmpEq_iff 64 _ hnul name'.noNul, List.take_take]
  rfl

/-- A name of at most 50 bytes is found under itself, and under no other such name. -/
theorem MmMeta.Holds.named_iff_eq {item : MmMeta} {name name' : FileName} (h : item.Holds name)
    (hlen : name.chars.length ≤ 50) (hlen' : name'.chars.length ≤ 50) :
    item.named name' = true ↔ name = name' := by
  rw [h.named_iff, List.take_of_length_le hlen, List.take_of_length_le (by omega)]
  constructor
  · rintro hchars
    cases name
    cases name'
    cases hchars
    rfl
  · rintro rfl
    rfl

/-- **A longer name is never found.** -/
theorem MmMeta.Holds.not_named {item : MmMeta} {name name' : FileName} (h : item.Holds name)
    (hlen' : 50 < name'.chars.length) : item.named name' = false := by
  rw [Bool.eq_false_iff, Ne, h.named_iff]
  intro heq
  have hlen := congrArg List.length heq
  rw [List.length_take, List.length_take] at hlen
  omega

theorem holds_append {b : MetaBlock} (h : b.Tailed) (name : FileName) (offset size : ℕ) :
    ((b.append name offset size).mmMeta b.mmMetaNr).Holds name := by
  rw [MmMeta.Holds]
  simp only [MetaBlock.append, Function.update_self]
  exact CString.strncpy_eq (h _)

theorem mmMeta_append {b : MetaBlock} {name : FileName} {offset size i : ℕ} (hi : i < b.mmMetaNr) :
    (b.append name offset size).mmMeta i = b.mmMeta i := by
  simp only [MetaBlock.append, Function.update_of_ne hi.ne]

theorem mmMeta_append_self (b : MetaBlock) (name : FileName) (offset size : ℕ) :
    ((b.append name offset size).mmMeta b.mmMetaNr).offset = offset ∧
      ((b.append name offset size).mmMeta b.mmMetaNr).size = size ∧
      ((b.append name offset size).mmMeta b.mmMetaNr).magic = (b.mmMeta b.mmMetaNr).magic := by
  simp only [MetaBlock.append, Function.update_self, and_self]

/-! ### Lookups -/

/-- Entry `i` is the first one with the name. -/
structure MetaBlock.First (b : MetaBlock) (name : FileName) (i : ℕ) : Prop where
  lt : i < b.mmMetaNr
  named : (b.mmMeta i).named name = true
  before : ∀ j < i, (b.mmMeta j).named name = false

theorem find_eq_some {b : MetaBlock} {name : FileName} {i : ℕ} :
    ((List.range b.mmMetaNr).find? fun i => (b.mmMeta i).named name) = some i ↔ b.First name i := by
  rw [List.find?_range_eq_some]
  constructor
  · rintro ⟨hnamed, hlt, hbefore⟩
    exact ⟨List.mem_range.mp hlt, hnamed, fun j hj => by simpa using hbefore j hj⟩
  · intro h
    exact ⟨h.named, List.mem_range.mpr h.lt, fun j hj => by simp [h.before j hj]⟩

/-- A lookup that finds an entry finds the first one with the name. -/
theorem findIfExists_eq_some {b : MetaBlock} {name : FileName} {i : ℕ} :
    b.findIfExists name = .ok (some i) ↔ b.First name i ∧ (b.mmMeta i).magic = entryMagic := by
  rw [MetaBlock.findIfExists, ← find_eq_some]
  cases hfind : (List.range b.mmMetaNr).find? fun i => (b.mmMeta i).named name with
  | none => simp
  | some j =>
    by_cases hmagic : (b.mmMeta j).magic = entryMagic
    · simp only [if_pos hmagic, Except.ok.injEq, Option.some.injEq]
      constructor
      · rintro rfl
        exact ⟨rfl, hmagic⟩
      · exact fun h => h.1
    · simp only [if_neg hmagic, reduceCtorEq, Option.some.injEq, false_iff]
      rintro ⟨rfl, h⟩
      exact hmagic h

/-- A lookup that finds nothing has looked at every entry. -/
theorem findIfExists_eq_none {b : MetaBlock} {name : FileName} :
    b.findIfExists name = .ok none ↔ ∀ i < b.mmMetaNr, (b.mmMeta i).named name = false := by
  rw [MetaBlock.findIfExists]
  cases hfind : (List.range b.mmMetaNr).find? fun i => (b.mmMeta i).named name with
  | none =>
    rw [List.find?_eq_none] at hfind
    simp only [true_iff]
    intro i hi
    simpa using hfind i (List.mem_range.mpr hi)
  | some j =>
    have hj := find_eq_some.mp hfind
    have hne : (if (b.mmMeta j).magic = entryMagic then Except.ok (some j)
        else Except.error Abort.check) ≠ .ok none := by
      split_ifs <;> simp
    simp only [hne, false_iff, not_forall]
    exact ⟨j, hj.lt, by simp [hj.named]⟩

/-! ### Calls -/

/-- The center after an entry has been appended. -/
def Center.appended (c : Center) (name : FileName) (size : ℕ) : Center :=
  { c with
    mmapAddr := (c.mmapAddr + newSize size) % 2 ^ 64
    metaBlock := c.metaBlock.append name (c.mmapAddr - c.dataStart) size }

/-- A region at the bump pointer passes the checks, and its bytes are mapped. -/
structure Center.Admits (behind : ℕ) (c : Center) (size : ℕ) : Prop where
  pos : 0 < size
  low : c.dataStart ≤ c.mmapAddr
  limit : (c.mmapAddr + size) % 2 ^ 64 < c.dataStart + daxMmSize
  mapped : c.mmapAddr + size ≤ c.mmapAddrStart + daxMmSize + behind

/-- What `append_register` can do: fail and leave the table, or append. -/
theorem appendRegisterOver_cases (behind : ℕ) (c : Center) (name : FileName) (size : ℕ) :
    ((c.appendRegisterOver behind name size).1.metaBlock = c.metaBlock ∧
      ∃ e, (c.appendRegisterOver behind name size).2 = .error e) ∨
    (c.Admits behind size ∧ c.appendRegisterOver behind name size = (c.appended name size,
      if c.metaBlock.mmMetaNr + 1 ≤ mmMetaMax then .ok c.mmapAddr else .error .check)) := by
  rw [Center.appendRegisterOver]
  by_cases hsize : size = 0
  · rw [if_pos hsize]
    exact Or.inl ⟨rfl, _, rfl⟩
  rw [if_neg hsize]
  by_cases hlow : c.mmapAddr < c.dataStart
  · simp only [if_pos hlow]
    exact Or.inl ⟨trivial, _, rfl⟩
  by_cases hhigh : c.dataStart + daxMmSize ≤ (c.mmapAddr + size) % 2 ^ 64
  · simp only [if_neg hlow, if_pos hhigh]
    exact Or.inl ⟨trivial, _, rfl⟩
  by_cases hfault : c.mmapAddrStart + daxMmSize + behind < c.mmapAddr + size
  · simp only [if_neg hlow, if_neg hhigh, if_pos hfault]
    exact Or.inl ⟨trivial, _, rfl⟩
  · simp only [if_neg hlow, if_neg hhigh, if_neg hfault]
    exact Or.inr ⟨⟨Nat.pos_of_ne_zero hsize, not_lt.mp hlow, not_le.mp hhigh, not_lt.mp hfault⟩,
      rfl⟩

theorem appendRegister_cases (c : Center) (name : FileName) (size : ℕ) :
    ((c.appendRegister name size).1.metaBlock = c.metaBlock ∧
      ∃ e, (c.appendRegister name size).2 = .error e) ∨
    (0 < size ∧ c.dataStart ≤ c.mmapAddr ∧ c.mmapAddr + size ≤ c.mmapAddrStart + daxMmSize ∧
      c.appendRegister name size = (c.appended name size,
        if c.metaBlock.mmMetaNr + 1 ≤ mmMetaMax then .ok c.mmapAddr else .error .check)) := by
  rcases appendRegisterOver_cases 0 c name size with hfail | ⟨hadmits, heq⟩
  · exact Or.inl hfail
  · exact Or.inr ⟨hadmits.pos, hadmits.low, hadmits.mapped, heq⟩

/-- The lookup of the call finds an item of another size, so that it reinitializes the device. -/
def Center.mismatch (c : Center) (name : FileName) (size : ℕ) : Bool :=
  match c.metaBlock.findIfExists name with
  | .ok (some i) => (c.metaBlock.mmMeta i).size ≠ size
  | _ => false

/-- The center after the region of entry `i` has been found. -/
def Center.moved (c : Center) (i : ℕ) : Center :=
  let item := c.metaBlock.mmMeta i
  { c with mmapAddr := max c.mmapAddr ((c.dataStart + item.offset + item.size) % 2 ^ 64) }

/-- What `Register` does where its lookup does not find an item of another size. -/
theorem registerOver_cases (behind : ℕ) {c : Center} {name : FileName} {size : ℕ}
    (h : c.mismatch name size = false) :
    (∃ e, c.registerOver behind name size = (c, .error e)) ∨
    (∃ i, c.metaBlock.findIfExists name = .ok (some i) ∧ (c.metaBlock.mmMeta i).size = size ∧
      c.registerOver behind name size =
        (c.moved i, .ok (c.dataStart + (c.metaBlock.mmMeta i).offset, false))) ∨
    (c.metaBlock.findIfExists name = .ok none ∧
      c.registerOver behind name size = ((c.appendRegisterOver behind name size).1,
        (c.appendRegisterOver behind name size).2.map (·, true))) := by
  rw [Center.mismatch] at h
  rw [Center.registerOver]
  cases hfind : c.metaBlock.findIfExists name with
  | error e => exact Or.inl ⟨e, rfl⟩
  | ok found =>
    cases found with
    | none => exact Or.inr (Or.inr ⟨rfl, rfl⟩)
    | some i =>
      rw [hfind] at h
      have hsize : (c.metaBlock.mmMeta i).size = size := by simpa using h
      refine Or.inr (Or.inl ⟨i, rfl, hsize, ?_⟩)
      simp only [hsize, ne_eq, not_true_eq_false, if_false, Center.moved]
      rfl

/-- Where it does, the device is reinitialized, or the call fails. -/
theorem registerOver_mismatch (behind : ℕ) {c : Center} {name : FileName} {size : ℕ}
    (h : c.mismatch name size = true) :
    (∃ e, c.registerOver behind name size = (c, .error e)) ∨
      c.registerOver behind name size =
        (({ c with flag := true, metaBlock := MetaBlock.new } :
          Center).appendRegisterOver behind name size |>.1,
        (({ c with flag := true, metaBlock := MetaBlock.new } :
          Center).appendRegisterOver behind name size).2.map
          (·, true)) := by
  rw [Center.mismatch] at h
  rw [Center.registerOver]
  cases hfind : c.metaBlock.findIfExists name with
  | error e => rw [hfind] at h; cases h
  | ok found =>
    cases found with
    | none => rw [hfind] at h; cases h
    | some i =>
      rw [hfind] at h
      have hsize : (c.metaBlock.mmMeta i).size ≠ size := by simpa using h
      have hvalid : MetaBlock.new.valid = true := by
        rw [MetaBlock.valid, Bool.and_eq_true, List.all_eq_true]
        refine ⟨decide_eq_true rfl, fun i hi => decide_eq_true ?_⟩
        exact if_pos (List.mem_range.mp hi)
      simp only [if_pos hsize, Center.reInitialize, hvalid]
      cases c.flag with
      | true => exact Or.inl ⟨_, rfl⟩
      | false => exact Or.inr rfl

theorem register_cases {c : Center} {name : FileName} {size : ℕ}
    (h : c.mismatch name size = false) :
    (∃ e, c.register name size = (c, .error e)) ∨
    (∃ i, c.metaBlock.findIfExists name = .ok (some i) ∧ (c.metaBlock.mmMeta i).size = size ∧
      c.register name size =
        (c.moved i, .ok (c.dataStart + (c.metaBlock.mmMeta i).offset, false))) ∨
    (c.metaBlock.findIfExists name = .ok none ∧
      c.register name size =
        ((c.appendRegister name size).1, (c.appendRegister name size).2.map (·, true))) :=
  registerOver_cases 0 h

theorem register_mismatch {c : Center} {name : FileName} {size : ℕ}
    (h : c.mismatch name size = true) :
    (∃ e, c.register name size = (c, .error e)) ∨
      c.register name size =
        (({ c with flag := true, metaBlock := MetaBlock.new } :
          Center).appendRegister name size |>.1,
        (({ c with flag := true, metaBlock := MetaBlock.new } :
          Center).appendRegister name size).2.map
          (·, true)) :=
  registerOver_mismatch 0 h

end RegisterCenter

end PetPS
