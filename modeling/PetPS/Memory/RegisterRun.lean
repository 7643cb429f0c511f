import Mathlib.Data.List.Basic
import PetPS.Lib.Run
import PetPS.Memory.RegisterCenter

/-!
# Processes over one device

A history of the device: processes start one after another, each mapping the device somewhere and
calling `Register`; a failed check ends the process that fails it.

## Main results

* `regions_disjoint` — recorded regions do not overlap, as long as a new name is registered
  only when the bump pointer is past every recorded region
* `register_overlap` — otherwise they do
* `register_found_again` — a region is found again exactly when its name has at most 50 bytes
* `register_forgets_server_path` — a path that the server builds has more
-/

namespace PetPS

namespace RegisterCenter

/-- The device and the process that uses it. -/
structure State where
  center : Center
  /-- The process has not failed. -/
  alive : Bool
  /-- What its calls have returned: name, offset, size. -/
  returned : List (FileName × ℕ × ℕ)

/-- What can happen. -/
inductive Act
  /-- A process maps the device at `data`. -/
  | start (data : ℕ)
  /-- The process calls `Register`. -/
  | register (name : FileName) (size : ℕ)

/-- A device that `ReInitialize` has been called on, and no process. -/
def State.initial : State := ⟨Center.construct MetaBlock.new 0, false, []⟩

/-- A call of `Register`. -/
def State.call (s : State) (name : FileName) (size : ℕ) : State :=
  match s.center.register name size with
  | (c, .ok (ret, _)) => ⟨c, true, s.returned ++ [(name, ret - c.dataStart, size)]⟩
  | (c, .error _) => ⟨c, false, s.returned⟩

/-- One step, if it is possible. -/
def step (s : State) : Act → Option State
  | .start data =>
    if data + daxMmSize ≤ userSpace then
      some ⟨Center.construct s.center.metaBlock data, true, []⟩
    else none
  | .register name size => if s.alive then some (s.call name size) else none

/-! ### Regions that do not overlap -/

/-- `[offset, offset + size)` and `[offset', offset' + size')` have no byte in common. -/
def Apart (offset size offset' size' : ℕ) : Prop :=
  offset + size ≤ offset' ∨ offset' + size' ≤ offset

instance (o s o' s' : ℕ) : Decidable (Apart o s o' s') :=
  inferInstanceAs (Decidable (_ ∨ _))

/-- Every call has a name of at most 50 bytes and the size of that name. -/
def Sized (sizeOf : FileName → ℕ) : Act → Prop
  | .start _ => True
  | .register name size => name.chars.length ≤ 50 ∧ size = sizeOf name

/-- A name that is not recorded is registered only when the bump pointer is at or past the end of
every recorded region. -/
def Past (s : State) : Act → Prop
  | .start _ => True
  | .register name _ =>
    (∀ i < s.center.metaBlock.mmMetaNr, (s.center.metaBlock.mmMeta i).named name = false) →
    ∀ i < s.center.metaBlock.mmMetaNr, s.center.dataStart + (s.center.metaBlock.mmMeta i).offset +
      (s.center.metaBlock.mmMeta i).size ≤ s.center.mmapAddr

instance (s : State) : ∀ a, Decidable (Past s a)
  | .start _ => inferInstanceAs (Decidable True)
  | .register name _ => inferInstanceAs (Decidable
      ((∀ i < s.center.metaBlock.mmMetaNr, (s.center.metaBlock.mmMeta i).named name = false) → _))

/-- The recorded regions. -/
structure TableInv (sizeOf : FileName → ℕ) (b : MetaBlock) : Prop where
  tailed : b.Tailed
  /-- Entries hold names of at most 50 bytes, with their sizes. -/
  holds : ∀ i < b.mmMetaNr, ∃ name : FileName, name.chars.length ≤ 50 ∧ (b.mmMeta i).Holds name ∧
    (b.mmMeta i).size = sizeOf name
  /-- Regions lie in the mapping. -/
  inside : ∀ i < b.mmMetaNr, metaBlockSize + (b.mmMeta i).offset + (b.mmMeta i).size ≤ daxMmSize
  /-- And do not overlap. -/
  apart : ∀ i j, i < j → j < b.mmMetaNr → Apart (b.mmMeta i).offset (b.mmMeta i).size
    (b.mmMeta j).offset (b.mmMeta j).size

/-- What holds in a history. -/
structure Inv (sizeOf : FileName → ℕ) (s : State) : Prop where
  table : TableInv sizeOf s.center.metaBlock
  /-- Calls returned recorded regions. -/
  returned : ∀ x ∈ s.returned, ∃ i < s.center.metaBlock.mmMetaNr, x.1.chars.length ≤ 50 ∧
    (s.center.metaBlock.mmMeta i).Holds x.1 ∧ (s.center.metaBlock.mmMeta i).offset = x.2.1 ∧
    (s.center.metaBlock.mmMeta i).size = x.2.2

theorem tableInv_new (sizeOf : FileName → ℕ) : TableInv sizeOf MetaBlock.new where
  tailed := tailed_new
  holds i hi := absurd hi (Nat.not_lt_zero i)
  inside i hi := absurd hi (Nat.not_lt_zero i)
  apart _ j _ hj := absurd hj (Nat.not_lt_zero j)

theorem inv_initial (sizeOf : FileName → ℕ) : Inv sizeOf State.initial :=
  ⟨tableInv_new sizeOf, fun _ hx => absurd hx List.not_mem_nil⟩

/-- A name is recorded with its own size. -/
theorem TableInv.mismatch {sizeOf : FileName → ℕ} {c : Center} (h : TableInv sizeOf c.metaBlock)
    {name : FileName} (hlen : name.chars.length ≤ 50) : c.mismatch name (sizeOf name) = false := by
  rw [Center.mismatch]
  cases hfind : c.metaBlock.findIfExists name with
  | error e => rfl
  | ok found =>
    cases found with
    | none => rfl
    | some i =>
      have hfirst := (findIfExists_eq_some.mp hfind).1
      obtain ⟨name', hlen', hholds, hsize⟩ := h.holds i hfirst.lt
      obtain rfl := (hholds.named_iff_eq hlen' hlen).mp hfirst.named
      simp [hsize]

theorem TableInv.append {sizeOf : FileName → ℕ} {b : MetaBlock} (h : TableInv sizeOf b)
    {name : FileName} {offset : ℕ} (hlen : name.chars.length ≤ 50)
    (hinside : metaBlockSize + offset + sizeOf name ≤ daxMmSize)
    (hpast : ∀ i < b.mmMetaNr, (b.mmMeta i).offset + (b.mmMeta i).size ≤ offset) :
    TableInv sizeOf (b.append name offset (sizeOf name)) := by
  obtain ⟨hoff, hsize, -⟩ := mmMeta_append_self b name offset (sizeOf name)
  have hcases : ∀ i < (b.append name offset (sizeOf name)).mmMetaNr,
      i < b.mmMetaNr ∨ i = b.mmMetaNr := fun i hi => Nat.lt_succ_iff_lt_or_eq.mp hi
  refine ⟨h.tailed.append name offset _, fun i hi => ?_, fun i hi => ?_, fun i j hij hj => ?_⟩
  · rcases hcases i hi with hi | rfl
    · rw [mmMeta_append hi]
      exact h.holds i hi
    · exact ⟨name, hlen, holds_append h.tailed name offset _, hsize⟩
  · rcases hcases i hi with hi | rfl
    · rw [mmMeta_append hi]
      exact h.inside i hi
    · rw [hoff, hsize]
      exact hinside
  · rcases hcases j hj with hj | rfl
    · rw [mmMeta_append hj, mmMeta_append (hij.trans hj)]
      exact h.apart i j hij hj
    · rw [mmMeta_append hij, hoff]
      exact Or.inl (hpast i hij)

/-- Entries stay when one is appended, so what was returned is still recorded. -/
theorem Inv.returned_append {sizeOf : FileName → ℕ} {s : State} (h : Inv sizeOf s) {name : FileName}
    {offset size : ℕ} {x : FileName × ℕ × ℕ} (hx : x ∈ s.returned) :
    ∃ i < (s.center.metaBlock.append name offset size).mmMetaNr, x.1.chars.length ≤ 50 ∧
      ((s.center.metaBlock.append name offset size).mmMeta i).Holds x.1 ∧
      ((s.center.metaBlock.append name offset size).mmMeta i).offset = x.2.1 ∧
      ((s.center.metaBlock.append name offset size).mmMeta i).size = x.2.2 := by
  obtain ⟨i, hi, hrest⟩ := h.returned x hx
  refine ⟨i, Nat.lt_succ_of_lt hi, ?_⟩
  rw [mmMeta_append hi]
  exact hrest

/-- A call keeps the regions apart. -/
theorem Inv.call {sizeOf : FileName → ℕ} {s : State} (h : Inv sizeOf s) {name : FileName}
    (hlen : name.chars.length ≤ 50) (hpast : Past s (.register name (sizeOf name))) :
    Inv sizeOf (s.call name (sizeOf name)) := by
  rw [State.call]
  rcases register_cases (h.table.mismatch hlen) with ⟨e, hreg⟩ | ⟨i, hfind, hsize, hreg⟩ |
    ⟨hnone, hreg⟩
  · rw [hreg]
    exact ⟨h.table, h.returned⟩
  · rw [hreg]
    refine ⟨h.table, fun x hx => ?_⟩
    rcases List.mem_append.mp hx with hx | hx
    · exact h.returned x hx
    · have hfirst := (findIfExists_eq_some.mp hfind).1
      obtain ⟨name', hlen', hholds, -⟩ := h.table.holds i hfirst.lt
      obtain rfl := (hholds.named_iff_eq hlen' hlen).mp hfirst.named
      rw [List.mem_singleton.mp hx]
      exact ⟨i, hfirst.lt, hlen, hholds, (Nat.add_sub_cancel_left _ _).symm, hsize⟩
  · rw [hreg]
    rcases appendRegister_cases s.center name (sizeOf name) with ⟨hsame, e, herr⟩ |
      ⟨-, hlow, hhigh, happ⟩
    · rw [herr]
      exact ⟨hsame ▸ h.table, hsame ▸ h.returned⟩
    have htable : TableInv sizeOf (s.center.appended name (sizeOf name)).metaBlock := by
      refine h.table.append hlen ?_ fun i hi => ?_
      · rw [Center.dataStart] at hlow ⊢
        omega
      · have hend := hpast (findIfExists_eq_none.mp hnone) i hi
        omega
    rw [happ]
    by_cases hnr : s.center.metaBlock.mmMetaNr + 1 ≤ mmMetaMax
    · rw [if_pos hnr]
      refine ⟨htable, fun x hx => ?_⟩
      rcases List.mem_append.mp hx with hx | hx
      · exact h.returned_append hx
      · obtain ⟨hoff, hsize, -⟩ := mmMeta_append_self s.center.metaBlock name
          (s.center.mmapAddr - s.center.dataStart) (sizeOf name)
        rw [List.mem_singleton.mp hx]
        exact ⟨_, Nat.lt_succ_self _, hlen, holds_append h.table.tailed _ _ _, hoff, hsize⟩
    · rw [if_neg hnr]
      exact ⟨htable, fun x hx => h.returned_append hx⟩

theorem Inv.step {sizeOf : FileName → ℕ} {s s' : State} (h : Inv sizeOf s) {a : Act}
    (hsized : Sized sizeOf a) (hpast : Past s a) (hs : RegisterCenter.step s a = some s') :
    Inv sizeOf s' := by
  cases a with
  | start data =>
    simp only [RegisterCenter.step] at hs
    split_ifs at hs
    cases hs
    exact ⟨h.table, fun x hx => absurd hx List.not_mem_nil⟩
  | register name size =>
    simp only [RegisterCenter.step] at hs
    split_ifs at hs
    cases hs
    obtain ⟨hlen, rfl⟩ := hsized
    exact h.call hlen hpast

/-- **Recorded regions do not overlap**, nor do the regions a process has been given, in every state
of a history of processes whose calls have names of at most 50 bytes and one size per name, if a new
name is registered only when the bump pointer is past every recorded region. -/
theorem regions_disjoint (sizeOf : FileName → ℕ) {acts : List Act} {s : State}
    (hsized : ∀ a ∈ acts, Sized sizeOf a) (hpast : Run.Guarded step Past State.initial acts)
    (hrun : Run.run step State.initial acts = some s) :
    (∀ i j, i < j → j < s.center.metaBlock.mmMetaNr →
      Apart (s.center.metaBlock.mmMeta i).offset (s.center.metaBlock.mmMeta i).size
        (s.center.metaBlock.mmMeta j).offset (s.center.metaBlock.mmMeta j).size) ∧
    ∀ x ∈ s.returned, ∀ y ∈ s.returned, x.1 ≠ y.1 → Apart x.2.1 x.2.2 y.2.1 y.2.2 := by
  have h : Inv sizeOf s := Run.run_history (P := fun _ => Inv sizeOf)
    (fun _ s a s' hs ha hstep => hs.step ha.1 ha.2 hstep) [] (inv_initial sizeOf)
    (hpast.and_of_forall hsized) hrun
  refine ⟨h.table.apart, fun x hx y hy hne => ?_⟩
  obtain ⟨i, hi, hlen, hholds, hoff, hsize⟩ := h.returned x hx
  obtain ⟨j, hj, hlen', hholds', hoff', hsize'⟩ := h.returned y hy
  rw [← hoff, ← hsize, ← hoff', ← hsize']
  rcases lt_trichotomy i j with hij | rfl | hij
  · exact h.table.apart i j hij hj
  · -- one entry holds one name
    have hnamed := (hholds'.named_iff_eq hlen' hlen').mpr rfl
    exact absurd ((hholds.named_iff_eq hlen hlen').mp hnamed) hne
  · exact (h.table.apart j i hij hi).symm

/-- Two names, in one process and again in the next, where the old ones are registered first. -/
theorem regions_disjoint_two_processes :
    ∃ s, Run.run step State.initial
        [.start 0, .register ⟨[97], by decide⟩ 100, .register ⟨[98], by decide⟩ 5000000,
          .start 4096, .register ⟨[98], by decide⟩ 5000000,
            .register ⟨[99], by decide⟩ 7] = some s ∧
      s.center.metaBlock.mmMetaNr = 3 ∧
      ∀ x ∈ s.returned, ∀ y ∈ s.returned, x.1 ≠ y.1 → Apart x.2.1 x.2.2 y.2.1 y.2.2 := by
  have hpast : Run.Guarded step Past State.initial
      [.start 0, .register ⟨[97], by decide⟩ 100, .register ⟨[98], by decide⟩ 5000000,
        .start 4096, .register ⟨[98], by decide⟩ 5000000, .register ⟨[99], by decide⟩ 7] := by
    decide +kernel
  have heval : ((Run.run step State.initial
      [.start 0, .register ⟨[97], by decide⟩ 100, .register ⟨[98], by decide⟩ 5000000,
        .start 4096, .register ⟨[98], by decide⟩ 5000000, .register ⟨[99], by decide⟩ 7]).any
      fun s => s.center.metaBlock.mmMetaNr = 3) = true := by
    decide +kernel
  simp only [Option.any_eq_true, decide_eq_true_eq] at heval
  obtain ⟨s, hrun, hnr⟩ := heval
  have hsized : ∀ a ∈ ([.start 0, .register ⟨[97], by decide⟩ 100,
      .register ⟨[98], by decide⟩ 5000000, .start 4096, .register ⟨[98], by decide⟩ 5000000,
      .register ⟨[99], by decide⟩ 7] : List Act),
      Sized (fun name =>
        if name.chars = [97] then 100 else if name.chars = [98] then 5000000 else 7) a := by
    simp [Sized]
  exact ⟨s, hrun, hnr, (regions_disjoint _ hsized hpast hrun).2⟩

/-- **A new process starts at the beginning again**: it records its first new name over the
region of an old one. -/
theorem register_overlap :
    ∃ s, Run.run step State.initial
        [.start 0, .register ⟨[97], by decide⟩ 2097152, .start 0,
          .register ⟨[98], by decide⟩ 2097152] =
        some s ∧
      s.center.metaBlock.mmMetaNr = 2 ∧
      ¬ Apart (s.center.metaBlock.mmMeta 0).offset (s.center.metaBlock.mmMeta 0).size
        (s.center.metaBlock.mmMeta 1).offset (s.center.metaBlock.mmMeta 1).size := by
  have heval : ((Run.run step State.initial
      [.start 0, .register ⟨[97], by decide⟩ 2097152, .start 0,
        .register ⟨[98], by decide⟩ 2097152]).any fun s =>
      s.center.metaBlock.mmMetaNr = 2 ∧
        ¬ Apart (s.center.metaBlock.mmMeta 0).offset (s.center.metaBlock.mmMeta 0).size
          (s.center.metaBlock.mmMeta 1).offset (s.center.metaBlock.mmMeta 1).size) = true := by
    decide +kernel
  simp only [Option.any_eq_true, decide_eq_true_eq] at heval
  exact heval

/-! ### Regions that are found again -/

/-- What holds of the table in every history. -/
structure Stored (b : MetaBlock) : Prop where
  tailed : b.Tailed
  /-- Entries were written by `append_register`. -/
  holds : ∀ i < b.mmMetaNr, ∃ name, (b.mmMeta i).Holds name
  /-- And their magic numbers are intact. -/
  magic : ∀ i < mmMetaMax, (b.mmMeta i).magic = entryMagic

theorem stored_new : Stored MetaBlock.new :=
  ⟨tailed_new, fun i hi => absurd hi (Nat.not_lt_zero i), fun _ hi => if_pos hi⟩

theorem Stored.append {b : MetaBlock} (h : Stored b) (name : FileName) (offset size : ℕ) :
    Stored (b.append name offset size) := by
  refine ⟨h.tailed.append name offset size, fun i hi => ?_, fun i hi => ?_⟩
  · rcases Nat.lt_succ_iff_lt_or_eq.mp hi with hi | rfl
    · rw [mmMeta_append hi]
      exact h.holds i hi
    · exact ⟨name, holds_append h.tailed name offset size⟩
  · by_cases hnr : i = b.mmMetaNr
    · subst hnr
      rw [(mmMeta_append_self b name offset size).2.2]
      exact h.magic _ hi
    · simp only [MetaBlock.append, Function.update_of_ne hnr]
      exact h.magic i hi

theorem metaBlock_call (s : State) (name : FileName) (size : ℕ) :
    (s.call name size).center = (s.center.register name size).1 := by
  rw [State.call]
  rcases s.center.register name size with ⟨c, e | ⟨ret, z⟩⟩ <;> rfl

/-- A property of tables that holds of a new one and that appending a region of the mapping
keeps. -/
structure Kept (P : MetaBlock → Prop) : Prop where
  new : P MetaBlock.new
  append : ∀ (c : Center) (name : FileName) (size : ℕ), P c.metaBlock → c.dataStart ≤ c.mmapAddr →
    c.mmapAddr + size ≤ c.mmapAddrStart + daxMmSize → P (c.appended name size).metaBlock

theorem Kept.appendRegister {P : MetaBlock → Prop} (hP : Kept P) {c : Center} (h : P c.metaBlock)
    (name : FileName) (size : ℕ) : P (c.appendRegister name size).1.metaBlock := by
  rcases appendRegister_cases c name size with ⟨hsame, -⟩ | ⟨-, hlow, hhigh, happ⟩
  · rwa [hsame]
  · rw [happ]
    exact hP.append c name size h hlow hhigh

theorem Kept.register {P : MetaBlock → Prop} (hP : Kept P) {c : Center} (h : P c.metaBlock)
    (name : FileName) (size : ℕ) : P (c.register name size).1.metaBlock := by
  cases hm : c.mismatch name size with
  | true =>
    rcases register_mismatch hm with ⟨e, hreg⟩ | hreg
    · rwa [hreg]
    · rw [hreg]
      exact hP.appendRegister hP.new name size
  | false =>
    rcases register_cases hm with ⟨e, hreg⟩ | ⟨i, -, -, hreg⟩ | ⟨-, hreg⟩
    · rwa [hreg]
    · rw [hreg]
      exact h
    · rw [hreg]
      exact hP.appendRegister h name size

theorem Kept.step {P : MetaBlock → Prop} (hP : Kept P) {s s' : State} (h : P s.center.metaBlock)
    {a : Act} (hs : RegisterCenter.step s a = some s') : P s'.center.metaBlock := by
  cases a with
  | start data =>
    simp only [RegisterCenter.step] at hs
    split_ifs at hs
    cases hs
    exact h
  | register name size =>
    simp only [RegisterCenter.step] at hs
    split_ifs at hs
    cases hs
    rw [metaBlock_call]
    exact hP.register h name size

/-- **A kept property holds of the table in every history.** -/
theorem Kept.run {P : MetaBlock → Prop} (hP : Kept P) {s s' : State} (h : P s.center.metaBlock)
    {acts : List Act} (hrun : Run.run RegisterCenter.step s acts = some s') :
      P s'.center.metaBlock :=
  Run.run_invariant (P := fun s => P s.center.metaBlock) (fun _ _ _ h hs => hP.step h hs) h hrun

theorem kept_stored : Kept Stored := ⟨stored_new, fun _ name size h _ _ => h.append name _ size⟩

/-- The table has a region of this offset and size for the name. -/
def Known (b : MetaBlock) (name : FileName) (offset size : ℕ) : Prop :=
  ∃ i, b.findIfExists name = .ok (some i) ∧ (b.mmMeta i).offset = offset ∧ (b.mmMeta i).size = size

/-- The first entry with a name stays the first when others are appended. -/
theorem Known.append {b : MetaBlock} {name : FileName} {offset size : ℕ}
    (h : Known b name offset size) (name' : FileName) (offset' size' : ℕ) :
    Known (b.append name' offset' size') name offset size := by
  obtain ⟨i, hfind, hoff, hsize⟩ := h
  obtain ⟨hfirst, hmagic⟩ := findIfExists_eq_some.mp hfind
  refine ⟨i, findIfExists_eq_some.mpr ⟨⟨Nat.lt_succ_of_lt hfirst.lt, ?_,
    fun j hj => ?_⟩, ?_⟩, ?_, ?_⟩
  · rw [mmMeta_append hfirst.lt]
    exact hfirst.named
  · rw [mmMeta_append (hj.trans hfirst.lt)]
    exact hfirst.before j hj
  all_goals
    rw [mmMeta_append hfirst.lt]
    assumption

/-- An appended name of at most 50 bytes is known. -/
theorem known_append {b : MetaBlock} (h : Stored b) {name : FileName}
    (hlen : name.chars.length ≤ 50)
    (hnone : ∀ i < b.mmMetaNr, (b.mmMeta i).named name = false) (hnr : b.mmMetaNr + 1 ≤ mmMetaMax)
    (offset size : ℕ) : Known (b.append name offset size) name offset size := by
  obtain ⟨hoff, hsize, hmagic⟩ := mmMeta_append_self b name offset size
  refine ⟨b.mmMetaNr, findIfExists_eq_some.mpr ⟨⟨Nat.lt_succ_self _, ?_, fun j hj => ?_⟩, ?_⟩, hoff,
    hsize⟩
  · exact ((holds_append h.tailed name offset size).named_iff_eq hlen hlen).mpr rfl
  · rw [mmMeta_append hj]
    exact hnone j hj
  · rw [hmagic]
    exact h.magic _ hnr

theorem known_appendRegister {c : Center} (h : Stored c.metaBlock) {name : FileName} {size ret : ℕ}
    (hlen : name.chars.length ≤ 50)
    (hnone : ∀ i < c.metaBlock.mmMetaNr, (c.metaBlock.mmMeta i).named name = false)
    (hret : (c.appendRegister name size).2 = .ok ret) :
    Known (c.appendRegister name size).1.metaBlock name (ret - c.dataStart) size := by
  rcases appendRegister_cases c name size with ⟨-, e, herr⟩ | ⟨-, -, -, happ⟩
  · rw [herr] at hret
    cases hret
  · rw [happ] at hret ⊢
    simp only at hret
    split_ifs at hret with hnr
    cases hret
    exact known_append h hlen hnone hnr _ size

/-- After a call that returns, a name of at most 50 bytes is known. -/
theorem known_register {c : Center} (h : Stored c.metaBlock) {name : FileName} {size ret : ℕ}
    {zeroed : Bool} (hlen : name.chars.length ≤ 50)
    (hret : (c.register name size).2 = .ok (ret, zeroed)) :
    Known (c.register name size).1.metaBlock name (ret - c.dataStart) size := by
  cases hm : c.mismatch name size with
  | true =>
    rcases register_mismatch hm with ⟨e, hreg⟩ | hreg
    · rw [hreg] at hret
      cases hret
    · rw [hreg] at hret ⊢
      obtain ⟨ret', hret', hpair⟩ := ok_of_map_ok hret
      cases hpair
      exact known_appendRegister stored_new hlen (fun i hi => absurd hi (Nat.not_lt_zero i)) hret'
  | false =>
    rcases register_cases hm with ⟨e, hreg⟩ | ⟨i, hfind, hsize, hreg⟩ | ⟨hnone, hreg⟩
    · rw [hreg] at hret
      cases hret
    · rw [hreg] at hret ⊢
      cases hret
      exact ⟨i, hfind, (Nat.add_sub_cancel_left _ _).symm, hsize⟩
    · rw [hreg] at hret ⊢
      obtain ⟨ret', hret', hpair⟩ := ok_of_map_ok hret
      cases hpair
      exact known_appendRegister h hlen (findIfExists_eq_none.mp hnone) hret'

/-- No call of the history finds an item of another size. -/
def Matching (s : State) : Act → Prop
  | .start _ => True
  | .register name size => s.center.mismatch name size = false

instance (s : State) : ∀ a, Decidable (Matching s a)
  | .start _ => inferInstanceAs (Decidable True)
  | .register _ _ => inferInstanceAs (Decidable (_ = _))

theorem Known.step {s s' : State} {name : FileName} {offset size : ℕ}
    (h : Known s.center.metaBlock name offset size) {a : Act} (ha : Matching s a)
    (hs : RegisterCenter.step s a = some s') : Known s'.center.metaBlock name offset size := by
  cases a with
  | start data =>
    simp only [RegisterCenter.step] at hs
    split_ifs at hs
    cases hs
    exact h
  | register name' size' =>
    simp only [RegisterCenter.step] at hs
    split_ifs at hs
    cases hs
    rw [metaBlock_call]
    rcases register_cases ha with ⟨e, hreg⟩ | ⟨i, -, -, hreg⟩ | ⟨-, hreg⟩
    · rwa [hreg]
    · rw [hreg]
      exact h
    · rw [hreg]
      rcases appendRegister_cases s.center name' size' with ⟨hsame, -⟩ | ⟨-, -, -, happ⟩
      · rwa [hsame]
      · rw [happ]
        exact h.append name' _ size'

theorem Known.register {c : Center} {name : FileName} {offset size : ℕ}
    (h : Known c.metaBlock name offset size) :
    (c.register name size).2 = .ok (c.dataStart + offset, false) := by
  obtain ⟨i, hfind, rfl, rfl⟩ := h
  rw [Center.register, Center.registerOver, hfind]
  simp only [ne_eq, not_true_eq_false, if_false]
  rfl

/-- The call of a longer name always appends. -/
theorem Stored.register_long {c : Center} (h : Stored c.metaBlock) {name : FileName}
    (hlen : 50 < name.chars.length) (size ret : ℕ) :
    (c.register name size).2 ≠ .ok (ret, false) := by
  have hnone : c.metaBlock.findIfExists name = .ok none := by
    refine findIfExists_eq_none.mpr fun i hi => ?_
    obtain ⟨name', hholds⟩ := h.holds i hi
    exact hholds.not_named hlen
  rw [Center.register, Center.registerOver, hnone]
  intro hret
  obtain ⟨ret', -, hpair⟩ := ok_of_map_ok hret
  cases hpair

/-- **A region is found again exactly when its name has at most 50 bytes.** After a call of
`Register` has returned, in every later state of a history in which no call finds an item of another
size, the call returns the same offset and does not zero the region if and only if the name has at
most 50 bytes. -/
theorem register_found_again {acts₁ acts₂ : List Act} {s₁ s₂ : State} {name : FileName}
    {size ret : ℕ} {zeroed : Bool} (hrun₁ : Run.run step State.initial acts₁ = some s₁)
    (hret : (s₁.center.register name size).2 = .ok (ret, zeroed))
    (hmatch : Run.Guarded step Matching (s₁.call name size) acts₂)
    (hrun₂ : Run.run step (s₁.call name size) acts₂ = some s₂) :
    (s₂.center.register name size).2 =
        .ok (s₂.center.dataStart + (ret - s₁.center.dataStart), false) ↔
      name.chars.length ≤ 50 := by
  have hs₁ : Stored s₁.center.metaBlock := kept_stored.run stored_new hrun₁
  have hs₂ : Stored s₂.center.metaBlock := by
    refine kept_stored.run ?_ hrun₂
    rw [metaBlock_call]
    exact kept_stored.register hs₁ name size
  constructor
  · intro hfound
    by_contra hlen
    exact hs₂.register_long (not_le.mp hlen) size _ hfound
  · intro hlen
    refine Known.register (Run.run_history
      (P := fun _ s => Known s.center.metaBlock name (ret - s₁.center.dataStart) size)
      (fun _ _ _ _ h ha hs => h.step ha hs) [] ?_ hmatch hrun₂)
    rw [metaBlock_call]
    exact known_register hs₁ hlen hret

/-- A short name, found again by the next process although another was registered in between. -/
theorem register_found_again_next_process :
    ∃ s₁ s₂, Run.run step State.initial [.start 0, .register ⟨[98], by decide⟩ 7] = some s₁ ∧
      Run.run step (s₁.call ⟨[97], by decide⟩ 100)
        [.register ⟨[99], by decide⟩ 9, .start 4096] = some s₂ ∧
      (s₂.center.register ⟨[97], by decide⟩ 100).2 =
        .ok (s₂.center.dataStart + (metaBlockSize + align - s₁.center.dataStart), false) := by
  have heval : ((Run.run step State.initial [.start 0, .register ⟨[98], by decide⟩ 7]).any fun s₁ =>
      decide ((s₁.center.register ⟨[97], by decide⟩ 100).2.toOption =
        some (metaBlockSize + align, true)) &&
      decide (Run.Guarded step Matching (s₁.call ⟨[97], by decide⟩ 100)
        [.register ⟨[99], by decide⟩ 9, .start 4096]) &&
      (Run.run step (s₁.call ⟨[97], by decide⟩ 100)
        [.register ⟨[99], by decide⟩ 9, .start 4096]).isSome) = true := by
    decide +kernel
  simp only [Option.any_eq_true, Bool.and_eq_true, decide_eq_true_eq,
    Option.isSome_iff_exists] at heval
  obtain ⟨s₁, hrun₁, ⟨hret, hmatch⟩, s₂, hrun₂⟩ := heval
  exact ⟨s₁, s₂, hrun₁, hrun₂,
    (register_found_again hrun₁ (eq_ok_of_toOption hret) hmatch hrun₂).mpr (by decide)⟩

/-- `/dev/shm/petps_server0/petkv-placeholder/shm/0/value`, the pool of the first shard. -/
def serverPath : FileName :=
  ⟨"/dev/shm/petps_server0/petkv-placeholder/shm/0/value".toList.map Char.toUInt8,
    by decide +kernel⟩

/-- **A path that the server builds is too long**: the second call, in the same process, returns
another region, and zeroes it. -/
theorem register_forgets_server_path :
    ∃ s, Run.run step State.initial [.start 0, .register serverPath 2097152] = some s ∧
      s.returned = [(serverPath, 0, 2097152)] ∧
      (s.center.register serverPath 2097152).2 = .ok (s.center.dataStart + 2097152, true) := by
  have heval : ((Run.run step State.initial [.start 0, .register serverPath 2097152]).any fun s =>
      decide (s.returned = [(serverPath, 0, 2097152)]) &&
      decide ((s.center.register serverPath 2097152).2.toOption =
        some (s.center.dataStart + 2097152, true))) = true := by
    decide +kernel
  simp only [Option.any_eq_true, Bool.and_eq_true, decide_eq_true_eq] at heval
  obtain ⟨s, hrun, hreturned, hret⟩ := heval
  exact ⟨s, hrun, hreturned, eq_ok_of_toOption hret⟩

end RegisterCenter

end PetPS
