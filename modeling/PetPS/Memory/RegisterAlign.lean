import PetPS.Memory.RdmaRegion

/-!
# The alignment of regions

A region starts where the bump pointer is. `append_register` moves the pointer by a multiple of
`align`, but `Register` moves it to the end of a region it finds in the table without rounding. A
new region that a process appends after it has found one of an odd size therefore starts at an odd
offset, and what is placed there (the chunks of a dictionary are loaded with aligned instructions)
is not aligned.

So the pointer is a multiple of `align` behind the start of the data, or at the end of a recorded
region. Offsets stay aligned as long as no region is appended in the second case, unless the
size of the region there is a multiple of `align`.

## Main results

* `Leveled.register` — what one call does
* `offsets_aligned` — whole histories
* `register_misaligned` — an offset that is not aligned
-/

namespace PetPS

namespace RegisterCenter

/-- The call goes on to `append_register`, on the table it has found or on a new one. -/
def Center.appends (c : Center) (name : FileName) (size : ℕ) : Bool :=
  match c.metaBlock.findIfExists name with
  | .error _ => false
  | .ok none => true
  | .ok (some i) => (c.metaBlock.mmMeta i).size ≠ size

/-- The call does not append a region at the end of a recorded one whose size is not a multiple of
`align`. -/
def Center.Level (c : Center) (name : FileName) (size : ℕ) : Prop :=
  c.appends name size = true → ∀ i < c.metaBlock.mmMetaNr,
    c.mmapAddr = c.dataStart + (c.metaBlock.mmMeta i).offset + (c.metaBlock.mmMeta i).size →
      align ∣ (c.metaBlock.mmMeta i).size

instance (c : Center) (name : FileName) (size : ℕ) : Decidable (c.Level name size) :=
  inferInstanceAs (Decidable (_ → ∀ i < c.metaBlock.mmMetaNr, _ → _))

/-- Every call is level. -/
def Level (s : State) : Act → Prop
  | .start _ => True
  | .register name size => s.center.Level name size

instance (s : State) : ∀ a, Decidable (Level s a)
  | .start _ => inferInstanceAs (Decidable True)
  | .register name size => inferInstanceAs (Decidable (s.center.Level name size))

/-- The recorded offsets are aligned. -/
def Aligned (b : MetaBlock) : Prop := ∀ i < b.mmMetaNr, align ∣ (b.mmMeta i).offset

theorem aligned_new : Aligned MetaBlock.new := fun i hi => absurd hi (Nat.not_lt_zero i)

theorem Aligned.append {b : MetaBlock} (h : Aligned b) (name : FileName) {offset : ℕ}
    (hoffset : align ∣ offset) (size : ℕ) : Aligned (b.append name offset size) := by
  intro i hi
  rcases Nat.lt_succ_iff_lt_or_eq.mp hi with hi | rfl
  · rw [mmMeta_append hi]
    exact h i hi
  · rw [(mmMeta_append_self b name offset size).1]
    exact hoffset

theorem align_dvd_newSize (size : ℕ) : align ∣ newSize size := Nat.dvd_mul_left _ _

/-- The bump pointer is aligned. -/
def Center.Even (c : Center) : Prop := align ∣ c.mmapAddr - c.dataStart

/-- A process with aligned offsets: its bump pointer is aligned, or at the end of a region. -/
structure Leveled (c : Center) : Prop where
  mapped : Mapped c
  aligned : Aligned c.metaBlock
  pointer : c.Even ∨ ∃ i < c.metaBlock.mmMetaNr, c.mmapAddr =
    c.dataStart + (c.metaBlock.mmMeta i).offset + (c.metaBlock.mmMeta i).size

theorem leveled_construct {b : MetaBlock} (hinside : Inside b) (h : Aligned b) {data : ℕ}
    (hdata : data + daxMmSize ≤ userSpace) : Leveled (Center.construct b data) := by
  refine ⟨mapped_construct hinside hdata, h, Or.inl ?_⟩
  rw [Center.Even, Center.dataStart, Center.construct, Nat.sub_self]
  exact Nat.dvd_zero _

/-- Appending at an aligned pointer. -/
theorem appendRegister_level {c : Center} (hmapped : Mapped c) (haligned : Aligned c.metaBlock)
    (heven : c.Even) (name : FileName) (size : ℕ) :
    Aligned (c.appendRegister name size).1.metaBlock ∧
      ∀ ret, (c.appendRegister name size).2 = .ok ret → Leveled (c.appendRegister name size).1 := by
  have hkept : Aligned (c.appendRegister name size).1.metaBlock := by
    rcases appendRegister_cases c name size with ⟨hsame, -⟩ | ⟨-, -, -, happ⟩
    · rwa [hsame]
    · rw [happ]
      exact haligned.append name heven size
  refine ⟨hkept, fun ret hret => ?_⟩
  have hout := hmapped.appendRegister hret
  refine ⟨hout.mapped, hkept, Or.inl ?_⟩
  rcases appendRegister_cases c name size with ⟨-, e, herr⟩ | ⟨-, hlow, hhigh, happ⟩
  · rw [herr] at hret
    cases hret
  obtain ⟨-, -, haddr⟩ := hmapped.mmapAddr_appended name hhigh
  rw [happ, Center.Even, haddr]
  simp only [Center.appended, Center.dataStart] at hlow ⊢
  rw [Nat.sub_add_comm hlow]
  exact Nat.dvd_add heven (align_dvd_newSize size)

/-- A call that appends and is level finds the pointer aligned. -/
theorem Leveled.even {c : Center} (h : Leveled c) {name : FileName} {size : ℕ}
    (hlevel : c.Level name size) (happends : c.appends name size = true) : c.Even := by
  rcases h.pointer with heven | ⟨i, hi, haddr⟩
  · exact heven
  · have hsub : c.mmapAddr - c.dataStart =
        (c.metaBlock.mmMeta i).offset + (c.metaBlock.mmMeta i).size := by
      rw [haddr, Nat.add_assoc, Nat.add_sub_cancel_left]
    rw [Center.Even, hsub]
    exact Nat.dvd_add (h.aligned i hi) (hlevel happends i hi haddr)

/-- A region that is found: the pointer stays, or is now at the end of that region. -/
theorem Leveled.moved {c : Center} (h : Leveled c) {i : ℕ} (hi : i < c.metaBlock.mmMetaNr) :
    Leveled (c.moved i) := by
  have haddr := h.mapped.mmapAddr_moved hi
  refine ⟨(h.mapped.moved hi).mapped, h.aligned, ?_⟩
  rcases le_total (c.dataStart + (c.metaBlock.mmMeta i).offset + (c.metaBlock.mmMeta i).size)
    c.mmapAddr with hle | hle
  · rw [max_eq_left hle] at haddr
    rw [Center.Even, haddr]
    exact h.pointer
  · rw [max_eq_right hle] at haddr
    exact Or.inr ⟨i, hi, haddr⟩

/-- **`Register`**: a level call keeps the offsets aligned, also when it fails. -/
theorem Leveled.register {c : Center} (h : Leveled c) {name : FileName} {size : ℕ}
    (hlevel : c.Level name size) :
    Aligned (c.register name size).1.metaBlock ∧
      ∀ r, (c.register name size).2 = .ok r → Leveled (c.register name size).1 := by
  cases hm : c.mismatch name size with
  | true =>
    have happends : c.appends name size = true := by
      rw [Center.mismatch] at hm
      rw [Center.appends]
      split at hm <;> simp_all
    rcases register_mismatch hm with ⟨e, hreg⟩ | hreg
    · rw [hreg]
      refine ⟨h.aligned, fun r hr => ?_⟩
      cases hr
    · rw [hreg]
      -- the pointer is not reset with the table
      obtain ⟨hkept, hlev⟩ := appendRegister_level
        (c := { c with flag := true, metaBlock := MetaBlock.new })
        ⟨h.mapped.space, h.mapped.low, h.mapped.high, kept_inside.new⟩ aligned_new
        (h.even hlevel happends) name size
      refine ⟨hkept, fun r hr => ?_⟩
      obtain ⟨ret, hret, -⟩ := ok_of_map_ok hr
      exact hlev ret hret
  | false =>
    rcases register_cases hm with ⟨e, hreg⟩ | ⟨i, hfind, -, hreg⟩ | ⟨hnone, hreg⟩
    · rw [hreg]
      refine ⟨h.aligned, fun r hr => ?_⟩
      cases hr
    · rw [hreg]
      exact ⟨h.aligned, fun _ _ => h.moved (findIfExists_eq_some.mp hfind).1.lt⟩
    · have happends : c.appends name size = true := by rw [Center.appends, hnone]
      obtain ⟨hkept, hlev⟩ := appendRegister_level h.mapped h.aligned (h.even hlevel happends)
        name size
      rw [hreg]
      refine ⟨hkept, fun r hr => ?_⟩
      obtain ⟨ret, hret, -⟩ := ok_of_map_ok hr
      exact hlev ret hret

/-- What holds in a history: of the device always, of the process while it runs. -/
structure LevelInv (s : State) : Prop where
  inside : Inside s.center.metaBlock
  aligned : Aligned s.center.metaBlock
  running : s.alive = true → Leveled s.center

theorem levelInv_initial : LevelInv State.initial :=
  ⟨kept_inside.new, aligned_new, fun h => nomatch h⟩

theorem LevelInv.step {s s' : State} (h : LevelInv s) {a : Act} (hlevel : Level s a)
    (hs : RegisterCenter.step s a = some s') : LevelInv s' := by
  have hinside := kept_inside.step h.inside hs
  cases a with
  | start data =>
    simp only [RegisterCenter.step] at hs
    split_ifs at hs with hdata
    cases hs
    exact ⟨hinside, h.aligned, fun _ => leveled_construct h.inside h.aligned hdata⟩
  | register name size =>
    simp only [RegisterCenter.step] at hs
    split_ifs at hs with halive
    cases hs
    obtain ⟨hkept, hlev⟩ := (h.running halive).register hlevel
    refine ⟨hinside, by rwa [metaBlock_call], fun halive' => ?_⟩
    rw [metaBlock_call]
    rw [State.call] at halive'
    rcases hreg : s.center.register name size with ⟨c, e | r⟩
    · rw [hreg] at halive'
      cases halive'
    · rw [hreg] at hlev
      exact hlev r rfl

/-- **Recorded offsets are aligned** in every state of a history of processes in which no region is
appended at the end of a recorded one whose size is not a multiple of `align`. -/
theorem offsets_aligned {acts : List Act} {s : State}
    (hlevel : Run.Guarded step Level State.initial acts)
    (hrun : Run.run step State.initial acts = some s) :
    ∀ i < s.center.metaBlock.mmMetaNr, align ∣ (s.center.metaBlock.mmMeta i).offset :=
  (Run.run_history (P := fun _ => LevelInv) (fun _ _ _ _ h hg hs => h.step hg hs) []
    levelInv_initial hlevel hrun).aligned

/-- A small region and a region of `align` bytes, both found again by a process that appends a
third. -/
theorem offsets_aligned_two_processes :
    ∃ s, Run.run step State.initial
        [.start 0, .register ⟨[97], by decide⟩ 100, .register ⟨[98], by decide⟩ 2097152,
          .start 4096, .register ⟨[97], by decide⟩ 100, .register ⟨[98], by decide⟩ 2097152,
          .register ⟨[99], by decide⟩ 7] = some s ∧
      s.center.metaBlock.mmMetaNr = 3 ∧
      ∀ i < s.center.metaBlock.mmMetaNr, align ∣ (s.center.metaBlock.mmMeta i).offset := by
  have hlevel : Run.Guarded step Level State.initial
      [.start 0, .register ⟨[97], by decide⟩ 100, .register ⟨[98], by decide⟩ 2097152,
        .start 4096, .register ⟨[97], by decide⟩ 100, .register ⟨[98], by decide⟩ 2097152,
        .register ⟨[99], by decide⟩ 7] := by
    decide +kernel
  have heval : ((Run.run step State.initial
      [.start 0, .register ⟨[97], by decide⟩ 100, .register ⟨[98], by decide⟩ 2097152,
        .start 4096, .register ⟨[97], by decide⟩ 100, .register ⟨[98], by decide⟩ 2097152,
        .register ⟨[99], by decide⟩ 7]).any fun s => s.center.metaBlock.mmMetaNr = 3) = true := by
    decide +kernel
  simp only [Option.any_eq_true, decide_eq_true_eq] at heval
  obtain ⟨s, hrun, hnr⟩ := heval
  exact ⟨s, hrun, hnr, offsets_aligned hlevel hrun⟩

/-- **A region appended after one that was found**: a process finds the 100 bytes of an earlier one
and the next name is recorded 100 bytes behind the start of the data. -/
theorem register_misaligned :
    ∃ s, Run.run step State.initial
        [.start 0, .register ⟨[97], by decide⟩ 100, .start 0, .register ⟨[97], by decide⟩ 100,
          .register ⟨[98], by decide⟩ 2097152] = some s ∧
      s.center.metaBlock.mmMetaNr = 2 ∧ (s.center.metaBlock.mmMeta 1).offset = 100 ∧
      ¬ align ∣ (s.center.metaBlock.mmMeta 1).offset := by
  have heval : ((Run.run step State.initial
      [.start 0, .register ⟨[97], by decide⟩ 100, .start 0, .register ⟨[97], by decide⟩ 100,
        .register ⟨[98], by decide⟩ 2097152]).any fun s =>
      s.center.metaBlock.mmMetaNr = 2 ∧ (s.center.metaBlock.mmMeta 1).offset = 100 ∧
        ¬ align ∣ (s.center.metaBlock.mmMeta 1).offset) = true := by
    decide +kernel
  simp only [Option.any_eq_true, decide_eq_true_eq] at heval
  exact heval

end RegisterCenter

end PetPS
