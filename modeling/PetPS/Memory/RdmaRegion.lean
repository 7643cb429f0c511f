import PetPS.Memory.RegisterRun

/-!
# The range that is registered for RDMA

`ForRDMAMemoryRegion` gives the interval from the start of the data to the bump pointer, and
the bump pointer moves in two ways: past a new region, rounded up to `align`, and to the end of a
region that is found in the table, without rounding. It never moves back within a process, not even
when the table is reinitialized, so every region that has been handed out stays below it.

## Main results

* `Mapped.register` — a call that returns keeps the bump pointer above what it hands out
* `rdma_region_covers` — so does a whole process, whatever table it has found
-/

namespace PetPS

namespace RegisterCenter

/-- `ForRDMAMemoryRegion`: start and length, in 64-bit arithmetic. -/
def Center.forRDMAMemoryRegion (c : Center) : ℕ × ℕ :=
  (c.dataStart, (c.mmapAddr + 2 ^ 64 - c.dataStart) % 2 ^ 64)

/-- The constructor with `use_dram`: the memory is anonymous and `ReInitialize` has been called. -/
def Center.constructDram (data : ℕ) : Center :=
  { Center.construct MetaBlock.new data with flag := true }

/-- The calls of `Register` that a process makes, and the address and size of each region that is
returned. -/
def Center.registerAll (c : Center) :
    List (FileName × ℕ) → Except Abort (Center × List (ℕ × ℕ))
  | [] => .ok (c, [])
  | (name, size) :: calls =>
    match c.register name size with
    | (_, .error e) => .error e
    | (c, .ok (ret, _)) =>
      match c.registerAll calls with
      | .error e => .error e
      | .ok (c, regions) => .ok (c, (ret, size) :: regions)

/-! ### The table -/

/-- Recorded regions lie in the mapping. -/
def Inside (b : MetaBlock) : Prop :=
  ∀ i < b.mmMetaNr, metaBlockSize + (b.mmMeta i).offset + (b.mmMeta i).size ≤ daxMmSize

theorem kept_inside : Kept Inside := by
  refine ⟨fun i hi => absurd hi (Nat.not_lt_zero i), fun c name size h hlow hhigh i hi => ?_⟩
  obtain ⟨hoff, hsize, -⟩ := mmMeta_append_self c.metaBlock name (c.mmapAddr - c.dataStart) size
  rcases Nat.lt_succ_iff_lt_or_eq.mp hi with hi | rfl
  · rw [Center.appended, mmMeta_append hi]
    exact h i hi
  · rw [Center.appended, hoff, hsize]
    rw [Center.dataStart] at hlow ⊢
    omega

/-! ### The bump pointer -/

/-- The bump pointer is behind the metadata, and not far past the mapping. -/
structure Mapped (c : Center) : Prop where
  space : c.mmapAddrStart + daxMmSize ≤ userSpace
  low : c.dataStart ≤ c.mmapAddr
  high : c.mmapAddr ≤ c.mmapAddrStart + daxMmSize + align
  inside : Inside c.metaBlock

theorem mapped_construct {b : MetaBlock} (h : Inside b) {data : ℕ}
    (hdata : data + daxMmSize ≤ userSpace) : Mapped (Center.construct b data) := by
  refine ⟨hdata, le_rfl, ?_, h⟩
  simp only [Center.construct, metaBlockSize, daxMmSize]
  omega

/-- The size is rounded up. -/
theorem newSize_bounds {size : ℕ} (h : size ≤ daxMmSize) :
    size ≤ newSize size ∧ newSize size < size + align := by
  rw [newSize]
  simp only [daxMmSize, align] at h ⊢
  omega

/-- Past a new region the pointer moves by the rounded size. -/
theorem Mapped.mmapAddr_appended {c : Center} (h : Mapped c) {size : ℕ} (name : FileName)
    (hhigh : c.mmapAddr + size ≤ c.mmapAddrStart + daxMmSize) :
    size ≤ newSize size ∧ newSize size < size + align ∧
      (c.appended name size).mmapAddr = c.mmapAddr + newSize size := by
  have hspace := h.space
  have hfits : size ≤ daxMmSize := by
    have hlow := h.low
    rw [Center.dataStart] at hlow
    omega
  obtain ⟨hle, hlt⟩ := newSize_bounds hfits
  refine ⟨hle, hlt, ?_⟩
  rw [Center.appended]
  simp only [userSpace, align] at hspace hlt ⊢
  omega

/-- A found region moves the pointer to its end. -/
theorem Mapped.mmapAddr_moved {c : Center} (h : Mapped c) {i : ℕ}
    (hi : i < c.metaBlock.mmMetaNr) : (c.moved i).mmapAddr = max c.mmapAddr
      (c.dataStart + (c.metaBlock.mmMeta i).offset + (c.metaBlock.mmMeta i).size) := by
  have hspace := h.space
  have hin := h.inside i hi
  rw [Center.moved]
  simp only
  rw [Nat.mod_eq_of_lt]
  simp only [Center.dataStart, userSpace] at hspace ⊢
  omega

/-- `c'` is a later center of the process, and `[ret, ret + size)` is below its bump pointer. -/
structure HandsOut (c c' : Center) (ret size : ℕ) : Prop where
  mapped : Mapped c'
  start : c'.mmapAddrStart = c.mmapAddrStart
  mono : c.mmapAddr ≤ c'.mmapAddr
  lower : c.dataStart ≤ ret
  upper : ret + size ≤ c'.mmapAddr

theorem Mapped.appendRegister {c : Center} (h : Mapped c) {name : FileName} {size ret : ℕ}
    (hret : (c.appendRegister name size).2 = .ok ret) :
    HandsOut c (c.appendRegister name size).1 ret size := by
  rcases appendRegister_cases c name size with ⟨-, e, herr⟩ | ⟨-, hlow, hhigh, happ⟩
  · rw [herr] at hret
    cases hret
  rw [happ] at hret ⊢
  simp only at hret
  split_ifs at hret
  obtain rfl := Except.ok.inj hret
  obtain ⟨hle, hlt, haddr⟩ := h.mmapAddr_appended name hhigh
  refine ⟨⟨h.space, ?_, ?_, kept_inside.append c name size h.inside hlow hhigh⟩, rfl, ?_, hlow, ?_⟩
  · rw [haddr]
    exact hlow.trans (Nat.le_add_right _ _)
  · rw [haddr]
    simp only [Center.appended]
    omega
  · rw [haddr]
    exact Nat.le_add_right _ _
  · rw [haddr]
    omega

/-- A region that is found. -/
theorem Mapped.moved {c : Center} (h : Mapped c) {i : ℕ} (hi : i < c.metaBlock.mmMetaNr) :
    HandsOut c (c.moved i) (c.dataStart + (c.metaBlock.mmMeta i).offset)
      (c.metaBlock.mmMeta i).size := by
  have hin := h.inside i hi
  have hhigh := h.high
  have hlow := h.low
  have haddr := h.mmapAddr_moved hi
  refine ⟨⟨h.space, ?_, ?_, h.inside⟩, rfl, ?_, Nat.le_add_right _ _, ?_⟩
  · rw [haddr]
    exact hlow.trans (le_max_left _ _)
  · rw [haddr]
    refine max_le hhigh ?_
    simp only [Center.dataStart, Center.moved]
    omega
  · rw [haddr]
    exact le_max_left _ _
  · rw [haddr]
    exact le_max_right _ _

/-- **`Register`**: what is handed out lies below the bump pointer, also when the device is
reinitialized on the way. -/
theorem Mapped.register {c c' : Center} (h : Mapped c) {name : FileName} {size ret : ℕ}
    {zeroed : Bool}
    (hreg : c.register name size = (c', .ok (ret, zeroed))) : HandsOut c c' ret size := by
  cases hm : c.mismatch name size with
  | true =>
    have h' : Mapped { c with flag := true, metaBlock := MetaBlock.new } :=
      ⟨h.space, h.low, h.high, kept_inside.new⟩
    rcases register_mismatch hm with ⟨e, heq⟩ | heq
    · rw [heq] at hreg
      cases hreg
    · rw [heq, Prod.mk.injEq] at hreg
      obtain ⟨rfl, hmap⟩ := hreg
      obtain ⟨ret', hret', hpair⟩ := ok_of_map_ok hmap
      cases hpair
      obtain ⟨hmapped, hstart, hmono, hlower, hupper⟩ := h'.appendRegister hret'
      exact ⟨hmapped, hstart, hmono, hlower, hupper⟩
  | false =>
    rcases register_cases hm with ⟨e, heq⟩ | ⟨i, hfind, hsize, heq⟩ | ⟨-, heq⟩
    · rw [heq] at hreg
      cases hreg
    · rw [heq] at hreg
      cases hreg
      rw [← hsize]
      exact h.moved (findIfExists_eq_some.mp hfind).1.lt
    · rw [heq, Prod.mk.injEq] at hreg
      obtain ⟨rfl, hmap⟩ := hreg
      obtain ⟨ret', hret', hpair⟩ := ok_of_map_ok hmap
      cases hpair
      exact h.appendRegister hret'

/-- The calls of a process. -/
theorem Mapped.registerAll {calls : List (FileName × ℕ)} {c c' : Center} {regions : List (ℕ × ℕ)}
    (h : Mapped c) (hrun : c.registerAll calls = .ok (c', regions)) :
    Mapped c' ∧ c'.mmapAddrStart = c.mmapAddrStart ∧ c.mmapAddr ≤ c'.mmapAddr ∧
      regions.map Prod.snd = calls.map Prod.snd ∧
      ∀ r ∈ regions, c.dataStart ≤ r.1 ∧ r.1 + r.2 ≤ c'.mmapAddr := by
  induction calls generalizing c regions with
  | nil =>
    cases hrun
    exact ⟨h, rfl, le_rfl, rfl, fun r hr => absurd hr List.not_mem_nil⟩
  | cons call calls ih =>
    obtain ⟨name, size⟩ := call
    rw [Center.registerAll] at hrun
    rcases hreg : c.register name size with ⟨c₁, e | ⟨ret, zeroed⟩⟩
    · rw [hreg] at hrun
      cases hrun
    rw [hreg] at hrun
    simp only at hrun
    cases hrest : c₁.registerAll calls with
    | error e => rw [hrest] at hrun; cases hrun
    | ok rest =>
      obtain ⟨c₂, regions₂⟩ := rest
      rw [hrest] at hrun
      cases hrun
      have hout := h.register hreg
      obtain ⟨hmapped, hstart, hmono, hsizes, hall⟩ := ih hout.mapped hrest
      have hdata : c₁.dataStart = c.dataStart := by
        rw [Center.dataStart, Center.dataStart, hout.start]
      refine ⟨hmapped, hstart.trans hout.start, hout.mono.trans hmono,
        congrArg (size :: ·) hsizes, fun r hr => ?_⟩
      rcases List.mem_cons.mp hr with rfl | hr
      · exact ⟨hout.lower, hout.upper.trans hmono⟩
      · rw [← hdata]
        exact hall r hr

/-- **The registered range covers everything handed out.** A process maps the device, with the table
that any history of processes has left on it, or works in anonymous memory; after any calls of
`Register` that return, one region each of the size asked for, the interval of
`ForRDMAMemoryRegion` contains all of these regions. -/
theorem rdma_region_covers {acts : List Act} {s : State} {data : ℕ} {c c' : Center}
    {calls : List (FileName × ℕ)} {regions : List (ℕ × ℕ)}
    (hhist : Run.run step State.initial acts = some s) (hdata : data + daxMmSize ≤ userSpace)
    (hstart : c = Center.construct s.center.metaBlock data ∨ c = Center.constructDram data)
    (hrun : c.registerAll calls = .ok (c', regions)) :
    regions.map Prod.snd = calls.map Prod.snd ∧ ∀ r ∈ regions, c'.forRDMAMemoryRegion.1 ≤ r.1 ∧
      r.1 + r.2 ≤ c'.forRDMAMemoryRegion.1 + c'.forRDMAMemoryRegion.2 := by
  have hmapped : Mapped c := by
    rcases hstart with rfl | rfl
    · exact mapped_construct (kept_inside.run kept_inside.new hhist) hdata
    · have h := mapped_construct kept_inside.new hdata
      exact ⟨h.space, h.low, h.high, h.inside⟩
  obtain ⟨hmapped', hsame, -, hsizes, hall⟩ := hmapped.registerAll hrun
  have hdata' : c'.dataStart = c.dataStart := by rw [Center.dataStart, Center.dataStart, hsame]
  have hlen : (c'.mmapAddr + 2 ^ 64 - c'.dataStart) % 2 ^ 64 = c'.mmapAddr - c'.dataStart := by
    have hlow := hmapped'.low
    have hhigh := hmapped'.high
    have hspace := hmapped'.space
    simp only [userSpace, align, daxMmSize] at hhigh hspace
    omega
  refine ⟨hsizes, fun r hr => ?_⟩
  obtain ⟨hlower, hupper⟩ := hall r hr
  have hlow := hmapped'.low
  simp only [Center.forRDMAMemoryRegion, hlen]
  omega

/-- A process that finds a region of an earlier one, reinitializes the device because of another
whose size has changed, and appends a third. -/
theorem rdma_region_covers_after_reinitialize :
    ∃ s c' regions, Run.run step State.initial
        [.start 0, .register ⟨[97], by decide⟩ 100, .register ⟨[98], by decide⟩ 5000000] = some s ∧
      (Center.construct s.center.metaBlock 4096).registerAll [(⟨[98], by decide⟩, 5000000),
        (⟨[97], by decide⟩, 7), (⟨[99], by decide⟩, 9)] = .ok (c', regions) ∧
      regions.map Prod.snd = [5000000, 7, 9] ∧ ∀ r ∈ regions, c'.forRDMAMemoryRegion.1 ≤ r.1 ∧
        r.1 + r.2 ≤ c'.forRDMAMemoryRegion.1 + c'.forRDMAMemoryRegion.2 := by
  have heval : ((Run.run step State.initial
      [.start 0, .register ⟨[97], by decide⟩ 100, .register ⟨[98], by decide⟩ 5000000]).any fun s =>
      ((Center.construct s.center.metaBlock 4096).registerAll [(⟨[98], by decide⟩, 5000000),
        (⟨[97], by decide⟩, 7), (⟨[99], by decide⟩, 9)]).toOption.isSome) = true := by
    decide +kernel
  simp only [Option.any_eq_true, Option.isSome_iff_exists] at heval
  obtain ⟨s, hs, ⟨c', regions⟩, hrun⟩ := heval
  have hall := eq_ok_of_toOption hrun
  exact ⟨s, c', regions, hs, hall, rdma_region_covers hs (by decide) (Or.inl rfl) hall⟩

end RegisterCenter

end PetPS
