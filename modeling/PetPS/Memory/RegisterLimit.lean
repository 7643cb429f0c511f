import PetPS.Memory.RdmaRegion

/-!
# The end of the mapping

`append_register` compares the end of a region with the start of the data plus `dax_mm_size_`. The
mapping ends `dax_mm_size_` bytes behind its own start, and the data starts behind the metadata
block, so the limit is too high by the size of that block: a region that passes the check may reach
past the mapping.

With other memory behind the device, that memory is then zeroed and handed out as part of the
region.

## Main results

* `Accounted.step` — the bump pointer is the sum of the rounded sizes of the new regions
* `regions_in_mapping` — which calls stay in the mapping
* `register_past_mapping` — a call that does not
-/

namespace PetPS

namespace RegisterCenter

/-- A region that a call has returned. -/
structure Region where
  addr : ℕ
  size : ℕ
  /-- The region is new, and zeroed. -/
  zeroed : Bool

/-- A call of a process, with the regions returned so far. -/
def stepOver (behind : ℕ) (s : Center × List Region) (call : FileName × ℕ) :
    Option (Center × List Region) :=
  match s.1.registerOver behind call.1 call.2 with
  | (_, .error _) => none
  | (c, .ok (addr, zeroed)) => some (c, s.2 ++ [⟨addr, call.2, zeroed⟩])

/-! ### What a call can do -/

theorem appendRegisterOver_ok {behind : ℕ} {c : Center} {name : FileName} {size ret : ℕ}
    (hret : (c.appendRegisterOver behind name size).2 = .ok ret) :
    c.Admits behind size ∧ ret = c.mmapAddr ∧
      (c.appendRegisterOver behind name size).1 = c.appended name size := by
  rcases appendRegisterOver_cases behind c name size with ⟨-, e, herr⟩ | ⟨hadmits, heq⟩
  · rw [herr] at hret
    cases hret
  · rw [heq] at hret ⊢
    simp only at hret
    split_ifs at hret
    exact ⟨hadmits, (Except.ok.inj hret).symm, rfl⟩

/-- A call that returns has found the region, or appended it, to the table or to a new one. -/
theorem registerOver_ok {behind : ℕ} {c c' : Center} {name : FileName} {size ret : ℕ}
    {zeroed : Bool} (h : c.registerOver behind name size = (c', .ok (ret, zeroed))) :
    (zeroed = false ∧ ∃ i < c.metaBlock.mmMetaNr, (c.metaBlock.mmMeta i).size = size ∧
      ret = c.dataStart + (c.metaBlock.mmMeta i).offset ∧ c' = c.moved i) ∨
    (zeroed = true ∧ c.Admits behind size ∧ ret = c.mmapAddr ∧
      ∃ flag b, (b = c.metaBlock ∨ b = MetaBlock.new) ∧
        c' = ({ c with flag, metaBlock := b } : Center).appended name size) := by
  cases hm : c.mismatch name size with
  | true =>
    rcases registerOver_mismatch behind hm with ⟨e, heq⟩ | heq
    · rw [heq] at h
      cases h
    · rw [heq, Prod.mk.injEq] at h
      obtain ⟨rfl, hmap⟩ := h
      obtain ⟨ret', hret', hpair⟩ := ok_of_map_ok hmap
      cases hpair
      obtain ⟨⟨hpos, hlow, hlimit, hmapped⟩, rfl, heq⟩ := appendRegisterOver_ok hret'
      exact Or.inr ⟨rfl, ⟨hpos, hlow, hlimit, hmapped⟩, rfl, true, _, Or.inr rfl, heq⟩
  | false =>
    rcases registerOver_cases behind hm with ⟨e, heq⟩ | ⟨i, hfind, hsize, heq⟩ | ⟨-, heq⟩
    · rw [heq] at h
      cases h
    · rw [heq] at h
      cases h
      exact Or.inl ⟨rfl, i, (findIfExists_eq_some.mp hfind).1.lt, hsize, rfl, rfl⟩
    · rw [heq, Prod.mk.injEq] at h
      obtain ⟨rfl, hmap⟩ := h
      obtain ⟨ret', hret', hpair⟩ := ok_of_map_ok hmap
      cases hpair
      obtain ⟨hadmits, rfl, heq⟩ := appendRegisterOver_ok hret'
      exact Or.inr ⟨rfl, hadmits, rfl, c.flag, c.metaBlock, Or.inl rfl, heq⟩

/-! ### The space that new regions take -/

/-- The sizes of the new regions. -/
def fresh (regions : List Region) : List ℕ := (regions.filter (·.zeroed)).map (·.size)

/-- How far the bump pointer moves for them. -/
def bumped (sizes : List ℕ) : ℕ := (sizes.map newSize).sum

/-- How far they reach: every size but the last is rounded up. -/
def needed (sizes : List ℕ) : ℕ := bumped sizes.dropLast + sizes.getLast?.getD 0

@[simp] theorem fresh_concat (regions : List Region) (addr size : ℕ) (zeroed : Bool) :
    fresh (regions ++ [⟨addr, size, zeroed⟩]) =
      if zeroed then fresh regions ++ [size] else fresh regions := by
  cases zeroed <;> simp [fresh]

@[simp] theorem bumped_concat (sizes : List ℕ) (size : ℕ) :
    bumped (sizes ++ [size]) = bumped sizes + newSize size := by
  rw [bumped, List.map_append, List.sum_append, List.map_singleton, List.sum_singleton, bumped]

@[simp] theorem needed_concat (sizes : List ℕ) (size : ℕ) :
    needed (sizes ++ [size]) = bumped sizes + size := by
  rw [needed, List.dropLast_concat, List.getLast?_concat, Option.getD_some]

/-- A returned region: what the checks give, and that it ends before the pointer and at most
`reach` bytes behind the start of the data. -/
structure Placed (behind : ℕ) (c : Center) (reach addr size : ℕ) : Prop where
  lower : c.dataStart ≤ addr
  limit : addr + size < c.dataStart + daxMmSize
  mapped : addr + size ≤ c.mmapAddrStart + daxMmSize + behind
  below : addr + size ≤ c.mmapAddr
  within : addr + size ≤ c.dataStart + reach

/-- What holds of a process that has started with an empty table. -/
structure Accounted (behind data : ℕ) (s : Center × List Region) : Prop where
  start : s.1.mmapAddrStart = data
  pointer : s.1.mmapAddr = s.1.dataStart + bumped (fresh s.2)
  /-- Recorded regions have been returned by this process. -/
  recorded : ∀ i < s.1.metaBlock.mmMetaNr, ∃ r ∈ s.2,
    r.addr = s.1.dataStart + (s.1.metaBlock.mmMeta i).offset ∧
      r.size = (s.1.metaBlock.mmMeta i).size
  placed : ∀ r ∈ s.2, Placed behind s.1 (needed (fresh s.2)) r.addr r.size
  /-- The last new region is the one that reaches farthest. -/
  attained : fresh s.2 ≠ [] → ∃ r ∈ s.2, r.addr + r.size = s.1.dataStart + needed (fresh s.2)

theorem accounted_construct (behind data : ℕ) :
    Accounted behind data (Center.construct MetaBlock.new data, []) where
  start := rfl
  pointer := by
    simp only [Center.construct, Center.dataStart, fresh, bumped, List.filter_nil, List.map_nil,
      List.sum_nil, Nat.add_zero]
  recorded i hi := absurd hi (Nat.not_lt_zero i)
  placed _ hr := absurd hr List.not_mem_nil
  attained h := absurd rfl h

/-- A region that is found has been returned before, so that the pointer is already past it. -/
theorem Accounted.found {behind data : ℕ} {s : Center × List Region} (h : Accounted behind data s)
    (hspace : data + daxMmSize + behind ≤ userSpace) {i : ℕ} (hi : i < s.1.metaBlock.mmMetaNr) :
    Accounted behind data (s.1.moved i, s.2 ++ [⟨s.1.dataStart + (s.1.metaBlock.mmMeta i).offset,
      (s.1.metaBlock.mmMeta i).size, false⟩]) := by
  obtain ⟨r, hr, haddr, hsize⟩ := h.recorded i hi
  have hplaced := h.placed r hr
  rw [haddr, hsize] at hplaced
  have hmoved : s.1.moved i = s.1 := by
    have hmapped := hplaced.mapped
    rw [h.start] at hmapped
    have hnowrap := Nat.mod_eq_of_lt (a := s.1.dataStart + (s.1.metaBlock.mmMeta i).offset +
      (s.1.metaBlock.mmMeta i).size) (b := 2 ^ 64) (by simp only [userSpace] at hspace; omega)
    rw [Center.moved, hnowrap, max_eq_left hplaced.below]
  have hfresh : fresh (s.2 ++ [⟨s.1.dataStart + (s.1.metaBlock.mmMeta i).offset,
      (s.1.metaBlock.mmMeta i).size, false⟩]) = fresh s.2 := fresh_concat _ _ _ false
  rw [hmoved]
  refine ⟨h.start, ?_, fun j hj => ?_, fun r' hr' => ?_, fun hne => ?_⟩
  · rw [hfresh]
    exact h.pointer
  · obtain ⟨r', hr', heq⟩ := h.recorded j hj
    exact ⟨r', List.mem_append_left _ hr', heq⟩
  · rw [hfresh]
    rcases List.mem_append.mp hr' with hr' | hr'
    · exact h.placed r' hr'
    · rw [List.mem_singleton.mp hr']
      exact hplaced
  · rw [hfresh] at hne ⊢
    obtain ⟨r', hr', heq⟩ := h.attained hne
    exact ⟨r', List.mem_append_left _ hr', heq⟩

/-- The pointer moves past an appended region by its rounded size, without wrapping around. -/
theorem Center.Admits.pointer {behind : ℕ} {c : Center} {size : ℕ} (h : c.Admits behind size)
    (hspace : c.mmapAddrStart + daxMmSize + behind ≤ userSpace) (name : FileName) :
    c.mmapAddr + size < c.dataStart + daxMmSize ∧ size ≤ newSize size ∧
      (c.appended name size).mmapAddr = c.mmapAddr + newSize size := by
  obtain ⟨-, hlow, hlimit, hmapped⟩ := h
  have hend : c.mmapAddr + size < 2 ^ 64 - align := by
    simp only [userSpace] at hspace
    rw [align]
    omega
  rw [Nat.mod_eq_of_lt (hend.trans_le (Nat.sub_le _ _))] at hlimit
  have hfits : size ≤ daxMmSize := by omega
  obtain ⟨hle, hlt⟩ := newSize_bounds hfits
  refine ⟨hlimit, hle, Nat.mod_eq_of_lt ?_⟩
  omega

/-- A new region starts at the pointer. -/
theorem Accounted.appended {behind data : ℕ} {s : Center × List Region}
    (h : Accounted behind data s) (hspace : data + daxMmSize + behind ≤ userSpace)
    {name : FileName} {size : ℕ} {flag : Bool} {b : MetaBlock}
    (hb : b = s.1.metaBlock ∨ b = MetaBlock.new) (hadmits : s.1.Admits behind size) :
    Accounted behind data (({ s.1 with flag, metaBlock := b } : Center).appended name size,
      s.2 ++ [⟨s.1.mmapAddr, size, true⟩]) := by
  obtain ⟨hlimit, hle, hpointer⟩ : s.1.mmapAddr + size < s.1.dataStart + daxMmSize ∧
      size ≤ newSize size ∧ (({ s.1 with flag, metaBlock := b } : Center).appended name
        size).mmapAddr = s.1.mmapAddr + newSize size :=
    hadmits.pointer (by rw [h.start]; exact hspace) name
  obtain ⟨-, hlow, -, hmapped⟩ := hadmits
  have hfresh : fresh (s.2 ++ [⟨s.1.mmapAddr, size, true⟩]) = fresh s.2 ++ [size] :=
    fresh_concat _ _ _ true
  have hreach : s.1.mmapAddr + size = s.1.dataStart + needed (fresh s.2 ++ [size]) := by
    rw [needed_concat, h.pointer, Nat.add_assoc]
  refine ⟨h.start, ?_, fun i hi => ?_, fun r hr => ?_, fun _ => ?_⟩
  · rw [hfresh, bumped_concat, hpointer, ← Nat.add_assoc]
    exact congrArg (· + newSize size) h.pointer
  · rcases Nat.lt_succ_iff_lt_or_eq.mp hi with hi | rfl
    · rcases hb with rfl | rfl
      · obtain ⟨r, hr, heq⟩ := h.recorded i hi
        refine ⟨r, List.mem_append_left _ hr, ?_⟩
        simp only [Center.appended, mmMeta_append hi]
        exact heq
      · exact absurd hi (Nat.not_lt_zero i)
    · obtain ⟨hoff, hsize, -⟩ := mmMeta_append_self b name (s.1.mmapAddr - s.1.dataStart) size
      refine ⟨_, List.mem_append_right _ (List.mem_singleton_self _), ?_, hsize.symm⟩
      exact (Nat.add_sub_of_le hlow).symm.trans (congrArg (s.1.dataStart + ·) hoff.symm)
  · rw [hfresh]
    rcases List.mem_append.mp hr with hr | hr
    · have hr := h.placed r hr
      have hbelow := hr.below
      refine ⟨hr.lower, hr.limit, hr.mapped, ?_, ?_⟩
      · rw [hpointer]
        exact hbelow.trans (Nat.le_add_right _ _)
      · exact hbelow.trans ((Nat.le_add_right _ size).trans hreach.le)
    · rw [List.mem_singleton.mp hr]
      refine ⟨hlow, hlimit, hmapped, ?_, hreach.le⟩
      rw [hpointer]
      exact Nat.add_le_add_left hle _
  · rw [hfresh]
    exact ⟨_, List.mem_append_right _ (List.mem_singleton_self _), hreach⟩

/-- **One call**: the bump pointer is the sum of the rounded sizes of the new regions. -/
theorem Accounted.step {behind data : ℕ} (hspace : data + daxMmSize + behind ≤ userSpace)
    {s s' : Center × List Region} (h : Accounted behind data s) {call : FileName × ℕ}
    (hs : stepOver behind s call = some s') : Accounted behind data s' := by
  obtain ⟨name, size⟩ := call
  rw [stepOver] at hs
  rcases hreg : s.1.registerOver behind name size with ⟨c', e | ⟨ret, zeroed⟩⟩
  · simp only [hreg] at hs
    cases hs
  · simp only [hreg, Option.some.injEq] at hs
    subst hs
    rcases registerOver_ok hreg with ⟨rfl, i, hi, rfl, rfl, rfl⟩ |
      ⟨rfl, hadmits, rfl, flag, b, hb, rfl⟩
    · exact h.found hspace hi
    · exact h.appended hspace hb hadmits

/-- **Which regions stay in the mapping.** A process maps an empty device at `data`, with `behind`
bytes of other memory behind it, and makes any calls of `Register` that pass the checks. Every
region starts behind the metadata, and ends less than the size of the metadata block past the
mapping. All of them end in the mapping exactly when the sizes of the new ones, each but the last
rounded up to `align`, and the metadata block fit in it; which is always so when the bytes behind
the mapping cannot be written. -/
theorem regions_in_mapping {behind data : ℕ} (hspace : data + daxMmSize + behind ≤ userSpace)
    {calls : List (FileName × ℕ)} {c : Center} {regions : List Region}
    (hrun : Run.run (stepOver behind) (Center.construct MetaBlock.new data, []) calls =
      some (c, regions)) :
    (∀ r ∈ regions, data + metaBlockSize ≤ r.addr ∧
      r.addr + r.size < data + daxMmSize + metaBlockSize) ∧
    ((∀ r ∈ regions, r.addr + r.size ≤ data + daxMmSize) ↔
      metaBlockSize + needed (fresh regions) ≤ daxMmSize) ∧
    (behind = 0 → ∀ r ∈ regions, r.addr + r.size ≤ data + daxMmSize) := by
  have h : Accounted behind data (c, regions) := Run.run_invariant
    (fun _ _ _ h hs => h.step hspace hs) (accounted_construct behind data) hrun
  obtain rfl := h.start
  refine ⟨fun r hr => ⟨(h.placed r hr).lower, ?_⟩, ⟨fun hall => ?_, fun hfits r hr => ?_⟩, ?_⟩
  · have hlimit := (h.placed r hr).limit
    simp only [Center.dataStart] at hlimit ⊢
    omega
  · by_cases hne : fresh regions = []
    · have hnone : needed (fresh regions) = 0 := by rw [hne]; rfl
      rw [hnone, metaBlockSize, daxMmSize]
      omega
    · obtain ⟨r, hr, hend⟩ := h.attained hne
      have hle := hall r hr
      simp only [Center.dataStart] at hend hle
      omega
  · have hreach := (h.placed r hr).within
    simp only [Center.dataStart] at hreach ⊢
    omega
  · rintro rfl r hr
    exact (h.placed r hr).mapped

/-- A region of five million bytes, found again, and a small one. -/
theorem regions_in_mapping_two_names :
    ∃ c regions, Run.run (stepOver 4096) (Center.construct MetaBlock.new 0, [])
        [(⟨[97], by decide⟩, 5000000), (⟨[97], by decide⟩, 5000000), (⟨[98], by decide⟩, 7)] =
        some (c, regions) ∧
      regions.length = 3 ∧ ∀ r ∈ regions, r.addr + r.size ≤ daxMmSize := by
  have heval : ((Run.run (stepOver 4096) (Center.construct MetaBlock.new 0, [])
      [(⟨[97], by decide⟩, 5000000), (⟨[97], by decide⟩, 5000000), (⟨[98], by decide⟩, 7)]).any
      fun s => s.2.length = 3 ∧ metaBlockSize + needed (fresh s.2) ≤ daxMmSize) = true := by
    decide +kernel
  simp only [Option.any_eq_true, decide_eq_true_eq] at heval
  obtain ⟨⟨c, regions⟩, hrun, hlen, hfits⟩ := heval
  have hall := (regions_in_mapping (by decide) hrun).2.1.mpr hfits
  exact ⟨c, regions, hrun, hlen, fun r hr => (hall r hr).trans_eq (Nat.zero_add _)⟩

/-- **A region that ends one byte past the mapping** passes every check. With a page of other memory
there the call returns it; with nothing there the call faults in `memset`. -/
theorem register_past_mapping :
    (∃ c r, Run.run (stepOver 4096) (Center.construct MetaBlock.new 0, [])
        [(⟨[97], by decide⟩, daxMmSize - metaBlockSize + 1)] = some (c, [r]) ∧
      daxMmSize < r.addr + r.size) ∧
    ((Center.construct MetaBlock.new 0).register ⟨[97], by decide⟩
      (daxMmSize - metaBlockSize + 1)).2 = .error .fault := by
  have heval : ((Run.run (stepOver 4096) (Center.construct MetaBlock.new 0, [])
      [(⟨[97], by decide⟩, daxMmSize - metaBlockSize + 1)]).any
      fun s => s.2.length = 1 ∧ ∀ r ∈ s.2, daxMmSize < r.addr + r.size) = true := by
    decide +kernel
  have hfault : (((Center.construct MetaBlock.new 0).register ⟨[97], by decide⟩
      (daxMmSize - metaBlockSize + 1)).2 matches .error .fault) = true := by
    decide +kernel
  simp only [Option.any_eq_true, decide_eq_true_eq] at heval
  obtain ⟨⟨c, regions⟩, hrun, hlen, hpast⟩ := heval
  obtain ⟨r, rfl⟩ := List.length_eq_one_iff.mp hlen
  refine ⟨⟨c, r, hrun, hpast r (List.mem_singleton_self r)⟩, ?_⟩
  split at hfault
  · assumption
  · cases hfault

end RegisterCenter

end PetPS
