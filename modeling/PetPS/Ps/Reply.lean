import PetPS.Ps.Server

/-!
# The layout of a GET reply

The client looks for the value of the `i`-th key at `i * value_size`. `KVEnginePetKV` tells its
shards that the size of the values is not known (`pre_known_value_size` is `0`), so a key that is
missing has no bytes in the reply, not even where `BatchGet` means to return zeros, and every later
value moves up. The layout is the expected one exactly when no key of the request is missing.

## Main results

* `assembled_eq` — the bytes of the reply
* `reply_layout_iff` — when they are where the client looks for them
-/

namespace PetPS

/-- The bytes of a reply, as the posted writes lay them out. -/
def assembled (buf : Bytes.Mem) (wrs : List WorkRequest) : List UInt8 :=
  wrs.flatMap fun w => gather buf w.sgList

/-- **The layout the client relies on**: the value of the `i`-th key, or zeros if it is missing, at
`i * value_size`. -/
structure LaidOut (kv : PetMultiKV) (valueSize : ℕ) (keys : List UInt64) (reply : List UInt8) :
    Prop where
  length : reply.length = keys.length * valueSize
  slice : ∀ i (hi : i < keys.length), (reply.drop (i * valueSize)).take valueSize
    = (kv.stored keys[i]).getD (List.replicate valueSize 0)

theorem Tiles.assembled_eq {buf : Bytes.Mem} {wrs : List WorkRequest} {start : ℕ}
    (h : Tiles start wrs) : assembled buf wrs = Bytes.load buf start (totalSize wrs) := by
  induction wrs generalizing start with
  | nil => rfl
  | cons w wrs ih =>
    obtain ⟨-, hgather, hrest⟩ := h
    rw [totalSize, List.map_cons, List.sum_cons, Bytes.load_add, ← hgather buf]
    exact congrArg _ (ih hrest)

/-- **When the reply is laid out as the client expects.** Whatever the branch and the prefetch
method, `RpcPsGet` returns, and the reply has the right layout if and only if the values have no
bytes or no key of the request is missing. -/
theorem reply_layout_iff {kv : PetMultiKV} {valueSize : ℕ} (h : kv.Content valueSize)
    (hfour : 4 ∣ valueSize) {flags : Flags} (hmethod : flags.prefetchMethod ≤ 1)
    {keys : List UInt64} (hmax : keys.length ≤ flags.maxKvNumPerRequest) (buf : Bytes.Mem) :
    ∃ buf' wrs, rpcPsGet flags kv buf keys = .ok (buf', wrs) ∧
      (LaidOut kv valueSize keys (assembled buf' wrs) ↔
        valueSize = 0 ∨ ∀ key ∈ keys, (kv.stored key).isSome = true) := by
  obtain ⟨wrs, hget, htiles, htotal⟩ := rpcPsGet_spec (h.holdsFloats hfour) hmethod hmax buf
  refine ⟨_, wrs, hget, ?_⟩
  rw [htiles.assembled_eq, htotal, Bytes.load_store_self]
  have hlen : ∀ key, ((kv.stored key).getD []).length
      = if (kv.stored key).isSome then valueSize else 0 := fun key => by
    cases hs : kv.stored key with
    | none => rfl
    | some bytes => exact h.size key bytes hs
  have hle : ∀ key ∈ keys, ((kv.stored key).getD []).length ≤ valueSize := fun key _ => by
    rw [hlen]
    split_ifs <;> omega
  have hsome : (∀ key ∈ keys, ((kv.stored key).getD []).length = valueSize) ↔
      valueSize = 0 ∨ ∀ key ∈ keys, (kv.stored key).isSome = true := by
    simp only [hlen]
    constructor
    · intro hall
      refine or_iff_not_imp_left.mpr fun hpos key hkey => ?_
      by_contra hmiss
      have hkey := hall key hkey
      rw [if_neg hmiss] at hkey
      exact hpos hkey.symm
    · rintro (hzero | hall) key hkey
      · split_ifs <;> omega
      · rw [if_pos (hall key hkey)]
  rw [← hsome]
  constructor
  · exact fun hlaid => (Bytes.length_flatMap_eq_iff hle).mp hlaid.length
  · intro hall
    refine ⟨(Bytes.length_flatMap_eq_iff hle).mpr hall, fun i hi => ?_⟩
    rw [Bytes.slice_flatMap hall i hi]
    have hi' := hall keys[i] (List.getElem_mem hi)
    cases hs : kv.stored keys[i] with
    | some bytes => rfl
    | none =>
      rw [hs] at hi'
      rw [← hi']
      rfl

theorem reply_layout_of_present : ∃ s₀ s, Shards s₀ s ∧
    ∀ getShard : UInt64 → Fin 16, ∃ buf wrs,
      rpcPsGet ⟨true, 1, 300⟩ (twoKeys s getShard) (fun _ => 0) [9, 7, 9] = .ok (buf, wrs) ∧
      LaidOut (twoKeys s getShard) 4 [9, 7, 9] (assembled buf wrs) := by
  obtain ⟨s₀, s, hs⟩ := exists_shards
  refine ⟨s₀, s, hs, fun getShard => ?_⟩
  have hmethod : (⟨true, 1, 300⟩ : Flags).prefetchMethod ≤ 1 := le_rfl
  have hmax : ([9, 7, 9] : List UInt64).length ≤ (⟨true, 1, 300⟩ : Flags).maxKvNumPerRequest := by
    decide
  obtain ⟨buf, wrs, hget, hiff⟩ := reply_layout_iff (hs.content getShard) (by decide) hmethod hmax
    (fun _ => 0)
  refine ⟨buf, wrs, hget, hiff.mpr (Or.inr fun key hkey => ?_)⟩
  obtain rfl | rfl | rfl : key = 9 ∨ key = 7 ∨ key = 9 := by simpa using hkey
  all_goals
    rw [hs.stored]
    rfl

/-- The key `5` is missing: the reply to `[5, 7]` is the value of `7` alone, in every branch. -/
theorem missing_key_shifts_reply : ∃ s₀ s, Shards s₀ s ∧
    ∀ (getShard : UInt64 → Fin 16) (useSglist : Bool) (prefetchMethod : ℕ), prefetchMethod ≤ 1 →
      (twoKeys s getShard).Content 4 ∧ ∃ buf wrs,
        rpcPsGet ⟨useSglist, prefetchMethod, 300⟩ (twoKeys s getShard) (fun _ => 0) [5, 7]
          = .ok (buf, wrs) ∧
        assembled buf wrs = [1, 2, 3, 4] ∧
        ¬ LaidOut (twoKeys s getShard) 4 [5, 7] (assembled buf wrs) := by
  obtain ⟨s₀, s, hs⟩ := exists_shards
  refine ⟨s₀, s, hs, fun getShard useSglist prefetchMethod hmethod => ?_⟩
  have hmethod' : (⟨useSglist, prefetchMethod, 300⟩ : Flags).prefetchMethod ≤ 1 := hmethod
  have hmax : ([5, 7] : List UInt64).length
      ≤ (⟨useSglist, prefetchMethod, 300⟩ : Flags).maxKvNumPerRequest := by
    simp
  obtain ⟨wrs, hget, htiles, htotal⟩ :=
    rpcPsGet_spec ((hs.content getShard).holdsFloats (by decide)) hmethod' hmax (fun _ => 0)
  have hreply : assembled (Bytes.store (fun _ => 0) 0 ([5, 7].flatMap fun key =>
      ((twoKeys s getShard).stored key).getD [])) wrs = [1, 2, 3, 4] := by
    rw [htiles.assembled_eq, htotal, Bytes.load_store_self]
    simp [hs.stored]
  refine ⟨hs.content getShard, _, wrs, hget, hreply, fun hlaid => ?_⟩
  have hlen := hlaid.length
  rw [hreply] at hlen
  simp at hlen

end PetPS
