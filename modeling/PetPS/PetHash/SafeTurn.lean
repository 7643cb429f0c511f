import PetPS.PetHash.Readers

/-!
# A turn of the migration, store by store

The stores of one turn take no entry out of reach of a lookup, under the conditions of `TurnOk`.
The turn is cut into blocks: the marks; the entry put into an empty slot, which shows it with the
last of its stores; the slot of the victim taken over, when the victim is within reach further on;
the slot of the hot key cleared, under the mark of its chunk; and the marks and counters reset, when
the slots are already those of the table that the turn leaves behind.

## Main results

* `safe_put`, `safe_replace`, `safe_clear`, `safe_settle` — the blocks
* `Good.safe_migrateStores` — the turn
-/

namespace PetPS

variable {V : Type}

/-- The store is to slot `i` of the chunk at `pos`, or to the element count of that chunk. -/
def HashStore.Into (pos : ℕ) (i : Slot) : HashStore V → Prop
  | .chunkSize p _ => p = pos
  | .key p j _ => p = pos ∧ j = i
  | .value p j _ => p = pos ∧ j = i
  | .tag p j _ => p = pos ∧ j = i
  | _ => False

theorem F14Chunk.seen_set (c : F14Chunk V) (i : Slot) (e : EntryT V) :
    (c.set i (PetHash.tagOf e.first) e).seen i = some e := by
  simp [seen_eq_some, set]

theorem F14Chunk.seen_of_insert {c c' : F14Chunk V} {e : EntryT V} {i : Slot}
    (h : c.insert e.first e.second (PetHash.tagOf e.first) = .ok (c', i)) : c'.seen i = some e := by
  simp only [F14Chunk.insert] at h
  split_ifs at h
  cases h
  exact seen_set _ _ e

theorem F14Chunk.seen_congr {c c' : F14Chunk V} (htags : c'.tags = c.tags)
    (hvalue : c'.value = c.value) (i : Slot) : c'.seen i = c.seen i := by
  rw [seen, seen, htags, hvalue]

namespace PetHash

open Cut

section Blocks

variable {E : Multiset (EntryT V)} {key : UInt64} {cover : Option (UInt64 × ℕ)} {u : PetHash V}
  {pos : ℕ} {i : Slot} {rest : List (MigrationStore V)}

/-! ### Stores into a slot -/

/-- What a store into a slot does. -/
theorem exists_modify_of_into {a : HashStore V} (ha : a.Into pos i) :
    ∃ f : F14Chunk V → F14Chunk V, (∀ u : PetHash V, u.apply a = u.modifyChunk pos f) ∧
      ∀ c, (f c).overflowCount = c.overflowCount ∧ (f c).isMigrating = c.isMigrating ∧
        (∀ j ≠ i, (f c).seen j = c.seen j) ∧ (a.setsTag = false → (f c).tags = c.tags) := by
  cases a with
  | overflow p v => exact ha.elim
  | size v => exact ha.elim
  | chunkSize p v =>
    obtain rfl : p = pos := ha
    refine ⟨fun c => { c with size := v },
      fun u => rfl, fun c => ?_⟩
    exact ⟨rfl, rfl, fun j _ => rfl, fun _ => rfl⟩
  | key p j k =>
    obtain ⟨rfl, rfl⟩ := ha
    refine ⟨fun c => { c with value := Function.update c.value j { c.value j with first := k } },
      fun u => rfl, fun c => ?_⟩
    refine ⟨rfl, rfl, fun j' hj => ?_, fun _ => rfl⟩
    simp only [F14Chunk.seen, Function.update_of_ne hj]
  | value p j v =>
    obtain ⟨rfl, rfl⟩ := ha
    refine ⟨fun c => { c with value := Function.update c.value j { c.value j with second := v } },
      fun u => rfl, fun c => ?_⟩
    refine ⟨rfl, rfl, fun j' hj => ?_, fun _ => rfl⟩
    simp only [F14Chunk.seen, Function.update_of_ne hj]
  | tag p j tag =>
    obtain ⟨rfl, rfl⟩ := ha
    refine ⟨fun c => { c with tags := Function.update c.tags j tag },
      fun u => rfl, fun c => ?_⟩
    refine ⟨rfl, rfl, fun j' hj => ?_, fun hfree => Bool.noConfusion hfree⟩
    simp only [F14Chunk.seen, Function.update_of_ne hj]

theorem otherSlots_apply (u : PetHash V) {a : HashStore V} (ha : a.Into pos i) :
    OtherSlots u (u.apply a) (pos, i) := by
  obtain ⟨f, hf, hkeep⟩ := exists_modify_of_into ha
  obtain ⟨hcount, hmig, hseen, -⟩ := hkeep (u.chunkTable pos)
  rw [hf]
  refine ⟨rfl, fun p j hs => ?_, modifyChunk_field _ _ _ F14Chunk.overflowCount hcount,
    modifyChunk_field _ _ _ F14Chunk.isMigrating hmig⟩
  by_cases hp : p = pos
  · subst hp
    rw [modifyChunk_self]
    exact hseen j fun hj => hs (hj ▸ rfl)
  · rw [modifyChunk_of_ne _ _ _ hp]

theorem tags_apply (u : PetHash V) {a : HashStore V} (ha : a.Into pos i)
    (hfree : a.setsTag = false) :
    ((u.apply a).chunkTable pos).tags = (u.chunkTable pos).tags := by
  obtain ⟨f, hf, hkeep⟩ := exists_modify_of_into ha
  rw [hf, modifyChunk_self]
  exact (hkeep _).2.2.2 hfree

/-- Stores into an empty slot. -/
theorem safe_hidden (as : List (HashStore V)) (has : ∀ a ∈ as, a.Into pos i ∧ a.setsTag = false)
    (hv : u.View E cover) (htag : (u.chunkTable pos).tags i = 0)
    (hrest : (exec apply u as).View E cover → ((exec apply u as).chunkTable pos).tags i = 0 →
      Safe E key cover (exec apply u as) rest) :
    Safe E key cover u (as.map .hash ++ rest) := by
  refine safe_block (P := fun u => (u.chunkTable pos).tags i = 0)
    (fun u b hb hv htag => ?_) hv htag ?_
  · obtain ⟨a, ha, rfl⟩ := List.mem_map.mp hb
    obtain ⟨hinto, hfree⟩ := has a ha
    have htag' := (congrFun (tags_apply u hinto hfree) i).trans htag
    refine ⟨(otherSlots_apply u hinto).follows_hidden hv
      (F14Chunk.seen_of_tag_zero htag) fun e he => ?_,
      htag'⟩
    rw [F14Chunk.seen_of_tag_zero htag'] at he
    cases he
  · rw [exec_hash]
    exact hrest

/-- **`F14Chunk::Insert`** of an entry that is in the table elsewhere. -/
theorem safe_put {e : EntryT V} (he : e ∈ E) {c : F14Chunk V}
    (hins : (u.chunkTable pos).insert e.first e.second (tagOf e.first) = .ok (c, i))
    (hv : u.View E cover)
    (hrest : (u.modifyChunk pos fun _ => c).View E cover →
      Safe E key cover (u.modifyChunk pos fun _ => c) rest) :
    Safe E key cover u
      ((chunkInsertStores pos (u.chunkTable pos) e.first e.second
        (tagOf e.first)).map .hash ++ rest) := by
  obtain ⟨htag, n, hstores⟩ := chunkInsertStores_of_ok hins pos
  have hexec := exec_chunkInsertStores hins
  rw [hstores] at hexec ⊢
  show Safe E key cover u
    (([.chunkSize pos n, .key pos i e.first, .value pos i e.second] :
      List (HashStore V)).map .hash ++
      (.hash (.tag pos i (tagOf e.first)) :: rest))
  refine safe_hidden _ ?_ hv htag fun hv₃ htag₃ => ?_
  · simp [HashStore.Into, HashStore.setsTag]
  · obtain ⟨u₃, hu₃⟩ : ∃ u₃, u₃ = exec apply u [.chunkSize pos n, .key pos i e.first,
        .value pos i e.second] := ⟨_, rfl⟩
    have hlast : u₃.apply (.tag pos i (tagOf e.first)) = u.modifyChunk pos fun _ => c := hu₃ ▸ hexec
    rw [← hu₃] at hv₃ htag₃ ⊢
    have hf : Follows E cover u₃ (u₃.apply (.tag pos i (tagOf e.first))) := by
      have ho := otherSlots_apply u₃ (i := i) (a := .tag pos i (tagOf e.first)) ⟨rfl, rfl⟩
      refine ho.follows_hidden hv₃ (F14Chunk.seen_of_tag_zero htag₃) ?_
      intro e' he'
      rw [hlast, modifyChunk_self, F14Chunk.seen_of_insert hins] at he'
      exact Option.some.inj he' ▸ he
    rw [hlast] at hf
    exact safe_cons hlast hv₃ hf (hrest (hv₃.next hf))

/-- **`F14Chunk::Delete`** of the hot key, when its chunk is marked. -/
theorem safe_clear {e : EntryT V} (he : (u.chunkTable pos).seen i = some e)
    (hcover : cover = some (e.first, pos)) (hmig : (u.chunkTable pos).isMigrating = true)
    (hv : u.View E cover)
    (hrest : (u.modifyChunk pos fun c => c.delete i).View E cover →
      Safe E key cover (u.modifyChunk pos fun c => c.delete i) rest) :
    Safe E key cover u ((chunkDeleteStores pos (u.chunkTable pos) i).map .hash ++ rest) := by
  have hexec := exec_chunkDeleteStores u pos i
  have ho := otherSlots_apply u (i := i) (a := .tag pos i 0) ⟨rfl, rfl⟩
  have htag : ((u.apply (.tag pos i 0)).chunkTable pos).tags i = 0 := by
    rw [apply, modifyChunk_self]
    exact Function.update_self ..
  have hf : Follows E cover u (u.apply (.tag pos i 0)) := by
    refine ho.follows hv (fun e' he' => ?_) fun e' he' q hq hat => ?_
    · rw [F14Chunk.seen_of_tag_zero htag] at he'
      cases he'
    · -- a pass that comes here learns to try again
      obtain rfl := Option.some.inj (he.symm.trans he')
      refine Stops.reaches hq (Or.inr ?_)
      rw [probeAt_congr ho.chunkNum, hat, ho.migrating]
      exact ⟨hcover, hmig⟩
  have hfirst : u.applyStore (.hash (.tag pos i 0)) = u.apply (.tag pos i 0) := rfl
  refine safe_cons hfirst hv hf (safe_hidden [.key pos i emptyKey,
    .chunkSize pos ((u.chunkTable pos).delete i).size] ?_ (hv.next hf) htag fun hv₃ _ => ?_)
  · simp [HashStore.Into, HashStore.setsTag]
  · have hlast : exec apply (u.apply (.tag pos i 0)) [.key pos i emptyKey,
        .chunkSize pos ((u.chunkTable pos).delete i).size]
          = u.modifyChunk pos fun c => c.delete i := hexec
    rw [hlast] at hv₃ ⊢
    exact hrest hv₃

/-- **`F14Chunk::Set`** over the victim `e₀`, which is within reach further on. The tags have to
differ: between the store of the key and that of the value the slot holds the key with the value of
the victim. -/
theorem safe_replace {e e₀ : EntryT V} (he : e ∈ E) (he₀ : (u.chunkTable pos).seen i = some e₀)
    (htags : tagOf e₀.first ≠ tagOf e.first)
    (hmoved : ∀ u', OtherSlots u u' (pos, i) → ∀ q < u.chunkNum, u.probeAt e₀.first q = pos →
      u'.Reaches cover e₀ q) (hv : u.View E cover)
    (hrest : (u.modifyChunk pos fun c => c.set i (tagOf e.first) e).View E cover →
      Safe E key cover (u.modifyChunk pos fun c => c.set i (tagOf e.first) e) rest) :
    Safe E key cover u ((setStores pos i (tagOf e.first) e).map .hash ++ rest) := by
  have hexec := exec_setStores u pos i (tagOf e.first) e
  obtain ⟨u₁, hu₁⟩ : ∃ u₁, u₁ = u.apply (.key pos i e.first) := ⟨_, rfl⟩
  obtain ⟨u₂, hu₂⟩ : ∃ u₂, u₂ = u₁.apply (.value pos i e.second) := ⟨_, rfl⟩
  have hu₃ : u₂.apply (.tag pos i (tagOf e.first))
      = u.modifyChunk pos fun c => c.set i (tagOf e.first) e :=
    hu₂ ▸ hu₁ ▸ hexec
  have ho₁ : OtherSlots u u₁ (pos, i) := hu₁ ▸ otherSlots_apply u ⟨rfl, rfl⟩
  have ho₂ : OtherSlots u₁ u₂ (pos, i) := hu₂ ▸ otherSlots_apply u₁ ⟨rfl, rfl⟩
  have ho₃ : OtherSlots u₂ (u₂.apply (.tag pos i (tagOf e.first))) (pos, i) :=
    otherSlots_apply u₂ ⟨rfl, rfl⟩
  have hkey₁ : ((u₁.chunkTable pos).value i).first = e.first := by
    simp [hu₁, apply]
  have hkey₂ : ((u₂.chunkTable pos).value i).first = e.first := by
    simp [hu₂, apply, setValue, hkey₁]
  have htag₁ : (u₁.chunkTable pos).tags i = tagOf e₀.first := by
    rw [hu₁, tags_apply (i := i) (a := .key pos i e.first) u ⟨rfl, rfl⟩ rfl]
    exact (F14Chunk.seen_eq_some.mp he₀).1
  have htag₂ : (u₂.chunkTable pos).tags i = tagOf e₀.first := by
    rw [hu₂, tags_apply (i := i) (a := .value pos i e.second) u₁ ⟨rfl, rfl⟩ rfl, htag₁]
  -- the slot shows nothing until the last store
  have hnone₁ : (u₁.chunkTable pos).seen i = none :=
    F14Chunk.seen_eq_none (by rw [hkey₁, htag₁]; exact htags)
  have hnone₂ : (u₂.chunkTable pos).seen i = none :=
    F14Chunk.seen_eq_none (by rw [hkey₂, htag₂]; exact htags)
  have hf₁ : Follows E cover u u₁ := by
    refine ho₁.follows hv (fun e' he' => ?_) fun e' he' q hq hat => ?_
    · rw [hnone₁] at he'
      cases he'
    · obtain rfl := Option.some.inj (he₀.symm.trans he')
      exact hmoved u₁ ho₁ q hq hat
  have hv₁ := hv.next hf₁
  have hf₂ : Follows E cover u₁ u₂ := ho₂.follows_hidden hv₁ hnone₁ fun e' he' => by
    rw [hnone₂] at he'
    cases he'
  have hv₂ := hv₁.next hf₂
  have hf₃ : Follows E cover u₂ (u₂.apply (.tag pos i (tagOf e.first))) := by
    refine ho₃.follows_hidden hv₂ hnone₂ fun e' he' => ?_
    have hset : ((u₂.apply (.tag pos i (tagOf e.first))).chunkTable pos).seen i = some e := by
      rw [hu₃, modifyChunk_self]
      exact F14Chunk.seen_set _ i e
    exact Option.some.inj (hset.symm.trans he') ▸ he
  rw [setStores]
  rw [hu₃] at hf₃
  refine safe_cons hu₁.symm hv hf₁ (safe_cons hu₂.symm hv₁ hf₂ (safe_cons hu₃ hv₂ hf₃ ?_))
  exact hrest (hv₂.next hf₃)

/-! ### Marks and counters -/

theorem traverse_markStores (b : Bool) (places : List ℕ) (t : PetHash V) :
    traverseStores (markStores b) places t = places.map fun pos => .mark pos b := by
  induction places generalizing t with
  | nil => rfl
  | cons pos places ih =>
    rw [traverseStores, ih]
    rfl

/-- Marking chunks. -/
theorem safe_marks (places : List ℕ) (hv : u.View E cover)
    (hrest : (u.modifyAll places fun _ => setMigrating true).View E cover →
      Safe E key cover (u.modifyAll places fun _ => setMigrating true) rest) :
    Safe E key cover u (traverseStores (markStores true) places u ++ rest) := by
  refine safe_block (P := fun _ => True)
    (fun u a ha hv _ => ⟨?_, trivial⟩) hv trivial fun hv' _ => ?_
  · rw [traverse_markStores] at ha
    obtain ⟨p, -, rfl⟩ := List.mem_map.mp ha
    refine follows_of_same hv rfl (fun q j => ?_) (fun k q _ hmig => ?_) fun e _ q _ _ j _ hne => ?_
    · exact F14Chunk.seen_congr (modifyChunk_field _ _ _ F14Chunk.tags rfl q)
        (modifyChunk_field _ _ _ F14Chunk.value rfl q) j
    · by_cases hq : q = p
      · subst hq
        rw [applyStore, modifyChunk_self]
        rfl
      · rwa [applyStore, modifyChunk_of_ne _ _ _ hq]
    · rwa [applyStore, modifyChunk_field _ _ _ F14Chunk.overflowCount rfl]
  · rw [exec_traverse (exec_markStores true)] at hv' ⊢
    exact hrest hv'

theorem count_overflow (u : PetHash V) (pos v q : ℕ) :
    ((u.apply (.overflow pos v)).chunkTable q).overflowCount
      = if q = pos then v else (u.chunkTable q).overflowCount := by
  rw [apply]
  split_ifs with hq
  · rw [hq, modifyChunk_self]
  · rw [modifyChunk_of_ne _ _ _ hq]

theorem sameSlots_overflow (u : PetHash V) (pos v : ℕ) :
    SameSlots u (u.apply (.overflow pos v)) := by
  rw [apply]
  exact ⟨rfl, rfl, rfl, modifyChunk_field _ _ _ F14Chunk.tags rfl,
    modifyChunk_field _ _ _ F14Chunk.value rfl, modifyChunk_field _ _ _ F14Chunk.size rfl⟩

theorem sameSlots_mark (u : PetHash V) (pos : ℕ) (b : Bool) :
    SameSlots u (u.applyStore (.mark pos b)) :=
  ⟨rfl, rfl, rfl, modifyChunk_field _ _ _ F14Chunk.tags rfl,
    modifyChunk_field _ _ _ F14Chunk.value rfl, modifyChunk_field _ _ _ F14Chunk.size rfl⟩

theorem follows_overflow {v : ℕ} (hv : u.View E cover)
    (hcount : ∀ e ∈ E, ∀ q < u.chunkNum, u.Stops cover e (u.probeAt e.first q) → ∀ j < q,
      u.probeAt e.first j = pos → v ≠ 0) : Follows E cover u (u.apply (.overflow pos v)) := by
  have hsame := sameSlots_overflow u pos v
  refine follows_of_same hv rfl (fun q j => F14Chunk.seen_congr (hsame.tags q) (hsame.value q) j)
    (fun k q _ hmig => ?_) fun e he q hq hat j hj hne => ?_
  · rwa [apply, modifyChunk_field _ _ _ F14Chunk.isMigrating rfl]
  · rw [count_overflow]
    split_ifs with hpos
    · exact hcount e he q hq hat j hj hpos
    · exact hne

/-- Raising counters. -/
theorem safe_raise {as : List (HashStore V)} (has : ∀ a ∈ as, ∃ p v, a = .overflow p v ∧ v ≠ 0)
    (hv : u.View E cover)
    (hrest : (exec apply u as).View E cover → Safe E key cover (exec apply u as) rest) :
    Safe E key cover u (as.map .hash ++ rest) := by
  refine safe_block (P := fun _ => True)
    (fun u b hb hv _ => ⟨?_, trivial⟩) hv trivial fun hv' _ => ?_
  · obtain ⟨a, ha, rfl⟩ := List.mem_map.mp hb
    obtain ⟨p, v, rfl, hne⟩ := has a ha
    exact follows_overflow hv fun e _ q _ _ j _ _ => hne
  · rw [exec_hash] at hv' ⊢
    exact hrest hv'

end Blocks

/-! ### The end of a turn -/

theorem SameSlots.shows_iff {t u : PetHash V} (h : SameSlots t u) {pos : ℕ} {e : EntryT V} :
    u.Shows pos e ↔ t.Shows pos e :=
  exists_congr fun i => by rw [F14Chunk.seen_congr (h.tags pos) (h.value pos)]

section Good

variable {t : PetHash V} {ahead : Multiset ℕ}

theorem Shape.shows_iff (h : t.Shape) {pos : ℕ} (hpos : pos < t.chunkNum) {e : EntryT V} :
    t.Shows pos e ↔ ∃ i, t.slotEntry (pos, i) = some e :=
  exists_congr fun i => by rw [(h.sound pos hpos).seen_eq, slotEntry]

/-- The counters lead on to every entry. -/
theorem Good.count_ne_zero (h : t.Good ahead) {e : EntryT V} {q : ℕ} (hq : q < t.chunkNum)
    (hs : t.Shows (t.probeAt e.first q) e) {j : ℕ} (hj : j < q) :
    (t.chunkTable (t.probeAt e.first j)).overflowCount ≠ 0 := by
  have hp := h.shape.probeAt_lt e.first q
  obtain ⟨i, hi⟩ := (h.shape.shows_iff hp).mp hs
  refine h.ledger.count_pos (h.shape.probeAt_lt e.first j)
    (passCount_pos (s := (t.probeAt e.first q, i)) hp hi (h.shape.passes_probeAt e.first hp ?_))
  rwa [h.shape.stepsTo_probeAt e.first hq]

/-- **Between two turns** lookups see the entries. -/
theorem Good.view (h : t.Good ahead) : t.View t.entries none where
  entries pos hpos e hs := by
    obtain ⟨i, hi⟩ := (h.shape.shows_iff hpos).mp hs
    exact mem_entries.mpr ⟨(pos, i), hpos, hi⟩
  reaches e he := by
    obtain ⟨⟨pos, i⟩, hpos, hi⟩ := mem_entries.mp he
    have hq := h.shape.stepsTo_lt e.first hpos
    have hs : t.Shows (t.probeAt e.first (t.stepsTo e.first pos)) e := by
      rw [h.shape.probeAt_stepsTo e.first hpos]
      exact (h.shape.shows_iff hpos).mpr ⟨i, hi⟩
    exact ⟨_, Nat.zero_le _, hq, fun j _ hj => h.count_ne_zero hq hs hj, Or.inl hs⟩

end Good

/-- The store resets a mark, or gives a counter the value it has in `t`. -/
def Settles (t : PetHash V) : MigrationStore V → Prop
  | .mark _ b => b = false
  | .hash (.overflow pos v) => v = (t.chunkTable pos).overflowCount
  | _ => False

section Settle

variable {E : Multiset (EntryT V)} {key : UInt64} {cover : Option (UInt64 × ℕ)} {t u : PetHash V}
  {ahead : Multiset ℕ}

/-- A counter gets its last value of the turn. -/
theorem Good.follows_overflow (h : t.Good ahead) (hsame : SameSlots t u)
    (hv : u.View E cover) {pos : ℕ} (hcover : ∀ k p, cover = some (k, p) → p = pos) :
    Follows E cover u (u.apply (.overflow pos (t.chunkTable pos).overflowCount)) := by
  refine PetHash.follows_overflow hv fun e _ q hq hat j hj hpos => ?_
  rw [hsame.chunkNum] at hq
  rw [probeAt_congr hsame.chunkNum] at hat hpos
  rcases hat with hs | ⟨hc, -⟩
  · rw [← hpos]
    exact h.count_ne_zero hq (hsame.shows_iff.mp hs) hj
  · -- the path of the hot key meets the chunk it leaves only once
    have hj' := h.shape.stepsTo_probeAt e.first (show j < t.chunkNum by omega)
    have hq' := h.shape.stepsTo_probeAt e.first hq
    rw [hpos, ← hcover _ _ hc, hq'] at hj'
    omega

/-- **The last stores of a turn**, when nothing depends on a mark any more. -/
theorem Good.safe_settle (h : t.Good ahead) {as : List (MigrationStore V)}
    (has : ∀ a ∈ as, Settles t a)
    (hv : u.View E none) (hsame : SameSlots t u) : Safe E key none u as := by
  rw [← List.append_nil as]
  refine safe_block (P := fun u => SameSlots t u) (fun u a ha hv hsame => ?_) hv hsame
    fun hv' _ => ⟨hv', rfl⟩
  match a, has a ha with
  | .mark pos b, _ =>
    have hmark := sameSlots_mark u pos b
    refine ⟨follows_of_same hv rfl (fun p j => F14Chunk.seen_congr (hmark.tags p) (hmark.value p) j)
      (fun k p hc => (nomatch hc)) fun e _ q _ _ j _ hne => ?_, hsame.trans hmark⟩
    rwa [applyStore, modifyChunk_field _ _ _ F14Chunk.overflowCount rfl]
  | .hash (.overflow pos v), hset =>
    obtain rfl : v = (t.chunkTable pos).overflowCount := hset
    exact ⟨h.follows_overflow hsame hv fun k p hc => (nomatch hc),
      hsame.trans (sameSlots_overflow u pos _)⟩

/-- **The first mark is reset**: the hot key is in its home chunk, and the mark of the chunk it
left no longer matters. -/
theorem Good.safe_unmark (h : t.Good ahead) {cur : ℕ} (hv : u.View E (some (key, cur)))
    (hsame : SameSlots t u) (hhome : ∀ e ∈ E, e.first = key → u.Shows (u.homeChunk key) e) {pos : ℕ}
    {as : List (MigrationStore V)} (has : ∀ a ∈ as, Settles t a) :
    Safe E key (some (key, cur)) u (.mark pos false :: as) := by
  obtain ⟨u', hu'⟩ : ∃ u', u' = u.applyStore (.mark pos false) := ⟨_, rfl⟩
  have hmark : SameSlots u u' := hu' ▸ sameSlots_mark u pos false
  have hcount : ∀ p, (u'.chunkTable p).overflowCount = (u.chunkTable p).overflowCount :=
    hu' ▸ modifyChunk_field _ _ _ F14Chunk.overflowCount rfl
  have hothers : ∀ e ∈ E, e.first ≠ key → ∀ i, u.Reaches (some (key, cur)) e i →
      u'.Reaches none e i := by
    intro e _ hne i hr
    refine hr.follow hmark.chunkNum (fun q _ _ j _ hx => by rwa [hcount]) fun q hq hat => ?_
    refine Stops.reaches (hmark.chunkNum ▸ hq) (Or.inl ?_)
    rw [probeAt_congr hmark.chunkNum, hmark.shows_iff]
    refine hat.resolve_right fun ⟨hc, _⟩ => hne ?_
    exact (congrArg Prod.fst (Option.some.inj hc)).symm
  refine ⟨hv, none, fun e he hne i hr => hu' ▸ hothers e he (hne rfl) i hr, ?_⟩
  rw [← hu']
  refine h.safe_settle has ⟨fun p hp e hs => ?_, fun e he => ?_⟩ (hsame.trans hmark)
  · exact hv.entries p (hmark.chunkNum ▸ hp) e (hmark.shows_iff.mp hs)
  · by_cases hkey : e.first = key
    · have hN := hsame.chunkNum
      have hstart : u'.probeAt e.first 0 = u.homeChunk key := by
        rw [probeAt_congr hmark.chunkNum, probeAt_congr hN, h.shape.probeAt_zero, hkey,
          homeChunk_congr hN]
      refine Stops.reaches (by rw [hmark.chunkNum, hN]; exact h.shape.chunkNum_pos) (Or.inl ?_)
      rw [hstart, hmark.shows_iff]
      exact hhome e he hkey
    · exact hothers e he hkey 0 (hv.reaches e he)

theorem settles_unmarkStores (cur : ℕ) {places : List ℕ} (hnodup : places.Nodup) (t : PetHash V) :
    ∀ a ∈ traverseStores (unmarkStores cur) places t, Settles (t.modifyAll places fun pos c =>
      if pos = cur then setMigrating false c else (setMigrating false c).decOverflow) a := by
  induction places generalizing t with
  | nil => exact fun a ha => (nomatch ha)
  | cons pos places ih =>
    intro a ha
    rw [traverseStores, exec_unmarkStores] at ha
    rcases List.mem_append.mp ha with hfirst | hlater
    · rw [unmarkStores] at hfirst
      rcases List.mem_cons.mp hfirst with rfl | hdec
      · rfl
      · split_ifs at hdec with hpos
        · cases hdec
        · obtain ⟨b, hb, rfl⟩ := List.mem_map.mp hdec
          rw [mem_overflowStores hb, Settles, modifyAll_chunkTable hnodup,
            if_pos List.mem_cons_self,
            if_neg hpos]
          rfl
    · exact ih (List.nodup_cons.mp hnodup).2 _ a hlater

end Settle

/-! ### The two cases of the migration -/

section Turn

variable {E : Multiset (EntryT V)} {t t' : PetHash V} {ahead : Multiset ℕ} {key : UInt64} {v : V}
  {cur : ℕ} {id : Slot}

/-- The slot of the hot key shows it, as long as it is not touched. -/
theorem Away.seen (h : t.Away key v cur id) (hs : t.Shape) :
    (t.chunkTable cur).seen id = some ⟨key, v⟩ :=
  ((hs.sound cur h.lt).seen_eq id).trans h.slot

/-- **Case 1.** -/
theorem Away.safe_migrateToFree (ha : t.Away key v cur id) (hs : t.Shape)
    (hmig : (t.chunkTable cur).isMigrating = true) (hroom : t.Roomy (t.homeChunk key))
    (hv : t.View E (some (key, cur))) (he : ⟨key, v⟩ ∈ E)
    (honly : ∀ e ∈ E, e.first = key → e = ⟨key, v⟩)
    (hrun : t.migrateToFree key v cur id = .ok t') (h' : t'.Good ahead) :
    Safe E key (some (key, cur)) t (t.migrateToFreeStores key v cur id) := by
  obtain ⟨c, i, hins, -⟩ := hs.put (hs.homeChunk_lt key) hroom key v
  rw [migrateToFree] at hrun
  simp only [hins] at hrun
  rw [migrateToFreeStores]
  simp only [hins]
  obtain ⟨t₁, ht₁⟩ : ∃ t₁, t₁ = t.modifyChunk (t.homeChunk key) fun _ => c := ⟨_, rfl⟩
  obtain ⟨t₂, ht₂⟩ : ∃ t₂, t₂ = t₁.modifyChunk cur fun c => c.delete id := ⟨_, rfl⟩
  obtain ⟨t₃, ht₃⟩ : ∃ t₃, t₃ = t₂.modifyChunk cur F14Chunk.decOverflow := ⟨_, rfl⟩
  rw [← ht₁, ← ht₂, ← ht₃] at hrun ⊢
  -- the chunk that the key leaves
  have hcur₁ : t₁.chunkTable cur = t.chunkTable cur := by
    rw [ht₁, modifyChunk_of_ne _ _ _ ha.ne]
  -- the chain
  have hN₃ : t₃.chunkNum = t.chunkNum := by rw [ht₃, ht₂, ht₁]; rfl
  have hchain : t₃.chainPlaces (t.homeChunk key) cur (stepOf key) = t.chain key cur := by
    rw [chainPlaces_congr hN₃, hs.chainPlaces_eq key ha.lt]
  have hnodup : (t.chain key cur).Nodup := Walk.nodup_chain (hs.coprime key) ha.lt
  have hend := eq_modifyAll_of_chainTraverseReverse hrun
  rw [hchain] at hend ⊢
  have hsame₃ : SameSlots t₃ t' := hend ▸ sameSlots_modifyAll hnodup t₃ _ fun _ =>
    keepsSlots_setMigrating false
  have hsame₂ : SameSlots t₂ t' := (ht₃ ▸ (Recount.decAt t₂ cur).toSameSlots).trans hsame₃
  have hlow : (t'.chunkTable cur).overflowCount =
    (t₂.chunkTable cur).decOverflow.overflowCount := by
    rw [hend, modifyAll_chunkTable hnodup, ht₃]
    split_ifs <;> rw [modifyChunk_self]
    rfl
  refine safe_put (e := ⟨key, v⟩) he hins hv fun hv₁ => ?_
  rw [← ht₁] at hv₁ ⊢
  rw [List.map_append, List.append_assoc]
  refine safe_clear (hcur₁ ▸ ha.seen hs) rfl (hcur₁ ▸ hmig) hv₁ fun hv₂ => ?_
  rw [← ht₂] at hv₂ ⊢
  refine safe_block (P := fun u => SameSlots t' u) (fun u b hb hv hsame => ?_) hv₂ hsame₂.symm
    fun hv₃ hsame => ?_
  · obtain ⟨a, hmem, rfl⟩ := List.mem_map.mp hb
    rw [mem_overflowStores hmem, ← hlow]
    refine ⟨h'.follows_overflow hsame hv fun k p hc => ?_, hsame.trans (sameSlots_overflow u cur _)⟩
    exact (congrArg Prod.snd (Option.some.inj hc)).symm
  · rw [exec_hash, exec_decStores, ← ht₃] at hv₃ hsame ⊢
    rw [traverse_markStores]
    cases hplaces : t.chain key cur with
    | nil => simp [chain, Walk.chain] at hplaces
    | cons p places =>
      refine h'.safe_unmark hv₃ hsame (fun e hmem hkey => ⟨i, ?_⟩) fun a ha' => ?_
      · rw [honly e hmem hkey, homeChunk_congr hN₃, ht₃, modifyChunk_of_ne _ _ _ ha.ne.symm, ht₂,
          modifyChunk_of_ne _ _ _ ha.ne.symm, ht₁, modifyChunk_self]
        exact F14Chunk.seen_of_insert (e := ⟨key, v⟩) hins
      · obtain ⟨q, -, rfl⟩ := List.mem_map.mp ha'
        rfl

/-- Step 2.2: the victim is put where its walk finds room. -/
theorem safe_placeVictim {cover : Option (UInt64 × ℕ)} {rest : List (MigrationStore V)}
    {victim : EntryT V} (hvic : victim ∈ E) {start : ℕ} :
    ∀ (fuel pos : ℕ) {t t' : PetHash V}, placeVictim victim start fuel pos t = .ok t' →
      t.View E cover →
      (t'.View E cover → Safe E key cover t' rest) →
      Safe E key cover t ((placeVictimStores victim fuel pos t).map .hash ++ rest) := by
  intro fuel
  induction fuel with
  | zero => intro pos t t' h; cases h
  | succ fuel ih =>
    intro pos t t' h hv hrest
    rw [placeVictim] at h
    rw [placeVictimStores]
    by_cases hroom : (t.chunkTable pos).size ≠ 14
    · rw [if_pos hroom] at h ⊢
      cases hins : (t.chunkTable pos).insert victim.first victim.second (tagOf victim.first) with
      | error e => rw [hins] at h; cases h
      | ok r =>
        simp only [hins] at h
        split_ifs at h
        cases h
        exact safe_put hvic hins hv hrest
    · rw [if_neg hroom] at h ⊢
      split_ifs at h ⊢
      rw [List.map_append, List.append_assoc]
      refine safe_raise (fun a ha => ⟨pos, _, mem_overflowStores ha, ?_⟩) hv fun hv₁ => ?_
      · exact (Tally.inc_pos (by decide)).ne'
      · rw [exec_incStores] at hv₁ ⊢
        exact ih _ h hv₁ hrest

/-- Step 2.3 takes the slot of the victim, which is within reach from its home on. -/
theorem VictimPlaced.reaches {m : ℕ} {t₂ : PetHash V} {id₂ : Slot} {plus : Multiset ℕ}
    (h : t.VictimPlaced key plus m t₂ id₂) (hs : t.Shape) {u : PetHash V}
    (hu : OtherSlots (t₂.modifyChunk (t.homeChunk key) F14Chunk.incOverflow) u (t.homeChunk key, 0))
    (cover : Option (UInt64 × ℕ)) {q : ℕ} (hq : q < t.chunkNum)
    (hat : t.probeAt (t.victimOf key).first q = t.homeChunk key) :
    u.Reaches cover (t.victimOf key) q := by
  obtain ⟨hshort, hwalk⟩ :=
    hs.walkFrom_eq_probeAt (t.victimOf key).first (hs.homeChunk_lt key) h.own
  have hsteps : t.stepsTo (t.victimOf key).first (t.homeChunk key) = q := by
    rw [← hat, hs.stepsTo_probeAt _ hq]
  rw [hsteps] at hshort hwalk
  have hN₂ : t₂.chunkNum = t.chunkNum := h.placed.change.chunkNum
  have hN : u.chunkNum = t.chunkNum := hu.chunkNum.trans hN₂
  refine ⟨q + m, Nat.le_add_right q m, hN ▸ hshort, fun j hqj hj => ?_, Or.inl ⟨id₂, ?_⟩⟩
  · obtain ⟨i, rfl⟩ := Nat.exists_eq_add_of_le hqj
    rw [probeAt_congr hN, ← hwalk, hu.counts]
    rcases Nat.eq_zero_or_pos i with rfl | hi
    · -- the home chunk of the hot key
      rw [walkFrom_zero _ (hs.homeChunk_lt key), modifyChunk_self]
      exact (Tally.inc_pos (by decide)).ne'
    · refine (lt_of_lt_of_le (h.raised i hi (by omega)) ?_).ne'
      by_cases hpos : t.walkFrom (t.victimOf key).first (t.homeChunk key) i = t.homeChunk key
      · rw [hpos, modifyChunk_self]
        exact Tally.le_inc
      · rw [modifyChunk_of_ne _ _ _ hpos]
  · have hlt : t.walkFrom (t.victimOf key).first (t.homeChunk key) m < t₂.chunkNum :=
      hN₂ ▸ Walk.strideAt_lt hs.chunkNum_pos
    have hother : (t.walkFrom (t.victimOf key).first (t.homeChunk key) m, id₂) ≠
      (t.homeChunk key, 0) :=
      fun heq => h.away (congrArg Prod.fst heq).symm
    rw [probeAt_congr hN, ← hwalk, hu.seen _ _ hother, modifyChunk_of_ne _ _ _ h.away.symm,
      (h.shape.sound _ hlt).seen_eq]
    exact h.placed.change.self

/-- **Case 2.** -/
theorem Away.safe_migrateByVictim (ha : t.Away key v cur id) (hs : t.Shape) {plus : Multiset ℕ}
    (hl : t.Ledger plus 0) (hmig : (t.chunkTable cur).isMigrating = true)
    (hfull : ¬ t.Full) (hhome : ¬ t.Roomy (t.homeChunk key)) (hfits : t.VictimFits key)
    (htags : tagOf (t.victimOf key).first ≠ tagOf key) (hv : t.View E (some (key, cur)))
    (he : ⟨key, v⟩ ∈ E) (honly : ∀ e ∈ E, e.first = key → e = ⟨key, v⟩)
    (hrun : t.migrateByVictim key v cur id = .ok t') (h' : t'.Good ahead) :
    Safe E key (some (key, cur)) t (t.migrateByVictimStores key v cur id) := by
  have hH := hs.homeChunk_lt key
  have hvic := hs.slotEntry_victim hhome
  have huse : (t.chunkTable (t.homeChunk key)).InUse 0 := (F14Chunk.entry_eq_some.mp hvic).1
  have hvicE : t.victimOf key ∈ E :=
    hv.entries _ hH _ ((hs.shows_iff hH).mpr ⟨0, hvic⟩)
  obtain ⟨m, t₁, id₁, hplace⟩ := hfits.exists_placed hs hl hfull hhome
  have hwalk := hplace.run
  rw [victimOf] at hwalk
  rw [migrateByVictim] at hrun
  simp only [if_pos huse, hwalk] at hrun
  rw [migrateByVictimStores]
  simp only [if_pos huse, hwalk]
  obtain ⟨t₂, ht₂⟩ : ∃ t₂, t₂ = t₁.modifyChunk (t.homeChunk key) F14Chunk.incOverflow := ⟨_, rfl⟩
  obtain ⟨t₃, ht₃⟩ : ∃ t₃, t₃ = t₂.modifyChunk (t.homeChunk key) fun c =>
    c.set 0 (tagOf key) ⟨key, v⟩ := ⟨_, rfl⟩
  obtain ⟨t₄, ht₄⟩ : ∃ t₄, t₄ = t₃.modifyChunk cur fun c => c.delete id := ⟨_, rfl⟩
  rw [← ht₂, ← ht₃, ← ht₄] at hrun ⊢
  have hN₁ : t₁.chunkNum = t.chunkNum := hplace.placed.change.chunkNum
  have hN₄ : t₄.chunkNum = t.chunkNum := by rw [ht₄, ht₃, ht₂]; exact hN₁
  -- the slots of the victim and of the hot key are as they were
  have hslot : ∀ s, t.slotEntry s ≠ none → t₁.slotEntry s = t.slotEntry s := fun s hs' =>
    hplace.placed.change.other s fun heq => hs' (heq ▸ hplace.placed.empty)
  have hvic₂ : (t₂.chunkTable (t.homeChunk key)).seen 0 = some (t.victimOf key) := by
    have hseen := (hplace.shape.sound _ (hN₁ ▸ hH)).seen_eq 0
    rw [ht₂, modifyChunk_self]
    exact hseen.trans ((hslot (t.homeChunk key, 0) (by rw [hvic]; simp)).trans hvic)
  have hcur₃ : t₃.chunkTable cur = t₁.chunkTable cur := by
    rw [ht₃, modifyChunk_of_ne _ _ _ ha.ne, ht₂, modifyChunk_of_ne _ _ _ ha.ne]
  have hhot₃ : (t₃.chunkTable cur).seen id = some ⟨key, v⟩ := by
    rw [hcur₃, (hplace.shape.sound _ (hN₁ ▸ ha.lt)).seen_eq]
    exact (hslot (cur, id) (by rw [ha.slot]; simp)).trans ha.slot
  have hmig₃ : (t₃.chunkTable cur).isMigrating = true := by
    rw [hcur₃, hplace.placed.migrating, hmig]
  -- the chain
  have hchain : t₄.chainPlaces (t.homeChunk key) cur (stepOf key) = t.chain key cur := by
    rw [chainPlaces_congr hN₄, hs.chainPlaces_eq key ha.lt]
  have hnodup : (t.chain key cur).Nodup := Walk.nodup_chain (hs.coprime key) ha.lt
  have hend := eq_modifyAll_of_chainTraverseReverse hrun
  rw [hchain] at hend ⊢
  have hsame₄ : SameSlots t₄ t' := by
    rw [hend]
    refine sameSlots_modifyAll hnodup t₄ _ fun p => ?_
    split_ifs
    · exact keepsSlots_setMigrating false
    · exact ⟨fun _ => rfl, fun _ => rfl, fun _ => rfl⟩
  have hsettle := settles_unmarkStores cur hnodup t₄
  rw [← hend] at hsettle
  -- the blocks
  refine safe_placeVictim hvicE _ _ hwalk hv fun hv₁ => ?_
  simp only [List.map_append, List.append_assoc]
  refine safe_raise (fun a ha' =>
    ⟨_, _, mem_overflowStores ha', (Tally.inc_pos (by decide)).ne'⟩) hv₁
    fun hv₂ => ?_
  rw [exec_incStores, ← ht₂] at hv₂ ⊢
  refine safe_replace (e := ⟨key, v⟩) he hvic₂ htags (fun u' ho q hq hat => ?_) hv₂ fun hv₃ => ?_
  · have hN₂ : t₂.chunkNum = t.chunkNum := ht₂ ▸ hN₁
    rw [ht₂] at ho
    rw [probeAt_congr hN₂] at hat
    exact hplace.reaches hs ho _ (hN₂ ▸ hq) hat
  rw [← ht₃] at hv₃ ⊢
  refine safe_clear hhot₃ rfl hmig₃ hv₃ fun hv₄ => ?_
  rw [← ht₄] at hv₄ ⊢
  cases hplaces : t.chain key cur with
  | nil => simp [chain, Walk.chain] at hplaces
  | cons p places =>
    rw [hplaces, traverseStores, unmarkStores, List.cons_append] at hsettle
    rw [traverseStores, unmarkStores, List.cons_append]
    refine h'.safe_unmark hv₄ hsame₄.symm (fun e hmem hkey => ⟨0, ?_⟩) fun a ha' => ?_
    · rw [honly e hmem hkey, homeChunk_congr hN₄, ht₄, modifyChunk_of_ne _ _ _ ha.ne.symm, ht₃,
        modifyChunk_self]
      exact F14Chunk.seen_set _ 0 ⟨key, v⟩
    · exact hsettle a (List.mem_cons_of_mem _ ha')

end Turn

/-- The turn of `key` leaves no counter too low, and the key of a victim has another tag than
the hot key. -/
def TurnOk (t : PetHash V) (key : UInt64) : Prop :=
  t.MoveOk key ∧
    (t.InHome key ∨ t.Roomy (t.homeChunk key) ∨ tagOf (t.victimOf key).first ≠ tagOf key)

instance (t : PetHash V) (key : UInt64) : Decidable (t.TurnOk key) :=
  inferInstanceAs (Decidable (_ ∧ _))

/-- **The stores of a turn** take nothing out of reach. -/
theorem Good.safe_migrateStores {t : PetHash V} {ahead : Multiset ℕ} (h : t.Good ahead)
    {key : UInt64} {v : V} (hv : ⟨key, v⟩ ∈ t.entries) (hok : t.TurnOk key) :
    Safe t.entries key none t (t.migrateStores key) := by
  rcases h.inHome_or_away hv with hin | ⟨cur, id, ha⟩
  · obtain ⟨i, hfind⟩ := Option.isSome_iff_exists.mp hin
    rw [migrateStores]
    simp only [hfind]
    exact ⟨h.view, rfl⟩
  obtain ⟨t', ahead', hrun, h', -, -⟩ := h.moveKey hv hok.1
  rw [h.migrateKey_eq ha] at hrun
  obtain ⟨hs₁, hsame, hl₁, hcount₁, hmark⟩ := h.marked_spec key ha.lt
  have ha₁ := ha.marked hsame
  have hroomy := hsame.roomy_home_iff key
  have hmig : ((t.marked key cur).chunkTable cur).isMigrating = true := by
    rw [hmark, if_pos ((h.shape.mem_chain key ha.lt ha.lt).mpr (Or.inr rfl))]
  have honly : ∀ e ∈ t.entries, e.first = key → e = ⟨key, v⟩ := by
    rintro ⟨k, w⟩ he rfl
    rw [h.nodup.value_unique he hv]
  -- the stores of the turn are those after the marks
  have hsafe : (t.marked key cur).View t.entries (some (key, cur)) →
      Safe t.entries key (some (key, cur)) (t.marked key cur)
        (if ((t.marked key cur).chunkTable (t.homeChunk key)).size ≠ 14 then
          (t.marked key cur).migrateToFreeStores key v cur id
        else (t.marked key cur).migrateByVictimStores key v cur id) := by
    intro hview
    have hle := (h.shape.sound _ (h.shape.homeChunk_lt key)).size_le
    have hsize : ((t.marked key cur).chunkTable (t.homeChunk key)).size ≠ 14 ↔
        t.Roomy (t.homeChunk key) := by
      rw [hsame.chunkSize, Roomy]
      omega
    by_cases hroom : t.Roomy (t.homeChunk key)
    · rw [if_pos (hsize.mpr hroom)]
      rw [if_pos hroom] at hrun
      exact ha₁.safe_migrateToFree hs₁ hmig (hroomy.mpr hroom) hview hv honly hrun h'
    · rw [if_neg (hsize.not.mpr hroom)]
      rw [if_neg hroom] at hrun
      obtain ⟨-, hfull, hfits⟩ : ¬ t.Roomy (t.homeChunk key) ∧ ¬ t.Full ∧ t.VictimFits key :=
        (hok.1.resolve_left ha.not_inHome).resolve_left fun hx => hroom hx.1
      have htags : tagOf ((t.marked key cur).victimOf key).first ≠ tagOf key := by
        rw [hsame.victimOf]
        exact (hok.2.resolve_left ha.not_inHome).resolve_left hroom
      exact ha₁.safe_migrateByVictim hs₁ hl₁ hmig (hsame.full_iff.not.mpr hfull)
        (hroomy.not.mpr hroom) (hfits.sameSlots hsame)
        htags hview hv honly hrun h'
  have hget := h.getInternal_of_mem (s := (cur, id)) ha.lt ha.slot
  have hval : (t.chunkTable cur).value id = ⟨key, v⟩ :=
    (h.shape.tag_eq (s := (cur, id)) ha.lt ha.slot).2
  have htrav := h.shape.chainTraverseReverse_eq key ha.lt fun _ => setMigrating true
  rw [migrateStores]
  simp only [ha.find, hget, hval, htrav, h.shape.chainPlaces_eq key ha.lt]
  have hall := safe_marks (t.chain key cur) (h.view.covered (some (key, cur))) hsafe
  rw [traverse_markStores] at hall ⊢
  cases hplaces : t.chain key cur with
  | nil => simp [chain, Walk.chain] at hplaces
  | cons p places =>
    rw [marked, hplaces] at hall
    exact hall.uncover h.view

end PetHash

end PetPS
