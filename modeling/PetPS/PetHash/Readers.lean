import PetPS.PetHash.MigrationStores
import PetPS.PetHash.Probe

/-!
# What lookups see between two stores

A lookup that runs beside the migration may come to a chunk between any two stores. It then finds an
entry exactly if the tag of the slot is that of the key in the slot (`seen`). An entry is within
reach of a pass that has come to its `i`-th chunk if the counters lead it on to a chunk that shows
the entry, or to one that tells the pass to try again. The second happens to the hot key alone:
`cover` names the key and the chunk that it leaves, which is marked while the key moves.

`Safe` says of the stores still to come that none of them takes an entry out of reach, of
passes that are just starting and of those under way. Only the store that resets the first mark is
exempt: it takes the hot key out of reach of passes that have left the home chunk.

## Main results

* `View.visit` — what a visit finds, when nothing is out of reach
* `OtherSlots.follows`, `follows_of_same` — stores that leave everything within reach
* `safe_block` — a block of stores
-/

namespace PetPS

variable {V : Type}

namespace F14Chunk

open PetHash (tagOf tagOf_ne_zero)

/-- The entry of slot `i`, if a search can find it. -/
def seen (c : F14Chunk V) (i : Slot) : Option (EntryT V) :=
  if c.tags i = tagOf (c.value i).first then some (c.value i) else none

theorem seen_eq_some {c : F14Chunk V} {i : Slot} {e : EntryT V} :
    c.seen i = some e ↔ c.tags i = tagOf e.first ∧ c.value i = e := by
  rw [seen]
  split_ifs with h
  · rw [Option.some.injEq]
    exact ⟨fun heq => ⟨heq ▸ h, heq⟩, fun heq => heq.2⟩
  · refine ⟨fun hne => (nomatch hne), fun heq => absurd ?_ h⟩
    rw [heq.2]
    exact heq.1

theorem seen_eq_none {c : F14Chunk V} {i : Slot} (h : c.tags i ≠ tagOf (c.value i).first) :
    c.seen i = none := if_neg h

theorem seen_of_tag_zero {c : F14Chunk V} {i : Slot} (h : c.tags i = 0) : c.seen i = none :=
  seen_eq_none (h ▸ (tagOf_ne_zero _).symm)

theorem Sound.seen_eq {c : F14Chunk V} (h : c.Sound) (i : Slot) : c.seen i = c.entry i := by
  by_cases hi : c.tags i = 0
  · rw [seen_of_tag_zero hi, entry_eq_none.mpr hi]
  · rw [seen, if_pos (h.tag i hi), entry, if_neg hi]

theorem seen_of_find {c : F14Chunk V} {key : UInt64} {i : Slot}
    (h : c.find key (tagOf key) = some i) :
    c.seen i = some ⟨key, (c.value i).second⟩ := by
  obtain ⟨htag, rfl⟩ := find_eq_some h
  exact seen_eq_some.mpr ⟨htag, rfl⟩

theorem find_ne_none {c : F14Chunk V} {e : EntryT V} {i : Slot} (h : c.seen i = some e) :
    c.find e.first (tagOf e.first) ≠ none := by
  obtain ⟨htag, rfl⟩ := seen_eq_some.mp h
  exact fun hnone => find_eq_none_iff.mp hnone i ⟨htag, rfl⟩

end F14Chunk

/-- The store resets a mark. -/
def MigrationStore.unmarks : MigrationStore V → Bool
  | .mark _ false => true
  | _ => false

namespace PetHash

open Cut

/-! ### Entries within reach -/

/-- The chunk at `pos` shows `e` to lookups. -/
def Shows (u : PetHash V) (pos : ℕ) (e : EntryT V) : Prop := ∃ i, (u.chunkTable pos).seen i = some e

/-- A pass for `e` that comes to `pos` finds `e`, or learns that it has to try again. -/
def Stops (u : PetHash V) (cover : Option (UInt64 × ℕ)) (e : EntryT V) (pos : ℕ) : Prop :=
  u.Shows pos e ∨ cover = some (e.first, pos) ∧ (u.chunkTable pos).isMigrating = true

/-- The counters lead a pass for `e` from its `i`-th chunk to one where it stops. -/
def Reaches (u : PetHash V) (cover : Option (UInt64 × ℕ)) (e : EntryT V) (i : ℕ) : Prop :=
  ∃ q, i ≤ q ∧ q < u.chunkNum ∧
    (∀ j, i ≤ j → j < q → (u.chunkTable (u.probeAt e.first j)).overflowCount ≠ 0) ∧
    u.Stops cover e (u.probeAt e.first q)

/-- Lookups see the entries `E`: no others, and each of them within reach of a new pass. -/
structure View (E : Multiset (EntryT V)) (cover : Option (UInt64 × ℕ)) (u : PetHash V) : Prop where
  entries : ∀ pos < u.chunkNum, ∀ e, u.Shows pos e → e ∈ E
  reaches : ∀ e ∈ E, u.Reaches cover e 0

section Reach

variable {E : Multiset (EntryT V)} {cover cover' : Option (UInt64 × ℕ)} {u u' : PetHash V}
  {e : EntryT V}

theorem Stops.reaches {q : ℕ} (hq : q < u.chunkNum) (h : u.Stops cover e (u.probeAt e.first q)) :
    u.Reaches cover e q :=
  ⟨q, le_rfl, hq, fun _ hj hlt => absurd hlt (by omega), h⟩

/-- An entry stays within reach if the counters on the way to it are not reset, and from where
it was it still is. -/
theorem Reaches.follow {i : ℕ} (h : u.Reaches cover e i) (hN : u'.chunkNum = u.chunkNum)
    (hcount : ∀ q < u.chunkNum, u.Stops cover e (u.probeAt e.first q) → ∀ j < q,
      (u.chunkTable (u.probeAt e.first j)).overflowCount ≠ 0 →
        (u'.chunkTable (u.probeAt e.first j)).overflowCount ≠ 0)
    (hstop : ∀ q < u.chunkNum, u.Stops cover e (u.probeAt e.first q) → u'.Reaches cover' e q) :
    u'.Reaches cover' e i := by
  obtain ⟨q, hiq, hq, hway, hat⟩ := h
  obtain ⟨q', hqq', hq', hway', hat'⟩ := hstop q hq hat
  refine ⟨q', hiq.trans hqq', hq', fun j hij hj => ?_, hat'⟩
  by_cases hjq : j < q
  · rw [probeAt_congr hN]
    exact hcount q hq hat j hjq (hway j hij hjq)
  · exact hway' j (not_lt.mp hjq) hj

theorem Reaches.covered {i : ℕ} (h : u.Reaches none e i) (cover : Option (UInt64 × ℕ)) :
    u.Reaches cover e i := by
  obtain ⟨q, hiq, hq, hway, hat⟩ := h
  exact ⟨q, hiq, hq, hway, Or.inl (hat.resolve_right fun ⟨hc, _⟩ => (nomatch hc))⟩

theorem View.covered (h : u.View E none) (cover : Option (UInt64 × ℕ)) : u.View E cover :=
  ⟨h.entries, fun e he => (h.reaches e he).covered cover⟩

/-- A pass that does not stop goes on. -/
theorem Reaches.past {i : ℕ} (h : u.Reaches cover e i)
    (hfind : (u.chunkTable (u.probeAt e.first i)).find e.first (tagOf e.first) = none)
    (hcalm : (u.chunkTable (u.probeAt e.first i)).isMigrating = false) :
    (u.chunkTable (u.probeAt e.first i)).overflowCount ≠ 0 ∧ i + 1 < u.chunkNum ∧
      u.Reaches cover e (i + 1) := by
  obtain ⟨q, hiq, hq, hway, hat⟩ := h
  have hne : i ≠ q := by
    rintro rfl
    rcases hat with ⟨id, hseen⟩ | ⟨-, hmig⟩
    · exact F14Chunk.find_ne_none hseen hfind
    · rw [hcalm] at hmig
      cases hmig
  have hlt : i < q := by omega
  exact ⟨hway i le_rfl hlt, by omega, q, hlt, hq, fun j hj => hway j (by omega), hat⟩

/-- **One visit** of a pass for which no entry is out of reach: the entry is found; there is
none; the pass starts again; or it goes on. -/
theorem View.visit (hv : u.View E cover) {k : ℕ} (hN : u.chunkNum = 2 ^ k) {p : Probe}
    (hp : p.OnPath u) (hreach : ∀ e ∈ E, e.first = p.key → p.touch = true ∨ u.Reaches cover e p.i) :
    (∃ id, p.visit u = .inl (.found p.pos id) ∧
      ⟨p.key, ((u.chunkTable p.pos).value id).second⟩ ∈ E) ∨
      (p.visit u = .inl .absent ∧ ∀ v, ⟨p.key, v⟩ ∉ E) ∨
      p.visit u = .inl .retry ∨
      ∃ q, p.visit u = .inr q ∧ q.key = p.key ∧ q.OnPath u ∧
        ∀ e ∈ E, e.first = p.key → q.touch = true ∨ u.Reaches cover e q.i := by
  have hpos : p.pos < u.chunkNum := by
    rw [hp.pos]
    exact Walk.strideAt_lt (hN ▸ Nat.two_pow_pos k)
  -- without a mark on the way, an entry for the key is further on
  have hpast : ∀ e ∈ E, e.first = p.key →
      (u.chunkTable p.pos).find p.key (tagOf p.key) = none →
      (p.touch || (u.chunkTable p.pos).isMigrating) = false →
      (u.chunkTable p.pos).overflowCount ≠ 0 ∧ p.i + 1 < u.chunkNum ∧
        u.Reaches cover e (p.i + 1) := by
    intro e he hkey hfind htouch
    obtain ⟨hp₁, hmig⟩ := Bool.or_eq_false_iff.mp htouch
    have hr := (hreach e he hkey).resolve_left (by rw [hp₁]; exact Bool.false_ne_true)
    have hat : p.pos = u.probeAt e.first p.i := by rw [hkey]; exact hp.pos
    rw [← hkey, hat] at hfind
    rw [hat] at hmig ⊢
    exact hr.past hfind hmig
  rcases p.visit_cases u with ⟨id, hfind, hvisit⟩ | ⟨hfind, ⟨hend, hvisit⟩ | ⟨-, hlt, hvisit⟩⟩
  · exact Or.inl ⟨id, hvisit, hv.entries p.pos hpos _ ⟨id, F14Chunk.seen_of_find hfind⟩⟩
  · cases htouch : (p.touch || (u.chunkTable p.pos).isMigrating) with
    | true =>
      rw [htouch] at hvisit
      exact Or.inr (Or.inr (Or.inl hvisit))
    | false =>
      rw [htouch] at hvisit
      refine Or.inr (Or.inl ⟨hvisit, fun v hmem => ?_⟩)
      obtain ⟨hne, hlt, -⟩ := hpast ⟨p.key, v⟩ hmem rfl hfind htouch
      rcases hend with hzero | hlast
      · exact hne hzero
      · omega
  · refine Or.inr (Or.inr (Or.inr ⟨_, hvisit, rfl, hp.onward hN hlt _, fun e he hkey => ?_⟩))
    cases htouch : (p.touch || (u.chunkTable p.pos).isMigrating) with
    | true => exact Or.inl rfl
    | false => exact Or.inr (hpast e he hkey hfind htouch).2.2

end Reach

/-! ### Stores that take nothing out of reach -/

/-- After the step from `u` to `u'` lookups see the entries `E`, and none of them is out of reach
of a pass that it was within reach of. -/
structure Follows (E : Multiset (EntryT V)) (cover : Option (UInt64 × ℕ))
    (u u' : PetHash V) : Prop where
  entries : ∀ pos < u'.chunkNum, ∀ e, u'.Shows pos e → e ∈ E
  reaches : ∀ e ∈ E, ∀ i, u.Reaches cover e i → u'.Reaches cover e i

/-- `u'` is `u` but for slot `s` and element counts. -/
structure OtherSlots (u u' : PetHash V) (s : ℕ × Slot) : Prop where
  chunkNum : u'.chunkNum = u.chunkNum
  seen : ∀ p j, (p, j) ≠ s → (u'.chunkTable p).seen j = (u.chunkTable p).seen j
  counts : ∀ p, (u'.chunkTable p).overflowCount = (u.chunkTable p).overflowCount
  migrating : ∀ p, (u'.chunkTable p).isMigrating = (u.chunkTable p).isMigrating

section Stores

variable {E : Multiset (EntryT V)} {cover : Option (UInt64 × ℕ)} {u u' : PetHash V}

theorem View.next (hv : u.View E cover) (h : Follows E cover u u') : u'.View E cover :=
  ⟨h.entries, fun e he => h.reaches e he 0 (hv.reaches e he)⟩

/-- **A store to one slot.** The entry it hides has to be within reach from that chunk on. -/
theorem OtherSlots.follows {pos : ℕ} {i : Slot} (h : OtherSlots u u' (pos, i)) (hv : u.View E cover)
    (hnew : ∀ e, (u'.chunkTable pos).seen i = some e → e ∈ E)
    (hlost : ∀ e, (u.chunkTable pos).seen i = some e → ∀ q < u.chunkNum, u.probeAt e.first q = pos →
      u'.Reaches cover e q) : Follows E cover u u' := by
  refine ⟨fun p hp e ⟨j, hj⟩ => ?_, fun e _ k hk => hk.follow h.chunkNum ?_ ?_⟩
  · by_cases hs : (p, j) = (pos, i)
    · obtain ⟨rfl, rfl⟩ := Prod.mk.inj hs
      exact hnew e hj
    · rw [h.chunkNum] at hp
      exact hv.entries p hp e ⟨j, (h.seen p j hs).symm.trans hj⟩
  · intro q _ _ j _ hne
    rwa [h.counts]
  · rintro q hq (⟨j, hj⟩ | ⟨hcover, hmig⟩)
    · by_cases hs : (u.probeAt e.first q, j) = (pos, i)
      · obtain ⟨hpos, rfl⟩ := Prod.mk.inj hs
        exact hlost e (hpos ▸ hj) q hq hpos
      · refine Stops.reaches (h.chunkNum ▸ hq) (Or.inl ⟨j, ?_⟩)
        rw [probeAt_congr h.chunkNum, h.seen _ _ hs, hj]
    · refine Stops.reaches (h.chunkNum ▸ hq) (Or.inr ?_)
      rw [probeAt_congr h.chunkNum, h.migrating]
      exact ⟨hcover, hmig⟩

/-- Stores to a slot that shows nothing. -/
theorem OtherSlots.follows_hidden {pos : ℕ} {i : Slot} (h : OtherSlots u u' (pos, i))
    (hv : u.View E cover) (hnone : (u.chunkTable pos).seen i = none)
    (hnew : ∀ e, (u'.chunkTable pos).seen i = some e → e ∈ E) : Follows E cover u u' :=
  h.follows hv hnew fun e he => by rw [hnone] at he; cases he

/-- **A store to a counter or a mark.** -/
theorem follows_of_same (hv : u.View E cover) (hN : u'.chunkNum = u.chunkNum)
    (hseen : ∀ p j, (u'.chunkTable p).seen j = (u.chunkTable p).seen j)
    (hmig : ∀ key p, cover = some (key, p) → (u.chunkTable p).isMigrating = true →
      (u'.chunkTable p).isMigrating = true)
    (hcount : ∀ e ∈ E, ∀ q < u.chunkNum, u.Stops cover e (u.probeAt e.first q) → ∀ j < q,
      (u.chunkTable (u.probeAt e.first j)).overflowCount ≠ 0 →
        (u'.chunkTable (u.probeAt e.first j)).overflowCount ≠ 0) : Follows E cover u u' := by
  refine ⟨fun p hp e ⟨j, hj⟩ => ?_, fun e he k hk => hk.follow hN (hcount e he) ?_⟩
  · exact hv.entries p (hN ▸ hp) e ⟨j, (hseen p j).symm.trans hj⟩
  · rintro q hq (⟨j, hj⟩ | ⟨hcover, hm⟩)
    · refine Stops.reaches (hN ▸ hq) (Or.inl ⟨j, ?_⟩)
      rw [probeAt_congr hN, hseen, hj]
    · refine Stops.reaches (hN ▸ hq) (Or.inr ?_)
      rw [probeAt_congr hN]
      exact ⟨hcover, hmig _ _ hcover hm⟩

end Stores

/-! ### Stores that are still to come -/

/-- None of the stores takes an entry out of reach, but for the hot key `key` when a mark is reset.
After the last of them nothing depends on a mark. -/
def Safe (E : Multiset (EntryT V)) (key : UInt64) :
    Option (UInt64 × ℕ) → PetHash V → List (MigrationStore V) → Prop
  | cover, u, [] => u.View E cover ∧ cover = none
  | cover, u, a :: as =>
    u.View E cover ∧ ∃ cover',
      (∀ e ∈ E, (a.unmarks = true → e.first ≠ key) → ∀ i, u.Reaches cover e i →
        (u.applyStore a).Reaches cover' e i) ∧
      Safe E key cover' (u.applyStore a) as

section Blocks

variable {E : Multiset (EntryT V)} {key : UInt64} {cover : Option (UInt64 × ℕ)} {u : PetHash V}

theorem Safe.view {as : List (MigrationStore V)} (h : Safe E key cover u as) : u.View E cover := by
  cases as with
  | nil => exact h.1
  | cons a as => exact h.1

theorem safe_cons {a : MigrationStore V} {as : List (MigrationStore V)} {u' : PetHash V}
    (happly : u.applyStore a = u') (hv : u.View E cover) (hf : Follows E cover u u')
    (hrest : Safe E key cover u' as) : Safe E key cover u (a :: as) := by
  subst happly
  exact ⟨hv, cover, fun e he _ => hf.reaches e he, hrest⟩

/-- A mark that is still to be set. -/
theorem Safe.uncover {a : MigrationStore V} {as : List (MigrationStore V)}
    (h : Safe E key cover u (a :: as)) (hv : u.View E none) : Safe E key none u (a :: as) := by
  obtain ⟨-, cover', hfollow, hrest⟩ := h
  exact ⟨hv, cover', fun e he hne i hr => hfollow e he hne i (hr.covered cover), hrest⟩

/-- **A block of stores** that keep `P` and take nothing out of reach. -/
theorem safe_block {P : PetHash V → Prop} {as rest : List (MigrationStore V)}
    (hstep : ∀ u, ∀ a ∈ as, u.View E cover → P u →
      Follows E cover u (u.applyStore a) ∧ P (u.applyStore a)) (hv : u.View E cover) (hP : P u)
    (hrest : (exec applyStore u as).View E cover → P (exec applyStore u as) →
      Safe E key cover (exec applyStore u as) rest) : Safe E key cover u (as ++ rest) := by
  induction as generalizing u with
  | nil => exact hrest hv hP
  | cons a as ih =>
    obtain ⟨hf, hP'⟩ := hstep u a List.mem_cons_self hv hP
    refine safe_cons rfl hv hf
      (ih (fun u b hb => hstep u b (List.mem_cons_of_mem a hb)) (hv.next hf) hP' ?_)
    exact hrest

end Blocks

end PetHash

end PetPS
