import PetPS.Lib.Threads
import PetPS.PetHash.Probe
import PetPS.PetHash.Refine

/-!
# Concurrent `Set`

Any number of threads call `Set` on one table. A thread looks its key up chunk by chunk without
taking a lock. If it finds the key it stores through the pointer; otherwise it walks the probe path
once more and visits each chunk under its lock, searching it again before it inserts. Nothing holds
more than one lock, so two threads that insert the same key may be at different chunks of the same
path.

They do not both insert, because nothing is deleted: a chunk that was full stays full and keeps its
keys. So a thread has no copy of its key behind it, and if there is one ahead of it, all chunks
up to that one are full.

The counters raised by a thread that then finds its key are not taken back. They stay ahead of the
entries for good; `Good` has room for that.

`Set` is called without a callback, and a visit that finds the table `Full()` does not happen.

## Main results

* `Setter.move_effect` — what one step of a thread does
* `Sets.step` — what all threads keep
* `concurrent_sets` — every schedule
-/

namespace PetPS

namespace ConcurrentSet

variable {V : Type}

open PetHash

/-! ### The threads -/

/-- Where a call of `Set` is. -/
inductive Phase (V : Type)
  /-- Between two calls. -/
  | idle
  /-- In `GetInternal`. -/
  | lookup (e : EntryT V) (p : Probe)
  /-- Before `*old_p_value = value`. -/
  | store (e : EntryT V) (pos : ℕ) (id : Slot)
  /-- In `Insert`, before it locks the chunk at `pos`. -/
  | insert (e : EntryT V) (i pos : ℕ)

/-- A thread. -/
structure Setter (V : Type) where
  /-- The keys and values it has still to set. -/
  calls : List (EntryT V)
  phase : Phase V

/-- The table, and the stores of values made so far. -/
abbrev Shared (V : Type) : Type := PetHash V × List (EntryT V)

/-- One step of a thread. -/
def Setter.move (s : Shared V) (w : Setter V) : Option (Shared V × Setter V) :=
  match w.phase with
  | .idle =>
    match w.calls with
    | [] => none
    | e :: calls => some (s, ⟨calls, .lookup e (.start s.1 e.first)⟩)
  | .lookup e p =>
    match p.visit s.1 with
    | .inr q => some (s, ⟨w.calls, .lookup e q⟩)
    | .inl (.found pos id) => some (s, ⟨w.calls, .store e pos id⟩)
    | .inl .absent => some (s, ⟨w.calls, .insert e 0 (s.1.homeChunk e.first)⟩)
    | .inl .retry => some (s, ⟨w.calls, .lookup e (.start s.1 e.first)⟩)
  | .store e pos id => some ((s.1.setValue pos id e.second, s.2 ++ [e]), ⟨w.calls, .idle⟩)
  | .insert e i pos =>
    match s.1.insertVisit e.first e.second pos with
    | .error _ => none
    | .ok (t, some _) => some ((t, s.2 ++ [e]), ⟨w.calls, .idle⟩)
    | .ok (t, none) =>
      -- after the last chunk the loop ends in `LOG(FATAL) << "dict OOM"`
      if i + 1 < s.1.chunkNum then
        some ((t, s.2), ⟨w.calls, .insert e (i + 1) (s.1.nextPos (stepOf e.first) pos)⟩)
      else none

/-- All calls have returned. -/
def Setter.Finished (w : Setter V) : Prop := w.calls = [] ∧ w.phase = .idle

instance (w : Setter V) : Decidable w.Finished :=
  match w with
  | ⟨[], .idle⟩ => .isTrue ⟨rfl, rfl⟩
  | ⟨_ :: _, _⟩ => .isFalse fun h => nomatch h.1
  | ⟨_, .lookup _ _⟩ => .isFalse fun h => nomatch h.2
  | ⟨_, .store _ _ _⟩ => .isFalse fun h => nomatch h.2
  | ⟨_, .insert _ _ _⟩ => .isFalse fun h => nomatch h.2

/-- Thread `i` is to make the calls `calls[i]`. -/
def start (t : PetHash V) (calls : List (List (EntryT V))) : Shared V × List (Setter V) :=
  ((t, []), calls.map fun es => ⟨es, .idle⟩)

/-! ### What no step undoes -/

/-- Slots keep their keys, and full chunks stay full. -/
structure Grows (t t' : PetHash V) : Prop where
  chunkNum : t'.chunkNum = t.chunkNum
  keeps : ∀ s e, t.slotEntry s = some e → ∃ v, t'.slotEntry s = some ⟨e.first, v⟩
  full : ∀ p, ¬ t.Roomy p → ¬ t'.Roomy p

theorem Grows.refl (t : PetHash V) : Grows t t := ⟨rfl, fun _ e he => ⟨e.second, he⟩, fun _ h => h⟩

theorem Grows.trans {t t' t'' : PetHash V} (h : Grows t t') (h' : Grows t' t'') : Grows t t'' where
  chunkNum := h'.chunkNum.trans h.chunkNum
  keeps s e he := by
    obtain ⟨v, hv⟩ := h.keeps s e he
    obtain ⟨v', hv'⟩ := h'.keeps s _ hv
    exact ⟨v', hv'⟩
  full p hp := h'.full p (h.full p hp)

/-- A store that leaves the key of its slot, or takes an empty one. -/
theorem Grows.of_change {t t' : PetHash V} {s : ℕ × Slot} {e' : EntryT V}
    (h : SlotChange t t' s (some e')) (hkey : ∀ e, t.slotEntry s = some e → e'.first = e.first)
    (hsize : ∀ p, (t.chunkTable p).size ≤ (t'.chunkTable p).size) : Grows t t' where
  chunkNum := h.chunkNum
  keeps s' e he := by
    by_cases hs : s' = s
    · subst hs
      exact ⟨e'.second, by rw [h.self, ← hkey e he]⟩
    · exact ⟨e.second, by rw [h.other s' hs, he]⟩
  full p hp hp' := hp (lt_of_le_of_lt (hsize p) hp')

theorem Grows.of_recount {t t' : PetHash V} (h : Recount t t') : Grows t t' where
  chunkNum := h.chunkNum
  keeps s e he := ⟨e.second, by rw [h.entry, he]⟩
  full p hp := by rwa [Roomy, h.chunkSize]

/-- A full chunk without the key. -/
def Passed (t : PetHash V) (key : UInt64) (p : ℕ) : Prop :=
  ¬ t.Roomy p ∧ (t.chunkTable p).find key (tagOf key) = none

/-- **A full chunk without the key stays so.** -/
theorem Grows.passed {t t' : PetHash V} (h : Grows t t') (hs : t.Shape) {key : UInt64} {p : ℕ}
    (hp : p < t.chunkNum) (hpass : Passed t key p) : Passed t' key p := by
  refine ⟨h.full p hpass.1, ?_⟩
  cases hfind : (t'.chunkTable p).find key (tagOf key) with
  | none => rfl
  | some i =>
    -- the slot was taken before, by the same key
    obtain ⟨e', he', hkey⟩ := slotEntry_of_find hfind
    have hsound := hs.sound p hp
    have hsize : (t.chunkTable p).size = 14 := by
      have hle := hsound.size_le
      have hfull := hpass.1
      rw [Roomy] at hfull
      omega
    have he : t.slotEntry (p, i) = some ((t.chunkTable p).value i) :=
      F14Chunk.entry_eq_some.mpr ⟨hsound.inUse_of_full hsize i, rfl⟩
    obtain ⟨v, hv⟩ := h.keeps _ _ he
    have hsame : ((t.chunkTable p).value i).first = key := by
      rw [← hkey, ← Option.some.inj (hv.symm.trans he')]
    have hne := hs.find_ne_none (s := (p, i)) hp he
    rw [hsame] at hne
    exact absurd hpass.2 hne

/-- A key that was not there at the start has only full chunks before it. -/
def Packed (t₀ t : PetHash V) : Prop :=
  ∀ s e, s.1 < t.chunkNum → t.slotEntry s = some e → (∃ v, t₀.slotEntry s = some ⟨e.first, v⟩) ∨
    ∀ c < t.chunkNum, Passes t.chunkNum (t.homeChunk e.first) e.first s.1 c → ¬ t.Roomy c

theorem Packed.grow {t₀ t t' : PetHash V} (h : Packed t₀ t) (hg : Grows t t')
    (hnew : ∀ s e, t'.slotEntry s = some e → t.slotEntry s = none →
      ∀ c < t.chunkNum, Passes t.chunkNum (t.homeChunk e.first) e.first s.1 c → ¬ t.Roomy c) :
    Packed t₀ t' := by
  intro s e hs he
  rw [hg.chunkNum] at hs ⊢
  rw [homeChunk_congr hg.chunkNum]
  cases hold : t.slotEntry s with
  | none => exact Or.inr fun c hc hpass => hg.full c (hnew s e he hold c hc hpass)
  | some e₁ =>
    obtain ⟨v, hv⟩ := hg.keeps s e₁ hold
    obtain rfl := Option.some.inj (hv.symm.trans he)
    rcases h s e₁ hs hold with hstart | hfull
    · exact Or.inl hstart
    · exact Or.inr fun c hc hpass => hg.full c (hfull c hc hpass)

/-! ### What a step does to the table -/

/-- A step that stores `stored`, if anything. -/
structure Change (t₀ t t' : PetHash V) (stored : Option (EntryT V)) : Prop where
  grows : Grows t t'
  packed : Packed t₀ t'
  mem : ∀ e, e ∈ t'.entries ↔ stored.elim (e ∈ t.entries) fun e' =>
    if e.first = e'.first then e = e' else e ∈ t.entries

section Table

variable {t₀ t : PetHash V}

theorem Change.refl (h : Packed t₀ t) : Change t₀ t t none := ⟨Grows.refl t, h, fun _ => Iff.rfl⟩

/-- A store into a slot that holds the key. -/
theorem store_change {ahead : Multiset ℕ} (h : t.Good ahead) (hpacked : Packed t₀ t) {pos : ℕ}
    {id : Slot} {e : EntryT V} {v : V} (hp : pos < t.chunkNum)
    (he : t.slotEntry (pos, id) = some ⟨e.first, v⟩) :
    (t.setValue pos id e.second).Good ahead ∧
      Change t₀ t (t.setValue pos id e.second) (some e) := by
  obtain ⟨hgood, hch, rest, hrest, hent⟩ := h.setValue hp he e.second
  have hgrows : Grows t (t.setValue pos id e.second) := by
    refine Grows.of_change hch (fun e₁ he₁ => ?_) fun p => ?_
    · rw [← Option.some.inj (he.symm.trans he₁)]
    · exact (modifyChunk_field t pos _ F14Chunk.size rfl p).ge
  refine ⟨hgood, hgrows, hpacked.grow hgrows fun s e₁ he₁ hnone => ?_, fun ⟨k, x⟩ => ?_⟩
  · by_cases hs : s = (pos, id)
    · rw [hs, he] at hnone
      cases hnone
    · rw [hch.other s hs, hnone] at he₁
      cases he₁
  · have hold := h.nodup.mem_iff hrest k x
    rw [hgood.nodup.mem_iff hent, Option.elim_some]
    split_ifs with hkey
    · obtain ⟨k', y⟩ := e
      simp only at hkey ⊢
      rw [hkey, EntryT.mk.injEq, and_iff_right rfl]
    · rw [if_neg hkey] at hold
      exact hold.symm

theorem inc_change {ahead : Multiset ℕ} (h : t.Good ahead) (hpacked : Packed t₀ t) (pos : ℕ) :
    (t.modifyChunk pos F14Chunk.incOverflow).Good (pos ::ₘ ahead) ∧
      Change t₀ t (t.modifyChunk pos F14Chunk.incOverflow) none := by
  have hr := Recount.incAt t pos
  have hgrows := Grows.of_recount hr
  refine ⟨h.inc pos, hgrows, hpacked.grow hgrows fun s e he hnone => ?_, fun e => ?_⟩
  · rw [hr.entry, hnone] at he
    cases he
  · rw [hr.entries]
    exact Iff.rfl

/-- **A chunk with room is the right one.** If the key were in the table, it would be behind the
thread, at this chunk, or ahead of it with only full chunks in between. -/
theorem absent_of_passed {ahead : Multiset ℕ} (h : t.Good ahead) (hgrows : Grows t₀ t)
    (hpacked : Packed t₀ t) {key : UInt64} (h₀ : t₀.Absent key) {i : ℕ}
    (hpass : ∀ j < i, Passed t key (t.probeAt key j))
    (hfind : (t.chunkTable (t.probeAt key i)).find key (tagOf key) = none)
    (hroom : t.Roomy (t.probeAt key i)) : t.Absent key := by
  intro v hv
  obtain ⟨s, hs, he⟩ := mem_entries.mp hv
  have hnone := h.shape.find_ne_none hs he
  have hat := h.shape.probeAt_stepsTo key hs
  rcases hpacked s _ hs he with ⟨v₀, hstart⟩ | hfull
  · exact h₀ v₀ (mem_entries.mpr ⟨s, hgrows.chunkNum ▸ hs, hstart⟩)
  · rcases Nat.lt_trichotomy (t.stepsTo key s.1) i with hlt | heq | hgt
    · have hbehind := (hpass _ hlt).2
      rw [hat] at hbehind
      exact hnone hbehind
    · rw [heq] at hat
      rw [hat] at hfind
      exact hnone hfind
    · exact hfull _ (h.shape.probeAt_lt key i) (h.shape.passes_probeAt key hs hgt) hroom

/-- The key goes into an empty slot. -/
theorem put_change {e : EntryT V} {i : ℕ} {rest : Multiset ℕ}
    (h : t.Good (t.walked e.first i + rest)) (hpacked : Packed t₀ t) (hi : i < t.chunkNum)
    (hpass : ∀ j < i, Passed t e.first (t.probeAt e.first j)) (habs : t.Absent e.first)
    (hroom : t.Roomy (t.probeAt e.first i)) :
    ∃ c id, (t.chunkTable (t.probeAt e.first i)).insert e.first e.second (tagOf e.first)
        = .ok (c, id) ∧
      ∃ t', t' = { t.modifyChunk (t.probeAt e.first i) (fun _ => c) with
          size := (t.size + 1) % 2 ^ 64 } ∧
        t'.Good rest ∧ Change t₀ t t' (some e) := by
  obtain ⟨c, id, hins, t', ht', hgood, hent, hch, hnone, hsize⟩ := h.put hi habs hroom e.second
  have hgrows : Grows t t' := by
    refine Grows.of_change hch (fun e₁ he₁ => ?_) hsize
    rw [hnone] at he₁
    cases he₁
  refine ⟨c, id, hins, t', ht', hgood, hgrows, hpacked.grow hgrows fun s e₁ he₁ hempty => ?_,
    fun e₁ => ?_⟩
  · -- the new slot: its path leads over the chunks that were passed
    by_cases hs : s = (t.probeAt e.first i, id)
    · rw [hs, hch.self] at he₁
      obtain rfl := Option.some.inj he₁
      intro p hp hpasses
      rw [hs, Passes] at hpasses
      have hat := h.shape.probeAt_stepsTo e.first hp
      have hlt : t.stepsTo e.first p < i := by
        have hi' := h.shape.stepsTo_probeAt e.first hi
        rw [stepsTo] at hi' ⊢
        rwa [hi'] at hpasses
      have hfull := (hpass _ hlt).1
      rwa [hat] at hfull
    · rw [hch.other s hs, hempty] at he₁
      cases he₁
  · rw [hent, Multiset.mem_cons, Option.elim_some]
    split_ifs with hkey
    · refine or_iff_left fun hmem => habs e₁.second ?_
      rw [← hkey]
      exact hmem
    · refine or_iff_right fun heq => hkey ?_
      rw [heq]

/-- **A visit under the lock.** -/
theorem insertVisit_effect {e : EntryT V} {i : ℕ} {rest : Multiset ℕ}
    (h : t.Good (t.walked e.first i + rest)) (hgrows : Grows t₀ t) (hpacked : Packed t₀ t)
    (h₀ : t₀.Absent e.first) (hi : i < t.chunkNum)
    (hpass : ∀ j < i, Passed t e.first (t.probeAt e.first j)) :
    match t.insertVisit e.first e.second (t.probeAt e.first i) with
    | .error _ => t.Full
    | .ok (t', some _) => (∃ extra, t'.Good (extra + rest)) ∧ Change t₀ t t' (some e)
    | .ok (t', none) => t'.Good (t'.walked e.first (i + 1) + rest) ∧ Change t₀ t t' none ∧
        Passed t e.first (t.probeAt e.first i) := by
  have hp := h.shape.probeAt_lt e.first i
  rw [insertVisit]
  cases hfind : (t.chunkTable (t.probeAt e.first i)).find e.first (tagOf e.first) with
  | some id =>
    obtain ⟨⟨k, v⟩, he, hk⟩ := slotEntry_of_find hfind
    simp only at hk
    subst hk
    obtain ⟨hgood, hchange⟩ := store_change h hpacked hp he
    exact ⟨⟨_, hgood⟩, hchange⟩
  | none =>
    simp only
    by_cases hroom : t.Roomy (t.probeAt e.first i)
    · have habs := absent_of_passed h hgrows hpacked h₀ hpass hfind hroom
      obtain ⟨c, id, hins, t', rfl, hgood, hchange⟩ := put_change h hpacked hi hpass habs hroom
      rw [Roomy] at hroom
      rw [if_pos hroom, hins]
      exact ⟨⟨0, by rwa [zero_add]⟩, hchange⟩
    · by_cases hfull : t.Full
      · rw [Roomy] at hroom
        rw [if_neg hroom, if_pos hfull]
        exact hfull
      · obtain ⟨hgood, hchange⟩ := inc_change h hpacked (t.probeAt e.first i)
        have hwalked := walked_congr hchange.grows.chunkNum e.first (i + 1)
        have hpassed : Passed t e.first (t.probeAt e.first i) := ⟨hroom, hfind⟩
        rw [Roomy] at hroom
        rw [if_neg hroom, if_neg hfull]
        refine ⟨?_, hchange, hpassed⟩
        rw [hwalked, walked_succ, Multiset.cons_add]
        exact hgood

/-- **A lookup does not miss a key that was there at the start**: the key is still in its slot,
and the chunks before it have counters above `0`. -/
theorem lookup_onward {ahead : Multiset ℕ} (h : t.Good ahead) (hgrows : Grows t₀ t) {p : Probe}
    (hp : p.OnPath t) (hfind : (t.chunkTable p.pos).find p.key (tagOf p.key) = none) {s : ℕ × Slot}
    {v : V} (hs : s.1 < t.chunkNum) (hstart : t₀.slotEntry s = some ⟨p.key, v⟩)
    (hle : p.i ≤ t.stepsTo p.key s.1) :
    (t.chunkTable p.pos).overflowCount ≠ 0 ∧ p.i + 1 ≤ t.stepsTo p.key s.1 := by
  obtain ⟨v', he⟩ := hgrows.keeps s _ hstart
  have hne : p.i ≠ t.stepsTo p.key s.1 := by
    intro heq
    have hat := h.shape.probeAt_stepsTo p.key hs
    rw [← heq, ← hp.pos] at hat
    rw [hat] at hfind
    exact h.shape.find_ne_none hs he hfind
  have hlt : p.i < t.stepsTo p.key s.1 := by omega
  refine ⟨?_, hlt⟩
  rw [hp.pos]
  exact h.ledger.count_pos (h.shape.probeAt_lt p.key p.i)
    (passCount_pos hs he (h.shape.passes_probeAt p.key hs hlt))

end Table

/-! ### What a step does to its thread -/

/-- The call under way. -/
def Phase.call : Phase V → List (EntryT V)
  | .idle => []
  | .lookup e _ => [e]
  | .store e _ _ => [e]
  | .insert e _ _ => [e]

/-- The stores a thread has still to make. -/
def Setter.pending (w : Setter V) : Multiset (EntryT V) := ↑(w.phase.call ++ w.calls)

/-- The chunks whose counters a thread has raised for a key that is not in yet. -/
def Setter.walked (t : PetHash V) (w : Setter V) : Multiset ℕ :=
  match w.phase with
  | .insert e i _ => t.walked e.first i
  | _ => 0

/-- A bound on the steps a call takes, in a table of `N` chunks. -/
def Phase.cost (N : ℕ) : Phase V → ℕ
  | .idle => 0
  | .lookup _ p => 2 * N + 2 - p.i
  | .store .. => 1
  | .insert _ i _ => N + 1 - i

/-- A bound on the steps a thread takes. -/
def Setter.cost (N : ℕ) (w : Setter V) : ℕ := w.phase.cost N + w.calls.length * (2 * N + 3)

/-- What is known about a call. -/
def Phase.Sane (t₀ t : PetHash V) : Phase V → Prop
  | .idle => True
  | .lookup e p => p.key = e.first ∧ p.OnPath t ∧ p.touch = false ∧
      ∀ s v, s.1 < t.chunkNum → t₀.slotEntry s = some ⟨e.first, v⟩ → p.i ≤ t.stepsTo e.first s.1
  | .store e pos id => pos < t.chunkNum ∧ ∃ v, t.slotEntry (pos, id) = some ⟨e.first, v⟩
  | .insert e i pos => i < t.chunkNum ∧ pos = t.probeAt e.first i ∧ t₀.Absent e.first ∧
      ∀ j < i, Passed t e.first (t.probeAt e.first j)

theorem Phase.Sane.grow {t₀ t t' : PetHash V} {ph : Phase V} (h : ph.Sane t₀ t) (hs : t.Shape)
    (hg : Grows t t') : ph.Sane t₀ t' := by
  have hN := hg.chunkNum
  have hsteps : ∀ key pos, t'.stepsTo key pos = t.stepsTo key pos := fun key pos => by
    rw [stepsTo, stepsTo, hN, homeChunk_congr hN]
  cases ph with
  | idle => trivial
  | lookup e p =>
    obtain ⟨hkey, hpath, htouch, hold⟩ := h
    refine ⟨hkey, ⟨hN ▸ hpath.lt, ?_⟩, htouch, fun s v hlt hstart => ?_⟩
    · rw [probeAt_congr hN, hpath.pos]
    · rw [hsteps]
      exact hold s v (hN ▸ hlt) hstart
  | store e pos id =>
    obtain ⟨hlt, v, he⟩ := h
    obtain ⟨v', he'⟩ := hg.keeps _ _ he
    exact ⟨hN ▸ hlt, v', he'⟩
  | insert e i pos =>
    obtain ⟨hlt, hpos, habs, hpass⟩ := h
    refine ⟨hN ▸ hlt, ?_, habs, fun j hj => ?_⟩
    · rw [probeAt_congr hN, hpos]
    · rw [probeAt_congr hN]
      exact hg.passed hs (hs.probeAt_lt _ _) (hpass j hj)

/-- One step of a thread, seen from all of them: `rest` are the counters raised by the others. -/
structure Effect (t₀ : PetHash V) (rest : Multiset ℕ) (s s' : Shared V) (w w' : Setter V)
    (stored : Option (EntryT V)) : Prop where
  change : Change t₀ s.1 s'.1 stored
  log : s'.2 = s.2 ++ stored.toList
  good : ∃ extra, s'.1.Good (w'.walked s'.1 + (extra + rest))
  sane : w'.phase.Sane t₀ s'.1
  pending : w.pending = ↑stored.toList + w'.pending
  cost : w'.cost s'.1.chunkNum < w.cost s.1.chunkNum

section Move

variable {t₀ : PetHash V} {rest : Multiset ℕ} {s s' : Shared V} {calls : List (EntryT V)}
  {w w' : Setter V}

/-- A step that leaves the table alone. -/
theorem Effect.quiet (hgood : s.1.Good (w.walked s.1 + rest)) (hpacked : Packed t₀ s.1)
    (hwalked : w'.walked s.1 = w.walked s.1) (hsane : w'.phase.Sane t₀ s.1)
    (hpending : w.pending = w'.pending) (hcost : w'.cost s.1.chunkNum < w.cost s.1.chunkNum) :
    Effect t₀ rest s s w w' none where
  change := Change.refl hpacked
  log := (List.append_nil _).symm
  good := ⟨0, by rw [hwalked, zero_add]; exact hgood⟩
  sane := hsane
  pending := by rw [hpending, Option.toList_none, Multiset.coe_nil, zero_add]
  cost := hcost

/-- A lookup visits a chunk. -/
theorem lookup_effect {e : EntryT V} {p : Probe} (hgood : s.1.Good rest) (hgrows : Grows t₀ s.1)
    (hpacked : Packed t₀ s.1) (hsane : (Phase.lookup e p).Sane t₀ s.1)
    (hmove : Setter.move s ⟨calls, .lookup e p⟩ = some (s', w')) :
    Effect t₀ rest s s' ⟨calls, .lookup e p⟩ w' none := by
  obtain ⟨hkey, hpath, htouch, hold⟩ := hsane
  obtain ⟨k, hN⟩ := hgood.shape.pow
  have hgood' : s.1.Good ((⟨calls, .lookup e p⟩ : Setter V).walked s.1 + rest) := by
    rw [Setter.walked, zero_add]
    exact hgood
  have hlt := hpath.lt
  have hcalm : (p.touch || (s.1.chunkTable p.pos).isMigrating) = false := by
    rw [htouch, hpath.pos, hgood.calm _ (hgood.shape.probeAt_lt _ _)]
    rfl
  have honward : (s.1.chunkTable p.pos).find p.key (tagOf p.key) = none → ∀ q v,
      q.1 < s.1.chunkNum → t₀.slotEntry q = some ⟨e.first, v⟩ →
      (s.1.chunkTable p.pos).overflowCount ≠ 0 ∧ p.i + 1 ≤ s.1.stepsTo e.first q.1 := by
    intro hfind q v hq hstart
    have hle := hold q v hq hstart
    rw [← hkey] at hstart hle ⊢
    exact lookup_onward hgood hgrows hpath hfind hq hstart hle
  simp only [Setter.move] at hmove
  rcases p.visit_cases s.1 with ⟨id, hfind, hvisit⟩ | ⟨hfind, ⟨hend, hvisit⟩ | ⟨hne, hnext, hvisit⟩⟩
  · simp only [hvisit, Option.some.injEq, Prod.mk.injEq] at hmove
    obtain ⟨rfl, rfl⟩ := hmove
    refine Effect.quiet hgood' hpacked rfl ⟨?_, ?_⟩ rfl ?_
    · rw [hpath.pos]
      exact hgood.shape.probeAt_lt _ _
    · obtain ⟨⟨k, v⟩, he, hk⟩ := slotEntry_of_find hfind
      rw [hkey] at hk
      exact ⟨v, by rw [he, ← hk]⟩
    · simp only [Setter.cost, Phase.cost]
      omega
  · simp only [hvisit, hcalm, missed, Bool.false_eq_true, if_false, Option.some.injEq,
      Prod.mk.injEq] at hmove
    obtain ⟨rfl, rfl⟩ := hmove
    refine Effect.quiet hgood' hpacked rfl ⟨hgood.shape.chunkNum_pos, ?_, fun v hv => ?_,
      fun j hj => absurd hj (Nat.not_lt_zero j)⟩ rfl ?_
    · exact (hgood.shape.probeAt_zero e.first).symm
    · obtain ⟨q, hq, hstart⟩ := mem_entries.mp hv
      rw [← hgrows.chunkNum] at hq
      obtain ⟨hcount, hnext⟩ := honward hfind q v hq hstart
      have hstep := hgood.shape.stepsTo_lt e.first hq
      omega
    · simp only [Setter.cost, Phase.cost]
      omega
  · simp only [hvisit, Option.some.injEq, Prod.mk.injEq] at hmove
    obtain ⟨rfl, rfl⟩ := hmove
    refine Effect.quiet hgood' hpacked rfl ⟨hkey, hpath.onward hN hnext _, hcalm,
      fun q v hq hstart => (honward hfind q v hq hstart).2⟩ rfl ?_
    simp only [Setter.cost, Phase.cost]
    omega

/-- `Insert` visits a chunk. -/
theorem insert_effect {e : EntryT V} {i pos : ℕ} (hgood : s.1.Good (s.1.walked e.first i + rest))
    (hgrows : Grows t₀ s.1) (hpacked : Packed t₀ s.1) (hsane : (Phase.insert e i pos).Sane t₀ s.1)
    (hmove : Setter.move s ⟨calls, .insert e i pos⟩ = some (s', w')) :
    ∃ stored, Effect t₀ rest s s' ⟨calls, .insert e i pos⟩ w' stored := by
  obtain ⟨hlt, rfl, habs, hpass⟩ := hsane
  have hvisit := insertVisit_effect hgood hgrows hpacked habs hlt hpass
  simp only [Setter.move] at hmove
  cases hres : s.1.insertVisit e.first e.second (s.1.probeAt e.first i) with
  | error a => simp only [hres, reduceCtorEq] at hmove
  | ok r =>
    obtain ⟨t', slot⟩ := r
    cases slot with
    | some id =>
      simp only [hres, Option.some.injEq, Prod.mk.injEq] at hmove hvisit
      obtain ⟨rfl, rfl⟩ := hmove
      obtain ⟨⟨extra, hgood'⟩, hchange⟩ := hvisit
      refine ⟨some e, hchange, rfl, ⟨extra, by rwa [Setter.walked, zero_add]⟩, trivial, rfl, ?_⟩
      simp only [Setter.cost, Phase.cost, hchange.grows.chunkNum]
      omega
    | none =>
      simp only [hres] at hmove hvisit
      obtain ⟨hgood', hchange, hpassed⟩ := hvisit
      split_ifs at hmove with hnext
      simp only [Option.some.injEq, Prod.mk.injEq] at hmove
      obtain ⟨rfl, rfl⟩ := hmove
      have hN := hchange.grows.chunkNum
      refine ⟨none, hchange, (List.append_nil _).symm, ⟨0, by rwa [zero_add]⟩,
        ⟨hN ▸ hnext, ?_, habs, fun j hj => ?_⟩, ?_, ?_⟩
      · rw [hgood.shape.nextPos_probeAt, probeAt_congr hN]
      · rw [probeAt_congr hN]
        refine hchange.grows.passed hgood.shape (hgood.shape.probeAt_lt _ _) ?_
        rcases Nat.lt_succ_iff_lt_or_eq.mp hj with hbefore | rfl
        · exact hpass j hbefore
        · exact hpassed
      · rw [Option.toList_none, Multiset.coe_nil, zero_add]
        rfl
      · simp only [Setter.cost, Phase.cost, hN]
        omega

/-- **What one step of a thread does.** -/
theorem Setter.move_effect (hgood : s.1.Good (w.walked s.1 + rest)) (hgrows : Grows t₀ s.1)
    (hpacked : Packed t₀ s.1) (hsane : w.phase.Sane t₀ s.1) (hmove : w.move s = some (s', w')) :
    ∃ stored, Effect t₀ rest s s' w w' stored := by
  obtain ⟨calls, ph⟩ := w
  cases ph with
  | idle =>
    cases calls with
    | nil => simp [Setter.move] at hmove
    | cons e calls =>
      simp only [Setter.move, Option.some.injEq, Prod.mk.injEq] at hmove
      obtain ⟨rfl, rfl⟩ := hmove
      obtain ⟨k, hN⟩ := hgood.shape.pow
      refine ⟨none, Effect.quiet hgood hpacked rfl ⟨rfl, Probe.onPath_start hN e.first, rfl,
        fun q v _ _ => Nat.zero_le _⟩ rfl ?_⟩
      simp only [Setter.cost, Phase.cost, Probe.start, List.length_cons, Nat.succ_mul]
      omega
  | lookup e p =>
    rw [Setter.walked, zero_add] at hgood
    exact ⟨none, lookup_effect hgood hgrows hpacked hsane hmove⟩
  | store e pos id =>
    rw [Setter.walked, zero_add] at hgood
    obtain ⟨hlt, v, he⟩ := hsane
    obtain ⟨hgood', hchange⟩ := store_change hgood hpacked hlt he
    simp only [Setter.move, Option.some.injEq, Prod.mk.injEq] at hmove
    obtain ⟨rfl, rfl⟩ := hmove
    refine ⟨some e, hchange, rfl, ⟨0, by rwa [Setter.walked, zero_add, zero_add]⟩, trivial, rfl, ?_⟩
    simp only [Setter.cost, Phase.cost, hchange.grows.chunkNum]
    omega
  | insert e i pos => exact insert_effect hgood hgrows hpacked hsane hmove

end Move

/-! ### All threads -/

/-- The table and the threads, where `calls` are all calls that are made. -/
structure Sets (t₀ : PetHash V) (calls : Multiset (EntryT V)) (s : Shared V × List (Setter V)) :
    Prop where
  grows : Grows t₀ s.1.1
  packed : Packed t₀ s.1.1
  /-- The counters are ahead by what the threads have walked, and by walks that were not needed. -/
  good : ∃ extra, s.1.1.Good (extra + (s.2.map (Setter.walked s.1.1)).sum)
  sane : ∀ w ∈ s.2, w.phase.Sane t₀ s.1.1
  /-- The entries are those of the last stores. -/
  mem : ∀ e, e ∈ s.1.1.entries ↔
    (Run.lastOn EntryT.first s.1.2 e.first).elim (e ∈ t₀.entries) (e = ·)
  pending : ↑s.1.2 + (s.2.map Setter.pending).sum = calls

/-- **What one step of any thread keeps.** -/
theorem Sets.step {t₀ : PetHash V} {calls : Multiset (EntryT V)} {s s' : Shared V × List (Setter V)}
    {i : ℕ} (h : Sets t₀ calls s) (hstep : Threads.step Setter.move s i = some s') :
    Sets t₀ calls s' ∧
      (s'.2.map (Setter.cost s'.1.1.chunkNum)).sum <
        (s.2.map (Setter.cost s.1.1.chunkNum)).sum := by
  obtain ⟨w, w', hw, hmove, hset⟩ := Threads.step_cases hstep
  have hmem := List.mem_of_getElem? hw
  obtain ⟨extra, hgood⟩ := h.good
  obtain ⟨others, hsum, hothers⟩ := Threads.sum_set (Setter.walked s.1.1) hw
  have hgood' : s.1.1.Good (w.walked s.1.1 + (extra + others)) := by
    rw [add_left_comm, ← hsum]
    exact hgood
  obtain ⟨stored, heff⟩ := Setter.move_effect hgood' h.grows h.packed (h.sane w hmem) hmove
  have hN := heff.change.grows.chunkNum
  have hwalked : ∀ w : Setter V, w.walked s'.1.1 = w.walked s.1.1 := by
    rintro ⟨calls, ph⟩
    cases ph with
    | insert e j pos => exact congrArg _ (walked_congr hN e.first j)
    | _ => rfl
  refine ⟨⟨h.grows.trans heff.change.grows, heff.change.packed, ?_, ?_, fun e => ?_, ?_⟩, ?_⟩
  · obtain ⟨more, hmore⟩ := heff.good
    refine ⟨more + extra, ?_⟩
    rw [hset, List.map_congr_left fun w _ => hwalked w, hothers,
      ← hwalked, add_left_comm, add_assoc]
    exact hmore
  · rw [hset]
    exact Threads.forall_set (P := fun w => w.phase.Sane t₀ s'.1.1)
      (fun w hw => (h.sane w hw).grow hgood.shape heff.change.grows) heff.sane
  · have hlog := heff.log
    rw [heff.change.mem e, h.mem e, hlog]
    cases stored with
    | none => rw [Option.toList_none, List.append_nil, Option.elim_none]
    | some e' =>
      rw [Option.toList_some, Run.lastOn_concat, Option.elim_some]
      by_cases hkey : e.first = e'.first
      · rw [if_pos hkey, if_pos hkey.symm, Option.elim_some]
      · rw [if_neg hkey, if_neg (Ne.symm hkey)]
  · obtain ⟨left, hleft, hleft'⟩ := Threads.sum_set Setter.pending hw
    have hpending := h.pending
    rw [hleft, heff.pending] at hpending
    rw [hset, hleft', heff.log, ← Multiset.coe_add, ← hpending]
    abel
  · obtain ⟨left, hleft, hleft'⟩ := Threads.sum_set (Setter.cost s.1.1.chunkNum) hw
    have hcost := heff.cost
    rw [hset, hN, hleft, hleft']
    rw [hN] at hcost
    omega

theorem sets_start {t₀ : PetHash V} (h : t₀.Inv) (calls : List (List (EntryT V))) :
    Sets t₀ ↑calls.flatten (start t₀ calls) where
  grows := Grows.refl t₀
  packed s e _ he := Or.inl ⟨e.second, he⟩
  good := by
    refine ⟨0, ?_⟩
    have hzero : ((start t₀ calls).2.map (Setter.walked t₀)).sum = 0 := by
      rw [start, List.map_map]
      exact List.sum_eq_zero fun x hx => by
        obtain ⟨es, -, rfl⟩ := List.mem_map.mp hx
        rfl
    change t₀.Good (0 + ((start t₀ calls).2.map (Setter.walked t₀)).sum)
    rw [hzero]
    exact h
  sane w hw := by
    obtain ⟨es, -, rfl⟩ := List.mem_map.mp hw
    trivial
  mem _ := Iff.rfl
  pending := by
    rw [start, Multiset.coe_nil, zero_add, List.map_map]
    induction calls with
    | nil => rfl
    | cons es calls ih =>
      rw [List.map_cons, List.sum_cons, ih, List.flatten_cons, ← Multiset.coe_add]
      rfl

theorem cost_start (t₀ : PetHash V) (calls : List (List (EntryT V))) :
    ((start t₀ calls).2.map (Setter.cost t₀.chunkNum)).sum
      = calls.flatten.length * (2 * t₀.chunkNum + 3) := by
  induction calls with
  | nil => simp [start]
  | cons es calls ih =>
    have hcons : (start t₀ (es :: calls)).2 = ⟨es, .idle⟩ :: (start t₀ calls).2 := rfl
    rw [hcons, List.map_cons, List.sum_cons, ih, List.flatten_cons, List.length_append, Nat.add_mul,
      Setter.cost, Phase.cost, Nat.zero_add]

/-- **A thread that has not finished can move**, unless the table is full. -/
theorem Sets.progress {t₀ : PetHash V} {calls : Multiset (EntryT V)}
    {s : Shared V × List (Setter V)} (h : Sets t₀ calls s) (hfull : ¬ s.1.1.Full) {w : Setter V}
    (hw : w ∈ s.2) (hunfinished : ¬ w.Finished) : ∃ r, w.move s.1 = some r := by
  obtain ⟨cs, ph⟩ := w
  have hsane := h.sane _ hw
  cases ph with
  | idle =>
    cases cs with
    | nil => exact absurd ⟨rfl, rfl⟩ hunfinished
    | cons e cs => exact ⟨_, rfl⟩
  | lookup e p =>
    simp only [Setter.move]
    split <;> exact ⟨_, rfl⟩
  | store e pos id => exact ⟨_, rfl⟩
  | insert e i pos =>
    obtain ⟨hlt, rfl, habs, hpass⟩ := hsane
    obtain ⟨extra, hgood⟩ := h.good
    obtain ⟨j, hj⟩ := List.getElem?_of_mem hw
    obtain ⟨others, hsum, -⟩ := Threads.sum_set (Setter.walked s.1.1) hj
    rw [hsum, add_left_comm] at hgood
    have hvisit := insertVisit_effect hgood h.grows h.packed habs hlt hpass
    simp only [Setter.move]
    cases hres : s.1.1.insertVisit e.first e.second (s.1.1.probeAt e.first i) with
    | error a =>
      simp only [hres] at hvisit
      exact absurd hvisit hfull
    | ok r =>
      obtain ⟨t', slot⟩ := r
      cases slot with
      | some id => exact ⟨_, rfl⟩
      | none =>
        simp only [hres] at hvisit
        have hnext : i + 1 < s.1.1.chunkNum := by
          -- otherwise all chunks are full
          by_contra hlast
          obtain ⟨pos, hpos, hroom⟩ := hgood.exists_roomy hfull
          have hat := hgood.shape.probeAt_stepsTo e.first hpos
          have hd := hgood.shape.stepsTo_lt e.first hpos
          rcases Nat.lt_or_ge (s.1.1.stepsTo e.first pos) i with hbefore | hafter
          · exact (hpass _ hbefore).1 (hat.symm ▸ hroom)
          · rw [show s.1.1.stepsTo e.first pos = i by omega] at hat
            exact hvisit.2.2.1 (hat.symm ▸ hroom)
        exact ⟨_, if_pos hnext⟩


/-! ### Every schedule -/

/-- The keys of a list of entries. -/
def keysOf (es : List (EntryT V)) : Finset UInt64 := (es.map EntryT.first).toFinset

/-- **What concurrent calls of `Set` leave behind.** `log` are the stores, in their order. -/
structure AllSet (t₀ t : PetHash V) (calls log : List (EntryT V)) : Prop where
  /-- Every call made one store. -/
  stores : log.Perm calls
  /-- Every key that was set is in one slot. -/
  slot : ∀ key ∈ keysOf calls, ∃! s : ℕ × Slot, s.1 < t.chunkNum ∧
    ∃ v, t.slotEntry s = some ⟨key, v⟩
  /-- `Get` finds it, with the value of the last store. -/
  value : ∀ key ∈ keysOf calls, ∃ v, Run.lastOn EntryT.first log key = some ⟨key, v⟩ ∧
    t.get key = .ok (some v)
  /-- The other keys are as they were. -/
  other : ∀ key ∉ keysOf calls, t.get key = t₀.get key
  /-- `size_` is the number of distinct keys. -/
  size : t.size = ((t₀.entries.map EntryT.first).toFinset ∪ keysOf calls).card
  /-- And the sum of the sizes of the chunks. -/
  sizes : t.size = ∑ p ∈ Finset.range t.chunkNum, (t.chunkTable p).size
  /-- A chunk that a key passes over has a counter above `0`. -/
  passed : ∀ s e, s.1 < t.chunkNum → t.slotEntry s = some e → ∀ c ∈ t.trail e.first s.1,
    (t.chunkTable c).overflowCount ≠ 0

theorem Sets.finished {t₀ : PetHash V} (h₀ : t₀.Inv) {calls : List (EntryT V)}
    {s : Shared V × List (Setter V)} (h : Sets t₀ ↑calls s) (hend : ∀ w ∈ s.2, w.Finished) :
    AllSet t₀ s.1.1 calls s.1.2 := by
  obtain ⟨extra, hgood⟩ := h.good
  have hperm : s.1.2.Perm calls := by
    have hnone : (s.2.map Setter.pending).sum = 0 := List.sum_eq_zero fun x hx => by
      obtain ⟨⟨cs, ph⟩, hw, rfl⟩ := List.mem_map.mp hx
      obtain ⟨hcs, hph⟩ := hend _ hw
      simp only at hcs hph
      rw [hcs, hph]
      rfl
    have hpending := h.pending
    rwa [hnone, add_zero, Multiset.coe_eq_coe] at hpending
  have hkeys : ∀ key, key ∈ keysOf calls ↔ Run.lastOn EntryT.first s.1.2 key ≠ none := fun key => by
    rw [keysOf, List.mem_toFinset, List.mem_map, Ne, Run.lastOn_eq_none]
    push Not
    exact exists_congr fun e => and_congr_left' hperm.mem_iff.symm
  have hset : ∀ key ∈ keysOf calls, ∃ v, Run.lastOn EntryT.first s.1.2 key = some ⟨key, v⟩ ∧
      ⟨key, v⟩ ∈ s.1.1.entries := fun key hkey => by
    obtain ⟨e, he⟩ := Option.ne_none_iff_exists'.mp ((hkeys key).mp hkey)
    have hfirst := Run.key_of_lastOn he
    subst hfirst
    exact ⟨e.second, he, (h.mem e).mpr (by rw [he]; rfl)⟩
  have hunset : ∀ key ∉ keysOf calls, ∀ v, ⟨key, v⟩ ∈ s.1.1.entries ↔ ⟨key, v⟩ ∈ t₀.entries :=
    fun key hkey v => by
      have hnone := not_not.mp ((hkeys key).not.mp hkey)
      rw [h.mem, hnone]
      rfl
  refine ⟨hperm, fun key hkey => ?_, fun key hkey => ?_, fun key hkey => ?_, ?_, ?_,
    fun q e hq he c hc => ?_⟩
  · obtain ⟨v, -, hv⟩ := hset key hkey
    obtain ⟨q, hq, he⟩ := mem_entries.mp hv
    refine ⟨q, ⟨hq, v, he⟩, fun q' ⟨hq', v', he'⟩ => ?_⟩
    exact hgood.nodup.slot_unique hq' hq he' he rfl
  · obtain ⟨v, hlast, hv⟩ := hset key hkey
    exact ⟨v, hlast, hgood.get_of_mem hv⟩
  · exact h₀.get_eq_of_mem_iff hgood (hunset key hkey)
  · rw [hgood.size, ← Multiset.card_map EntryT.first, ← Multiset.toFinset_card_of_nodup hgood.nodup]
    refine congrArg Finset.card (Finset.ext fun key => ?_)
    rw [Finset.mem_union, Multiset.mem_toFinset, Multiset.mem_toFinset, Multiset.mem_map,
      Multiset.mem_map]
    by_cases hkey : key ∈ keysOf calls
    · obtain ⟨v, -, hv⟩ := hset key hkey
      exact iff_of_true ⟨_, hv, rfl⟩ (Or.inr hkey)
    · rw [or_iff_left hkey]
      refine exists_congr fun e => and_congr_left ?_
      rintro rfl
      exact hunset e.first hkey e.second
  · rw [hgood.size, hgood.shape.card_entries]
  · have hlt := Walk.lt_of_mem_trail (hgood.shape.homeChunk_lt e.first) hc
    refine hgood.ledger.count_pos hlt (passCount_pos hq he ?_)
    exact (Walk.mem_trail (hgood.shape.coprime e.first)
      (hgood.shape.homeChunk_lt e.first) hq hlt).mp hc

/-- **Concurrent calls of `Set` lose and duplicate nothing.** For every table in order, every
number of threads and every schedule: the schedule is bounded; while the table is not full, every
thread that has not finished can move; and when all have finished, every key has been set. -/
theorem concurrent_sets {t₀ : PetHash V} (h : t₀.Inv) (calls : List (List (EntryT V)))
    {schedule : List ℕ} {s : Shared V × List (Setter V)}
    (hrun : Run.run (Threads.step Setter.move) (start t₀ calls) schedule = some s) :
    schedule.length ≤ calls.flatten.length * (2 * t₀.chunkNum + 3) ∧
    (¬ s.1.1.Full → ∀ w ∈ s.2, ¬ w.Finished → ∃ r, w.move s.1 = some r) ∧
    ((∀ w ∈ s.2, w.Finished) → AllSet t₀ s.1.1 calls.flatten s.1.2) := by
  have hstart := sets_start h calls
  have hsets : Sets t₀ ↑calls.flatten s :=
    Run.run_invariant (fun _ _ _ hs hstep => (hs.step hstep).1) hstart hrun
  have hlen := Run.run_length_le (m := fun s => (s.2.map (Setter.cost s.1.1.chunkNum)).sum)
    (fun _ _ _ hs hstep => hs.step hstep) hstart hrun
  refine ⟨?_, fun hfull w hw => hsets.progress hfull hw, hsets.finished h⟩
  rw [← cost_start]
  exact le_trans (Nat.le_add_right _ _) hlen

/-- The first thread fills chunk `0` with the even keys below `28`. Then both set key `28`:
they pass over chunk `0` side by side, the first puts the key into chunk `1`, and the second finds
it there. -/
theorem concurrent_sets_same_key :
    ∃ (t₀ : PetHash UInt64) (s : Shared UInt64 × List (Setter UInt64)),
      initializeTable 28 true = some t₀ ∧
      Run.run (Threads.step Setter.move)
        (start t₀ [(List.range 15).map fun i => ⟨.ofNat (2 * i), .ofNat i⟩, [⟨28, 100⟩]])
        (List.replicate 42 0 ++ [0, 1, 0, 1, 0, 1, 0, 1]) = some s ∧
      AllSet t₀ s.1.1
        ([(List.range 15).map fun i => ⟨.ofNat (2 * i), .ofNat i⟩, [⟨28, 100⟩]].flatten) s.1.2 ∧
      s.1.1.get 28 = .ok (some 100) ∧ (s.1.1.chunkTable 0).overflowCount = 2 := by
  have heval : ((initializeTable 28 true : Option (PetHash UInt64)).any fun t₀ =>
      (Run.run (Threads.step Setter.move)
        (start t₀ [(List.range 15).map fun i => ⟨.ofNat (2 * i), .ofNat i⟩, [⟨28, 100⟩]])
        (List.replicate 42 0 ++ [0, 1, 0, 1, 0, 1, 0, 1])).any fun s =>
          s.2.all (fun w => decide w.Finished) &&
            (decide (s.1.1.get 28 = .ok (some 100)) &&
              decide ((s.1.1.chunkTable 0).overflowCount = 2))) = true := by
    decide +kernel
  simp only [Option.any_eq_true, Bool.and_eq_true, decide_eq_true_eq, List.all_eq_true] at heval
  obtain ⟨t₀, hinit, s, hrun, hend, hget, hcount⟩ := heval
  have hall := (concurrent_sets (initializeTable_inv hinit).1 _ hrun).2.2 hend
  exact ⟨t₀, s, hinit, hrun, hall, hget, hcount⟩

end ConcurrentSet

end PetPS
