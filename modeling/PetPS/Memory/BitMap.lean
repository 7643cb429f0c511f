import Mathlib.Data.Finset.Card
import Mathlib.Data.Finset.Range
import Mathlib.Data.Fintype.Basic
import Mathlib.Logic.Function.Basic
import PetPS.Lib.BitScan
import PetPS.Lib.Run

/-!
# `BitMap`

`bitmap.h`: `n` bits in 64-bit words. The words are a function on indices, since the class ends in
the flexible array `bits[0]`; the code only uses the first `n / 64` of them.

`SetZeroPos` scans the words for one that is not all ones and takes its lowest zero. Everything
after this file uses the bitmap through `get` and through `ones`, the set of positions that are set.

## Main results

* `get_set`, `get_clear` — one bit changes
* `firstZeroPos_eq_some`, `firstZeroPos_eq_none` — the scan finds the least zero
* `setZeroPos_eq` — `SetZeroPos` sets what `FirstZeroPos` finds
* `exec_refines` — a call does to the bitmap what it does to a finite set
* `bitmap_refines_set` — so do sequences of calls
-/

namespace PetPS

/-- `base::BitMap`. -/
structure BitMap where
  /-- The number of bits, a multiple of 64. -/
  n : ℕ
  /-- The words. -/
  bits : ℕ → BitVec 64

namespace BitMap

/-- `MemorySize(n)`: `sizeof(BitMap)` is 8. -/
def memorySize (n : ℕ) : ℕ := 8 + n / 64 * 8

/-- `Get`. -/
def get (m : BitMap) (pos : ℕ) : Bool := (m.bits (pos / 64) >>> (pos % 64)) &&& 0x1#64 == 0x1#64

/-- `Set`. -/
def set (m : BitMap) (pos : ℕ) : BitMap :=
  let v := m.bits (pos / 64)
  { m with bits := Function.update m.bits (pos / 64) (v ||| 0x1#64 <<< (pos % 64)) }

/-- `Clear(pos)`. -/
def clear (m : BitMap) (pos : ℕ) : BitMap :=
  let v := m.bits (pos / 64)
  { m with bits := Function.update m.bits (pos / 64) (v &&& ~~~(0x1#64 <<< (pos % 64))) }

/-- `Clear()`: `memset(bits, 0, n / 8)`. -/
def clearAll (m : BitMap) : BitMap :=
  { m with bits := fun i => if i < m.n / 64 then 0#64 else m.bits i }

/-- `BitMap(n)`, constructed in place over whatever words were there. -/
def construct (bits : ℕ → BitVec 64) (n : ℕ) : BitMap := clearAll ⟨n, bits⟩

/-- `NumberOfOnes`. -/
def numberOfOnes (m : BitMap) : ℕ := (List.range m.n).countP m.get

/-- The loop of `FirstZeroPos`, with `fuel` words left and `i` scanned. -/
def zeroLoop (m : BitMap) : ℕ → ℕ → Option ℕ
  | 0, _ => none
  | fuel + 1, i =>
    let b := ~~~m.bits i
    if b ≠ 0#64 then some (i * 64 + BitScan.ctz 64 b.toNat) else zeroLoop m fuel (i + 1)

/-- `FirstZeroPos`; `none` is the code's `-1`. -/
def firstZeroPos (m : BitMap) : Option ℕ := m.zeroLoop (m.n / 64) 0

/-- The loop of `SetZeroPos`. -/
def setZeroLoop (m : BitMap) : ℕ → ℕ → Option (BitMap × ℕ)
  | 0, _ => none
  | fuel + 1, i =>
    let v := m.bits i
    let b := ~~~v
    if b ≠ 0#64 then
      let pos := BitScan.ctz 64 b.toNat
      some ({ m with bits := Function.update m.bits i (v ||| 0x1#64 <<< pos) }, i * 64 + pos)
    else setZeroLoop m fuel (i + 1)

/-- `SetZeroPos`. -/
def setZeroPos (m : BitMap) : Option (BitMap × ℕ) := m.setZeroLoop (m.n / 64) 0

/-! ### Single bits -/

theorem get_eq_getLsbD (m : BitMap) (pos : ℕ) :
    m.get pos = (m.bits (pos / 64)).getLsbD (pos % 64) := by
  rw [get, BitVec.and_one_eq_setWidth_ofBool_getLsbD, BitVec.getLsbD_ushiftRight, Nat.add_zero]
  cases (m.bits (pos / 64)).getLsbD (pos % 64) <;> rfl

theorem getLsbD_bit (k j : ℕ) (hk : k < 64) :
    (0x1#64 <<< k).getLsbD j = decide (j = k) := by
  rw [BitVec.getLsbD_shiftLeft, BitVec.getLsbD_one]
  by_cases h : j = k
  · simp [h, hk]
  · have hcases : ¬ (j < 64 ∧ ¬ j < k ∧ j - k = 0) := by omega
    simp only [h, decide_false]
    by_contra hne
    simp at hne
    omega

theorem set_bits (m : BitMap) (pos : ℕ) : (m.set pos).bits
    = Function.update m.bits (pos / 64) (m.bits (pos / 64) ||| 0x1#64 <<< (pos % 64)) := rfl

theorem clear_bits (m : BitMap) (pos : ℕ) : (m.clear pos).bits
    = Function.update m.bits (pos / 64) (m.bits (pos / 64) &&& ~~~(0x1#64 <<< (pos % 64))) := rfl

/-- **`Set`** changes one bit. -/
theorem get_set (m : BitMap) (pos q : ℕ) :
    (m.set pos).get q = if q = pos then true else m.get q := by
  rw [get_eq_getLsbD, get_eq_getLsbD, set_bits]
  by_cases hw : q / 64 = pos / 64
  · rw [hw, Function.update_self, BitVec.getLsbD_or, getLsbD_bit _ _ (Nat.mod_lt _ (by omega))]
    by_cases hq : q = pos
    · simp [hq]
    · rw [if_neg hq, decide_eq_false (by omega), Bool.or_false]
  · rw [Function.update_of_ne hw, if_neg fun hq => hw (by rw [hq])]

/-- **`Clear`** changes one bit. -/
theorem get_clear (m : BitMap) (pos q : ℕ) :
    (m.clear pos).get q = if q = pos then false else m.get q := by
  rw [get_eq_getLsbD, get_eq_getLsbD, clear_bits]
  by_cases hw : q / 64 = pos / 64
  · have hlt : q % 64 < 64 := Nat.mod_lt _ (by omega)
    rw [hw, Function.update_self, BitVec.getLsbD_and, BitVec.getLsbD_not,
      getLsbD_bit _ _ (Nat.mod_lt _ (by omega)), decide_eq_true hlt, Bool.true_and]
    by_cases hq : q = pos
    · simp [hq]
    · rw [if_neg hq, decide_eq_false (by omega), Bool.not_false, Bool.and_true]
  · rw [Function.update_of_ne hw, if_neg fun hq => hw (by rw [hq])]

theorem get_construct {bits : ℕ → BitVec 64} {n q : ℕ} (h64 : n % 64 = 0) (hq : q < n) :
    (construct bits n).get q = false := by
  rw [get_eq_getLsbD, construct, clearAll]
  simp only
  rw [if_pos (by omega), BitVec.getLsbD_zero]

/-! ### The positions that are set -/

/-- The positions below `n` that are set. -/
def ones (m : BitMap) : Finset ℕ := (Finset.range m.n).filter fun i => m.get i = true

theorem mem_ones {m : BitMap} {i : ℕ} : i ∈ m.ones ↔ i < m.n ∧ m.get i = true := by
  rw [ones, Finset.mem_filter, Finset.mem_range]

theorem numberOfOnes_eq (m : BitMap) : m.numberOfOnes = m.ones.card := by
  rw [numberOfOnes, List.countP_eq_length_filter, ones, Finset.card_def, Finset.filter_val,
    Finset.range_val, ← Multiset.coe_range, Multiset.filter_coe, Multiset.coe_card]
  simp

theorem card_ones_le (m : BitMap) : m.ones.card ≤ m.n :=
  (Finset.card_filter_le _ _).trans (Finset.card_range m.n).le

theorem ones_set {m : BitMap} {pos : ℕ} (h : pos < m.n) : (m.set pos).ones = insert pos m.ones := by
  ext i
  rw [mem_ones, Finset.mem_insert, mem_ones, get_set, show (m.set pos).n = m.n from rfl]
  by_cases hi : i = pos
  · simp [hi, h]
  · simp [hi]

theorem ones_clear (m : BitMap) (pos : ℕ) : (m.clear pos).ones = m.ones.erase pos := by
  ext i
  rw [mem_ones, Finset.mem_erase, mem_ones, get_clear, show (m.clear pos).n = m.n from rfl]
  by_cases hi : i = pos
  · simp [hi]
  · simp [hi]

theorem ones_construct {bits : ℕ → BitVec 64} {n : ℕ} (h64 : n % 64 = 0) :
    (construct bits n).ones = ∅ := by
  refine Finset.eq_empty_of_forall_notMem fun i hi => ?_
  obtain ⟨hlt, hget⟩ := mem_ones.mp hi
  rw [get_construct h64 hlt] at hget
  simp at hget

/-! ### The scan for a zero -/

theorem zeroLoop_spec (m : BitMap) : ∀ (fuel i : ℕ),
    (∀ p, m.zeroLoop fuel i = some p →
      i * 64 ≤ p ∧ p < (i + fuel) * 64 ∧ m.get p = false ∧ ∀ q, i * 64 ≤ q → q < p →
        m.get q = true) ∧
      (m.zeroLoop fuel i = none → ∀ q, i * 64 ≤ q → q < (i + fuel) * 64 → m.get q = true) := by
  intro fuel
  induction fuel with
  | zero => exact fun i => ⟨fun p h => by simp [zeroLoop] at h, fun _ q hq hq' => by omega⟩
  | succ fuel ih =>
    intro i
    have hword : ∀ q, i * 64 ≤ q → q < i * 64 + 64 → m.get q = (m.bits i).getLsbD (q - i * 64) := by
      intro q hq hq'
      rw [get_eq_getLsbD, show q / 64 = i by omega, show q % 64 = q - i * 64 by omega]
    rw [zeroLoop]
    by_cases hb : ~~~m.bits i ≠ 0#64
    · -- the word has a zero: its lowest one
      have hnat : (~~~m.bits i).toNat ≠ 0 := fun h0 => hb (BitVec.eq_of_toNat_eq h0)
      obtain ⟨hbit, hlt, hlow⟩ := BitScan.ctz_spec (~~~m.bits i).isLt hnat
      generalize BitScan.ctz 64 (~~~m.bits i).toNat = k at hbit hlt hlow ⊢
      have hnot : ∀ j < 64, (~~~m.bits i).toNat.testBit j = !(m.bits i).getLsbD j := fun j hj => by
        rw [BitVec.testBit_toNat, BitVec.getLsbD_not, decide_eq_true hj, Bool.true_and]
      rw [hnot k hlt] at hbit
      rw [if_pos hb]
      refine ⟨fun p hp => ?_, fun h => by simp at h⟩
      obtain rfl : i * 64 + k = p := by simpa using hp
      refine ⟨by omega, by omega, ?_, fun q hq hq' => ?_⟩
      · rw [hword _ (by omega) (by omega), Nat.add_sub_cancel_left]
        simpa using hbit
      · have := hlow (q - i * 64) (by omega)
        rw [hnot _ (by omega)] at this
        rw [hword q hq (by omega)]
        simpa using this
    · -- all ones: on to the next word
      have hones : ∀ q, i * 64 ≤ q → q < i * 64 + 64 → m.get q = true := by
        intro q hq hq'
        have hz : (~~~m.bits i).getLsbD (q - i * 64) = false := by
          rw [not_not.mp hb, BitVec.getLsbD_zero]
        rw [BitVec.getLsbD_not, decide_eq_true (by omega), Bool.true_and] at hz
        rw [hword q hq hq']
        simpa using hz
      rw [if_neg hb]
      obtain ⟨hsome, hnone⟩ := ih (i + 1)
      refine ⟨fun p hp => ?_, fun h q hq hq' => ?_⟩
      · obtain ⟨hle, hlt, hget, hlow⟩ := hsome p hp
        refine ⟨by omega, by omega, hget, fun q hq hq' => ?_⟩
        rcases Nat.lt_or_ge q (i * 64 + 64) with hlt | hge
        exacts [hones q hq hlt, hlow q (by omega) hq']
      · rcases Nat.lt_or_ge q (i * 64 + 64) with hlt | hge
        exacts [hones q hq hlt, hnone h q (by omega) (by omega)]

/-- **`FirstZeroPos`** returns the least position that is not set. -/
theorem firstZeroPos_eq_some {m : BitMap} {p : ℕ} (h64 : m.n % 64 = 0)
    (h : m.firstZeroPos = some p) :
    p < m.n ∧ m.get p = false ∧ ∀ q < p, m.get q = true := by
  obtain ⟨-, hlt, hget, hlow⟩ := (zeroLoop_spec m (m.n / 64) 0).1 p h
  exact ⟨by omega, hget, fun q hq => hlow q (by omega) hq⟩

theorem firstZeroPos_eq_none {m : BitMap} (h64 : m.n % 64 = 0) (h : m.firstZeroPos = none) :
    ∀ q < m.n, m.get q = true :=
  fun q hq => (zeroLoop_spec m (m.n / 64) 0).2 h q (by omega) (by omega)

/-- The two loops agree. -/
theorem setZeroLoop_eq (m : BitMap) : ∀ (fuel i : ℕ),
    m.setZeroLoop fuel i = (m.zeroLoop fuel i).map fun p => (m.set p, p) := by
  intro fuel
  induction fuel with
  | zero => exact fun i => rfl
  | succ fuel ih =>
    intro i
    rw [setZeroLoop, zeroLoop]
    by_cases hb : ~~~m.bits i ≠ 0#64
    · have hnat : (~~~m.bits i).toNat ≠ 0 := fun h0 => hb (BitVec.eq_of_toNat_eq h0)
      have hlt := BitScan.ctz_lt (~~~m.bits i).isLt hnat
      simp only [if_pos hb, Option.map_some, Option.some.injEq, Prod.mk.injEq, and_true]
      generalize BitScan.ctz 64 (~~~m.bits i).toNat = k at hlt ⊢
      rw [set, show (i * 64 + k) / 64 = i by omega, show (i * 64 + k) % 64 = k by omega]
    · rw [if_neg hb, if_neg hb]
      exact ih (i + 1)

/-- **`SetZeroPos`** sets the position `FirstZeroPos` finds. -/
theorem setZeroPos_eq (m : BitMap) :
    m.setZeroPos = m.firstZeroPos.map fun p => (m.set p, p) :=
  setZeroLoop_eq m (m.n / 64) 0

theorem firstZeroPos_eq_some_iff {m : BitMap} (h64 : m.n % 64 = 0) {p : ℕ} :
    m.firstZeroPos = some p ↔ IsLeast {q | q < m.n ∧ m.get q = false} p := by
  constructor
  · intro hp
    obtain ⟨hlt, hget, hlow⟩ := firstZeroPos_eq_some h64 hp
    refine ⟨⟨hlt, hget⟩, fun q hq => not_lt.mp fun hqp => ?_⟩
    have hset := hlow q hqp
    rw [hq.2] at hset
    cases hset
  · rintro ⟨⟨hlt, hget⟩, hleast⟩
    cases hfirst : m.firstZeroPos with
    | none =>
      have hset := firstZeroPos_eq_none h64 hfirst p hlt
      rw [hget] at hset
      cases hset
    | some p' =>
      obtain ⟨hlt', hget', hlow⟩ := firstZeroPos_eq_some h64 hfirst
      refine congrArg some (le_antisymm (not_lt.mp fun hpp => ?_) (hleast ⟨hlt', hget'⟩))
      have hset := hlow p hpp
      rw [hget] at hset
      cases hset

theorem firstZeroPos_eq_none_iff {m : BitMap} (h64 : m.n % 64 = 0) :
    m.firstZeroPos = none ↔ m.ones = Finset.range m.n := by
  constructor
  · intro hnone
    ext i
    rw [mem_ones, Finset.mem_range]
    exact ⟨fun hi => hi.1, fun hi => ⟨hi, firstZeroPos_eq_none h64 hnone i hi⟩⟩
  · intro hall
    refine Option.eq_none_iff_forall_ne_some.mpr fun p hp => ?_
    obtain ⟨hlt, hget, -⟩ := firstZeroPos_eq_some h64 hp
    have hmem : p ∈ m.ones := hall ▸ Finset.mem_range.mpr hlt
    rw [(mem_ones.mp hmem).2] at hget
    cases hget

/-- A bitmap with fewer than `n` positions set has a zero, and `SetZeroPos` sets it. -/
theorem setZeroPos_of_card_ne {m : BitMap} (h64 : m.n % 64 = 0) (h : m.ones.card ≠ m.n) :
    ∃ p, m.setZeroPos = some (m.set p, p) ∧ p < m.n ∧ p ∉ m.ones := by
  rw [setZeroPos_eq]
  cases hfirst : m.firstZeroPos with
  | some p =>
    obtain ⟨hlt, hget, -⟩ := firstZeroPos_eq_some h64 hfirst
    refine ⟨p, rfl, hlt, fun hp => ?_⟩
    rw [(mem_ones.mp hp).2] at hget
    simp at hget
  | none =>
    refine absurd ?_ h
    rw [(firstZeroPos_eq_none_iff h64).mp hfirst, Finset.card_range]

/-! ### Sequences of calls -/

/-- A call that may change the bitmap. -/
inductive Call
  | set (pos : ℕ)
  | clear (pos : ℕ)
  | setZeroPos
  deriving DecidableEq

/-- `0 <= pos < n`. -/
def Call.InRange (n : ℕ) : Call → Prop
  | .set pos => pos < n
  | .clear pos => pos < n
  | .setZeroPos => True

instance (n : ℕ) : ∀ c : Call, Decidable (c.InRange n)
  | .set pos => inferInstanceAs (Decidable (pos < n))
  | .clear pos => inferInstanceAs (Decidable (pos < n))
  | .setZeroPos => inferInstanceAs (Decidable True)

/-- Perform a call: the bitmap it leaves, and the position it works on. For `SetZeroPos` that is
what it returns, and `none` is `-1`. -/
def exec (m : BitMap) : Call → BitMap × Option ℕ
  | .set pos => (m.set pos, some pos)
  | .clear pos => (m.clear pos, some pos)
  | .setZeroPos =>
    match m.setZeroPos with
    | none => (m, none)
    | some (m, pos) => (m, some pos)

/-- The calls on a finite set of positions below `n`. -/
def execSet (n : ℕ) (ones : Finset ℕ) : Call → Finset ℕ × Option ℕ
  | .set pos => (insert pos ones, some pos)
  | .clear pos => (ones.erase pos, some pos)
  | .setZeroPos =>
    match (List.range n).find? (· ∉ ones) with
    | none => (ones, none)
    | some pos => (insert pos ones, some pos)

theorem exec_n (m : BitMap) (c : Call) : (m.exec c).1.n = m.n := by
  cases c with
  | set pos => rfl
  | clear pos => rfl
  | setZeroPos =>
    rw [exec, setZeroPos_eq]
    cases m.firstZeroPos with
    | none => rfl
    | some p => rfl

/-- The scan finds the least position that is not in the set. -/
theorem firstZeroPos_eq_find? {m : BitMap} (h64 : m.n % 64 = 0) :
    m.firstZeroPos = (List.range m.n).find? (· ∉ m.ones) := by
  symm
  cases hfirst : m.firstZeroPos with
  | none =>
    rw [List.find?_range_eq_none]
    intro i hi
    rw [(firstZeroPos_eq_none_iff h64).mp hfirst]
    simpa using hi
  | some p =>
    obtain ⟨hlt, hget, hlow⟩ := firstZeroPos_eq_some h64 hfirst
    rw [List.find?_range_eq_some]
    refine ⟨?_, List.mem_range.mpr hlt, fun j hj => ?_⟩
    · simp [mem_ones, hget]
    · simp [mem_ones, hlow j hj, hj.trans hlt]

/-- **A call does to the bitmap what it does to the set**, and works on the same position. -/
theorem exec_refines {m : BitMap} (h64 : m.n % 64 = 0) {c : Call} (hc : c.InRange m.n) :
    ((m.exec c).1.ones, (m.exec c).2) = execSet m.n m.ones c := by
  cases c with
  | set pos => rw [exec, execSet, ones_set hc]
  | clear pos => rw [exec, execSet, ones_clear]
  | setZeroPos =>
    rw [exec, execSet, setZeroPos_eq, ← firstZeroPos_eq_find? h64]
    cases hfirst : m.firstZeroPos with
    | none => rfl
    | some p =>
      have hlt := (firstZeroPos_eq_some h64 hfirst).1
      simp only [Option.map_some, ones_set hlt]

/-- What has been called, with the positions the calls have worked on. -/
structure Logged (σ : Type) where
  state : σ
  log : List (Call × Option ℕ)

/-- One more call. -/
def Logged.call {σ : Type} (exec : σ → Call → σ × Option ℕ) (s : Logged σ) (c : Call) : Logged σ :=
  ⟨(exec s.state c).1, s.log ++ [(c, (exec s.state c).2)]⟩

/-- The calls on a new bitmap. -/
def runCalls (bits : ℕ → BitVec 64) (n : ℕ) (calls : List Call) : Logged BitMap :=
  calls.foldl (Logged.call exec) ⟨construct bits n, []⟩

/-- The calls on the empty set. -/
def runSet (n : ℕ) (calls : List Call) : Logged (Finset ℕ) :=
  calls.foldl (Logged.call (execSet n)) ⟨∅, []⟩

/-- What a call leaves at the position it works on. -/
def Call.leaves : Call → Bool
  | .clear _ => false
  | _ => true

/-- What the last call that worked on `pos` has left there. -/
def lastLeft (log : List (Call × Option ℕ)) (pos : ℕ) : Bool :=
  (Run.lastOn Prod.snd log (some pos)).any fun e => e.1.leaves

/-- The bitmap and the set after the same calls. -/
structure Agree (n : ℕ) (s : Logged BitMap) (t : Logged (Finset ℕ)) : Prop where
  size : s.state.n = n
  ones : s.state.ones = t.state
  log : s.log = t.log
  /-- Every position is as it was left. -/
  get : ∀ pos < n, s.state.get pos = lastLeft s.log pos

theorem get_exec (m : BitMap) (c : Call) (pos : ℕ) :
    (m.exec c).1.get pos = if (m.exec c).2 = some pos then c.leaves else m.get pos := by
  cases c with
  | set p => simp only [exec, get_set, Call.leaves, Option.some.injEq, eq_comm]
  | clear p => simp only [exec, get_clear, Call.leaves, Option.some.injEq, eq_comm]
  | setZeroPos =>
    rw [exec, setZeroPos_eq]
    cases m.firstZeroPos with
    | none => rfl
    | some p =>
      simp only [Option.map_some, get_set, Call.leaves, Option.some.injEq, eq_comm]

theorem Agree.call {n : ℕ} (h64 : n % 64 = 0) {s : Logged BitMap} {t : Logged (Finset ℕ)}
    (h : Agree n s t) {c : Call} (hc : c.InRange n) :
    Agree n (s.call exec c) (t.call (execSet n) c) := by
  have hn := h.size
  subst hn
  have hstep := exec_refines h64 hc
  rw [h.ones] at hstep
  refine ⟨exec_n _ c, congrArg Prod.fst hstep, ?_, fun pos hpos => ?_⟩
  · rw [Logged.call, Logged.call, h.log, ← hstep]
  · rw [Logged.call, get_exec, lastLeft, Run.lastOn_concat]
    split_ifs with hlast
    · rfl
    · exact h.get pos hpos

theorem agree_run (bits : ℕ → BitVec 64) {n : ℕ} (h64 : n % 64 = 0) {calls : List Call}
    (hcalls : ∀ c ∈ calls, c.InRange n) : Agree n (runCalls bits n calls) (runSet n calls) := by
  induction calls using List.reverseRecOn with
  | nil => exact ⟨rfl, ones_construct h64, rfl, fun pos hpos => get_construct h64 hpos⟩
  | append_singleton calls c ih =>
    rw [runCalls, runSet, List.foldl_concat, List.foldl_concat]
    exact (ih fun d hd => hcalls d (List.mem_append_left _ hd)).call h64
      (hcalls c (List.mem_append_right _ List.mem_cons_self))

/-- **A bitmap is a finite set with least-free allocation.** After any sequence of calls on a new
bitmap, the positions that are set form the set that the same calls make, and the calls have
returned the same. `Get` gives what the last call has left at a position and `NumberOfOnes` counts;
`FirstZeroPos` returns the least position that is not set, or fails exactly when there is none, and
`SetZeroPos` returns the same and sets that position only. -/
theorem bitmap_refines_set (bits : ℕ → BitVec 64) {n : ℕ} (h64 : n % 64 = 0) {calls : List Call}
    (hcalls : ∀ c ∈ calls, c.InRange n) {s : Logged BitMap} (hs : runCalls bits n calls = s) :
    (s.state.ones = (runSet n calls).state ∧ s.log = (runSet n calls).log) ∧
    (∀ pos < n, s.state.get pos = lastLeft s.log pos) ∧
    s.state.numberOfOnes = {pos ∈ Finset.range n | s.state.get pos = true}.card ∧
    (∀ pos, s.state.firstZeroPos = some pos ↔ IsLeast {q | q < n ∧ s.state.get q = false} pos) ∧
    (∀ pos, s.state.firstZeroPos = some pos →
      ∃ m, s.state.setZeroPos = some (m, pos) ∧ m.n = n ∧
        ∀ q, m.get q = if q = pos then true else s.state.get q) ∧
    (s.state.firstZeroPos = none ↔ ∀ pos < n, s.state.get pos = true) ∧
    (s.state.setZeroPos = none ↔ ∀ pos < n, s.state.get pos = true) := by
  subst hs
  have h := agree_run bits h64 hcalls
  generalize runCalls bits n calls = s at h ⊢
  have hn := h.size
  subst hn
  have hnone : s.state.firstZeroPos = none ↔ ∀ pos < s.state.n, s.state.get pos = true := by
    rw [firstZeroPos_eq_none_iff h64, Finset.ext_iff]
    simp [mem_ones]
  refine ⟨⟨h.ones, h.log⟩, h.get, numberOfOnes_eq _, fun pos => firstZeroPos_eq_some_iff h64,
    fun pos hpos => ?_, hnone, ?_⟩
  · exact ⟨s.state.set pos, by rw [setZeroPos_eq, hpos]; rfl, rfl, fun q => get_set _ pos q⟩
  · rw [setZeroPos_eq, Option.map_eq_none_iff, hnone]

/-- The cleared position is handed out again. -/
theorem bitmap_refines_set_reuse :
    (runCalls (fun _ => 5) 64 [.set 1, .setZeroPos, .clear 0, .setZeroPos, .setZeroPos]).log.map
        Prod.snd = [some 1, some 0, some 0, some 0, some 2] := by
  have hcalls : ∀ c ∈ [Call.set 1, .setZeroPos, .clear 0, .setZeroPos, .setZeroPos],
      c.InRange 64 := by decide
  rw [(bitmap_refines_set (fun _ => 5) (by decide) hcalls rfl).1.2]
  decide

end BitMap

end PetPS
