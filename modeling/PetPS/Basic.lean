import Mathlib.Algebra.Order.Ring.Int
import Mathlib.Data.Nat.Log
import PetPS.Lib.Run

/-!
# How a run of the program can stop, and the integers of the machine

The program is compiled with fatal checks: `CHECK(..)` and `LOG(FATAL)` end the process, and two of
its loops (`goto RETRY`, `while (pos != chunk_id)`) need not end at all. Every modelled function
that contains one of these returns `Except Abort`, and `Abort` names the place.

An `int` has 32 bits. A larger number that is passed as one is cut, and sign-extended when it
becomes a `uint64_t` again.
-/

namespace PetPS

/-- Why a call does not return. -/
inductive Abort
  /-- A `CHECK` failed. -/
  | check
  /-- `LOG(FATAL) << "dict OOM"` on a full chunk, the dictionary being `Full()` and the insertion
  not forced. -/
  | dictFull
  /-- `LOG(FATAL) << "dict OOM"` after the last turn of the probing loop. -/
  | dictOOM
  /-- `LOG(FATAL) << "todo: pet hash dict is full"` during a migration. -/
  | migrateFull
  /-- `LOG(FATAL) << "Persist Memory Pool OOM"`. -/
  | poolOOM
  /-- `CHECK(return_ptr)` of `NewInternal`. -/
  | returnPtr
  /-- A loop that never ends: its state does not change from one turn to the next. -/
  | spin
  /-- An access outside every mapping. -/
  | fault
  deriving DecidableEq, Repr

/-- The size of the user address space of x86-64: no mapping is larger, and no mapped address lies
above it. -/
def userSpace : ℕ := 2 ^ 47

/-- An `int` from the low 32 bits. -/
def toInt32 (n : ℕ) : ℤ :=
  if n % 2 ^ 32 < 2 ^ 31 then (n % 2 ^ 32 : ℕ) else (n % 2 ^ 32 : ℕ) - 2 ^ 32

/-- An `int` as a `uint64_t`. -/
def toUInt64 (i : ℤ) : ℕ := (i % 2 ^ 64).toNat

theorem toUInt64_toInt32 {n : ℕ} (h : n < 2 ^ 31) : toUInt64 (toInt32 n) = n := by
  have hmod : n % 2 ^ 32 = n := Nat.mod_eq_of_lt (by omega)
  rw [toInt32, hmod, if_pos h, toUInt64]
  omega

export Run (eq_ok_of_toOption ok_of_map_ok)

end PetPS
