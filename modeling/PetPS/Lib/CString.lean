import Mathlib.Data.List.Basic
import Mathlib.Data.List.TakeDrop
import Mathlib.Data.UInt

/-!
# Bounded copies and comparisons of C strings

`strncpy` writes a string without null bytes into a buffer, at most `n` bytes of it and null
bytes up to the `n`-th; `strncmpEq` is `strncmp(..) == 0`. Past the end of a list there are null
bytes, which is how a string ends.

## Main results

* `strncmpEq_iff` — strings compare equal when their first `n` bytes are the same
* `strncpy_eq` — what a buffer holds whose tail is null
-/

namespace CString

/-- `strncpy(dst, src, n)`. -/
def strncpy (dst src : List UInt8) (n : ℕ) : List UInt8 :=
  (src ++ List.replicate n 0).take n ++ dst.drop n

/-- `strncmp(a, b, n) == 0`. -/
def strncmpEq (a b : List UInt8) : ℕ → Bool
  | 0 => true
  | n + 1 => a.headD 0 == b.headD 0 && (a.headD 0 == 0 || strncmpEq a.tail b.tail n)

/-- Null bytes at the end do not count, and strings without null bytes are compared as far as
`n`. -/
theorem strncmpEq_iff (n : ℕ) {a b : List UInt8} (k : ℕ) (ha : 0 ∉ a) (hb : 0 ∉ b) :
    strncmpEq (a ++ List.replicate k 0) b n = true ↔ a.take n = b.take n := by
  induction n generalizing a b with
  | zero => simp [strncmpEq]
  | succ n ih =>
    cases a with
    | nil =>
      have hhead : (List.replicate k (0 : UInt8)).head?.getD 0 = 0 := by cases k <;> rfl
      cases b with
      | nil => simp [strncmpEq, hhead]
      | cons y b =>
        have hy : (0 : UInt8) ≠ y := fun h => hb (h ▸ List.mem_cons_self)
        simp [strncmpEq, hhead, hy]
    | cons x a =>
      have hx : x ≠ 0 := fun h => ha (h ▸ List.mem_cons_self)
      cases b with
      | nil => simp [strncmpEq, hx]
      | cons y b =>
        have htail := ih (fun h => ha (List.mem_cons_of_mem x h)) fun h =>
          hb (List.mem_cons_of_mem y h)
        simp [strncmpEq, hx, htail]

/-- A copy into a buffer of `n + m` bytes whose last `m` are null. -/
theorem strncpy_eq {dst src : List UInt8} {n m : ℕ} (hdst : dst.drop n = List.replicate m 0) :
    strncpy dst src n = src.take n ++ List.replicate (n - src.length + m) 0 := by
  rw [strncpy, hdst, List.take_append, List.take_replicate, List.append_assoc,
    List.replicate_append_replicate, min_eq_left (Nat.sub_le _ _)]

/-- The tail of the buffer is not written. -/
theorem drop_strncpy (dst src : List UInt8) (n : ℕ) : (strncpy dst src n).drop n = dst.drop n := by
  rw [strncpy]
  apply List.drop_left'
  simp

end CString
