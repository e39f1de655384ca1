import Mathlib

/-!
# C integers

`int` and `unsigned long` on an LP64 machine. A C `int` is an integer in
`[-2^31, 2^31)` and an `unsigned long` a natural number below `2^64`; the
conversions and the arithmetic that can leave the range reduce explicitly.
Signed overflow wraps, as the unoptimised build does.
-/

namespace OsSim.Base

/-- Conversion to `int`. -/
def toInt (x : ℤ) : ℤ := (x + 2147483648) % 4294967296 - 2147483648

/-- Conversion to `unsigned long`. -/
def toULong (x : ℤ) : ℕ := (x % 18446744073709551616).toNat

theorem toInt_of_range {x : ℤ} (h : -2147483648 ≤ x) (h' : x < 2147483648) : toInt x = x := by
  simp only [toInt]
  omega

theorem toInt_range (x : ℤ) : -2147483648 ≤ toInt x ∧ toInt x < 2147483648 := by
  simp only [toInt]
  omega

theorem toULong_natCast {n : ℕ} (h : n < 18446744073709551616) : toULong n = n := by
  simp only [toULong]
  omega

theorem toInt_emod (x : ℤ) : toInt x % 256 = x % 256 := by
  simp only [toInt]
  omega

theorem toULong_emod (x : ℤ) : (toULong x : ℤ) % 256 = x % 256 := by
  simp only [toULong]
  omega

theorem toULong_of_neg {x : ℤ} (h : x < 0) (h' : -2147483648 ≤ x) :
    18446744071562067968 ≤ toULong x := by
  simp only [toULong]
  omega

theorem toULong_of_nonneg {x : ℤ} (h : 0 ≤ x) (h' : x < 2147483648) : toULong x = x.toNat := by
  simp only [toULong]
  omega

theorem nonneg_of_toULong_le {x : ℤ} {n : ℕ} (h : toULong x ≤ n) (hx : -2147483648 ≤ x)
    (hn : n < 2147483648) : 0 ≤ x := by
  by_contra hneg
  have := toULong_of_neg (not_le.mp hneg) hx
  omega

theorem toULong_le {x : ℤ} (h : 0 ≤ x) : (toULong x : ℤ) ≤ x := by
  simp only [toULong]
  omega

theorem toULong_add_ne {n : ℕ} {k : ℤ} (h : 0 < k) (h' : k < 18446744073709551616) :
    toULong (n + k) ≠ n := by
  simp only [toULong]
  omega

theorem toULong_sub (x y : ℤ) : toULong ((toULong x : ℤ) - toULong y) = toULong (x - y) := by
  simp only [toULong]
  omega

theorem toULong_toInt_natCast {n : ℕ} (h : n < 2147483648) : toULong (toInt n) = n := by
  rw [toInt_of_range (by omega) (by omega), toULong_natCast (by omega)]

theorem bitVec_toInt_range (b : BitVec 32) : -2147483648 ≤ b.toInt ∧ b.toInt < 2147483648 := by
  have hlow := b.le_toInt
  have hhigh := b.toInt_lt
  norm_num at hlow hhigh
  exact ⟨hlow, hhigh⟩

theorem bitVec_toInt_ofInt (x : ℤ) : (BitVec.ofInt 32 x).toInt = toInt x := by
  rw [BitVec.toInt_ofInt, Int.bmod_def, toInt]
  norm_num
  split_ifs <;> omega

theorem bitVec_toInt_eq {b : BitVec 32} (h : 0 ≤ b.toInt) : b.toInt = b.toNat := by
  have hlt := b.isLt
  have hcond := BitVec.toInt_eq_toNat_cond b
  split_ifs at hcond
  · exact hcond
  · omega

/-- `DIV_ROUND_UP` on `int` (`bitops.h`). -/
def divRoundUp (n d : ℤ) : ℤ := (toInt (toInt (n + d) - 1)).tdiv d

theorem divRoundUp_eq {n : ℤ} {d : ℕ} (hd : 0 < d) (hn : 0 ≤ n) (h : n + d ≤ 2147483648) :
    divRoundUp n d = (n + d - 1) / d := by
  have hsum : toInt (toInt (n + d) - 1) = n + d - 1 := by
    simp only [toInt]
    omega
  rw [divRoundUp, hsum, Int.tdiv_eq_ediv_of_nonneg (by omega)]

-- the elaborator would otherwise evaluate them at the large moduli
attribute [irreducible] toInt toULong

end OsSim.Base
