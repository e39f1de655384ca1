import OsSim.Base.CInt

/-!
# Page table entries and addresses (mm.h, bitops.h)

The masks and the `SETVAL`/`GETVAL` macros on 32-bit words, the two setters of
`mm.c`, and what a reader gets back from what they wrote. A frame number that
does not fit its field is truncated: `pagingFpn_pteSetFpn` says to what.
-/

namespace OsSim.Mem
open OsSim.Base

/-- `BIT(nr)` (`bitops.h:10`). -/
def bit (nr : ℕ) : BitVec 32 := 1#32 <<< nr

/-- `GENMASK(h, l)` (`bitops.h:25-26`), with `BITS_PER_LONG` 32. -/
def genmask (h l : ℕ) : BitVec 32 :=
  (BitVec.allOnes 32 <<< l) &&& (BitVec.allOnes 32 >>> (32 - h - 1))

def setbit (v mask : BitVec 32) : BitVec 32 := v ||| mask
def clrbit (v mask : BitVec 32) : BitVec 32 := v &&& ~~~mask
def setval (v value mask : BitVec 32) (offst : ℕ) : BitVec 32 :=
  (v &&& ~~~mask) ||| ((value <<< offst) &&& mask)
def getval (v mask : BitVec 32) (offst : ℕ) : BitVec 32 := (v &&& mask) >>> offst

/-- `PAGING_PAGESZ` (`mm.h:8`). -/
abbrev pagingPagesz : ℕ := 256

/-- `PAGING_MAX_PGN` (`mm.h:14`): 2^22 bytes of 256-byte pages. -/
abbrev pagingMaxPgn : ℕ := 16384

def pagingPtePresentMask : BitVec 32 := bit 31
def pagingPteSwappedMask : BitVec 32 := bit 30
def pagingPteFpnMask : BitVec 32 := genmask 12 0
def pagingPteSwptypMask : BitVec 32 := genmask 4 0
def pagingPteSwpoffMask : BitVec 32 := genmask 25 5
def pagingOffstMask : BitVec 32 := genmask 7 0
def pagingPgnMask : BitVec 32 := genmask 21 8

/-- `PAGING_PAGE_PRESENT(pte)`, the only test the code makes of an entry. -/
def pagingPagePresent (pte : BitVec 32) : Bool := pte &&& pagingPtePresentMask != 0

/-- The bit `PAGING_PTE_SWAPPED_MASK`, which is set and never tested. -/
def pagingPageSwapped (pte : BitVec 32) : Bool := pte &&& pagingPteSwappedMask != 0

/-- `PAGING_FPN(pte)` and `PAGING_PTE_FPN(pte)`. -/
def pagingFpn (pte : BitVec 32) : ℕ := (getval pte pagingPteFpnMask 0).toNat

/-- `PAGING_PTE_SWP(pte)` and `PAGING_SWP(pte)`. -/
def pagingPteSwp (pte : BitVec 32) : ℕ := (getval pte pagingPteSwpoffMask 5).toNat

/-- `PAGING_PGN(addr)`. -/
def pagingPgn (addr : ℤ) : ℕ := (getval (BitVec.ofInt 32 addr) pagingPgnMask 8).toNat

/-- `PAGING_OFFST(addr)`. -/
def pagingOffst (addr : ℤ) : ℕ := (getval (BitVec.ofInt 32 addr) pagingOffstMask 0).toNat

/-- `pte_set_fpn` (`mm.c:74-82`). -/
def pteSetFpn (pte : BitVec 32) (fpn : ℕ) : BitVec 32 :=
  setval (clrbit (setbit pte pagingPtePresentMask) pagingPteSwappedMask)
    (BitVec.ofNat 32 fpn) pagingPteFpnMask 0

/-- `pte_set_swap` (`mm.c:58-67`). It sets `PRESENT` too. -/
def pteSetSwap (pte : BitVec 32) (swptyp swpoff : ℕ) : BitVec 32 :=
  setval
    (setval (setbit (setbit pte pagingPtePresentMask) pagingPteSwappedMask)
      (BitVec.ofNat 32 swptyp) pagingPteSwptypMask 0)
    (BitVec.ofNat 32 swpoff) pagingPteSwpoffMask 5

/-! ### Reading back -/

theorem and_bit_ne_zero (v : BitVec 32) {nr : ℕ} (h : nr < 32) :
    (v &&& bit nr != 0) = v.getLsbD nr := by
  rw [bit, ← BitVec.twoPow_eq, BitVec.and_twoPow]
  have hne : BitVec.twoPow 32 nr ≠ 0#32 := by
    intro h0
    have hbit := congrArg (fun b => b.getLsbD nr) h0
    simp [h] at hbit
  split_ifs with hv
  · simp [hv, hne]
  · simp [hv]

theorem pagingPagePresent_eq (pte : BitVec 32) : pagingPagePresent pte = pte.getLsbD 31 :=
  and_bit_ne_zero pte (by decide)

theorem pagingPageSwapped_eq (pte : BitVec 32) : pagingPageSwapped pte = pte.getLsbD 30 :=
  and_bit_ne_zero pte (by decide)

theorem getLsbD_setval_off {v value mask : BitVec 32} {offst i : ℕ} (hm : mask.getLsbD i = false) :
    (setval v value mask offst).getLsbD i = v.getLsbD i := by
  by_cases hi : i < 32
  · simp only [setval, BitVec.getLsbD_or, BitVec.getLsbD_and, BitVec.getLsbD_not, hm]
    simp [hi]
  · rw [BitVec.getLsbD_of_ge _ _ (not_lt.mp hi), BitVec.getLsbD_of_ge _ _ (not_lt.mp hi)]

/-- `GETVAL` of what `SETVAL` stored in the same field. -/
theorem getval_setval (v value mask : BitVec 32) (offst : ℕ) :
    getval (setval v value mask offst) mask offst = ((value <<< offst) &&& mask) >>> offst := by
  have h : setval v value mask offst &&& mask = (value <<< offst) &&& mask := by
    ext i hi
    simp only [setval, BitVec.getElem_and, BitVec.getElem_or, BitVec.getElem_not]
    cases mask[i] <;> simp
  rw [getval, h]

theorem pagingPagePresent_pteSetFpn (pte : BitVec 32) (fpn : ℕ) :
    pagingPagePresent (pteSetFpn pte fpn) = true := by
  rw [pagingPagePresent_eq, pteSetFpn, getLsbD_setval_off (by decide)]
  simp only [clrbit, setbit, BitVec.getLsbD_and, BitVec.getLsbD_or, BitVec.getLsbD_not]
  rw [show pagingPtePresentMask.getLsbD 31 = true by decide,
    show pagingPteSwappedMask.getLsbD 31 = false by decide]
  simp

theorem pagingPageSwapped_pteSetFpn (pte : BitVec 32) (fpn : ℕ) :
    pagingPageSwapped (pteSetFpn pte fpn) = false := by
  rw [pagingPageSwapped_eq, pteSetFpn, getLsbD_setval_off (by decide)]
  simp only [clrbit, BitVec.getLsbD_and, BitVec.getLsbD_not]
  rw [show pagingPteSwappedMask.getLsbD 30 = true by decide]
  simp

theorem pagingPagePresent_pteSetSwap (pte : BitVec 32) (swptyp swpoff : ℕ) :
    pagingPagePresent (pteSetSwap pte swptyp swpoff) = true := by
  rw [pagingPagePresent_eq, pteSetSwap, getLsbD_setval_off (by decide),
    getLsbD_setval_off (by decide)]
  simp only [setbit, BitVec.getLsbD_or]
  rw [show pagingPtePresentMask.getLsbD 31 = true by decide]
  simp

theorem pagingPageSwapped_pteSetSwap (pte : BitVec 32) (swptyp swpoff : ℕ) :
    pagingPageSwapped (pteSetSwap pte swptyp swpoff) = true := by
  rw [pagingPageSwapped_eq, pteSetSwap, getLsbD_setval_off (by decide),
    getLsbD_setval_off (by decide)]
  simp only [setbit, BitVec.getLsbD_or]
  rw [show pagingPteSwappedMask.getLsbD 30 = true by decide]
  simp

theorem pagingFpn_pteSetFpn (pte : BitVec 32) (fpn : ℕ) :
    pagingFpn (pteSetFpn pte fpn) = fpn % 8192 := by
  rw [pagingFpn, pteSetFpn, getval_setval, show pagingPteFpnMask = 8191#32 by decide]
  simp only [BitVec.shiftLeft_zero, BitVec.ushiftRight_zero, BitVec.toNat_and, BitVec.toNat_ofNat]
  rw [show 8191 % 2 ^ 32 = 2 ^ 13 - 1 by norm_num, Nat.and_two_pow_sub_one_eq_mod]
  omega

theorem pagingFpn_lt (pte : BitVec 32) : pagingFpn pte < 8192 := by
  rw [pagingFpn, getval, show pagingPteFpnMask = 8191#32 by decide, BitVec.ushiftRight_zero,
    BitVec.toNat_and, BitVec.toNat_ofNat, show 8191 % 2 ^ 32 = 2 ^ 13 - 1 by norm_num,
    Nat.and_two_pow_sub_one_eq_mod]
  omega

theorem pagingPteSwp_pteSetSwap (pte : BitVec 32) (swptyp swpoff : ℕ) :
    pagingPteSwp (pteSetSwap pte swptyp swpoff) = swpoff % 2097152 := by
  have hand : (BitVec.ofNat 32 swpoff &&& 2097151#32).toNat = swpoff % 2097152 := by
    rw [BitVec.toNat_and, BitVec.toNat_ofNat, BitVec.toNat_ofNat,
      show 2097151 % 2 ^ 32 = 2 ^ 21 - 1 by norm_num, Nat.and_two_pow_sub_one_eq_mod]
    omega
  rw [pagingPteSwp, pteSetSwap, getval_setval,
    show pagingPteSwpoffMask = 2097151#32 <<< 5 by decide, ← BitVec.shiftLeft_and_distrib,
    BitVec.toNat_ushiftRight, BitVec.toNat_shiftLeft, hand, Nat.shiftLeft_eq,
    Nat.shiftRight_eq_div_pow]
  omega

theorem toNat_ofInt_int (x : ℤ) : ((BitVec.ofInt 32 x).toNat : ℤ) = x % 4294967296 := by
  rw [BitVec.toNat_ofInt]
  norm_num
  omega

/-- Addresses are cut to the 22 bits of the bus. -/
theorem pagingPgn_eq (addr : ℤ) : (pagingPgn addr : ℤ) = addr % 4194304 / 256 := by
  have h := toNat_ofInt_int addr
  rw [pagingPgn, getval, BitVec.ushiftRight_and_distrib,
    show pagingPgnMask >>> 8 = 16383#32 by decide, BitVec.toNat_and, BitVec.toNat_ofNat,
    show 16383 % 2 ^ 32 = 2 ^ 14 - 1 by norm_num, Nat.and_two_pow_sub_one_eq_mod,
    BitVec.toNat_ushiftRight, Nat.shiftRight_eq_div_pow]
  omega

theorem pagingOffst_eq (addr : ℤ) : (pagingOffst addr : ℤ) = addr % 256 := by
  have h := toNat_ofInt_int addr
  rw [pagingOffst, getval, show pagingOffstMask = 255#32 by decide, BitVec.ushiftRight_zero,
    BitVec.toNat_and, BitVec.toNat_ofNat, show 255 % 2 ^ 32 = 2 ^ 8 - 1 by norm_num,
    Nat.and_two_pow_sub_one_eq_mod]
  omega

end OsSim.Mem
