import OsSim.Mem.Pte

/-!
# Sequences of entry updates (mm.c, mm.h)

A page table entry is only ever written by `pte_set_fpn` and `pte_set_swap`.
The two encodings overlap: the frame number lies in bits 0 to 12, the swap type
in bits 0 to 4 and the swap offset in bits 5 to 25, so each setter leaves bits of
the other encoding behind. What a reader decodes depends on the last update only.
-/

namespace OsSim.Mem

/-- `PAGING_PTE_FPN(pte)` (`mm.h:51`). -/
def pagingPteFpn (pte : BitVec 32) : ℕ := (getval pte pagingPteFpnMask 0).toNat

/-- `PAGING_SWP(pte)` (`mm.h:74`). -/
def pagingSwp (pte : BitVec 32) : ℕ := ((pte &&& pagingPteSwpoffMask) >>> 5).toNat

/-- The `SWPTYP` field (`mm.h:35-36`), which the code writes and never reads. -/
def pagingPteSwptyp (pte : BitVec 32) : ℕ := (getval pte pagingPteSwptypMask 0).toNat

/-- One update of an entry. -/
inductive PteOp where
  | setFpn (fpn : ℕ)
  | setSwap (swptyp swpoff : ℕ)
  deriving DecidableEq, Repr

/-- The values fit their fields. -/
def PteOp.Fits : PteOp → Prop
  | .setFpn fpn => fpn < 2 ^ 13
  | .setSwap swptyp swpoff => swptyp < 2 ^ 5 ∧ swpoff < 2 ^ 21

instance PteOp.decidableFits (op : PteOp) : Decidable op.Fits :=
  match op with
  | .setFpn fpn => inferInstanceAs (Decidable (fpn < 2 ^ 13))
  | .setSwap swptyp swpoff => inferInstanceAs (Decidable (swptyp < 2 ^ 5 ∧ swpoff < 2 ^ 21))

def pteApply (pte : BitVec 32) : PteOp → BitVec 32
  | .setFpn fpn => pteSetFpn pte fpn
  | .setSwap swptyp swpoff => pteSetSwap pte swptyp swpoff

def pteRun (pte : BitVec 32) (ops : List PteOp) : BitVec 32 := ops.foldl pteApply pte

/-- What the reading macros give for an entry that stands for `op`. -/
def PteOp.DecodedBy (pte : BitVec 32) : PteOp → Prop
  | .setFpn fpn =>
    pagingFpn pte = fpn ∧ pagingPteFpn pte = fpn ∧ pagingPageSwapped pte = false
  | .setSwap swptyp swpoff =>
    pagingPteSwp pte = swpoff ∧ pagingSwp pte = swpoff ∧ pagingPteSwptyp pte = swptyp ∧
      pagingPageSwapped pte = true

/-! ### Fields that do not meet -/

/-- `SETVAL` of one field leaves `GETVAL` of a disjoint one alone. -/
theorem getval_setval_disjoint {v value mask mask' : BitVec 32} {offst offst' : ℕ}
    (hm : mask &&& mask' = 0#32) :
    getval (setval v value mask offst) mask' offst' = getval v mask' offst' := by
  have hbit : ∀ i (hi : i < 32), (mask[i] && mask'[i]) = false := by
    intro i hi
    have h := congrArg (fun b => b.getLsbD i) hm
    simpa [hi] using h
  have hand : setval v value mask offst &&& mask' = v &&& mask' := by
    ext i hi
    have h := hbit i hi
    simp only [setval, BitVec.getElem_and, BitVec.getElem_or, BitVec.getElem_not]
    cases hmi : mask[i] with
    | false => simp
    | true =>
      rw [hmi, Bool.true_and] at h
      simp [h]
  rw [getval, getval, hand]

theorem pagingPteSwptyp_pteSetSwap (pte : BitVec 32) (swptyp swpoff : ℕ) :
    pagingPteSwptyp (pteSetSwap pte swptyp swpoff) = swptyp % 32 := by
  rw [pagingPteSwptyp, pteSetSwap, getval_setval_disjoint (by decide), getval_setval,
    show pagingPteSwptypMask = 31#32 by decide]
  simp only [BitVec.shiftLeft_zero, BitVec.ushiftRight_zero, BitVec.toNat_and, BitVec.toNat_ofNat]
  rw [show 31 % 2 ^ 32 = 2 ^ 5 - 1 by norm_num, Nat.and_two_pow_sub_one_eq_mod]
  omega

theorem pagingPteFpn_eq (pte : BitVec 32) : pagingPteFpn pte = pagingFpn pte := rfl

/-! ### One update, whatever the entry held -/

theorem pagingPagePresent_pteApply (pte : BitVec 32) (op : PteOp) :
    pagingPagePresent (pteApply pte op) = true := by
  cases op with
  | setFpn fpn => exact pagingPagePresent_pteSetFpn pte fpn
  | setSwap swptyp swpoff => exact pagingPagePresent_pteSetSwap pte swptyp swpoff

theorem decodedBy_pteApply (pte : BitVec 32) {op : PteOp} (h : op.Fits) :
    op.DecodedBy (pteApply pte op) := by
  cases op with
  | setFpn fpn =>
    have hfpn : pagingFpn (pteSetFpn pte fpn) = fpn := by
      rw [pagingFpn_pteSetFpn]
      exact Nat.mod_eq_of_lt h
    exact ⟨hfpn, hfpn, pagingPageSwapped_pteSetFpn pte fpn⟩
  | setSwap swptyp swpoff =>
    have hoff : pagingPteSwp (pteSetSwap pte swptyp swpoff) = swpoff := by
      rw [pagingPteSwp_pteSetSwap]
      exact Nat.mod_eq_of_lt h.2
    have htyp : pagingPteSwptyp (pteSetSwap pte swptyp swpoff) = swptyp := by
      rw [pagingPteSwptyp_pteSetSwap]
      exact Nat.mod_eq_of_lt h.1
    exact ⟨hoff, hoff, htyp, pagingPageSwapped_pteSetSwap pte swptyp swpoff⟩

/-- Bits 26 to 29 lie in no mask of the setters. -/
theorem getLsbD_pteApply (pte : BitVec 32) (op : PteOp) {i : ℕ} (hlo : 26 ≤ i) (hhi : i ≤ 29) :
    (pteApply pte op).getLsbD i = pte.getLsbD i := by
  have hfields : pagingPteFpnMask.getLsbD i = false ∧ pagingPteSwptypMask.getLsbD i = false ∧
      pagingPteSwpoffMask.getLsbD i = false ∧ pagingPtePresentMask.getLsbD i = false ∧
      pagingPteSwappedMask.getLsbD i = false := by
    interval_cases i <;> decide
  obtain ⟨hfpn, htyp, hoff, hpresent, hswapped⟩ := hfields
  have hi : i < 32 := by omega
  cases op with
  | setFpn fpn =>
    rw [pteApply, pteSetFpn, getLsbD_setval_off hfpn]
    simp only [clrbit, setbit, BitVec.getLsbD_and, BitVec.getLsbD_or, BitVec.getLsbD_not]
    rw [hpresent, hswapped]
    simp [hi]
  | setSwap swptyp swpoff =>
    rw [pteApply, pteSetSwap, getLsbD_setval_off hoff, getLsbD_setval_off htyp]
    simp only [setbit, BitVec.getLsbD_or]
    rw [hpresent, hswapped]
    simp

/-! ### Runs of updates -/

theorem pteRun_append_singleton (pte : BitVec 32) (ops : List PteOp) (op : PteOp) :
    pteRun pte (ops ++ [op]) = pteApply (pteRun pte ops) op := by
  rw [pteRun, List.foldl_append, List.foldl_cons, List.foldl_nil, pteRun]

theorem getLsbD_pteRun (ops : List PteOp) (pte : BitVec 32) {i : ℕ} (hlo : 26 ≤ i)
    (hhi : i ≤ 29) : (pteRun pte ops).getLsbD i = pte.getLsbD i := by
  induction ops using List.reverseRecOn with
  | nil => rfl
  | append_singleton ops op ih => rw [pteRun_append_singleton, getLsbD_pteApply _ _ hlo hhi, ih]

/-- After any sequence of updates with values that fit, the entry decodes to the
last one. -/
theorem pteRun_decodes (pte : BitVec 32) (ops : List PteOp) (hfit : ∀ op ∈ ops, op.Fits) :
    (∀ op, ops.getLast? = some op →
      op.DecodedBy (pteRun pte ops) ∧ pagingPagePresent (pteRun pte ops) = true) ∧
    ∀ seen, seen <+: ops → ∀ i, 26 ≤ i → i ≤ 29 →
      (pteRun pte seen).getLsbD i = pte.getLsbD i := by
  constructor
  · intro op hlast
    obtain ⟨before, rfl⟩ := List.getLast?_eq_some_iff.mp hlast
    have hop : op.Fits := hfit op (by simp)
    rw [pteRun_append_singleton]
    exact ⟨decodedBy_pteApply _ hop, pagingPagePresent_pteApply _ op⟩
  · intro seen _ i hlo hhi
    exact getLsbD_pteRun seen pte hlo hhi

theorem pteRun_decodes_mixed :
    (∀ op, ([.setFpn 8191, .setSwap 31 5, .setFpn 2] : List PteOp).getLast? = some op →
      op.DecodedBy (pteRun 0xFFFFFFFF#32 [.setFpn 8191, .setSwap 31 5, .setFpn 2]) ∧
        pagingPagePresent (pteRun 0xFFFFFFFF#32 [.setFpn 8191, .setSwap 31 5, .setFpn 2]) =
          true) ∧
    ∀ seen, seen <+: ([.setFpn 8191, .setSwap 31 5, .setFpn 2] : List PteOp) →
      ∀ i, 26 ≤ i → i ≤ 29 →
        (pteRun 0xFFFFFFFF#32 seen).getLsbD i = (0xFFFFFFFF#32).getLsbD i :=
  pteRun_decodes 0xFFFFFFFF#32 [.setFpn 8191, .setSwap 31 5, .setFpn 2] (by decide)

end OsSim.Mem
