import OsSim.Mem.System

/-!
# Growing the heap (mm-vm.c:107-143, mm.c:87-215)

Everything `inc_vma_limit` can do to a process with one area: with too few free
frames it pops all of them and moves the break through an `int`; otherwise it
maps the popped frames, last popped first, from the old break on. `none` is a
growth past the end of the page directory.
-/

namespace OsSim.Mem
open OsSim.Base

/-- The state of the first and only area: number 0, from 0 to `brk`. -/
def HeapIs (mm : Mm) (brk : ℕ) (fr : List VmRg) : Prop := mm.mmap = [⟨0, 0, brk, brk, fr⟩]

theorem heapIs_fresh : HeapIs .fresh 0 [⟨0, 0⟩] := rfl

theorem getVmaByNum_heap {mm : Mm} {brk : ℕ} {fr : List VmRg} (h : HeapIs mm brk fr) {vmaid : ℤ}
    (hid : vmaid ≤ 0) : getVmaByNum mm vmaid = some (some 0) := by
  have h0 : ¬toInt (0 : ℕ) < vmaid := by
    rw [toInt_of_range (by norm_num) (by norm_num)]
    exact_mod_cast not_lt.mpr hid
  simp only [getVmaByNum, show mm.mmap = [⟨0, 0, brk, brk, fr⟩] from h, getVmaFrom, if_neg h0,
    Option.map_some]

/-- A number above 0 runs off the list. -/
theorem getVmaByNum_heap_pos {mm : Mm} {brk : ℕ} {fr : List VmRg} (h : HeapIs mm brk fr)
    {vmaid : ℤ} (hid : 0 < vmaid) : getVmaByNum mm vmaid = none := by
  have h0 : toInt (0 : ℕ) < vmaid := by
    rw [toInt_of_range (by norm_num) (by norm_num)]
    exact_mod_cast hid
  simp only [getVmaByNum, show mm.mmap = [⟨0, 0, brk, brk, fr⟩] from h, getVmaFrom, if_pos h0,
    Option.map_none]

/-! ### Frames -/

theorem allocLoop_enough (n : ℕ) (mp : MemphyStruct) (lst : List ℕ)
    (h : n ≤ mp.freeFpList.length) :
    allocLoop n mp lst = (0, (mp.freeFpList.take n).reverse ++ lst,
      { mp with freeFpList := mp.freeFpList.drop n }) := by
  induction n generalizing mp lst with
  | zero => simp [allocLoop]
  | succ n ih =>
    obtain ⟨f, rest, hf⟩ := List.exists_cons_of_length_pos (Nat.lt_of_lt_of_le (Nat.succ_pos n) h)
    simp only [allocLoop, memphyGetFreefp, hf]
    rw [ih _ _ (by simpa [hf] using h)]
    simp

theorem allocLoop_short (n : ℕ) (mp : MemphyStruct) (lst : List ℕ)
    (h : mp.freeFpList.length < n) :
    allocLoop n mp lst = (-1, mp.freeFpList.reverse ++ lst, { mp with freeFpList := [] }) := by
  induction n generalizing mp lst with
  | zero => exact absurd h (Nat.not_lt_zero _)
  | succ n ih =>
    rcases hf : mp.freeFpList with - | ⟨f, rest⟩
    · obtain ⟨storage, maxsz, rdmflg, cursor, frames⟩ := mp
      obtain rfl : frames = [] := hf
      rfl
    · simp only [allocLoop, memphyGetFreefp, hf]
      rw [ih _ _ (by simpa [hf] using h)]
      simp

/-- `pgd` after the frames were mapped from page `pgn` on. -/
def mapFrames : ℕ → List ℕ → (ℕ → BitVec 32) → ℕ → BitVec 32
  | _, [], pgd => pgd
  | pgn, fpn :: frames, pgd =>
    mapFrames (pgn + 1) frames (Function.update pgd pgn (pteSetFpn (pgd pgn) fpn))

theorem vmapLoop_eq (frames : List ℕ) (pgn : ℕ) (pgd : ℕ → BitVec 32) :
    vmapLoop frames.length pgn frames pgd =
      if frames = [] ∨ pgn + frames.length ≤ pagingMaxPgn then some (true, mapFrames pgn frames pgd)
      else none := by
  induction frames generalizing pgn pgd with
  | nil => simp [vmapLoop, mapFrames]
  | cons fpn frames ih =>
    simp only [List.length_cons, vmapLoop, ih, mapFrames, reduceCtorEq, false_or]
    by_cases hp : pgn < pagingMaxPgn
    · rw [if_pos hp]
      rcases frames with - | ⟨g, rest⟩
      · simp only [List.length_nil, true_or, if_true, zero_add, if_pos (show pgn + 1 ≤ pagingMaxPgn from hp)]
      · simp only [reduceCtorEq, false_or, List.length_cons]
        congr 1
        simp only [eq_iff_iff]
        omega
    · rw [if_neg hp, if_neg (by omega)]

theorem mapFrames_below {pgn k : ℕ} (frames : List ℕ) (pgd : ℕ → BitVec 32) (h : k < pgn) :
    mapFrames pgn frames pgd k = pgd k := by
  induction frames generalizing pgn pgd with
  | nil => rfl
  | cons fpn frames ih => rw [mapFrames, ih _ (by omega), Function.update_of_ne (by omega)]

theorem mapFrames_above {pgn k : ℕ} (frames : List ℕ) (pgd : ℕ → BitVec 32)
    (h : pgn + frames.length ≤ k) : mapFrames pgn frames pgd k = pgd k := by
  induction frames generalizing pgn pgd with
  | nil => rfl
  | cons fpn frames ih =>
    rw [List.length_cons] at h
    rw [mapFrames, ih _ (by omega), Function.update_of_ne (by omega)]

theorem mapFrames_mapped {pgn k : ℕ} (frames : List ℕ) (pgd : ℕ → BitVec 32) (h : pgn ≤ k)
    (h' : k < pgn + frames.length) :
    ∃ f ∈ frames, ∃ pte, mapFrames pgn frames pgd k = pteSetFpn pte f := by
  induction frames generalizing pgn pgd with
  | nil => exact absurd h' (by simp; omega)
  | cons fpn frames ih =>
    rw [List.length_cons] at h'
    rw [mapFrames]
    by_cases hk : k = pgn
    · subst hk
      rw [mapFrames_below _ _ (Nat.lt_succ_self k), Function.update_self]
      exact ⟨fpn, List.mem_cons_self .., _, rfl⟩
    · obtain ⟨f, hf, pte, hpte⟩ := @ih (pgn + 1)
        (Function.update pgd pgn (pteSetFpn (pgd pgn) fpn)) (by omega) (by omega)
      exact ⟨f, List.mem_cons_of_mem _ hf, pte, hpte⟩

theorem mapFrames_cases (pgn : ℕ) (frames : List ℕ) (pgd : ℕ → BitVec 32) (k : ℕ) :
    mapFrames pgn frames pgd k = pgd k ∨
      ∃ f ∈ frames, ∃ pte, mapFrames pgn frames pgd k = pteSetFpn pte f := by
  by_cases hlow : k < pgn
  · exact Or.inl (mapFrames_below _ _ hlow)
  · by_cases hhigh : pgn + frames.length ≤ k
    · exact Or.inl (mapFrames_above _ _ hhigh)
    · exact Or.inr (mapFrames_mapped _ _ (not_lt.mp hlow) (not_le.mp hhigh))

/-! ### Aligned sizes -/

/-- The pages `inc_vma_limit` asks for. -/
def growthPages (incSz : ℤ) : ℕ := ((pagingPageAlignsz incSz).tdiv pagingPagesz).toNat

theorem pagingPageAlignsz_dvd (sz : ℤ) : (256 : ℤ) ∣ pagingPageAlignsz sz := by
  simp only [pagingPageAlignsz, toInt]
  push_cast
  omega

theorem pagingPageAlignsz_range (sz : ℤ) :
    -2147483648 ≤ pagingPageAlignsz sz ∧ pagingPageAlignsz sz < 2147483648 := toInt_range _

/-- Up to `INT_MAX - 255` the size is rounded up to the next multiple of a page. -/
theorem pagingPageAlignsz_eq {sz : ℤ} (h0 : 0 ≤ sz) (h : sz ≤ 2147483392) :
    pagingPageAlignsz sz = (sz + 255) / 256 * 256 := by
  have hdiv := divRoundUp_eq (n := sz) (d := 256) (by norm_num) h0 (by push_cast; omega)
  rw [pagingPageAlignsz, hdiv]
  push_cast
  rw [toInt_of_range (by omega) (by omega)]
  omega

/-- From there on the rounding overflows. -/
theorem pagingPageAlignsz_neg {sz : ℤ} (h : 2147483392 < sz) (h' : sz < 2147483648) :
    pagingPageAlignsz sz < 0 := by
  have hsum : toInt (toInt (sz + (256 : ℕ)) - 1) = -(4294967041 - sz) := by
    simp only [toInt]
    omega
  rw [pagingPageAlignsz, divRoundUp, hsum, Int.neg_tdiv, Int.tdiv_eq_ediv_of_nonneg (by omega)]
  push_cast
  rw [toInt_of_range (by omega) (by omega)]
  omega

theorem pagingPageAlignsz_nonpos {sz : ℤ} (h : sz < 0) (h' : -2147483648 ≤ sz) :
    pagingPageAlignsz sz ≤ 0 := by
  have hsum : toInt (toInt (sz + (256 : ℕ)) - 1) = sz + 255 := by
    simp only [toInt]
    omega
  have hdiv : -8388608 ≤ (sz + 255).tdiv 256 ∧ (sz + 255).tdiv 256 ≤ 0 := by
    by_cases hlow : sz + 255 < 0
    · rw [show sz + 255 = -(-(sz + 255)) by ring, Int.neg_tdiv,
        Int.tdiv_eq_ediv_of_nonneg (by omega)]
      omega
    · rw [Int.tdiv_eq_ediv_of_nonneg (by omega)]
      omega
  rw [pagingPageAlignsz, divRoundUp, hsum]
  push_cast
  rw [toInt_of_range (by omega) (by omega)]
  omega

theorem growthPages_mul {sz : ℤ} (h : 0 ≤ pagingPageAlignsz sz) :
    (256 * growthPages sz : ℤ) = pagingPageAlignsz sz := by
  have hdvd := pagingPageAlignsz_dvd sz
  rw [growthPages, Int.tdiv_eq_ediv_of_nonneg h]
  push_cast
  omega

theorem pagingPageAlignsz_idem {sz : ℤ} (h : 0 ≤ pagingPageAlignsz sz) :
    pagingPageAlignsz (pagingPageAlignsz sz) = pagingPageAlignsz sz := by
  have hdvd := pagingPageAlignsz_dvd sz
  have hrange := pagingPageAlignsz_range sz
  rw [pagingPageAlignsz_eq h (by omega)]
  omega

/-! ### inc_vma_limit -/

def Pcb.freeFrames (proc : Pcb) : List ℕ := (proc.dev .mram).freeFpList

/-- A growth with too few free frames. -/
def Pcb.growShort (proc : Pcb) (brk : ℕ) (fr : List VmRg) : Pcb where
  mm := { proc.mm with mmap := [⟨0, 0, toULong (toInt brk), toULong (toInt brk), fr⟩] }
  dev := Function.update proc.dev .mram { proc.dev .mram with freeFpList := [] }

/-- A growth that found its frames. -/
def Pcb.growTo (proc : Pcb) (brk : ℕ) (fr : List VmRg) (incSz : ℤ) : Pcb :=
  let n := growthPages incSz
  let pgn := pagingPgn (toInt brk)
  let brk' := toULong (brk + pagingPageAlignsz incSz)
  { mm := { proc.mm with
      pgd := mapFrames pgn (proc.freeFrames.take n).reverse proc.mm.pgd
      mmap := [⟨0, 0, brk', brk', fr⟩]
      fifoPgn := (pgn + n) :: proc.mm.fifoPgn }
    dev := Function.update proc.dev .mram
      { proc.dev .mram with freeFpList := proc.freeFrames.drop n } }

/-- The result of `vm_map_ram` and what `inc_vma_limit` makes of it. -/
def Pcb.grow (proc : Pcb) (brk : ℕ) (fr : List VmRg) (incSz : ℤ) : Option (ℤ × Pcb) :=
  let n := growthPages incSz
  if proc.freeFrames.length < n then some (-1, proc.growShort brk fr)
  else if n = 0 ∨ pagingPgn (toInt brk) + n ≤ pagingMaxPgn then some (0, proc.growTo brk fr incSz)
  else none

theorem pagingPgn_brk {pages : ℕ} (h : pages < 16384) :
    pagingPgn (toInt ((256 * pages : ℕ) : ℤ)) = pages := by
  have hpgn := pagingPgn_eq (toInt ((256 * pages : ℕ) : ℤ))
  rw [toInt_of_range (by omega) (by omega)] at hpgn ⊢
  push_cast at hpgn ⊢
  omega

theorem inPgd_of_le {pages n : ℕ} (h : pages + n ≤ 16384) :
    n = 0 ∨ pagingPgn (toInt ((256 * pages : ℕ) : ℤ)) + n ≤ pagingMaxPgn := by
  by_cases h0 : n = 0
  · exact Or.inl h0
  · rw [pagingPgn_brk (by omega)]
    exact Or.inr (h.trans (by norm_num))

theorem Pcb.grow_eq (proc : Pcb) {brk : ℕ} (fr : List VmRg) {incSz : ℤ}
    (hn : growthPages incSz ≤ proc.freeFrames.length)
    (hroom : growthPages incSz = 0 ∨ pagingPgn (toInt brk) + growthPages incSz ≤ pagingMaxPgn) :
    proc.grow brk fr incSz = some (0, proc.growTo brk fr incSz) := by
  rw [Pcb.grow, if_neg (not_lt.mpr hn), if_pos hroom]

theorem Pcb.growTo_heap (proc : Pcb) {pages : ℕ} (fr : List VmRg) {incSz : ℤ}
    (hinc : 0 ≤ pagingPageAlignsz incSz) (hroom : pages + growthPages incSz ≤ 8388607) :
    HeapIs (proc.growTo (256 * pages) fr incSz).mm (256 * (pages + growthPages incSz)) fr := by
  have hmul := growthPages_mul hinc
  have hbrk : toULong (((256 * pages : ℕ) : ℤ) + pagingPageAlignsz incSz) =
      256 * (pages + growthPages incSz) := by
    rw [show ((256 * pages : ℕ) : ℤ) + pagingPageAlignsz incSz =
      ((256 * (pages + growthPages incSz) : ℕ) : ℤ) by push_cast; omega, toULong_natCast (by omega)]
  simp only [HeapIs, Pcb.growTo, hbrk]

/-- The free frames mapped from page `pgn` on, `n` of them. -/
def Pcb.mapped (proc : Pcb) (pgn n : ℕ) : Pcb where
  mm := { proc.mm with
    pgd := mapFrames pgn (proc.freeFrames.take n).reverse proc.mm.pgd
    fifoPgn := (pgn + n) :: proc.mm.fifoPgn }
  dev := Function.update proc.dev .mram
    { proc.dev .mram with freeFpList := proc.freeFrames.drop n }

theorem vmMapRam_enough (proc : Pcb) {mapstart incpgnum : ℤ}
    (h : incpgnum.toNat ≤ proc.freeFrames.length) : vmMapRam proc mapstart incpgnum =
      if incpgnum.toNat = 0 ∨ pagingPgn mapstart + incpgnum.toNat ≤ pagingMaxPgn then
        some (0, proc.mapped (pagingPgn mapstart) incpgnum.toNat)
      else none := by
  have hlen : (proc.freeFrames.take incpgnum.toNat).reverse.length = incpgnum.toNat := by simp [h]
  have hnil : (proc.freeFrames.take incpgnum.toNat).reverse = [] ↔ incpgnum.toNat = 0 := by
    rw [← List.length_eq_zero_iff, hlen]
  have hloop := vmapLoop_eq (proc.freeFrames.take incpgnum.toNat).reverse (pagingPgn mapstart)
    proc.mm.pgd
  rw [hlen] at hloop
  simp only [hnil] at hloop
  unfold vmMapRam allocPagesRange vmapPageRange
  rw [allocLoop_enough _ _ _ h, List.append_nil, ← Pcb.freeFrames]
  dsimp only
  rw [if_neg (by norm_num), hloop]
  split_ifs <;> rfl

theorem vmMapRam_short (proc : Pcb) {mapstart incpgnum : ℤ}
    (h : proc.freeFrames.length < incpgnum.toNat) : vmMapRam proc mapstart incpgnum =
      some (-1, { proc with
        dev := Function.update proc.dev .mram { proc.dev .mram with freeFpList := [] } }) := by
  simp [vmMapRam, allocPagesRange, allocLoop_short _ _ _ h]

theorem incVmaLimit_heap {proc : Pcb} {brk : ℕ} {fr : List VmRg} (h : HeapIs proc.mm brk fr)
    {vmaid : ℤ} (hid : vmaid ≤ 0) (incSz : ℤ) :
    incVmaLimit proc vmaid incSz =
      if validateOverlapVmArea proc.mm vmaid (toInt brk)
          (toInt (toULong (brk + pagingPageAlignsz incSz))) < 0 then some (-1, proc)
      else proc.grow brk fr incSz := by
  have hmm : proc.mm.mmap = [⟨0, 0, brk, brk, fr⟩] := h
  simp only [incVmaLimit, getVmaByNum_heap h hid, Option.bind_eq_bind, Option.bind_some, Mm.vma, hmm,
    List.getElem?_cons_zero, getVmAreaNodeAtBrk]
  by_cases hv : validateOverlapVmArea proc.mm vmaid (toInt brk)
      (toInt (toULong (brk + pagingPageAlignsz incSz))) < 0
  · rw [if_pos hv, if_pos hv]
  rw [if_neg hv, if_neg hv]
  simp only [Mm.setVma, hmm, List.set_cons_zero, Pcb.grow]
  by_cases hshort : proc.freeFrames.length < growthPages incSz
  · rw [if_pos hshort, vmMapRam_short]
    · simp [Pcb.growShort]
    · exact hshort
  · rw [if_neg hshort, vmMapRam_enough]
    · rw [← growthPages]
      split_ifs <;> rfl
    · exact not_lt.mp hshort

end OsSim.Mem
