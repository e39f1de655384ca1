import OsSim.Mem.Bounds
import OsSim.Mem.FailedGrowth
import OsSim.Mem.Frames

/-!
# System call 17 from a program (sys_mem.c, cpu.c:105-107)

A `SYSCALL` instruction hands `__sys_memmap` any three words. No operation tests
them against the frames or the areas of the caller, what `inc_vma_limit`,
`MEMPHY_read` and `MEMPHY_write` answer is dropped, and the call returns 0.
`userCall_safe_iff` says which arguments do no harm all the same.
-/

namespace OsSim.Mem
open OsSim.Base

variable {ι : Type}

/-! ### Cells, frames and mapped areas -/

/-- The storage cells the call reads or writes. -/
def memmapCells (regs : ScRegs) : List (Device × ℤ) :=
  let memop := regs.a1.toInt
  if memop = sysmemSwpOp then
    (List.range pagingPagesz).flatMap fun (cellidx : ℕ) =>
      [(.mram, toInt (regs.a2.toInt * pagingPagesz + cellidx)),
        (.activeMswp, toInt (regs.a3.toInt * pagingPagesz + cellidx))]
  else if memop = sysmemIoRead ∨ memop = sysmemIoWrite then [(.mram, regs.a2.toInt)]
  else []

/-- A page of the process is held in frame `fpn` of the device. -/
def Pcb.OwnsFrame (proc : Pcb) (d : Device) (fpn : ℕ) : Prop :=
  ∃ n < pagingMaxPgn, pteSlot (proc.mm.pgd n) = some (d, fpn)

/-- A cell of the storage in a frame of the process. -/
def Pcb.OwnCell (proc : Pcb) (cell : Device × ℤ) : Prop :=
  (proc.dev cell.1).InStorage cell.2 ∧ proc.OwnsFrame cell.1 (cell.2 / pagingPagesz).toNat

/-- The areas end at their break and every page below is mapped. -/
def HeapMapped (mm : Mm) : Prop :=
  ∀ v ∈ mm.mmap, v.vmStart ≤ v.vmEnd ∧ v.vmEnd = v.sbrk ∧
    ∀ n, pagingPagesz * n < v.vmEnd → n < pagingMaxPgn ∧ pagingPagePresent (mm.pgd n) = true

/-- The call is refused and changes nothing, or it stays inside the cells of the
caller and keeps its areas mapped. -/
def SafeCall (proc : Pcb) (regs : ScRegs) : Prop :=
  ∃ rc regs' proc', sysMemmap proc regs = some (rc, regs', proc') ∧
    (rc ≠ 0 ∧ proc' = proc ∨
      (∀ cell ∈ memmapCells regs, proc.OwnCell cell) ∧ (HeapMapped proc.mm → HeapMapped proc'.mm))

/-! ### The arguments that do no harm -/

/-- The whole frame that the `int` addresses of frame number `fpn` fall into is
in the storage and holds a page of the process. -/
def Pcb.OwnFpn (proc : Pcb) (d : Device) (fpn : ℤ) : Prop :=
  0 ≤ toInt (fpn * pagingPagesz) ∧ toInt (fpn * pagingPagesz) + pagingPagesz ≤ (proc.dev d).maxsz ∧
    proc.OwnsFrame d (toInt (fpn * pagingPagesz) / pagingPagesz).toNat

/-- The growth is refused as overlapping, or too few frames are free, or it stays
inside the page directory and, from a mapped area, between 0 and its end. -/
def GrowthSafe (proc : Pcb) (vmaid incSz : ℤ) : Prop :=
  vmaid ≤ 0 ∧ ∀ v ∈ proc.mm.mmap,
    validateOverlapVmArea proc.mm vmaid (toInt v.sbrk)
        (toInt (toULong (v.sbrk + pagingPageAlignsz incSz))) < 0 ∨
      proc.freeFrames.length < growthPages incSz ∨
      (growthPages incSz = 0 ∨ pagingPgn (toInt v.vmEnd) + growthPages incSz ≤ pagingMaxPgn) ∧
        (HeapMapped proc.mm → 0 ≤ v.vmEnd + pagingPageAlignsz incSz ∧
          v.vmEnd + pagingPageAlignsz incSz ≤ pagingMaxPgn * pagingPagesz)

def SafeArgs (proc : Pcb) (regs : ScRegs) : Prop :=
  let memop := regs.a1.toInt
  if memop = sysmemIncOp then GrowthSafe proc regs.a2.toInt regs.a3.toInt
  else if memop = sysmemSwpOp then
    proc.OwnFpn .mram regs.a2.toInt ∧ proc.OwnFpn .activeMswp regs.a3.toInt
  else if memop = sysmemIoRead ∨ memop = sysmemIoWrite then proc.OwnCell (.mram, regs.a2.toInt)
  else True

/-! ### Copying a frame -/

section Copy
variable {dev dev' : Devices} {vicfpn swpfpn : ℤ}

/-- The two cells of one step of `__swap_cp_page` are in the storage. -/
def CopyInStorage (vicfpn swpfpn : ℤ) (dev : Devices) (cellidx : ℕ) : Prop :=
  (dev .mram).InStorage (toInt (vicfpn * pagingPagesz + cellidx)) ∧
    (dev .activeMswp).InStorage (toInt (swpfpn * pagingPagesz + cellidx))

theorem CopyInStorage.congr (h : ∀ d, SameShape (dev d) (dev' d)) (cellidx : ℕ) :
    CopyInStorage vicfpn swpfpn dev' cellidx ↔ CopyInStorage vicfpn swpfpn dev cellidx := by
  unfold CopyInStorage MemphyStruct.InStorage
  rw [(h _).maxsz, (h _).maxsz]

/-- One step writes the byte of the first cell to the second. -/
def copyCell (vicfpn swpfpn : ℤ) (dev : Devices) (cellidx : ℕ) : Devices :=
  Function.update dev .activeMswp { dev .activeMswp with
    storage := Function.update (dev .activeMswp).storage
      (toInt (swpfpn * pagingPagesz + cellidx)).toNat
      ((dev .mram).storage (toInt (vicfpn * pagingPagesz + cellidx)).toNat) }

theorem swapCpCell_eq (hrandom : ∀ d, (dev d).rdmflg = true) {cellidx : ℕ}
    (hin : CopyInStorage vicfpn swpfpn dev cellidx) :
    swapCpCell .mram vicfpn .activeMswp swpfpn dev cellidx =
      some (copyCell vicfpn swpfpn dev cellidx) := by
  unfold swapCpCell
  simp only [memphyRead_eq (hrandom .mram), if_pos hin.1, Option.bind_eq_bind, Option.bind_some,
    Function.update_eq_self, memphyWrite_eq (hrandom .activeMswp), if_pos hin.2]
  rfl

theorem swapCpCell_in (hrandom : ∀ d, (dev d).rdmflg = true) {cellidx : ℕ}
    (h : swapCpCell .mram vicfpn .activeMswp swpfpn dev cellidx = some dev') :
    CopyInStorage vicfpn swpfpn dev cellidx := by
  unfold swapCpCell at h
  rw [memphyRead_eq (hrandom .mram)] at h
  by_cases hsrc : (dev .mram).InStorage (toInt (vicfpn * pagingPagesz + cellidx))
  · simp only [if_pos hsrc, Option.bind_eq_bind, Option.bind_some, Function.update_eq_self,
      memphyWrite_eq (hrandom .activeMswp)] at h
    by_cases hdst : (dev .activeMswp).InStorage (toInt (swpfpn * pagingPagesz + cellidx))
    · exact ⟨hsrc, hdst⟩
    · rw [if_neg hdst] at h
      simp at h
  · rw [if_neg hsrc] at h
    simp at h

/-- The loop of `__swap_cp_page` is defined when every cell it reaches is in the
storage. -/
theorem swapCp_defined (hrandom : ∀ d, (dev d).rdmflg = true) (cells : List ℕ) :
    (∃ dev', cells.foldlM (swapCpCell .mram vicfpn .activeMswp swpfpn) dev = some dev') ↔
      ∀ cellidx ∈ cells, CopyInStorage vicfpn swpfpn dev cellidx := by
  induction cells generalizing dev with
  | nil => simp
  | cons cellidx rest ih =>
    rw [List.foldlM_cons, List.forall_mem_cons]
    constructor
    · rintro ⟨dev', h⟩
      obtain ⟨mid, hcell, hrest⟩ := Option.bind_eq_some_iff.mp h
      have hshape := swapCpCell_shape hcell
      have hin := (ih fun d => (hshape d).rdmflg.trans (hrandom d)).mp ⟨dev', hrest⟩
      exact ⟨swapCpCell_in hrandom hcell, fun k hk => (CopyInStorage.congr hshape k).mp (hin k hk)⟩
    · rintro ⟨hfirst, hin⟩
      have hcell := swapCpCell_eq hrandom hfirst
      have hshape := swapCpCell_shape hcell
      obtain ⟨dev', hrest⟩ := (ih fun d => (hshape d).rdmflg.trans (hrandom d)).mpr
        fun k hk => (CopyInStorage.congr hshape k).mpr (hin k hk)
      exact ⟨dev', Option.bind_eq_some_iff.mpr ⟨_, hcell, hrest⟩⟩

end Copy

/-! ### The operations that leave the tables alone -/

theorem sysMemmap_rc {proc proc' : Pcb} {regs regs' : ScRegs} {rc : ℤ}
    (h : sysMemmap proc regs = some (rc, regs', proc')) : rc = 0 := by
  unfold sysMemmap at h
  dsimp only at h
  split_ifs at h
  · exact (congrArg Prod.fst (Option.some.inj h)).symm
  · obtain ⟨r, -, heq⟩ := Option.map_eq_some_iff.mp h
    exact (congrArg Prod.fst heq).symm
  · obtain ⟨r, -, heq⟩ := Option.map_eq_some_iff.mp h
    exact (congrArg Prod.fst heq).symm
  · obtain ⟨r, -, h⟩ := Option.bind_eq_some_iff.mp h
    obtain ⟨byte, -, heq⟩ := Option.bind_eq_some_iff.mp h
    exact (congrArg Prod.fst (Option.some.inj heq)).symm
  · obtain ⟨r, -, heq⟩ := Option.bind_eq_some_iff.mp h
    exact (congrArg Prod.fst (Option.some.inj heq)).symm
  · exact (congrArg Prod.fst (Option.some.inj h)).symm

/-- The call never reports an error, so it is safe only by doing no harm. -/
theorem safeCall_iff {proc : Pcb} {regs : ScRegs} : SafeCall proc regs ↔
    (∀ cell ∈ memmapCells regs, proc.OwnCell cell) ∧ ∃ rc regs' proc',
      sysMemmap proc regs = some (rc, regs', proc') ∧ (HeapMapped proc.mm → HeapMapped proc'.mm) := by
  constructor
  · rintro ⟨rc, regs', proc', hcall, ⟨hrc, -⟩ | ⟨hcells, hkeep⟩⟩
    · exact absurd (sysMemmap_rc hcall) hrc
    · exact ⟨hcells, rc, regs', proc', hcall, hkeep⟩
  · rintro ⟨hcells, rc, regs', proc', hcall, hkeep⟩
    exact ⟨rc, regs', proc', hcall, Or.inr ⟨hcells, hkeep⟩⟩

theorem forall_memmapCells_swp {regs : ScRegs} (hswp : regs.a1.toInt = sysmemSwpOp)
    {P : Device × ℤ → Prop} : (∀ cell ∈ memmapCells regs, P cell) ↔ ∀ cellidx < pagingPagesz,
      P (.mram, toInt (regs.a2.toInt * pagingPagesz + (cellidx : ℕ))) ∧
        P (.activeMswp, toInt (regs.a3.toInt * pagingPagesz + (cellidx : ℕ))) := by
  unfold memmapCells
  dsimp only
  rw [if_pos hswp]
  simp only [List.mem_flatMap, List.mem_range, List.mem_cons, List.not_mem_nil, or_false,
    forall_exists_index, and_imp]
  constructor
  · intro h cellidx hk
    exact ⟨h _ cellidx hk (Or.inl rfl), h _ cellidx hk (Or.inr rfl)⟩
  · rintro h cell cellidx hk (rfl | rfl)
    · exact (h cellidx hk).1
    · exact (h cellidx hk).2

theorem forall_memmapCells_io {regs : ScRegs}
    (hio : regs.a1.toInt = sysmemIoRead ∨ regs.a1.toInt = sysmemIoWrite)
    {P : Device × ℤ → Prop} : (∀ cell ∈ memmapCells regs, P cell) ↔ P (.mram, regs.a2.toInt) := by
  have hswp : regs.a1.toInt ≠ sysmemSwpOp := by
    rcases hio with h | h <;> rw [h] <;> decide
  unfold memmapCells
  dsimp only
  rw [if_neg hswp, if_pos hio, List.forall_mem_singleton]

theorem sysMemmap_defined {proc : Pcb} (hrandom : ∀ d, (proc.dev d).rdmflg = true) {regs : ScRegs}
    (hinc : regs.a1.toInt ≠ sysmemIncOp)
    (hcells : ∀ cell ∈ memmapCells regs, (proc.dev cell.1).InStorage cell.2) :
    ∃ rc regs' proc', sysMemmap proc regs = some (rc, regs', proc') := by
  unfold sysMemmap
  dsimp only
  by_cases hmap : regs.a1.toInt = sysmemMapOp
  · exact ⟨_, _, _, if_pos hmap⟩
  rw [if_neg hmap, if_neg hinc]
  by_cases hswp : regs.a1.toInt = sysmemSwpOp
  · have hcopy : ∀ cellidx ∈ List.range pagingPagesz,
        CopyInStorage regs.a2.toInt regs.a3.toInt proc.dev cellidx := by
      intro cellidx hk
      exact (forall_memmapCells_swp hswp).mp hcells cellidx (List.mem_range.mp hk)
    obtain ⟨dev, hdev⟩ := (swapCp_defined hrandom _).mpr hcopy
    rw [if_pos hswp, mmSwapPage, swapCpPage, hdev]
    exact ⟨_, _, _, rfl⟩
  rw [if_neg hswp]
  by_cases hread : regs.a1.toInt = sysmemIoRead
  · have hin : (proc.dev .mram).InStorage regs.a2.toInt :=
      (forall_memmapCells_io (Or.inl hread)).mp hcells
    rw [if_pos hread, memphyRead_eq (hrandom .mram), if_pos hin]
    exact ⟨_, _, _, rfl⟩
  rw [if_neg hread]
  by_cases hwrite : regs.a1.toInt = sysmemIoWrite
  · have hin : (proc.dev .mram).InStorage regs.a2.toInt :=
      (forall_memmapCells_io (Or.inr hwrite)).mp hcells
    rw [if_pos hwrite, memphyWrite_eq (hrandom .mram), if_pos hin]
    exact ⟨_, _, _, rfl⟩
  · exact ⟨_, _, _, if_neg hwrite⟩

theorem safeCall_cells {proc : Pcb} (hrandom : ∀ d, (proc.dev d).rdmflg = true) {regs : ScRegs}
    (hinc : regs.a1.toInt ≠ sysmemIncOp) :
    SafeCall proc regs ↔ ∀ cell ∈ memmapCells regs, proc.OwnCell cell := by
  rw [safeCall_iff]
  constructor
  · rintro ⟨hcells, -⟩
    exact hcells
  · intro hcells
    obtain ⟨rc, regs', proc', hcall⟩ := sysMemmap_defined hrandom hinc fun c hc => (hcells c hc).1
    rcases sysMemmap_step hcall with ⟨hop, -⟩ | ⟨-, hmm, -⟩
    · exact absurd hop hinc
    · exact ⟨hcells, rc, regs', proc', hcall, fun h => hmm ▸ h⟩

theorem toInt_cell (fpn : ℤ) {cellidx : ℕ} (hk : cellidx < pagingPagesz) :
    toInt (fpn * pagingPagesz + cellidx) = toInt (fpn * pagingPagesz) + cellidx ∧
      (toInt (fpn * pagingPagesz) + cellidx) / (pagingPagesz : ℤ) =
        toInt (fpn * pagingPagesz) / (pagingPagesz : ℤ) := by
  have hpagesz : (pagingPagesz : ℤ) = 256 := rfl
  have hk' : cellidx < 256 := hk
  rw [hpagesz]
  simp only [toInt]
  omega

theorem ownFpn_iff {proc : Pcb} {d : Device} {fpn : ℤ} :
    (∀ cellidx < pagingPagesz, proc.OwnCell (d, toInt (fpn * pagingPagesz + (cellidx : ℕ)))) ↔
      proc.OwnFpn d fpn := by
  have hpagesz : (pagingPagesz : ℤ) = 256 := rfl
  have hzero := toInt_cell fpn (by decide : 0 < pagingPagesz)
  have hend := toInt_cell fpn (by decide : 255 < pagingPagesz)
  constructor
  · intro h
    have hfirst := h 0 (by decide)
    have hlast := (h 255 (by decide)).1.2
    rw [Pcb.OwnCell, hzero.1, hzero.2] at hfirst
    rw [hend.1] at hlast
    dsimp only at hlast
    refine ⟨by simpa using hfirst.1.1, ?_, hfirst.2⟩
    rw [hpagesz] at hlast ⊢
    omega
  · rintro ⟨h0, hlt, howns⟩ cellidx hk
    have hcell := toInt_cell fpn hk
    have hk' : cellidx < 256 := hk
    rw [Pcb.OwnCell, hcell.1, hcell.2]
    refine ⟨⟨by omega, ?_⟩, howns⟩
    dsimp only
    rw [hpagesz] at hlt ⊢
    omega

/-! ### Growths -/

section Growth
variable {proc proc' : Pcb} {brk : ℕ} {fr : List VmRg} {incSz rc : ℤ}

theorem heapMapped_iff {mm : Mm} (h : HeapIs mm brk fr) : HeapMapped mm ↔
    ∀ n, 256 * n < brk → n < 16384 ∧ pagingPagePresent (mm.pgd n) = true := by
  have hmm : mm.mmap = [⟨0, 0, brk, brk, fr⟩] := h
  unfold HeapMapped
  rw [hmm, List.forall_mem_singleton]
  exact ⟨fun hv => hv.2.2, fun hn => ⟨Nat.zero_le _, rfl, hn⟩⟩

theorem HeapMapped.brk_le {mm : Mm} (h : HeapIs mm brk fr) (hmapped : HeapMapped mm) :
    brk ≤ 4194304 := by
  by_contra hlt
  have := ((heapMapped_iff h).mp hmapped 16384 (by omega)).1
  omega

theorem growthPages_cases (incSz : ℤ) :
    (growthPages incSz = 0 ∧ pagingPageAlignsz incSz ≤ 0) ∨
      (0 < growthPages incSz ∧ pagingPageAlignsz incSz = 256 * growthPages incSz) := by
  rcases le_or_gt (pagingPageAlignsz incSz) 0 with hneg | hpos
  · exact Or.inl ⟨growthPages_eq_zero hneg, hneg⟩
  · right
    have hmul := growthPages_mul hpos.le
    omega

/-- Too few frames: the break is put back, and the directory was not touched. -/
theorem growShort_heapMapped (h : HeapIs proc.mm brk fr) (hmapped : HeapMapped proc.mm) :
    HeapMapped (proc.growShort brk fr).mm := by
  have hbrk := hmapped.brk_le h
  have hback : toULong (toInt brk) = brk := toULong_toInt_natCast (by omega)
  have hheap : HeapIs (proc.growShort brk fr).mm brk fr := by
    unfold HeapIs Pcb.growShort
    rw [hback]
  exact (heapMapped_iff hheap).mpr ((heapMapped_iff h).mp hmapped)

/-- Enough frames: a mapped area stays mapped when it ends between 0 and the end
of the directory. -/
theorem growTo_heapMapped (h : HeapIs proc.mm brk fr) (hdvd : 256 ∣ brk)
    (henough : growthPages incSz ≤ proc.freeFrames.length) (hmapped : HeapMapped proc.mm) :
    HeapMapped (proc.growTo brk fr incSz).mm ↔
      0 ≤ (brk : ℤ) + pagingPageAlignsz incSz ∧ (brk : ℤ) + pagingPageAlignsz incSz ≤ 4194304 := by
  have hbrk := hmapped.brk_le h
  have hpages := (heapMapped_iff h).mp hmapped
  have hrange := pagingPageAlignsz_range incSz
  have hheap : HeapIs (proc.growTo brk fr incSz).mm (toULong (brk + pagingPageAlignsz incSz)) fr :=
    rfl
  rw [heapMapped_iff hheap]
  constructor
  · intro hgrown
    -- past either end, page 16384 would lie below the new break
    by_contra hout
    have hlarge : 4194304 < toULong (brk + pagingPageAlignsz incSz) := by
      rw [toULong]
      omega
    have := (hgrown 16384 (by omega)).1
    omega
  · rintro ⟨hlow, hhigh⟩ n hn
    have hend : toULong (brk + pagingPageAlignsz incSz) = (brk + pagingPageAlignsz incSz).toNat :=
      toULong_of_nonneg hlow (by omega)
    rw [hend] at hn
    have hlt : n < 16384 := by omega
    refine ⟨hlt, ?_⟩
    obtain ⟨pages, rfl⟩ := hdvd
    change pagingPagePresent (mapFrames (pagingPgn (toInt ((256 * pages : ℕ) : ℤ)))
      (proc.freeFrames.take (growthPages incSz)).reverse proc.mm.pgd n) = true
    have hlen : (proc.freeFrames.take (growthPages incSz)).reverse.length = growthPages incSz := by
      rw [List.length_reverse, List.length_take, min_eq_left henough]
    rcases growthPages_cases incSz with ⟨hzero, hneg⟩ | ⟨hpos, hamt⟩
    · rw [hzero, List.take_zero]
      exact (hpages n (by omega)).2
    · rw [pagingPgn_brk (by omega)]
      by_cases hbelow : n < pages
      · rw [mapFrames_below _ _ hbelow]
        exact (hpages n (by omega)).2
      · obtain ⟨f, -, pte, hpte⟩ := mapFrames_mapped
          (proc.freeFrames.take (growthPages incSz)).reverse proc.mm.pgd (not_lt.mp hbelow)
          (by rw [hlen]; omega)
        rw [hpte]
        exact pagingPagePresent_pteSetFpn pte f

theorem grow_safe_iff (h : HeapIs proc.mm brk fr) (hdvd : 256 ∣ brk) :
    (∃ rc proc', proc.grow brk fr incSz = some (rc, proc') ∧
      (HeapMapped proc.mm → HeapMapped proc'.mm)) ↔
    proc.freeFrames.length < growthPages incSz ∨
      (growthPages incSz = 0 ∨ pagingPgn (toInt brk) + growthPages incSz ≤ pagingMaxPgn) ∧
        (HeapMapped proc.mm → 0 ≤ (brk : ℤ) + pagingPageAlignsz incSz ∧
          (brk : ℤ) + pagingPageAlignsz incSz ≤ 4194304) := by
  by_cases hshort : proc.freeFrames.length < growthPages incSz
  · have hgrow : proc.grow brk fr incSz = some (-1, proc.growShort brk fr) := if_pos hshort
    exact iff_of_true ⟨_, _, hgrow, growShort_heapMapped h⟩ (Or.inl hshort)
  by_cases hroom : growthPages incSz = 0 ∨ pagingPgn (toInt brk) + growthPages incSz ≤ pagingMaxPgn
  · have hgrow := Pcb.grow_eq proc fr (not_lt.mp hshort) hroom
    have hkeep := fun hmapped => growTo_heapMapped h hdvd (not_lt.mp hshort) hmapped
    simp only [hgrow, Option.some.injEq, Prod.mk.injEq, hshort, hroom, false_or, true_and]
    constructor
    · rintro ⟨rc, proc', ⟨-, rfl⟩, hmap⟩ hmapped
      exact (hkeep hmapped).mp (hmap hmapped)
    · intro hfits
      exact ⟨_, _, ⟨rfl, rfl⟩, fun hmapped => (hkeep hmapped).mpr (hfits hmapped)⟩
  · have hgrow : proc.grow brk fr incSz = none := by rw [Pcb.grow, if_neg hshort, if_neg hroom]
    simp [hgrow, hshort, hroom]

theorem safeCall_inc {regs : ScRegs} (h : HeapIs proc.mm brk fr) (hdvd : 256 ∣ brk)
    (hinc : regs.a1.toInt = sysmemIncOp) :
    SafeCall proc regs ↔ GrowthSafe proc regs.a2.toInt regs.a3.toInt := by
  have hmm : proc.mm.mmap = [⟨0, 0, brk, brk, fr⟩] := h
  have hcells : memmapCells regs = [] := by simp [memmapCells, hinc]
  have hsys : sysMemmap proc regs = (incVmaLimit proc regs.a2.toInt regs.a3.toInt).map
      fun r => (0, regs, r.2) := by simp [sysMemmap, hinc]
  have hcall : SafeCall proc regs ↔ ∃ rc proc',
      incVmaLimit proc regs.a2.toInt regs.a3.toInt = some (rc, proc') ∧
        (HeapMapped proc.mm → HeapMapped proc'.mm) := by
    rw [safeCall_iff, hcells, hsys]
    constructor
    · rintro ⟨-, rc, regs', proc', hmap, hkeep⟩
      obtain ⟨⟨rc', mid⟩, hlim, heq⟩ := Option.map_eq_some_iff.mp hmap
      obtain ⟨-, -, rfl⟩ : 0 = rc ∧ regs = regs' ∧ mid = proc' := by simpa using heq
      exact ⟨rc', mid, hlim, hkeep⟩
    · rintro ⟨rc, proc', hlim, hkeep⟩
      exact ⟨by simp, 0, regs, proc', by rw [hlim]; rfl, hkeep⟩
  rw [hcall, GrowthSafe, hmm, List.forall_mem_singleton]
  by_cases hid : regs.a2.toInt ≤ 0
  · rw [incVmaLimit_heap h hid]
    by_cases hover : validateOverlapVmArea proc.mm regs.a2.toInt (toInt brk)
        (toInt (toULong (brk + pagingPageAlignsz regs.a3.toInt))) < 0
    · rw [if_pos hover]
      exact iff_of_true ⟨-1, proc, rfl, id⟩ ⟨hid, Or.inl hover⟩
    · rw [if_neg hover, grow_safe_iff h hdvd]
      constructor
      · intro hsafe
        exact ⟨hid, Or.inr hsafe⟩
      · rintro ⟨-, hover' | hsafe⟩
        · exact absurd hover' hover
        · exact hsafe
  · have hnone : incVmaLimit proc regs.a2.toInt regs.a3.toInt = none := by
      simp [incVmaLimit, getVmaByNum_heap_pos h (not_le.mp hid)]
    simp [hnone, hid]

end Growth

/-! ### Every reachable state -/

/-- Every process has one area with its break on a page boundary, and both devices
are of the random access kind. -/
def Standing (s : MemSys ι) : Prop :=
  (∀ p, ∃ brk fr, HeapIs (s.mm p) brk fr ∧ 256 ∣ brk) ∧ ∀ d, (s.dev d).rdmflg = true

theorem standing_reachable [DecidableEq ι] {ramSize swapSize : ℕ} {s : MemSys ι}
    {ok : MemSys ι → ι × MemOp → Prop} (h : MemReachable ramSize swapSize ok s) : Standing s := by
  apply MemReachable.invariant Standing _ _ h
  · refine ⟨fun p => ⟨0, _, heapIs_fresh, by simp⟩, fun d => ?_⟩
    cases d <;> rfl
  · rintro s p op ret proc ⟨hheaps, hrandom⟩ - hcall
    obtain ⟨brk, fr, hheap, hdvd⟩ := hheaps p
    obtain ⟨brk', fr', hkept⟩ := memCall_heapKept hheap hcall
    exact ⟨MemSys.forall_put (I := fun mm => ∃ brk fr, HeapIs mm brk fr ∧ 256 ∣ brk)
      ⟨brk', fr', hkept.heap, hkept.aligned hdvd⟩ hheaps, fun d => (hkept.random d).trans (hrandom d)⟩

/-- In every reachable state and for every three words, the call is safe exactly
for the arguments that do no harm. -/
theorem userCall_safe_iff [DecidableEq ι] {ramSize swapSize : ℕ} {s : MemSys ι}
    (h : MemReachable ramSize swapSize (fun _ _ => True) s) (p : ι) (regs : ScRegs) :
    SafeCall (s.pcb p) regs ↔ SafeArgs (s.pcb p) regs := by
  obtain ⟨hheaps, hrandom⟩ := standing_reachable h
  obtain ⟨brk, fr, hheap, hdvd⟩ := hheaps p
  unfold SafeArgs
  dsimp only
  by_cases hinc : regs.a1.toInt = sysmemIncOp
  · rw [if_pos hinc]
    exact safeCall_inc hheap hdvd hinc
  rw [if_neg hinc, safeCall_cells hrandom hinc]
  by_cases hswp : regs.a1.toInt = sysmemSwpOp
  · rw [if_pos hswp, forall_memmapCells_swp hswp, ← ownFpn_iff, ← ownFpn_iff]
    exact forall₂_and
  rw [if_neg hswp]
  by_cases hio : regs.a1.toInt = sysmemIoRead ∨ regs.a1.toInt = sysmemIoWrite
  · rw [if_pos hio, forall_memmapCells_io hio]
  · rw [if_neg hio]
    unfold memmapCells
    simp [hswp, hio]

/-- A process with one page writes to it by system call 17. -/
theorem userCall_safe_own_frame :
    ∃ s : MemSys Bool, SafeArgs (s.pcb true) ⟨5, 10, 9⟩ ∧ SafeCall (s.pcb true) ⟨5, 10, 9⟩ := by
  obtain ⟨s, hs, hp⟩ := exists_reachable_of_runAll memStep (fun _ _ => True)
    (MemSys.start 1024 1024) [(true, .alloc 100 0)]
    (fun s => decide (pteSlot ((s.mm true).pgd 0) = some (.mram, 0) ∧ (s.dev .mram).maxsz = 1024))
    (by decide +kernel)
  obtain ⟨hslot, hmax⟩ := of_decide_eq_true hp
  have hcell : (s.pcb true).OwnCell (.mram, 10) := by
    refine ⟨⟨by decide, ?_⟩, 0, by decide, hslot⟩
    change (10 : ℤ) < (s.dev .mram).maxsz
    rw [hmax]
    decide
  have hargs : SafeArgs (s.pcb true) ⟨5, 10, 9⟩ := hcell
  exact ⟨s, hargs, (userCall_safe_iff hs true ⟨5, 10, 9⟩).mpr hargs⟩

theorem fresh_of_no_call [DecidableEq ι] {ramSize swapSize : ℕ} {p : ι} {s : MemSys ι}
    (h : MemReachable ramSize swapSize (fun _ label => label.1 ≠ p) s) : s.mm p = .fresh := by
  apply MemReachable.invariant (fun s => s.mm p = .fresh) rfl _ h
  intro s q op ret proc hs hq _
  rw [MemSys.put_mm_other s proc (Ne.symm hq)]
  exact hs

theorem not_ownsFrame_fresh {proc : Pcb} (h : proc.mm = .fresh) (d : Device) (fpn : ℕ) :
    ¬proc.OwnsFrame d fpn := by
  rintro ⟨n, -, hslot⟩
  rw [h] at hslot
  exact absurd (pteSlot_zero.symm.trans hslot) (by simp)

/-- A process that has no page writes to the page of another. -/
theorem userCall_changes_other_process :
    ∃ s : MemSys Bool, MemReachable 1024 1024 (fun _ _ => True) s ∧
      ¬SafeCall (s.pcb false) ⟨5, 10, 9⟩ ∧
      ∃ proc, sysMemmap (s.pcb false) ⟨5, 10, 9⟩ = some (0, ⟨5, 10, 9⟩, proc) ∧
        ((libread (s.pcb true) 0 10).map fun r => r.2.1) = some (some 7) ∧
        ((libread ((s.put false proc).pcb true) 0 10).map fun r => r.2.1) = some (some 9) := by
  obtain ⟨s, hs, hp⟩ := exists_reachable_of_runAll memStep (fun _ label => label.1 ≠ false)
    (MemSys.start 1024 1024) [(true, .alloc 100 0), (true, .write 7 0 10)]
    (fun s => decide (((libread (s.pcb true) 0 10).map fun r => r.2.1) = some (some 7)) &&
      (sysMemmap (s.pcb false) ⟨5, 10, 9⟩).any fun (r : ℤ × ScRegs × Pcb) =>
        decide (r.1 = 0 ∧ r.2.1 = ⟨5, 10, 9⟩ ∧
          ((libread ((s.put false r.2.2).pcb true) 0 10).map fun r => r.2.1) = some (some 9)))
    (by decide +kernel)
  simp only [Bool.and_eq_true, decide_eq_true_eq, Option.any_eq_true] at hp
  obtain ⟨hbefore, ⟨rc, regs, proc⟩, hcall, hrc, hregs, hafter⟩ := hp
  dsimp only at hrc hregs
  rw [hrc, hregs] at hcall
  refine ⟨s, hs.mono fun _ _ _ => trivial, fun hsafe => ?_, proc, hcall, hbefore, hafter⟩
  have hfresh : (s.pcb false).mm = .fresh := fresh_of_no_call hs
  have hcell := (safeCall_iff.mp hsafe).1
  rw [forall_memmapCells_io (Or.inr (by decide))] at hcell
  exact not_ownsFrame_fresh hfresh _ _ hcell.2

end OsSim.Mem
