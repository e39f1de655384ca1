import OsSim.Mem.Bounds

/-!
# Growths that run out of frames

When `mram` has fewer free frames than a growth needs, `alloc_pages_range` keeps
the frames it popped (`mm.c:160-170`) and `__sys_memmap` drops the error
(`sys_mem.c:26-28`), so `__alloc` enlists and hands out a region without memory.
`inc_vma_limit` leaves no trace exactly when there was no frame to lose, and
`liballoc` never reports the failure.
-/

namespace OsSim.Mem
open OsSim.Base

variable {ι : Type}

/-- Processes after `init_mm` over any devices, whatever `malloc` left, and all
their calls. -/
def anySystem [DecidableEq ι] : System (MemSys ι) (ι × MemOp) where
  init s := ∀ p, ∃ pgd symrgtbl fifoPgn, s.mm p = initMm pgd symrgtbl fifoPgn
  next s label t := memStep s label = some t

theorem MemReachable.any [DecidableEq ι] {ramSize swapSize : ℕ} {ok : MemSys ι → ι × MemOp → Prop}
    {s : MemSys ι} (h : MemReachable ramSize swapSize ok s) :
    Reachable anySystem (fun _ _ => True) s := by
  have hall : Reachable (System.ofStep (.start ramSize swapSize) memStep) (fun _ _ => True) s :=
    Reachable.mono (fun _ _ _ => trivial) h
  have hinit : ∀ s0, (System.ofStep (.start ramSize swapSize) memStep).init s0 →
      (anySystem : System (MemSys ι) (ι × MemOp)).init s0 := by
    intro s0 h0 p
    obtain rfl : s0 = .start ramSize swapSize := h0
    exact ⟨_, _, _, rfl⟩
  exact hall.mono_system hinit fun _ _ _ => id

theorem anySystem_heapIs [DecidableEq ι] {s : MemSys ι}
    (h : Reachable anySystem (fun _ _ => True) s) : OneArea s :=
  Reachable.invariant OneArea (fun _ => oneArea_init)
    (fun _ _ _ hs _ hnext => memStep_oneArea hs hnext) h

/-- `inc_vma_limit` reports an error and the process and its devices are as they
were. -/
def IncLeavesNoTrace (proc : Pcb) (incSz : ℤ) : Prop :=
  ∃ rc, incVmaLimit proc 0 incSz = some (rc, proc) ∧ rc < 0

/-- `liballoc` reports an error and the process and its devices are as they were. -/
def AllocLeavesNoTrace (proc : Pcb) (size regIndex : BitVec 32) : Prop :=
  ∃ rc, liballoc proc size regIndex = some (rc, proc) ∧ rc ≠ 0

/-- The pages a growth by `incSz > 0` bytes needs. -/
def pagesNeeded (incSz : ℤ) : ℕ := ((incSz + 255) / 256).toNat

theorem growthPages_eq_needed {incSz : ℤ} (h0 : 0 < incSz) (h : incSz ≤ 2147483392) :
    growthPages incSz = pagesNeeded incSz := by
  have hmul : (256 * growthPages incSz : ℤ) = pagingPageAlignsz incSz :=
    growthPages_mul (by rw [pagingPageAlignsz_eq h0.le h]; omega)
  rw [pagingPageAlignsz_eq h0.le h] at hmul
  rw [pagesNeeded]
  omega

theorem growthPages_eq_zero {incSz : ℤ} (h : pagingPageAlignsz incSz ≤ 0) :
    growthPages incSz = 0 := by
  have hneg : 0 ≤ (-pagingPageAlignsz incSz).tdiv 256 := Int.tdiv_nonneg (by omega) (by norm_num)
  rw [Int.neg_tdiv] at hneg
  rw [growthPages]
  exact Int.toNat_of_nonpos (by push_cast; omega)

theorem growShort_eq_self_iff {proc : Pcb} {brk : ℕ} {fr : List VmRg}
    (h : HeapIs proc.mm brk fr) : proc.growShort brk fr = proc ↔
      proc.freeFrames = [] ∧ toULong (toInt brk) = brk := by
  have hmm : proc.mm.mmap = [⟨0, 0, brk, brk, fr⟩] := h
  constructor
  · intro heq
    have hdev := congrArg (fun q : Pcb => q.freeFrames) heq
    have hmap := congrArg (fun q : Pcb => q.mm.mmap) heq
    simp only [Pcb.growShort, hmm, List.cons.injEq, VmArea.mk.injEq] at hmap
    exact ⟨by rw [← hdev]; rfl, hmap.1.2.2.1⟩
  · rintro ⟨hfree, hbrk⟩
    have hdev : ({ proc.dev .mram with freeFpList := [] } : MemphyStruct) = proc.dev .mram := by
      rw [← hfree]
      rfl
    rw [Pcb.growShort, hbrk, ← hmm, hdev, Function.update_eq_self]

theorem incLeavesNoTrace_iff {proc : Pcb} {brk : ℕ} {fr : List VmRg} (h : HeapIs proc.mm brk fr)
    {incSz : ℤ} (h0 : 0 < incSz) (hmax : incSz < 2147483648)
    (hshort : proc.freeFrames.length < pagesNeeded incSz) :
    IncLeavesNoTrace proc incSz ↔
      proc.freeFrames = [] ∧ incSz ≤ 2147483392 ∧ toULong (toInt brk) = brk := by
  rw [IncLeavesNoTrace, incVmaLimit_zero h, Pcb.grow]
  by_cases hbig : incSz ≤ 2147483392
  · rw [if_pos (by rw [growthPages_eq_needed h0 hbig]; exact hshort)]
    constructor
    · rintro ⟨rc, heq, -⟩
      simp only [Option.some.injEq, Prod.mk.injEq] at heq
      obtain ⟨hfree, hbrk⟩ := (growShort_eq_self_iff h).mp heq.2
      exact ⟨hfree, hbig, hbrk⟩
    · rintro ⟨hfree, -, hbrk⟩
      exact ⟨-1, by rw [(growShort_eq_self_iff h).mpr ⟨hfree, hbrk⟩], by norm_num⟩
  · have hn := growthPages_eq_zero (pagingPageAlignsz_neg (not_le.mp hbig) hmax).le
    rw [if_neg (by omega), if_pos (Or.inl hn)]
    constructor
    · rintro ⟨rc, heq, hneg⟩
      simp only [Option.some.injEq, Prod.mk.injEq] at heq
      omega
    · rintro ⟨-, hle, -⟩
      exact absurd hle hbig

/-- A `liballoc` whose growth runs out of frames succeeds all the same. -/
theorem alloc_short_rc {proc proc' : Pcb} {brk : ℕ} {fr : List VmRg} (h : HeapIs proc.mm brk fr)
    {size : ℤ} (h0 : 0 < size) (hmax : size < 2147483648) (hfit : takeFit size fr = none)
    (hshort : proc.freeFrames.length < pagesNeeded size) {rgid rc : ℤ} {addr : Option ℤ}
    (hcall : alloc proc 0 rgid size = some (rc, addr, proc')) : rc = 0 := by
  obtain ⟨rc1, mid, hgrow⟩ : ∃ rc1 mid,
      proc.grow brk fr (pagingPageAlignsz size) = some (rc1, mid) := by
    rw [Pcb.grow]
    by_cases hbig : size ≤ 2147483392
    · have hpos : 0 ≤ pagingPageAlignsz size := by
        rw [pagingPageAlignsz_eq h0.le hbig]
        omega
      have hn : growthPages (pagingPageAlignsz size) = pagesNeeded size := by
        rw [growthPages, pagingPageAlignsz_idem hpos, ← growthPages_eq_needed h0 hbig]
        rfl
      exact ⟨_, _, if_pos (by rw [hn]; exact hshort)⟩
    · have hneg := pagingPageAlignsz_neg (not_le.mp hbig) hmax
      have hn := growthPages_eq_zero
        (pagingPageAlignsz_nonpos hneg (pagingPageAlignsz_range size).1)
      exact ⟨_, _, by rw [if_neg (by omega), if_pos (Or.inl hn)]⟩
  obtain ⟨brk', hheap'⟩ := grow_heapIs hgrow
  rw [alloc_grow h hfit hgrow hheap', takeFit_head fr (growthRg_fits brk h0 hmax)] at hcall
  obtain ⟨mm, -, heq⟩ := Option.bind_eq_some_iff.mp hcall
  simp only [Option.some.injEq, Prod.mk.injEq] at heq
  exact heq.1.symm

/-- In every reachable state and for every growth that needs more frames than are
free: `inc_vma_limit` leaves no trace exactly when no frame is free at all, the
increment can be rounded up and `vm_end` survives the conversion to `int`; a
`liballoc` that needs the growth never does. -/
theorem failed_growth_leaves_no_trace_iff [DecidableEq ι] {s : MemSys ι}
    (h : Reachable anySystem (fun _ _ => True) s) (p : ι) {incSz : ℤ} (h0 : 0 < incSz)
    (hmax : incSz < 2147483648)
    (hshort : (s.dev .mram).freeFpList.length < pagesNeeded incSz) :
    (∀ v ∈ (s.mm p).mmap, IncLeavesNoTrace (s.pcb p) incSz ↔
      (s.dev .mram).freeFpList = [] ∧ incSz ≤ 2147483392 ∧ toULong (toInt v.vmEnd) = v.vmEnd) ∧
    ∀ size regIndex : BitVec 32, size.toInt = incSz →
      getFreeVmrgArea (s.mm p) 0 size.toInt = some none →
      ¬AllocLeavesNoTrace (s.pcb p) size regIndex := by
  obtain ⟨brk, fr, hheap⟩ : ∃ brk fr, HeapIs (s.pcb p).mm brk fr := anySystem_heapIs h p
  refine ⟨fun v hv => ?_, fun size regIndex hsize hneeds => ?_⟩
  · rw [show (s.mm p).mmap = _ from hheap, List.mem_singleton] at hv
    rw [incLeavesNoTrace_iff hheap h0 hmax hshort, hv]
    rfl
  · rintro ⟨rc, hcall, hrc⟩
    obtain ⟨⟨rc1, addr, mid⟩, halloc, heq⟩ := Option.map_eq_some_iff.mp hcall
    simp only [Prod.mk.injEq] at heq
    rw [hsize] at halloc hneeds
    have hfit := (getFreeVmrgArea_none hheap).mp hneeds
    exact hrc (heq.1 ▸ alloc_short_rc hheap h0 hmax hfit hshort halloc)

theorem one_frame_reachable :
    Reachable anySystem (fun _ _ => True) (MemSys.start 256 256 : MemSys Unit) :=
  .init fun _ => ⟨_, _, _, rfl⟩

theorem failed_growth_one_frame :
    (∀ v ∈ ((MemSys.start 256 256 : MemSys Unit).mm ()).mmap,
      IncLeavesNoTrace ((MemSys.start 256 256 : MemSys Unit).pcb ()) 512 ↔
        ((MemSys.start 256 256 : MemSys Unit).dev .mram).freeFpList = [] ∧
          (512 : ℤ) ≤ 2147483392 ∧ toULong (toInt v.vmEnd) = v.vmEnd) ∧
    ∀ size regIndex : BitVec 32, size.toInt = 512 →
      getFreeVmrgArea ((MemSys.start 256 256 : MemSys Unit).mm ()) 0 size.toInt = some none →
      ¬AllocLeavesNoTrace ((MemSys.start 256 256 : MemSys Unit).pcb ()) size regIndex :=
  failed_growth_leaves_no_trace_iff one_frame_reachable () (by norm_num) (by norm_num) (by decide)

/-- One free frame and a growth by two pages: `inc_vma_limit` fails and takes the
frame, `liballoc` needs the growth and succeeds. -/
theorem failed_growth_leaks_a_frame :
    ∃ s : MemSys Unit, Reachable anySystem (fun _ _ => True) s ∧
      (s.dev .mram).freeFpList.length < pagesNeeded 512 ∧
      ¬IncLeavesNoTrace (s.pcb ()) 512 ∧
      getFreeVmrgArea (s.mm ()) 0 (512#32).toInt = some none ∧
      ¬AllocLeavesNoTrace (s.pcb ()) 512 0 := by
  refine ⟨.start 256 256, one_frame_reachable, by decide, ?_, ?_, ?_⟩
  · rintro ⟨rc, hcall, -⟩
    have hleft : (incVmaLimit ((MemSys.start 256 256 : MemSys Unit).pcb ()) 0 512).map
        (fun r => r.2.freeFrames) = some [] := by decide +kernel
    rw [hcall] at hleft
    have hfree : ((MemSys.start 256 256 : MemSys Unit).pcb ()).freeFrames = [] :=
      Option.some.inj hleft
    exact absurd hfree (by decide)
  · have hnone : (getFreeVmrgArea ((MemSys.start 256 256 : MemSys Unit).mm ()) 0
        (512#32).toInt).map Option.isNone = some true := by decide +kernel
    obtain ⟨r, hr, hnil⟩ := Option.map_eq_some_iff.mp hnone
    rw [hr, Option.isNone_iff_eq_none.mp hnil]
  · rintro ⟨rc, hcall, hrc⟩
    have hok : (liballoc ((MemSys.start 256 256 : MemSys Unit).pcb ()) 512 0).map Prod.fst =
        some 0 := by decide +kernel
    rw [hcall] at hok
    exact hrc (Option.some.inj hok)

end OsSim.Mem
