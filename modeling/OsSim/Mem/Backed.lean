import OsSim.Mem.Allocator
import OsSim.Mem.Frames

/-!
# Allocations backed by memory

Runs of all the calls in which every growth by `__alloc` finds frames that an
entry can number, no growth shrinks the heap, and every page fault evicts a
resident page. In them each recorded region lies in the heap of its process, and
each page of a heap has a frame of its own.
-/

namespace OsSim.Mem
open OsSim.Base

variable {ι : Type}

/-- The regions of `p` lie in its heap. -/
structure HeapInv (s : MemSys ι) (p : ι) (pages : ℕ) (fr : List VmRg) : Prop where
  proc : ProcInv s p pages fr
  free_in : ∀ rg ∈ fr, RgIn (256 * pages) rg
  sym_in : ∀ i < 30, RgIn (256 * pages) ((s.mm p).symrgtbl i)

structure BackedInv (s : MemSys ι) : Prop where
  frames : FramesInv s
  heap : ∀ p, ∃ pages fr, HeapInv s p pages fr

theorem HeapInv.bound {s : MemSys ι} {p : ι} {pages : ℕ} {fr : List VmRg}
    (h : HeapInv s p pages fr) : 256 * pages < 2147483648 := by
  have hmax := h.proc.le_max
  omega

theorem heapInv_start (ramSize swapSize : ℕ) (p : ι) :
    HeapInv (.start ramSize swapSize) p 0 [⟨0, 0⟩] := by
  refine ⟨procInv_start ramSize swapSize p, fun rg hrg => ?_, fun i _ => ⟨le_rfl, le_rfl⟩⟩
  obtain rfl := List.mem_singleton.mp hrg
  exact ⟨le_rfl, le_rfl⟩

theorem backedInv_start (ramSize swapSize : ℕ) :
    BackedInv (MemSys.start ramSize swapSize : MemSys ι) where
  frames := framesInv_start ramSize swapSize
  heap p := ⟨0, [⟨0, 0⟩], heapInv_start ramSize swapSize p⟩

/-! ### The conditions -/

/-- A growth by `__alloc` does not shrink the heap and finds frames that an entry
can number. -/
def Served (dev : Devices) (size : ℤ) : Prop :=
  0 ≤ pagingPageAlignsz size ∧ allocPages size ≤ (dev .mram).freeFpList.length ∧
    ∀ f ∈ (dev .mram).freeFpList.take (allocPages size), f < 8192

instance (dev : Devices) (size : ℤ) : Decidable (Served dev size) :=
  inferInstanceAs (Decidable (_ ∧ _ ∧ _))

theorem Served.growthServed {s : MemSys ι} {p : ι} {pages : ℕ} {fr : List VmRg} {size : ℤ}
    (h : Served s.dev size) (hs : FramesInv s) (hp : ProcInv s p pages fr) :
    GrowthFits s.dev (pagingPageAlignsz size) ∧ GrowthServed (s.pcb p) pages size := by
  obtain ⟨haligned, henough, hfit⟩ := h
  have hfits : GrowthFits s.dev (pagingPageAlignsz size) :=
    ⟨by rw [pagingPageAlignsz_idem haligned]; exact haligned, fun _ => hfit⟩
  have hle : pages + allocPages size ≤ 8192 := hp.grown_le hs hfits henough
  exact ⟨hfits, haligned, henough, by omega, inPgd_of_le (by omega)⟩

/-- If the page is absent, the oldest page of `fifo_pgn` is resident and the swap
frame taken can be numbered by an entry. -/
def FaultServed (s : MemSys ι) (p : ι) (rgid offset : ℤ) : Prop :=
  0 ≤ rgid → rgid < 30 →
    pagingPagePresent ((s.mm p).pgd (pagingPgn ((s.pcb p).accessAddr rgid offset))) = false →
    (∀ vic ∈ (s.mm p).fifoPgn.getLast?, ResidentPte ((s.mm p).pgd vic)) ∧
      ∀ f ∈ (s.dev .activeMswp).freeFpList.head?, f < 2097152

def Backable (s : MemSys ι) (label : ι × MemOp) : Prop :=
  match label.2 with
  | .alloc size _ =>
    getFreeVmrgArea (s.mm label.1) 0 size.toInt = some none → Served s.dev size.toInt
  | .free _ => True
  | .read source offset => FaultServed s label.1 source.toInt offset.toInt
  | .write _ destination offset => FaultServed s label.1 destination.toInt offset.toInt
  | .memmap regs => regs.a1.toInt = sysmemIncOp → GrowthFits s.dev regs.a3.toInt

/-- What a `liballoc` by `p` that returns 0 and leads from `s` to `t` owes. -/
structure BackedAlloc (s t : MemSys ι) (p : ι) (size rgid : ℕ) : Prop where
  region : ∃ start, (t.mm p).symrgtbl rgid = ⟨start, start + size⟩
  area : ∃ v, (t.mm p).mmap = [v] ∧ v.vmStart ≤ ((t.mm p).symrgtbl rgid).rgStart ∧
    ((t.mm p).symrgtbl rgid).rgEnd ≤ v.vmEnd ∧ v.vmEnd = v.sbrk ∧
    ∀ v0 ∈ (s.mm p).mmap, v0.sbrk ≤ v.sbrk
  backed : ∀ n, pagingPagesz * n < ((t.mm p).symrgtbl rgid).rgEnd →
    ((t.mm p).symrgtbl rgid).rgStart < pagingPagesz * (n + 1) → n < pagingMaxPgn ∧
      ∃ slot, t.own (p, n) = some slot ∧ slot.2 < frameCount (t.dev slot.1) ∧
        ¬isFree t.dev slot ∧ ∀ x, t.own x = some slot → x = (p, n)

/-! ### What one call keeps -/

variable [DecidableEq ι]

/-- The caller keeps its invariant, and frames only leave the free list. -/
structure Kept (s : MemSys ι) (p : ι) (proc : Pcb) (pages : ℕ) (fr : List VmRg) : Prop where
  frames : FramesInv (s.put p proc)
  heap : HeapInv (s.put p proc) p pages fr
  free_le : (proc.dev .mram).freeFpList.length ≤ (s.dev .mram).freeFpList.length
  count : frameCount (proc.dev .mram) = frameCount (s.dev .mram)

theorem HeapInv.put_other {s : MemSys ι} {p q : ι} {proc : Pcb} {pages pages' : ℕ}
    {fr fr' : List VmRg} (hq : HeapInv s q pages' fr') (hqp : q ≠ p)
    (hkept : Kept s p proc pages fr) : HeapInv (s.put p proc) q pages' fr' := by
  refine ⟨hq.proc.put_other hqp hkept.free_le hkept.count, hq.free_in, ?_⟩
  rw [s.put_mm_other proc hqp]
  exact hq.sym_in

theorem BackedInv.put {s : MemSys ι} (h : BackedInv s) {p : ι} {proc : Pcb} {pages : ℕ}
    {fr : List VmRg} (hkept : Kept s p proc pages fr) : BackedInv (s.put p proc) := by
  refine ⟨hkept.frames, fun q => ?_⟩
  by_cases hqp : q = p
  · subst hqp
    exact ⟨pages, fr, hkept.heap⟩
  · obtain ⟨pages', fr', hq⟩ := h.heap q
    exact ⟨pages', fr', hq.put_other hqp hkept⟩

section Caller
variable {s : MemSys ι} {p : ι} {pages : ℕ} {fr : List VmRg}

theorem access_kept (hs : FramesInv s) (hp : HeapInv s p pages fr) {proc : Pcb}
    (hmm : proc.mm = s.mm p) (hdev : ∀ d, SameShape (s.dev d) (proc.dev d)) :
    Kept s p proc pages fr := by
  obtain ⟨hframes, hproc⟩ := access_inv hs hp.proc hmm hdev
  refine ⟨hframes, ⟨hproc, hp.free_in, ?_⟩, (hdev .mram).freeFpList ▸ le_rfl,
    frameCount_shape (hdev .mram)⟩
  rw [s.put_mm_self, hmm]
  exact hp.sym_in

theorem ready_inv (hs : FramesInv s) (hp : ProcInv s p pages fr) {size : ℤ}
    (hserved : takeFit size fr = none → Served s.dev size) {mid : Pcb} {pages' : ℕ}
    {fr' : List VmRg} (hready : Ready (s.pcb p) pages fr size mid pages' fr') :
    FramesInv (s.put p mid) ∧ ProcInv (s.put p mid) p pages' fr ∧
      frameCount (mid.dev .mram) = frameCount (s.dev .mram) := by
  cases hready with
  | fits =>
    rw [MemSys.put_pcb]
    exact ⟨hs, hp, rfl⟩
  | grown hfit =>
    have h := hserved hfit
    have hfits := (h.growthServed hs hp).1
    exact ⟨framesInv_growTo hs _ _ (hfits.2 h.2.1) h.2.1, procInv_growTo hs hp hfits h.2.1,
      frameCount_growTo s p _ _ _ .mram⟩

section Ready
variable {size : ℤ} (hserved : takeFit size fr = none → Served s.dev size) {mid : Pcb} {pages' : ℕ}
  {fr' : List VmRg} (hready : Ready (s.pcb p) pages fr size mid pages' fr')
include hserved hready

theorem ready_kept (hs : FramesInv s) (hp : HeapInv s p pages fr) {proc : Pcb} {rest : List VmRg}
    (hpgd : proc.mm.pgd = mid.mm.pgd) (hdev : proc.dev = mid.dev)
    (hheap : HeapIs proc.mm (256 * pages') rest) (hin : ∀ rg ∈ rest, RgIn (256 * pages') rg)
    (hsym : ∀ i < 30, RgIn (256 * pages') (proc.mm.symrgtbl i)) : Kept s p proc pages' rest := by
  obtain ⟨hframes, hproc, hcount⟩ := ready_inv hs hp.proc hserved hready
  obtain ⟨hframes', hproc'⟩ := relabel_inv proc hframes hproc hpgd hdev hheap
  have hlen := hready.frames
  have hle := hready.pages_le
  have hfew : mid.freeFrames.length ≤ (s.pcb p).freeFrames.length := by omega
  refine ⟨hframes', ⟨hproc', hin, ?_⟩, hdev ▸ hfew, hdev ▸ hcount⟩
  rw [s.put_mm_self]
  exact hsym

theorem placed_kept (hs : FramesInv s) (hp : HeapInv s p pages fr) (hsize : -2147483648 ≤ size)
    (hsize' : size < 2147483648) (rgid : ℤ) {rgnode : VmRg} {rest : List VmRg}
    (hfit : takeFit size fr' = some (rgnode, rest)) :
    Kept s p (mid.place (256 * pages') rest rgid rgnode) pages' rest := by
  have hmax := (ready_inv hs hp.proc hserved hready).2.1.le_max
  obtain ⟨-, -, hrg, hrest⟩ := takeFit_in (show 256 * pages' < 2147483648 by omega) hsize hsize'
    (hready.free_in hp.free_in) hfit
  refine ready_kept hserved hready hs hp rfl rfl rfl hrest fun i hi => ?_
  simp only [Pcb.place, hready.symrgtbl, Function.update_apply]
  split_ifs
  · exact hrg
  · exact (hp.sym_in i hi).mono (Nat.mul_le_mul_left _ hready.pages_le)

theorem refused_kept (hs : FramesInv s) (hp : HeapInv s p pages fr) :
    Kept s p (mid.withFree (256 * pages') fr') pages' fr' := by
  refine ready_kept hserved hready hs hp rfl rfl rfl (hready.free_in hp.free_in) fun i hi => ?_
  simp only [Pcb.withFree, hready.symrgtbl]
  exact (hp.sym_in i hi).mono (Nat.mul_le_mul_left _ hready.pages_le)

end Ready

theorem alloc_kept (hs : FramesInv s) (hp : HeapInv s p pages fr) {rgid size rc : ℤ}
    (hsize : -2147483648 ≤ size) (hsize' : size < 2147483648)
    (hserved : takeFit size fr = none → Served s.dev size) {proc : Pcb}
    (hstep : AllocStep (s.pcb p) pages fr rgid size rc proc) :
    ∃ pages' fr', pages ≤ pages' ∧ Kept s p proc pages' fr' := by
  cases hstep with
  | placed hready _ _ hfit =>
    exact ⟨_, _, hready.pages_le, placed_kept hserved hready hs hp hsize hsize' rgid hfit⟩
  | refused hready _ => exact ⟨_, _, hready.pages_le, refused_kept hserved hready hs hp⟩

theorem freed_kept (hs : FramesInv s) (hp : HeapInv s p pages fr) {r : ℕ} (hr : r < 30) :
    Kept s p ((s.pcb p).withFree (256 * pages) ((s.mm p).symrgtbl r :: fr)) pages
      ((s.mm p).symrgtbl r :: fr) := by
  have hsame : Kept s p (s.pcb p) pages fr := access_kept hs hp rfl fun _ => .refl _
  obtain ⟨hframes, hproc⟩ := relabel_inv
    ((s.pcb p).withFree (256 * pages) ((s.mm p).symrgtbl r :: fr)) hsame.frames hsame.heap.proc
    rfl rfl rfl
  refine ⟨hframes, ⟨hproc, fun rg hmem => ?_, ?_⟩, le_rfl, rfl⟩
  · rcases List.mem_cons.mp hmem with rfl | hmem
    · exact hp.sym_in r hr
    · exact hp.free_in rg hmem
  · rw [s.put_mm_self]
    exact hp.sym_in

omit [DecidableEq ι] in
theorem libfree_eq (hp : HeapInv s p pages fr) (regIndex : BitVec 32) :
    libfree (s.pcb p) regIndex =
      if regIndex.toNat < 30 ∧ ((s.mm p).symrgtbl regIndex.toNat).rgStart <
          ((s.mm p).symrgtbl regIndex.toNat).rgEnd then
        some (0, (s.pcb p).withFree (256 * pages) ((s.mm p).symrgtbl regIndex.toNat :: fr))
      else some (-1, s.pcb p) := by
  have hheap : HeapIs (s.pcb p).mm (256 * pages) fr := hp.proc.heap
  have hint := BitVec.toInt_eq_toNat_cond regIndex
  by_cases hid : regIndex.toNat < 30
  · have hreg : regIndex.toInt = regIndex.toNat := BitVec.toInt_eq_toNat_of_lt (by omega)
    have hfreed : (s.pcb p).freedRg regIndex.toNat = (s.mm p).symrgtbl regIndex.toNat := by
      simp only [Pcb.freedRg, Int.toNat_natCast]
      exact (hp.sym_in _ hid).initVmRg_eq hp.bound
    rw [libfree, hreg, free_eq hheap (by omega) (by omega), hfreed]
    by_cases hempty : ((s.mm p).symrgtbl regIndex.toNat).rgEnd ≤
        ((s.mm p).symrgtbl regIndex.toNat).rgStart
    · rw [if_pos hempty, if_neg fun hlt => absurd hlt.2 (not_lt.mpr hempty)]
    · rw [if_neg hempty, if_pos ⟨hid, not_le.mp hempty⟩]
  · rw [if_neg fun hlt => hid hlt.1, libfree, free_outside]
    split_ifs at hint <;> omega

theorem free_kept (hs : FramesInv s) (hp : HeapInv s p pages fr) {regIndex : BitVec 32} {rc : ℤ}
    {proc : Pcb} (hcall : libfree (s.pcb p) regIndex = some (rc, proc)) :
    ∃ fr', Kept s p proc pages fr' := by
  rw [libfree_eq hp] at hcall
  split_ifs at hcall with hid <;> simp only [Option.some.injEq, Prod.mk.injEq] at hcall
  · exact ⟨_, hcall.2 ▸ freed_kept hs hp hid.1⟩
  · exact ⟨fr, hcall.2 ▸ access_kept hs hp rfl fun _ => .refl _⟩

theorem page_kept (hs : FramesInv s) (hp : HeapInv s p pages fr) {rgid offset : ℤ}
    (hok : FaultServed s p rgid offset) {proc : Pcb}
    (hstep : AccessStep (s.pcb p) rgid offset proc) : Kept s p proc pages fr := by
  cases hstep with
  | refused heq =>
    subst heq
    exact access_kept hs hp rfl fun _ => .refl _
  | page h0 h30 hpage =>
    cases hpage with
    | hit _ hmm hdev => exact access_kept hs hp hmm hdev
    | fault vic swpfpn older frames habsent hfifo hfree hmm hram hmswp =>
      obtain ⟨hvic, hswp⟩ := hok h0 h30 habsent
      have hlast : (s.mm p).fifoPgn.getLast? = some vic := by
        rw [show (s.mm p).fifoPgn = older ++ [vic] from hfifo, List.getLast?_concat]
      have hhead : (s.dev .activeMswp).freeFpList.head? = some swpfpn := by
        rw [show (s.dev .activeMswp).freeFpList = swpfpn :: frames from hfree, List.head?_cons]
      obtain ⟨hframes, hproc⟩ := fault_inv hs habsent (hvic vic hlast)
        (hswp swpfpn hhead) hfree hmm hram hmswp hp.proc
      refine ⟨hframes, ⟨hproc, hp.free_in, ?_⟩, hram.freeFpList ▸ le_rfl, frameCount_shape hram⟩
      rw [s.put_mm_self, hmm]
      exact hp.sym_in

theorem memmap_kept (hs : FramesInv s) (hp : HeapInv s p pages fr) {regs regs' : ScRegs} {rc : ℤ}
    (hok : regs.a1.toInt = sysmemIncOp → GrowthFits s.dev regs.a3.toInt) {proc : Pcb}
    (hcall : sysMemmap (s.pcb p) regs = some (rc, regs', proc)) :
    ∃ pages', Kept s p proc pages' fr := by
  rcases sysMemmap_step hcall with ⟨hinc, rc', hgrow⟩ | ⟨-, hmm, hdev⟩
  · have hfits := hok hinc
    have hheap : HeapIs (s.pcb p).mm (256 * pages) fr := hp.proc.heap
    rcases incVmaLimit_cases hheap hgrow with rfl | hgrow
    · exact ⟨pages, access_kept hs hp rfl fun _ => .refl _⟩
    rcases grow_cases hs hp.proc hfits with ⟨-, heq⟩ | ⟨hn, heq⟩
    · obtain ⟨-, rfl⟩ := Prod.mk.inj (Option.some.inj (heq.symm.trans hgrow))
      obtain ⟨hframes, hproc⟩ := growShort_inv hs hp.proc
      refine ⟨pages, hframes, ⟨hproc, hp.free_in, ?_⟩, Nat.zero_le _, rfl⟩
      rw [s.put_mm_self]
      exact hp.sym_in
    · obtain ⟨-, rfl⟩ := Prod.mk.inj (Option.some.inj (heq.symm.trans hgrow))
      have hle : 256 * pages ≤ 256 * (pages + growthPages regs.a3.toInt) :=
        Nat.mul_le_mul_left _ (Nat.le_add_right ..)
      refine ⟨pages + growthPages regs.a3.toInt, framesInv_growTo hs _ _ (hfits.2 hn) hn,
        ⟨procInv_growTo hs hp.proc hfits hn, fun rg hrg => (hp.free_in rg hrg).mono hle, ?_⟩, ?_,
        frameCount_growTo s p _ _ _ .mram⟩
      · rw [s.put_mm_self]
        exact fun i hi => (hp.sym_in i hi).mono hle
      · rw [growTo_dev, Function.update_self, List.length_drop]
        exact Nat.sub_le _ _
  · exact ⟨pages, access_kept hs hp hmm hdev⟩

end Caller

/-! ### Runs -/

theorem memCall_backed {s : MemSys ι} {p : ι} {op : MemOp} (h : BackedInv s)
    (hok : Backable s (p, op)) {ret : MemRet} {proc : Pcb}
    (hcall : memCall (s.pcb p) op = some (ret, proc)) : BackedInv (s.put p proc) := by
  obtain ⟨pages, fr, hp⟩ := h.heap p
  cases memCall_step hcall with
  | @alloc size regIndex rc addr halloc =>
    have hserved : takeFit size.toInt fr = none → Served s.dev size.toInt :=
      fun hfit => hok ((getFreeVmrgArea_none hp.proc.heap).mpr hfit)
    have hheap : HeapIs (s.pcb p).mm (256 * pages) fr := hp.proc.heap
    have hstep := alloc_step hheap
      (fun hfit => ((hserved hfit).growthServed h.frames hp.proc).2) halloc
    have hrange := bitVec_toInt_range size
    obtain ⟨pages', fr', -, hkept⟩ := alloc_kept h.frames hp hrange.1 hrange.2 hserved hstep
    exact h.put hkept
  | free hfree =>
    obtain ⟨fr', hkept⟩ := free_kept h.frames hp hfree
    exact h.put hkept
  | read hstep => exact h.put (page_kept h.frames hp hok hstep)
  | write hstep => exact h.put (page_kept h.frames hp hok hstep)
  | memmap hsys =>
    obtain ⟨pages', hkept⟩ := memmap_kept h.frames hp hok hsys
    exact h.put hkept

theorem backedInv_reachable {ramSize swapSize : ℕ} {s : MemSys ι}
    (h : MemReachable ramSize swapSize Backable s) : BackedInv s :=
  h.invariant BackedInv (backedInv_start ramSize swapSize)
    fun _ _ _ _ _ hinv hok hcall => memCall_backed hinv hok hcall

theorem backedAlloc_of_placed {s : MemSys ι} {p : ι} {pages pages' : ℕ} {fr fr' : List VmRg}
    (hp : HeapInv s p pages fr) {proc : Pcb} (hkept : Kept s p proc pages' fr') (hle : pages ≤ pages')
    {size rgid : ℕ} (hid : rgid < 30)
    (hrg : ∃ start, proc.mm.symrgtbl rgid = ⟨start, start + size⟩) :
    BackedAlloc s (s.put p proc) p size rgid := by
  have hin := hkept.heap.sym_in rgid hid
  have hheap := hkept.heap.proc.heap
  have hmax := hkept.heap.proc.le_max
  refine ⟨by rw [s.put_mm_self]; exact hrg, ⟨_, hheap, Nat.zero_le _, hin.2, rfl, fun v hv => ?_⟩,
    fun n hn _ => ?_⟩
  · rw [show (s.mm p).mmap = _ from hp.proc.heap, List.mem_singleton] at hv
    subst hv
    exact Nat.mul_le_mul_left _ hle
  · have hlt : 256 * n < 256 * pages' := hn.trans_le hin.2
    have hpage : n < pages' := by omega
    obtain ⟨slot, hslot⟩ := Option.ne_none_iff_exists'.mp (hkept.heap.proc.mapped n hpage)
    refine ⟨hpage.trans_le (hmax.trans (by norm_num)), slot, hslot, hkept.frames.inside hslot,
      hkept.frames.owns.busy hslot, fun x hx => hkept.frames.owns.alone hx hslot⟩

/-- In every run that meets the conditions, a `liballoc` that meets them too is
defined, and when it returns 0 its region is backed by memory. -/
theorem liballoc_backed {ramSize swapSize : ℕ} {s : MemSys ι}
    (h : MemReachable ramSize swapSize Backable s) (p : ι) {size regIndex : BitVec 32}
    (hsize : 1 ≤ size.toNat) (hid : regIndex.toNat < 30)
    (hok : Backable s (p, .alloc size regIndex)) :
    ∃ rc proc, liballoc (s.pcb p) size regIndex = some (rc, proc) ∧
      (rc = 0 → BackedAlloc s (s.put p proc) p size.toNat regIndex.toNat) := by
  have hinv := backedInv_reachable h
  obtain ⟨pages, fr, hp⟩ := hinv.heap p
  have hreg : regIndex.toInt = regIndex.toNat := BitVec.toInt_eq_toNat_of_lt (by omega)
  obtain ⟨hlow, hhigh⟩ := bitVec_toInt_range size
  have hserved : takeFit size.toInt fr = none → Served s.dev size.toInt :=
    fun hfit => hok ((getFreeVmrgArea_none hp.proc.heap).mpr hfit)
  have hheap : HeapIs (s.pcb p).mm (256 * pages) fr := hp.proc.heap
  have hgrowth := fun hfit => ((hserved hfit).growthServed hinv.frames hp.proc).2
  obtain ⟨rc, addr, proc, hcall, -⟩ := alloc_returns hheap hgrowth
    (show 0 ≤ regIndex.toInt by omega) (by omega) hhigh
  refine ⟨rc, proc, by simp only [liballoc, hcall, Option.map_some], fun hrc => ?_⟩
  have hstep := alloc_step hheap hgrowth hcall
  obtain ⟨pages', fr', hle, hkept⟩ := alloc_kept hinv.frames hp hlow hhigh hserved hstep
  refine backedAlloc_of_placed hp hkept hle hid ?_
  cases hstep with
  | @placed mid _ fr1 rest rgnode hready _ _ hfit =>
    have hproc := (ready_inv hinv.frames hp.proc hserved hready).2.1
    have hmax := hproc.le_max
    obtain ⟨hpos, hend, -⟩ := takeFit_in (by omega) hlow hhigh (hready.free_in hp.free_in) hfit
    have hnat : size.toInt = size.toNat := by
      rw [BitVec.toInt_eq_toNat_cond] at hpos ⊢
      split_ifs at hpos ⊢ <;> omega
    refine ⟨rgnode.rgStart, ?_⟩
    simp only [Pcb.place, hreg, Int.toNat_natCast, Function.update_self]
    rw [hnat, Int.toNat_natCast] at hend
    rw [← hend]
  | refused => simp at hrc

/-- One process has two of the four frames when another asks for two pages. -/
theorem liballoc_backed_two_processes :
    ∃ s : MemSys Bool, (s.mm false).symrgtbl 0 = ⟨0, 300⟩ ∧
      ∃ rc proc, liballoc (s.pcb true) 512 0 = some (rc, proc) ∧
        (rc = 0 → BackedAlloc s (s.put true proc) true 512 0) := by
  have hfirst : Backable (MemSys.start 1024 256) (false, .alloc 300 0) :=
    fun _ => (by decide +kernel : Served (MemSys.start 1024 256 : MemSys Bool).dev (300#32).toInt)
  have hrun : (memStep (MemSys.start 1024 256) (false, .alloc 300 0)).any (fun s =>
      decide ((s.mm false).symrgtbl 0 = ⟨0, 300⟩) && decide (Served s.dev (512#32).toInt)) = true := by
    decide +kernel
  obtain ⟨s, hs, hprop⟩ := (Option.any_eq_true _ _).mp hrun
  obtain ⟨hregion, hserved⟩ := Bool.and_eq_true_iff.mp hprop
  have hreach : MemReachable 1024 256 Backable s := .step (.init rfl) hfirst hs
  exact ⟨s, of_decide_eq_true hregion, liballoc_backed hreach true (by decide) (by decide)
    fun _ => of_decide_eq_true hserved⟩

/-- One frame and a request for two pages: the growth fails, `vm_end` stays 0, and
`liballoc` hands out 512 bytes. -/
theorem liballoc_without_memory :
    ∃ s : MemSys Unit, MemReachable 256 256 (fun _ _ => True) s ∧
      ∃ proc, liballoc (s.pcb ()) 512 0 = some (0, proc) ∧
        ¬BackedAlloc s (s.put () proc) () 512 0 := by
  have hrun : (liballoc ((MemSys.start 256 256 : MemSys Unit).pcb ()) 512 0).any (fun r =>
      decide (r.1 = 0) && r.2.mm.mmap.all fun v => decide (v.vmEnd < (r.2.mm.symrgtbl 0).rgEnd)) =
        true := by
    decide +kernel
  obtain ⟨⟨rc, proc⟩, hcall, hprop⟩ := (Option.any_eq_true _ _).mp hrun
  obtain ⟨hrc, hend⟩ := Bool.and_eq_true_iff.mp hprop
  obtain rfl : rc = 0 := of_decide_eq_true hrc
  refine ⟨_, .init rfl, proc, hcall, fun hbacked => ?_⟩
  obtain ⟨v, hv, -, hle, -⟩ := hbacked.area
  rw [MemSys.put_mm_self] at hv hle
  have hlt := List.all_eq_true.mp hend v (hv ▸ List.mem_singleton_self v)
  exact absurd hle (not_le.mpr (of_decide_eq_true hlt))

end OsSim.Mem
