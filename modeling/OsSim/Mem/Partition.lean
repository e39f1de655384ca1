import OsSim.Base.Runs
import OsSim.Mem.Allocator

/-!
# The allocator partitions the heap

Runs of `liballoc` and `libfree` beside a record of what is live: the ids that
were given out and the sizes they were asked for. Live and free regions together
are a partition of `[vm_start, sbrk)` as long as no growth runs past the end of
the page directory, which `vmap_page_range` does not check (`mm.c:111-118`).
-/

namespace OsSim.Mem
open OsSim.Base

variable {ι : Type}

/-- The memory and, for every process, the requested size of each live region. -/
structure RegionSys (ι : Type) where
  mem : MemSys ι
  live : ι → ℕ → Option ℕ

/-- What is live after a call that returned 0. -/
def liveAfter (live : ℕ → Option ℕ) : MemOp → ℕ → Option ℕ
  | .alloc size regIndex => Function.update live regIndex.toNat (some size.toNat)
  | .free regIndex => Function.update live regIndex.toNat none
  | _ => live

def regionStep [DecidableEq ι] (s : RegionSys ι) (label : ι × MemOp) : Option (RegionSys ι) :=
  (memCall (s.mem.pcb label.1) label.2).map fun (ret, proc) =>
    ⟨s.mem.put label.1 proc,
      if ret.rc = 0 then
        Function.update s.live label.1 (liveAfter (s.live label.1) label.2)
      else s.live⟩

/-- Processes after `init_mm`, whatever `malloc` left, over any devices; an `mram`
of at most `INT_MAX` bytes has no more frames than this. -/
def regionSystem [DecidableEq ι] : System (RegionSys ι) (ι × MemOp) where
  init s := (∀ p, ∃ pgd symrgtbl fifoPgn, s.mem.mm p = initMm pgd symrgtbl fifoPgn) ∧
    (s.mem.dev .mram).freeFpList.length ≤ 8388607 ∧ ∀ p i, s.live p i = none
  next s label t := regionStep s label = some t

/-- The pages a growth for `size` bytes needs. -/
def sizePages (size : BitVec 32) : ℕ := (size.toNat + 255) / 256

/-- `liballoc` with an id that is not live, a size of 1 to 2^30 bytes and frames
for the growth if it needs one; `libfree` of a live region. -/
def Allowed (s : RegionSys ι) (label : ι × MemOp) : Prop :=
  match label.2 with
  | .alloc size regIndex => regIndex.toNat < 30 ∧ s.live label.1 regIndex.toNat = none ∧
      1 ≤ size.toNat ∧ size.toNat ≤ 1073741824 ∧
      (getFreeVmrgArea (s.mem.mm label.1) 0 size.toInt = some none →
        sizePages size ≤ (s.mem.dev .mram).freeFpList.length)
  | .free regIndex => s.live label.1 regIndex.toNat ≠ none
  | _ => False

/-- A growth from the page of `vm_end` on ends within the page directory. -/
def InPgd (s : RegionSys ι) (label : ι × MemOp) : Prop :=
  match label.2 with
  | .alloc size _ => getFreeVmrgArea (s.mem.mm label.1) 0 size.toInt = some none →
      ∀ v ∈ (s.mem.mm label.1).mmap, pagingPgn (toInt v.vmEnd) + sizePages size ≤ pagingMaxPgn
  | _ => True

/-- The live regions, then the free ones. -/
def RegionSys.regions (s : RegionSys ι) (p : ι) : List VmRg :=
  (List.range 30).flatMap (liveRgs (fun i => (s.live p i).isSome) (s.mem.mm p).symrgtbl) ++
    (s.mem.mm p).mmap.flatMap VmArea.vmFreergList

structure Partitioned (s : RegionSys ι) (p : ι) : Prop where
  size : ∀ {i size}, s.live p i = some size → i < 30 ∧
    ((s.mem.mm p).symrgtbl i).rgEnd = ((s.mem.mm p).symrgtbl i).rgStart + size
  disjoint : (s.regions p).Pairwise fun a b => ∀ x, ¬(a.Has x ∧ b.Has x)
  covers : ∀ x, (∃ rg ∈ s.regions p, rg.Has x) ↔
    ∃ v ∈ (s.mem.mm p).mmap, v.vmStart ≤ x ∧ x < v.sbrk

/-! ### The invariant of one process -/

structure PartInv (mm : Mm) (frames : ℕ) (live : ℕ → Option ℕ) (pages : ℕ) (fr : List VmRg) :
    Prop where
  heap : HeapIs mm (256 * pages) fr
  small : pages + frames ≤ 8388607
  free_in : ∀ rg ∈ fr, RgIn (256 * pages) rg
  live_in : ∀ {i size}, live i = some size → i < 30 ∧ 1 ≤ size ∧
    RgIn (256 * pages) (mm.symrgtbl i) ∧
    (mm.symrgtbl i).rgEnd = (mm.symrgtbl i).rgStart + size
  once : ∀ x, heapCover (fun i => (live i).isSome) mm.symrgtbl fr x =
    cover VmRg.Has [⟨0, 256 * pages⟩] x

theorem partInv_init {pgd : ℕ → BitVec 32} {symrgtbl : ℕ → VmRg} {fifoPgn : List ℕ} {frames : ℕ}
    (h : frames ≤ 8388607) {live : ℕ → Option ℕ} (hlive : ∀ i, live i = none) :
    PartInv (initMm pgd symrgtbl fifoPgn) frames live 0 [⟨0, 0⟩] where
  heap := rfl
  small := by omega
  free_in rg hrg := by
    obtain rfl := List.mem_singleton.mp hrg
    exact ⟨le_rfl, le_rfl⟩
  live_in hi := by simp [hlive] at hi
  once x := by simp [heapCover, liveRgs, hlive]

theorem PartInv.mono {mm : Mm} {frames frames' : ℕ} {live : ℕ → Option ℕ} {pages : ℕ}
    {fr : List VmRg} (h : PartInv mm frames live pages fr) (hle : frames' ≤ frames) :
    PartInv mm frames' live pages fr :=
  ⟨h.heap, by have := h.small; omega, h.free_in, h.live_in, h.once⟩

theorem PartInv.partitioned {s : RegionSys ι} {p : ι} {frames pages : ℕ} {fr : List VmRg}
    (h : PartInv (s.mem.mm p) frames (s.live p) pages fr) : Partitioned s p := by
  have hmm : (s.mem.mm p).mmap = [⟨0, 0, 256 * pages, 256 * pages, fr⟩] := h.heap
  have hcover : ∀ x, cover VmRg.Has (s.regions p) x = cover VmRg.Has [⟨0, 256 * pages⟩] x := by
    intro x
    rw [RegionSys.regions, cover_append, cover_flatMap_range, hmm, List.flatMap_singleton]
    exact h.once x
  refine ⟨fun hi => ⟨(h.live_in hi).1, (h.live_in hi).2.2.2⟩, pairwise_of_cover_le_one _ fun x => ?_,
    fun x => ?_⟩
  · rw [hcover, cover_cons, cover_nil]
    split_ifs <;> omega
  · rw [← cover_pos, hcover, cover_pos, hmm]
    simp [VmRg.Has]

theorem sizePages_eq {size : BitVec 32} (h : size.toNat ≤ 1073741824) :
    size.toInt = size.toNat ∧ 0 ≤ pagingPageAlignsz size.toInt ∧
      allocPages size.toInt = sizePages size := by
  have hint : size.toInt = size.toNat := BitVec.toInt_eq_toNat_of_lt (by omega)
  have halign : pagingPageAlignsz size.toInt = ((size.toNat : ℤ) + 255) / 256 * 256 := by
    rw [hint]
    exact pagingPageAlignsz_eq (by omega) (by omega)
  have hpos : 0 ≤ pagingPageAlignsz size.toInt := by omega
  have hmul := allocPages_mul hpos
  refine ⟨hint, hpos, ?_⟩
  rw [sizePages]
  omega

theorem PartInv.heapOnce {mm : Mm} {frames : ℕ} {live : ℕ → Option ℕ} {pages : ℕ} {fr : List VmRg}
    (h : PartInv mm frames live pages fr) :
    HeapOnce mm frames (fun i => (live i).isSome) pages fr where
  heap := h.heap
  small := h.small
  free_in := h.free_in
  live_in i hi := by
    obtain ⟨size, hsome⟩ := Option.isSome_iff_exists.mp hi
    exact ⟨(h.live_in hsome).1, (h.live_in hsome).2.2.1⟩
  once := h.once

theorem isSome_update (live : ℕ → Option ℕ) (r : ℕ) (v : Option ℕ) :
    (fun i => (Function.update live r v i).isSome) =
      Function.update (fun i => (live i).isSome) r v.isSome := by
  funext i
  exact Function.apply_update (fun _ => Option.isSome) live r v i

section Step
variable {proc : Pcb} {live : ℕ → Option ℕ} {pages : ℕ} {fr : List VmRg}

theorem partInv_alloc (h : PartInv proc.mm proc.freeFrames.length live pages fr)
    {size regIndex : BitVec 32} (hid : regIndex.toNat < 30) (hnew : live regIndex.toNat = none)
    (hpos : 1 ≤ size.toNat) (hmax : size.toNat ≤ 1073741824) {proc' : Pcb}
    (hstep : AllocStep proc pages fr regIndex.toInt size.toInt 0 proc') :
    ∃ pages' fr', PartInv proc'.mm proc'.freeFrames.length
      (liveAfter live (.alloc size regIndex)) pages' fr' := by
  have hint := (sizePages_eq hmax).1
  have hreg : regIndex.toInt = regIndex.toNat := BitVec.toInt_eq_toNat_of_lt (by omega)
  rw [hreg] at hstep
  obtain @⟨mid, pages', fr', rest, rgnode, hready, -, -, hfit⟩ := hstep
  have honce := h.heapOnce.placed hready (by omega) (by omega) hid (by simp [hnew]) hfit
  have hsmall := honce.small
  obtain ⟨-, hend, hrg, -⟩ := takeFit_in (show 256 * pages' < 2147483648 by omega) (by omega)
    (by omega) (hready.free_in h.free_in) hfit
  refine ⟨pages', rest, honce.heap, hsmall, honce.free_in, fun {i n} hi => ?_, fun x => ?_⟩
  · simp only [Pcb.place, Int.toNat_natCast, hready.symrgtbl, liveAfter] at hi ⊢
    by_cases hir : i = regIndex.toNat
    · rw [hir, Function.update_self] at hi ⊢
      obtain rfl := Option.some.inj hi
      refine ⟨hid, hpos, hrg, ?_⟩
      rw [hend, hint, Int.toNat_natCast]
    · rw [Function.update_of_ne hir] at hi ⊢
      obtain ⟨hi30, hn, hirg, hiend⟩ := h.live_in hi
      exact ⟨hi30, hn, hirg.mono (Nat.mul_le_mul_left _ hready.pages_le), hiend⟩
  · rw [liveAfter, isSome_update]
    exact honce.once x

theorem partInv_free (h : PartInv proc.mm proc.freeFrames.length live pages fr)
    {regIndex : BitVec 32} (hlive : live regIndex.toNat ≠ none) :
    ∃ proc' fr', libfree proc regIndex = some (0, proc') ∧ proc'.dev = proc.dev ∧
      PartInv proc'.mm proc'.freeFrames.length (liveAfter live (.free regIndex)) pages fr' := by
  obtain ⟨size, hsome⟩ := Option.ne_none_iff_exists'.mp hlive
  obtain ⟨hid, hpos, hrg, hend⟩ := h.live_in hsome
  have hsmall := h.small
  have hreg : regIndex.toInt = regIndex.toNat := BitVec.toInt_eq_toNat_of_lt (by omega)
  have hfreed : proc.freedRg regIndex.toNat = proc.mm.symrgtbl regIndex.toNat := by
    simp only [Pcb.freedRg, Int.toNat_natCast]
    exact hrg.initVmRg_eq (by omega)
  have honce := h.heapOnce.freed (show (live regIndex.toNat).isSome = true by rw [hsome]; rfl)
  refine ⟨proc.withFree (256 * pages) (proc.mm.symrgtbl regIndex.toNat :: fr), _, ?_, rfl,
    honce.heap, hsmall, honce.free_in, fun {i n} hi => ?_, fun x => ?_⟩
  · rw [libfree, hreg, free_eq h.heap (by omega) (by omega), hfreed, if_neg (by omega)]
  · rw [liveAfter, Function.update_apply] at hi
    split_ifs at hi
    exact h.live_in hi
  · rw [liveAfter, isSome_update]
    exact honce.once x

end Step

/-! ### Runs -/

def PartState (s : RegionSys ι) : Prop :=
  ∀ p, ∃ pages fr, PartInv (s.mem.mm p) (s.mem.dev .mram).freeFpList.length (s.live p) pages fr

theorem growthServed_of_inPgd {s : RegionSys ι} {p : ι} {size regIndex : BitVec 32} {pages : ℕ} {fr : List VmRg}
    (h : PartInv (s.mem.mm p) (s.mem.dev .mram).freeFpList.length (s.live p) pages fr)
    (hok : Allowed s (p, .alloc size regIndex)) (hroom : InPgd s (p, .alloc size regIndex))
    (hfit : takeFit size.toInt fr = none) : GrowthServed (s.mem.pcb p) pages size.toInt := by
  obtain ⟨-, -, -, hmax, henough⟩ := hok
  obtain ⟨-, hpos, hpages⟩ := sizePages_eq hmax
  have hfree := (getFreeVmrgArea_none h.heap).mpr hfit
  have hn := henough hfree
  have hsmall := h.small
  have hmm : (s.mem.mm p).mmap = [⟨0, 0, 256 * pages, 256 * pages, fr⟩] := h.heap
  have hend := hroom hfree ⟨0, 0, 256 * pages, 256 * pages, fr⟩ (by rw [hmm]; simp)
  rw [← hpages] at hn hend
  exact ⟨hpos, hn, by omega, Or.inr hend⟩

variable [DecidableEq ι]

/-- What holds of every process and survives the loss of free frames is kept by a step of
one process that keeps it there. -/
theorem RegionSys.forall_put {I : Mm → ℕ → (ℕ → Option ℕ) → Prop}
    (hmono : ∀ mm frames frames' live, frames' ≤ frames → I mm frames live → I mm frames' live)
    {s : RegionSys ι} (h : ∀ q, I (s.mem.mm q) (s.mem.dev .mram).freeFpList.length (s.live q))
    {p : ι} {proc : Pcb} {live : ℕ → Option ℕ}
    (hle : proc.freeFrames.length ≤ (s.mem.dev .mram).freeFpList.length)
    (hp : I proc.mm proc.freeFrames.length live) (q : ι) :
    I ((s.mem.put p proc).mm q) proc.freeFrames.length (Function.update s.live p live q) := by
  by_cases hqp : q = p
  · rw [hqp, MemSys.put_mm_self, Function.update_self]
    exact hp
  · rw [MemSys.put_mm_other _ _ hqp, Function.update_of_ne hqp]
    exact hmono _ _ _ _ hle (h q)

theorem PartState.put {s : RegionSys ι} (h : PartState s) {p : ι} {proc : Pcb}
    {live : ℕ → Option ℕ} (hle : proc.freeFrames.length ≤ (s.mem.dev .mram).freeFpList.length)
    (hp : ∃ pages fr, PartInv proc.mm proc.freeFrames.length live pages fr) :
    PartState ⟨s.mem.put p proc, Function.update s.live p live⟩ := by
  apply RegionSys.forall_put (I := fun mm n live => ∃ pages fr, PartInv mm n live pages fr) _ h hle hp
  intro mm frames frames' live hle hinv
  obtain ⟨pages, fr, hinv⟩ := hinv
  exact ⟨pages, fr, hinv.mono hle⟩

theorem regionStep_some {s : RegionSys ι} {label : ι × MemOp} (hs : PartState s) (hok : Allowed s label)
    (hroom : InPgd s label) : ∃ t, regionStep s label = some t ∧ PartState t := by
  obtain ⟨p, op⟩ := label
  obtain ⟨pages, fr, hp⟩ := hs p
  have hp' : PartInv (s.mem.pcb p).mm (s.mem.pcb p).freeFrames.length (s.live p) pages fr := hp
  rcases op with ⟨size, regIndex⟩ | regIndex | _ | _ | _
  · obtain ⟨hid, hnew, hpos, hmax, -⟩ := id hok
    have hint := (sizePages_eq hmax).1
    have hreg : regIndex.toInt = regIndex.toNat := BitVec.toInt_eq_toNat_of_lt (by omega)
    have hserved := growthServed_of_inPgd hp hok hroom
    obtain ⟨rc, addr, proc, hcall, hrc⟩ := alloc_returns hp'.heap hserved
      (show 0 ≤ regIndex.toInt by omega) (by omega) (by omega)
    obtain rfl := hrc (by omega)
    have hstep := alloc_step hp'.heap hserved hcall
    obtain ⟨pages', fr', hinv⟩ := partInv_alloc hp' hid hnew hpos hmax hstep
    refine ⟨⟨s.mem.put p proc, Function.update s.live p (liveAfter (s.live p) _)⟩, ?_,
      hs.put ?_ ⟨pages', fr', hinv⟩⟩
    · simp only [regionStep, memCall, liballoc, hcall, Option.map_some, if_true]
    · obtain @⟨mid, _, _, _, _, hready, -, -, -⟩ := hstep
      have hframes := hready.frames
      have hle := hready.pages_le
      change mid.freeFrames.length ≤ (s.mem.pcb p).freeFrames.length
      omega
  · obtain ⟨proc, fr', hcall, hdev, hinv⟩ := partInv_free hp' hok
    refine ⟨⟨s.mem.put p proc, Function.update s.live p (liveAfter (s.live p) _)⟩, ?_,
      hs.put ?_ ⟨pages, fr', hinv⟩⟩
    · simp only [regionStep, memCall, hcall, Option.map_some, if_true]
    · rw [Pcb.freeFrames, hdev]
      exact le_rfl
  all_goals exact hok.elim

/-- A growth past the end of the page directory is undefined. -/
theorem regionStep_none {s : RegionSys ι} {label : ι × MemOp} (hs : PartState s) (hok : Allowed s label)
    (hroom : ¬InPgd s label) : regionStep s label = none := by
  obtain ⟨p, op⟩ := label
  obtain ⟨pages, fr, hp⟩ := hs p
  rcases op with ⟨size, regIndex⟩ | regIndex | _ | _ | _
  · obtain ⟨hid, hnew, hpos, hmax, henough⟩ := hok
    obtain ⟨-, -, hpages⟩ := sizePages_eq hmax
    have hheap : HeapIs (s.mem.pcb p).mm (256 * pages) fr := hp.heap
    have hmm : (s.mem.mm p).mmap = [⟨0, 0, 256 * pages, 256 * pages, fr⟩] := hp.heap
    simp only [InPgd, hmm, List.mem_singleton, forall_eq, Classical.not_imp, not_le] at hroom
    obtain ⟨hfree, hpast⟩ := hroom
    have hfit := (getFreeVmrgArea_none hp.heap).mp hfree
    have hn := henough hfree
    have hpos' : 1 ≤ sizePages size := by
      rw [sizePages]
      omega
    have hgrow : (s.mem.pcb p).grow (256 * pages) fr (pagingPageAlignsz size.toInt) = none := by
      have hshort : ¬(s.mem.pcb p).freeFrames.length < allocPages size.toInt := by
        rw [hpages]
        exact not_lt.mpr hn
      have hend : ¬(allocPages size.toInt = 0 ∨
          pagingPgn (toInt ((256 * pages : ℕ) : ℤ)) + allocPages size.toInt ≤ pagingMaxPgn) := by
        rw [hpages]
        omega
      rw [allocPages] at hshort hend
      rw [Pcb.grow, if_neg hshort, if_neg hend]
    simp only [regionStep, memCall, liballoc, alloc_grow_none hheap hfit hgrow, Option.map_none]
  all_goals exact absurd trivial hroom

theorem partState_init {s : RegionSys ι} (h : regionSystem.init s) : PartState s := by
  obtain ⟨hmm, hfew, hlive⟩ := h
  intro p
  obtain ⟨pgd, symrgtbl, fifoPgn, hp⟩ := hmm p
  exact ⟨0, [⟨0, 0⟩], hp ▸ partInv_init hfew (hlive p)⟩

/-- In every run, as long as no growth runs past the end of the page directory,
the live and the free regions of every process partition its heap; the next call
keeps this exactly when it does not run past the end either. -/
theorem heap_partitioned_iff {s : RegionSys ι}
    (h : Reachable regionSystem (fun s label => Allowed s label ∧ InPgd s label) s) :
    (∀ p, Partitioned s p) ∧ ∀ label, Allowed s label →
      ((∃ t, regionStep s label = some t ∧ ∀ p, Partitioned t p) ↔ InPgd s label) := by
  have hparts : ∀ t : RegionSys ι, PartState t → ∀ p, Partitioned t p := fun t ht p => by
    obtain ⟨pages, fr, hp⟩ := ht p
    exact hp.partitioned
  have hinv : PartState s := by
    refine Reachable.invariant PartState (fun _ => partState_init) ?_ h
    intro s1 label t hs hok hnext
    obtain ⟨t', ht', hinv⟩ := regionStep_some hs hok.1 hok.2
    obtain rfl := Option.some.inj ((show regionStep s1 label = some t from hnext).symm.trans ht')
    exact hinv
  refine ⟨hparts s hinv, fun label hok => ⟨?_, fun hroom => ?_⟩⟩
  · rintro ⟨t, ht, -⟩
    by_contra hroom
    simp [regionStep_none hinv hok hroom] at ht
  · obtain ⟨t, ht, hinv'⟩ := regionStep_some hinv hok hroom
    exact ⟨t, ht, hparts t hinv'⟩

/-- A single process over `ramSize` bytes of `mram`, before its first call. -/
def loneProcess (ramSize : ℕ) : RegionSys Unit := ⟨.start ramSize 256, fun _ _ => none⟩

theorem loneProcess_frames (ramSize : ℕ) :
    ((loneProcess ramSize).mem.dev .mram).freeFpList.length = ramSize / 256 := List.length_range

theorem loneProcess_init {ramSize : ℕ} (h : ramSize ≤ 2147483647) :
    regionSystem.init (loneProcess ramSize) := by
  refine ⟨fun _ => ⟨_, _, _, rfl⟩, ?_, fun _ _ => rfl⟩
  rw [loneProcess_frames]
  omega

theorem heap_partitioned_one_region :
    ∃ s : RegionSys Unit, s.live () 0 = some 100 ∧ (∀ p, Partitioned s p) ∧
      ∀ label, Allowed s label →
        ((∃ t, regionStep s label = some t ∧ ∀ p, Partitioned t p) ↔ InPgd s label) := by
  have hok : Allowed (loneProcess 512) ((), .alloc 100 0) ∧
      InPgd (loneProcess 512) ((), .alloc 100 0) := by
    refine ⟨⟨by decide, rfl, by decide, by decide, fun _ => by decide⟩, fun _ v hv => ?_⟩
    obtain rfl := List.mem_singleton.mp hv
    decide +kernel
  have hrun : (regionStep (loneProcess 512) ((), .alloc 100 0)).any
      (fun s => decide (s.live () 0 = some 100)) = true := by decide +kernel
  obtain ⟨s, hs, hlive⟩ := (Option.any_eq_true _ _).mp hrun
  exact ⟨s, of_decide_eq_true hlive,
    heap_partitioned_iff (.step (.init (loneProcess_init (by norm_num))) hok hs)⟩

/-- With 8 MB of `mram` there are frames for 4 MB and one byte, but the page
directory ends at 4 MB. -/
theorem growth_past_page_directory :
    ∃ s : RegionSys Unit, Reachable regionSystem Allowed s ∧ Allowed s ((), .alloc 4194305 0) ∧
      ¬∃ t, regionStep s ((), .alloc 4194305 0) = some t ∧ ∀ p, Partitioned t p := by
  have hinit : regionSystem.init (loneProcess 8388608) := loneProcess_init (by norm_num)
  have hok : Allowed (loneProcess 8388608) ((), .alloc 4194305 0) := by
    refine ⟨by decide, rfl, by decide, by decide, fun _ => ?_⟩
    rw [loneProcess_frames]
    decide
  have hroom : ¬InPgd (loneProcess 8388608) ((), .alloc 4194305 0) := by
    intro hin
    have hheap : HeapIs ((loneProcess 8388608).mem.mm ()) 0 [⟨0, 0⟩] := rfl
    have hfit : takeFit (4194305#32).toInt [⟨0, 0⟩] = none := by decide +kernel
    have hend := hin ((getFreeVmrgArea_none hheap).mpr hfit) ⟨0, 0, 0, 0, [⟨0, 0⟩]⟩
      (List.mem_singleton_self _)
    exact absurd hend (by decide +kernel)
  refine ⟨loneProcess 8388608, .init hinit, hok, ?_⟩
  rintro ⟨t, ht, -⟩
  rw [regionStep_none (partState_init hinit) hok hroom] at ht
  simp at ht

end OsSim.Mem
