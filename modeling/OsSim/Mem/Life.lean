import OsSim.Mem.Bounds
import OsSim.Mem.Partition

/-!
# The life of a region (libmem.c:35-58, 147-194)

`__free` enlists the region it finds in `symrgtbl` and leaves the entry there. So a
freed id can be freed, read and written again, and each further `libfree` puts the
same bytes on the free list once more; later allocations to other ids then share
them. The record beside the memory says which ids are live and which were freed and
not given out since.
-/

namespace OsSim.Mem
open OsSim.Base

variable {ι : Type}

structure LifeSys (ι : Type) extends RegionSys ι where
  freed : ι → ℕ → Bool

/-- The ids a `libfree` returned 0 for and no `liballoc` was called with since. -/
def freedAfter (freed : ℕ → Bool) (rc : ℤ) : MemOp → ℕ → Bool
  | .alloc _ regIndex => Function.update freed regIndex.toNat false
  | .free regIndex => if rc = 0 then Function.update freed regIndex.toNat true else freed
  | _ => freed

def lifeStep [DecidableEq ι] (s : LifeSys ι) (label : ι × MemOp) : Option (LifeSys ι) :=
  (memCall (s.mem.pcb label.1) label.2).map fun (ret, proc) =>
    { mem := s.mem.put label.1 proc
      live := if ret.rc = 0 then
          Function.update s.live label.1 (liveAfter (s.live label.1) label.2)
        else s.live
      freed := Function.update s.freed label.1 (freedAfter (s.freed label.1) ret.rc label.2) }

def lifeSystem [DecidableEq ι] : System (LifeSys ι) (ι × MemOp) where
  init s := regionSystem.init s.toRegionSys ∧ ∀ p r, s.freed p r = false
  next s label t := lifeStep s label = some t

/-- The call returns nonzero and changes nothing. -/
def NoEffect (proc : Pcb) (op : MemOp) : Prop :=
  ∃ ret, memCall proc op = some (ret, proc) ∧ ret.rc ≠ 0

/-- Freed ids can neither be freed nor be read or written. -/
def EndsLife (s : LifeSys ι) (p : ι) : Prop :=
  ∀ rgid : BitVec 32, s.freed p rgid.toNat = true →
    NoEffect (s.mem.pcb p) (.free rgid) ∧
    ∀ offset, NoEffect (s.mem.pcb p) (.read rgid offset) ∧
      ∀ data, NoEffect (s.mem.pcb p) (.write data rgid offset)

/-- Two live regions never share a byte. -/
def LiveDisjoint (s : RegionSys ι) (p : ι) : Prop :=
  ∀ i j, i ≠ j → s.live p i ≠ none → s.live p j ≠ none →
    ∀ x, ¬(((s.mem.mm p).symrgtbl i).Has x ∧ ((s.mem.mm p).symrgtbl j).Has x)

/-- `liballoc` with an id that is not live, and with frames for the growth if it
needs one; any `libfree`. -/
def AllocsAndFrees (s : RegionSys ι) (label : ι × MemOp) : Prop :=
  match label.2 with
  | .alloc size regIndex => s.live label.1 regIndex.toNat = none ∧
      (getFreeVmrgArea (s.mem.mm label.1) 0 size.toInt = some none →
        allocPages size.toInt ≤ (s.mem.dev .mram).freeFpList.length)
  | .free _ => True
  | _ => False

/-- The entry the `libfree` finds is live or holds no byte; a growth is by a size that
can be rounded up. -/
def FreesOnce (s : RegionSys ι) (label : ι × MemOp) : Prop :=
  match label.2 with
  | .alloc size _ => getFreeVmrgArea (s.mem.mm label.1) 0 size.toInt = some none →
      0 ≤ pagingPageAlignsz size.toInt
  | .free regIndex => s.live label.1 regIndex.toNat ≠ none ∨ 30 ≤ regIndex.toNat ∨
      ((s.mem.pcb label.1).freedRg regIndex.toNat).rgEnd ≤
        ((s.mem.pcb label.1).freedRg regIndex.toNat).rgStart
  | _ => True

/-! ### The entries of the table -/

section Table
variable {proc proc' : Pcb} {brk : ℕ} {fr : List VmRg}

theorem setSymrg_symrgtbl {mm mm' : Mm} {rgid : ℤ} {rgnode : VmRg}
    (h : setSymrg mm rgid rgnode = some mm') : 0 ≤ rgid ∧ rgid < 30 ∧
      mm'.symrgtbl = Function.update mm.symrgtbl rgid.toNat rgnode := by
  rw [setSymrg] at h
  split_ifs at h with hid
  obtain rfl := Option.some.inj h
  exact ⟨hid.1, hid.2, rfl⟩

theorem grow_symrgtbl {incSz rc : ℤ} (h : proc.grow brk fr incSz = some (rc, proc')) :
    proc'.mm.symrgtbl = proc.mm.symrgtbl := by
  rw [Pcb.grow] at h
  split_ifs at h
  all_goals
    simp only [Option.some.injEq, Prod.mk.injEq] at h
    rw [← h.2]
    rfl

/-- A `liballoc` writes the entry of its id exactly when it returns 0. -/
theorem alloc_symrgtbl (hheap : HeapIs proc.mm brk fr) {rgid size rc : ℤ} {addr : Option ℤ}
    (hcall : alloc proc 0 rgid size = some (rc, addr, proc')) :
    (rc = 0 ∧ 0 ≤ rgid ∧ rgid < 30 ∧ ∃ rgnode,
      proc'.mm.symrgtbl = Function.update proc.mm.symrgtbl rgid.toNat rgnode) ∨
    (rc = -1 ∧ proc'.mm.symrgtbl = proc.mm.symrgtbl) := by
  cases hfit : takeFit size fr with
  | some found =>
    rw [alloc_fit hheap hfit] at hcall
    obtain ⟨mm, hset, heq⟩ := Option.bind_eq_some_iff.mp hcall
    obtain ⟨h0, h30, hsym⟩ := setSymrg_symrgtbl hset
    simp only [Option.some.injEq, Prod.mk.injEq] at heq
    exact Or.inl ⟨heq.1.symm, h0, h30, found.1, by rw [← heq.2.2]; exact hsym⟩
  | none =>
    cases hgrow : proc.grow brk fr (pagingPageAlignsz size) with
    | none => simp [alloc_grow_none hheap hfit hgrow] at hcall
    | some grown =>
      obtain ⟨brk', hheap'⟩ := grow_heapIs hgrow
      have hmid := grow_symrgtbl hgrow
      rw [alloc_grow hheap hfit hgrow hheap'] at hcall
      cases hfit' : takeFit size (growthRg brk size :: fr) with
      | none =>
        simp only [hfit', Option.some.injEq, Prod.mk.injEq] at hcall
        exact Or.inr ⟨hcall.1.symm, by rw [← hcall.2.2]; exact hmid⟩
      | some found =>
        simp only [hfit'] at hcall
        obtain ⟨mm, hset, heq⟩ := Option.bind_eq_some_iff.mp hcall
        obtain ⟨h0, h30, hsym⟩ := setSymrg_symrgtbl hset
        simp only [Option.some.injEq, Prod.mk.injEq] at heq
        refine Or.inl ⟨heq.1.symm, h0, h30, found.1, ?_⟩
        rw [← heq.2.2, ← hmid]
        exact hsym

theorem AccessStep.symrgtbl {rgid offset : ℤ} (h : AccessStep proc rgid offset proc') :
    proc'.mm.symrgtbl = proc.mm.symrgtbl := by
  cases h with
  | refused heq => rw [heq]
  | page _ _ hpage =>
    cases hpage with
    | hit _ hmm => rw [hmm]
    | fault vic swpfpn older frames _ _ _ hmm =>
      rw [hmm]
      rfl

/-- Every call but a `liballoc` to it leaves an entry alone. -/
theorem memCall_symrgtbl (hheap : HeapIs proc.mm brk fr) {op : MemOp} {ret : MemRet}
    (hcall : memCall proc op = some (ret, proc')) {i : ℕ}
    (hi : ∀ size regIndex, op = .alloc size regIndex → regIndex.toNat ≠ i) :
    proc'.mm.symrgtbl i = proc.mm.symrgtbl i := by
  cases memCall_step hcall with
  | @alloc size regIndex rc addr halloc =>
    obtain ⟨-, h0, h30, rgnode, hsym⟩ | ⟨-, hsym⟩ := alloc_symrgtbl hheap halloc
    · have hne := hi size regIndex rfl
      rw [hsym, bitVec_toInt_eq h0, Int.toNat_natCast, Function.update_of_ne hne.symm]
    · rw [hsym]
  | @free regIndex rc hfree =>
    obtain heq | heq := free_cases hheap regIndex.toInt
    all_goals
      obtain ⟨-, rfl⟩ := Prod.mk.inj (Option.some.inj (hfree.symm.trans heq))
      rfl
  | read hstep => rw [hstep.symrgtbl]
  | write hstep => rw [hstep.symrgtbl]
  | memmap hsys =>
    cases sysMemmap_step hsys with
    | inl h =>
      obtain ⟨-, rc', hinc⟩ := h
      obtain heq | hgrow := incVmaLimit_cases hheap hinc
      · rw [heq]
      · rw [grow_symrgtbl hgrow]
    | inr h => rw [h.2.1]

end Table

/-! ### Freed ids -/

/-- The entry of a freed id still names the bytes it had. -/
def FreedInv (s : LifeSys ι) : Prop :=
  OneArea s.mem ∧ ∀ p r, s.freed p r = true → r < 30 ∧
    ((s.mem.pcb p).freedRg r).rgStart < ((s.mem.pcb p).freedRg r).rgEnd

theorem free_zero {proc proc' : Pcb} {brk : ℕ} {fr : List VmRg} (hheap : HeapIs proc.mm brk fr)
    {regIndex : BitVec 32} (hcall : libfree proc regIndex = some (0, proc')) :
    regIndex.toNat < 30 ∧
      (proc.freedRg regIndex.toNat).rgStart < (proc.freedRg regIndex.toNat).rgEnd ∧
      proc' = proc.withFree brk (proc.freedRg regIndex.toNat :: fr) := by
  rw [libfree] at hcall
  by_cases hid : regIndex.toInt < 0 ∨ 30 ≤ regIndex.toInt
  · rw [free_outside hid] at hcall
    simp at hcall
  · have hreg := bitVec_toInt_eq (show 0 ≤ regIndex.toInt by omega)
    rw [free_eq hheap (by omega) (by omega), hreg] at hcall
    split_ifs at hcall with hempty
    · simp at hcall
    · simp only [Option.some.injEq, Prod.mk.injEq, true_and] at hcall
      exact ⟨by omega, not_le.mp hempty, hcall.symm⟩

/-- An entry with bytes in it is freed whatever became of them. -/
theorem free_again {proc : Pcb} {brk : ℕ} {fr : List VmRg} (hheap : HeapIs proc.mm brk fr)
    {regIndex : BitVec 32} (hid : regIndex.toNat < 30)
    (hbytes : (proc.freedRg regIndex.toNat).rgStart < (proc.freedRg regIndex.toNat).rgEnd) :
    libfree proc regIndex =
      some (0, proc.withFree brk (proc.freedRg regIndex.toNat :: fr)) := by
  have hreg : regIndex.toInt = regIndex.toNat := BitVec.toInt_eq_toNat_of_lt (by omega)
  rw [libfree, hreg, free_eq hheap (by omega) (by omega), if_neg (not_le.mpr hbytes)]

theorem Pcb.freedRg_congr {proc proc' : Pcb} {i : ℕ}
    (h : proc'.mm.symrgtbl i = proc.mm.symrgtbl i) : proc'.freedRg i = proc.freedRg i := by
  simp only [Pcb.freedRg, Int.toNat_natCast, h]

/-- A call leaves bytes in the entries of the freed ids. -/
theorem freed_bytes_after {proc proc' : Pcb} {brk : ℕ} {fr : List VmRg} {freed : ℕ → Bool}
    (hheap : HeapIs proc.mm brk fr) {op : MemOp} {ret : MemRet}
    (hcall : memCall proc op = some (ret, proc'))
    (hbytes : ∀ r, freed r = true → r < 30 ∧ (proc.freedRg r).rgStart < (proc.freedRg r).rgEnd)
    {r : ℕ} (h : freedAfter freed ret.rc op r = true) :
    r < 30 ∧ (proc'.freedRg r).rgStart < (proc'.freedRg r).rgEnd := by
  -- the entry is the one before the call, or the call freed it just now
  have hkeep : freed r = true → (∀ size regIndex, op = .alloc size regIndex → regIndex.toNat ≠ r) →
      r < 30 ∧ (proc'.freedRg r).rgStart < (proc'.freedRg r).rgEnd := by
    intro hold hne
    rw [Pcb.freedRg_congr (memCall_symrgtbl hheap hcall hne)]
    exact hbytes r hold
  cases op with
  | alloc size regIndex =>
    rw [freedAfter, Function.update_apply] at h
    split_ifs at h with hr
    apply hkeep h
    intro size' regIndex' heq
    obtain ⟨rfl, rfl⟩ := MemOp.alloc.inj heq
    exact fun heq => hr heq.symm
  | free regIndex =>
    rw [freedAfter] at h
    split_ifs at h with hrc
    · rw [Function.update_apply] at h
      split_ifs at h with hr
      · have hfree := libfree_of_memCall hcall
        rw [hrc] at hfree
        obtain ⟨hid, hlt, rfl⟩ := free_zero hheap hfree
        rw [hr]
        exact ⟨hid, hlt⟩
      · exact hkeep h (by simp)
    · exact hkeep h (by simp)
  | read source offset => exact hkeep h (by simp)
  | write data destination offset => exact hkeep h (by simp)
  | memmap regs => exact hkeep h (by simp)

section Freed
variable [DecidableEq ι] {s t : LifeSys ι}

theorem regionStep_mem {s t : RegionSys ι} {label : ι × MemOp} (h : regionStep s label = some t) :
    memStep s.mem label = some t.mem := by
  obtain ⟨⟨ret, proc⟩, hcall, rfl⟩ := Option.map_eq_some_iff.mp h
  exact Option.map_eq_some_iff.mpr ⟨(ret, proc), hcall, rfl⟩

theorem regionSystem_oneArea {s : RegionSys ι} (h : Reachable regionSystem (fun _ _ => True) s) :
    OneArea s.mem := by
  apply Reachable.invariant (fun s => OneArea s.mem) _ _ h
  · intro s0 h0
    exact oneArea_init h0.1
  · intro s1 label t hs _ hnext
    exact memStep_oneArea hs (regionStep_mem hnext)

/-- A live id is one of the table. -/
theorem regionSystem_live {s : RegionSys ι} (h : Reachable regionSystem (fun _ _ => True) s) {p : ι}
    {i : ℕ} (hlive : s.live p i ≠ none) : i < 30 := by
  induction h generalizing p i with
  | init h0 => exact absurd (h0.2.2 p i) hlive
  | @step s1 t label hs _ hnext ih =>
    obtain ⟨q, op⟩ := label
    have harea := regionSystem_oneArea hs
    obtain ⟨⟨ret, proc⟩, hcall, rfl⟩ := Option.map_eq_some_iff.mp hnext
    dsimp only at hlive
    split_ifs at hlive with hrc
    · by_cases hp : p = q
      · subst hp
        rw [Function.update_self] at hlive
        cases op with
        | alloc size regIndex =>
          obtain ⟨brk, fr, hheap⟩ : ∃ brk fr, HeapIs (s1.mem.pcb p).mm brk fr := harea p
          obtain ⟨addr, halloc⟩ := alloc_of_memCall hcall
          rw [liveAfter, Function.update_apply] at hlive
          split_ifs at hlive with hi
          · obtain ⟨-, h0, h30, -⟩ | ⟨hneg, -⟩ := alloc_symrgtbl hheap halloc
            · have hreg := bitVec_toInt_eq h0
              omega
            · rw [hneg] at hrc
              exact absurd hrc (by norm_num)
          · exact ih hlive
        | free regIndex =>
          rw [liveAfter, Function.update_apply] at hlive
          split_ifs at hlive
          · exact absurd rfl hlive
          · exact ih hlive
        | read source offset => exact ih hlive
        | write data destination offset => exact ih hlive
        | memmap regs => exact ih hlive
      · rw [Function.update_of_ne hp] at hlive
        exact ih hlive
    · exact ih hlive

theorem lifeStep_region {label : ι × MemOp} (h : lifeStep s label = some t) :
    regionStep s.toRegionSys label = some t.toRegionSys := by
  obtain ⟨⟨ret, proc⟩, hcall, rfl⟩ := Option.map_eq_some_iff.mp h
  exact Option.map_eq_some_iff.mpr ⟨(ret, proc), hcall, rfl⟩

theorem freedInv_step (hs : FreedInv s) {label : ι × MemOp} (h : lifeStep s label = some t) :
    FreedInv t := by
  obtain ⟨p, op⟩ := label
  have harea := memStep_oneArea hs.1 (regionStep_mem (lifeStep_region h))
  obtain ⟨⟨ret, proc⟩, hcall, rfl⟩ := Option.map_eq_some_iff.mp h
  obtain ⟨brk, fr, hheap⟩ : ∃ brk fr, HeapIs (s.mem.pcb p).mm brk fr := hs.1 p
  refine ⟨harea, fun q r hfreed => ?_⟩
  dsimp only at hfreed ⊢
  by_cases hqp : q = p
  · subst hqp
    rw [MemSys.put_pcb_self]
    rw [Function.update_self] at hfreed
    exact freed_bytes_after hheap hcall (hs.2 q) hfreed
  · rw [Function.update_of_ne hqp] at hfreed
    have hsame : ((s.mem.put p proc).pcb q).freedRg r = (s.mem.pcb q).freedRg r :=
      Pcb.freedRg_congr (by rw [MemSys.pcb, s.mem.put_mm_other _ hqp]; rfl)
    rw [hsame]
    exact hs.2 q r hfreed

theorem freedInv_reachable (h : Reachable lifeSystem (fun _ _ => True) s) : FreedInv s := by
  refine Reachable.invariant FreedInv ?_ (fun s label t hs _ hnext => freedInv_step hs hnext) h
  intro s0 h0
  exact ⟨oneArea_init h0.1.1, fun p r hfreed => by simp [h0.2] at hfreed⟩

end Freed

/-- No freed id is at the end of its life: it can be freed again. -/
theorem endsLife_iff {s : LifeSys ι} (hs : FreedInv s) (p : ι) : EndsLife s p ↔ ∀ r, s.freed p r = false := by
  constructor
  · intro hends r
    by_contra hfreed
    have hfreed' := Bool.not_eq_false _ ▸ hfreed
    obtain ⟨hid, hbytes⟩ := hs.2 p r hfreed'
    obtain ⟨brk, fr, hheap⟩ : ∃ brk fr, HeapIs (s.mem.pcb p).mm brk fr := hs.1 p
    have hr : (BitVec.ofNat 32 r).toNat = r := by
      rw [BitVec.toNat_ofNat, Nat.mod_eq_of_lt (by omega)]
    obtain ⟨⟨ret, hcall, hrc⟩, -⟩ := hends (BitVec.ofNat 32 r) (by rw [hr]; exact hfreed')
    have hagain := free_again hheap (show (BitVec.ofNat 32 r).toNat < 30 by omega)
      (by rw [hr]; exact hbytes)
    rw [memCall, hagain, Option.map_some, Option.some.injEq, Prod.mk.injEq] at hcall
    exact hrc (hcall.1 ▸ rfl)
  · intro hnone rgid hfreed
    simp [hnone] at hfreed

/-! ### Live regions -/

def LifeState (s : RegionSys ι) : Prop := ∀ p, ∃ pages fr,
  HeapOnce (s.mem.mm p) (s.mem.dev .mram).freeFpList.length (fun i => (s.live p i).isSome) pages fr

theorem LifeState.liveDisjoint {s : RegionSys ι} (hs : LifeState s) (p : ι) : LiveDisjoint s p := by
  intro i j hij hi hj x
  obtain ⟨pages, fr, h⟩ := hs p
  exact h.disjoint (Option.isSome_iff_ne_none.mpr hi) (Option.isSome_iff_ne_none.mpr hj) hij x

section Step
variable {proc proc' : Pcb} {live : ℕ → Option ℕ} {pages : ℕ} {fr : List VmRg}

theorem heapOnce_alloc (h : HeapOnce proc.mm proc.freeFrames.length (fun i => (live i).isSome) pages fr)
    {size regIndex : BitVec 32} (hnew : live regIndex.toNat = none)
    (henough : getFreeVmrgArea proc.mm 0 size.toInt = some none →
      allocPages size.toInt ≤ proc.freeFrames.length)
    (halign : getFreeVmrgArea proc.mm 0 size.toInt = some none →
      0 ≤ pagingPageAlignsz size.toInt) {rc : ℤ} {addr : Option ℤ}
    (hcall : alloc proc 0 regIndex.toInt size.toInt = some (rc, addr, proc')) :
    proc'.freeFrames.length ≤ proc.freeFrames.length ∧ ∃ pages' fr',
      HeapOnce proc'.mm proc'.freeFrames.length (fun i =>
        ((if rc = 0 then liveAfter live (.alloc size regIndex) else live) i).isSome) pages' fr' := by
  have hrange := bitVec_toInt_range size
  have hsmall := h.small
  have hserved : takeFit size.toInt fr = none → GrowthServed proc pages size.toInt := by
    intro hfit
    have hfree := (getFreeVmrgArea_none h.heap).mpr hfit
    have hn := henough hfree
    refine ⟨halign hfree, hn, by omega, ?_⟩
    by_contra hroom
    -- past the page directory the call would be undefined
    have hgrow : proc.grow (256 * pages) fr (pagingPageAlignsz size.toInt) = none := by
      rw [allocPages] at hn hroom
      rw [Pcb.grow, if_neg (not_lt.mpr hn), if_neg hroom]
    simp [alloc_grow_none h.heap hfit hgrow] at hcall
  cases alloc_step h.heap hserved hcall with
  | @placed mid pages' fr' rest rgnode hready h0 h30 hfit =>
    have hreg := bitVec_toInt_eq h0
    rw [hreg]
    have honce := h.placed hready hrange.1 hrange.2 (show regIndex.toNat < 30 by omega)
      (by simp [hnew]) hfit
    have hframes := hready.frames
    have hle := hready.pages_le
    refine ⟨?_, pages', rest, ?_⟩
    · change mid.freeFrames.length ≤ proc.freeFrames.length
      omega
    · rw [if_pos rfl, liveAfter, isSome_update]
      exact honce
  | @refused mid pages' fr' hready hfit =>
    have honce := h.ready hready
    have hframes := hready.frames
    have hle := hready.pages_le
    refine ⟨?_, pages', fr', ?_⟩
    · change mid.freeFrames.length ≤ proc.freeFrames.length
      omega
    · rw [if_neg (by norm_num)]
      exact honce

theorem heapOnce_free (h : HeapOnce proc.mm proc.freeFrames.length (fun i => (live i).isSome) pages fr)
    {regIndex : BitVec 32} (hknown : live regIndex.toNat ≠ none ∨ 30 ≤ regIndex.toNat ∨
      (proc.freedRg regIndex.toNat).rgEnd ≤ (proc.freedRg regIndex.toNat).rgStart) {rc : ℤ}
    (hcall : libfree proc regIndex = some (rc, proc')) :
    proc'.dev = proc.dev ∧ ∃ fr', HeapOnce proc'.mm proc'.freeFrames.length (fun i =>
      ((if rc = 0 then liveAfter live (.free regIndex) else live) i).isSome) pages fr' := by
  by_cases hrc : rc = 0
  · subst hrc
    obtain ⟨hid, hbytes, rfl⟩ := free_zero h.heap hcall
    have hlive : live regIndex.toNat ≠ none := by
      rcases hknown with hlive | hout | hempty
      · exact hlive
      · omega
      · omega
    have hsome := Option.isSome_iff_ne_none.mpr hlive
    have hsmall := h.small
    have hfreed : proc.freedRg regIndex.toNat = proc.mm.symrgtbl regIndex.toNat := by
      simp only [Pcb.freedRg, Int.toNat_natCast]
      exact (h.live_in _ hsome).2.initVmRg_eq (by omega)
    refine ⟨rfl, proc.mm.symrgtbl regIndex.toNat :: fr, ?_⟩
    rw [if_pos rfl, liveAfter, isSome_update, hfreed]
    exact h.freed hsome
  · have hsame : proc' = proc := by
      obtain heq | heq := free_cases h.heap regIndex.toInt
      · exact (Prod.mk.inj (Option.some.inj (hcall.symm.trans heq))).2
      · exact absurd (Prod.mk.inj (Option.some.inj (hcall.symm.trans heq))).1 hrc
    subst hsame
    rw [if_neg hrc]
    exact ⟨rfl, fr, h⟩

end Step

section Run
variable [DecidableEq ι]

theorem LifeState.put {s : RegionSys ι} (hs : LifeState s) {p : ι} {proc : Pcb}
    {live : ℕ → Option ℕ} (hle : proc.freeFrames.length ≤ (s.mem.dev .mram).freeFpList.length)
    (hp : ∃ pages fr, HeapOnce proc.mm proc.freeFrames.length (fun i => (live i).isSome) pages fr) :
    LifeState ⟨s.mem.put p proc, Function.update s.live p live⟩ := by
  apply RegionSys.forall_put (I := fun mm n (live : ℕ → Option ℕ) => ∃ pages fr,
    HeapOnce mm n (fun i => (live i).isSome) pages fr) _ hs hle hp
  intro mm frames frames' live hle hinv
  obtain ⟨pages, fr, hinv⟩ := hinv
  exact ⟨pages, fr, hinv.mono hle⟩

theorem lifeState_step {s t : RegionSys ι} (hs : LifeState s) {label : ι × MemOp}
    (hok : AllocsAndFrees s label ∧ FreesOnce s label) (h : regionStep s label = some t) :
    LifeState t := by
  obtain ⟨p, op⟩ := label
  obtain ⟨⟨ret, proc⟩, hcall, rfl⟩ := Option.map_eq_some_iff.mp h
  obtain ⟨pages, fr, hp⟩ := hs p
  have hp' : HeapOnce (s.mem.pcb p).mm (s.mem.pcb p).freeFrames.length
    (fun i => (s.live p i).isSome) pages fr := hp
  have hlive : (if ret.rc = 0 then Function.update s.live p (liveAfter (s.live p) op) else s.live) =
      Function.update s.live p (if ret.rc = 0 then liveAfter (s.live p) op else s.live p) := by
    split_ifs
    · rfl
    · rw [Function.update_eq_self]
  dsimp only
  rw [hlive]
  cases op with
  | alloc size regIndex =>
    obtain ⟨addr, halloc⟩ := alloc_of_memCall hcall
    obtain ⟨hle, hinv⟩ := heapOnce_alloc hp' hok.1.1 hok.1.2 hok.2 halloc
    exact hs.put hle hinv
  | free regIndex =>
    obtain ⟨hdev, fr', hinv⟩ := heapOnce_free hp' hok.2 (libfree_of_memCall hcall)
    exact hs.put (by rw [Pcb.freeFrames, hdev]; exact le_rfl) ⟨pages, fr', hinv⟩
  | read source offset => exact hok.1.elim
  | write data destination offset => exact hok.1.elim
  | memmap regs => exact hok.1.elim

theorem lifeState_reachable {s : LifeSys ι} (h : Reachable lifeSystem
    (fun s label => AllocsAndFrees s.toRegionSys label ∧ FreesOnce s.toRegionSys label) s) :
    LifeState s.toRegionSys := by
  refine Reachable.invariant (fun s : LifeSys ι => LifeState s.toRegionSys) ?_ ?_ h
  · intro s0 h0 p
    obtain ⟨⟨hmm, hfew, hlive⟩, -⟩ := h0
    obtain ⟨pgd, symrgtbl, fifoPgn, hp⟩ := hmm p
    exact ⟨0, [⟨0, 0⟩], hp ▸ heapOnce_init hfew (by simp [hlive])⟩
  · intro s1 label t hs hok hnext
    exact lifeState_step hs hok (lifeStep_region hnext)

end Run

/-- In every reachable state, every freed id is refused exactly when there is none; and
in every run of `liballoc` and `libfree` with its growths served, the live regions do
not overlap as long as nothing is freed that is not live. -/
theorem free_ends_life_iff [DecidableEq ι] :
    (∀ s : LifeSys ι, Reachable lifeSystem (fun _ _ => True) s → ∀ p,
      EndsLife s p ↔ ∀ r, s.freed p r = false) ∧
    ∀ s : LifeSys ι, Reachable lifeSystem (fun s label =>
      AllocsAndFrees s.toRegionSys label ∧ FreesOnce s.toRegionSys label) s →
        ∀ p, LiveDisjoint s.toRegionSys p := by
  constructor
  · intro s h p
    exact endsLife_iff (freedInv_reachable h) p
  · intro s h p
    exact (lifeState_reachable h).liveDisjoint p

instance AllocsAndFrees.decidable (s : RegionSys ι) (label : ι × MemOp) :
    Decidable (AllocsAndFrees s label) :=
  match label with
  | (p, .alloc size regIndex) => inferInstanceAs (Decidable (s.live p regIndex.toNat = none ∧
      (getFreeVmrgArea (s.mem.mm p) 0 size.toInt = some none →
        allocPages size.toInt ≤ (s.mem.dev .mram).freeFpList.length)))
  | (_, .free _) => .isTrue trivial
  | (_, .read _ _) => .isFalse id
  | (_, .write _ _ _) => .isFalse id
  | (_, .memmap _) => .isFalse id

/-- A single process, before its first call. -/
def loneLife (ramSize : ℕ) : LifeSys Unit := ⟨loneProcess ramSize, fun _ _ => false⟩

theorem loneLife_init {ramSize : ℕ} (h : ramSize ≤ 2147483647) :
    lifeSystem.init (loneLife ramSize) := ⟨loneProcess_init h, fun _ _ => rfl⟩

theorem free_ends_life_one_region :
    ∃ s : LifeSys Unit, s.live () 0 = some 100 ∧
      (EndsLife s () ↔ ∀ r, s.freed () r = false) ∧ LiveDisjoint s.toRegionSys () := by
  have hok : AllocsAndFrees (loneLife 512).toRegionSys ((), .alloc 100 0) ∧
      FreesOnce (loneLife 512).toRegionSys ((), .alloc 100 0) :=
    ⟨by decide +kernel, fun _ => by decide +kernel⟩
  have hrun : (lifeStep (loneLife 512) ((), .alloc 100 0)).any
      (fun s => decide (s.live () 0 = some 100)) = true := by decide +kernel
  obtain ⟨s, hs, hlive⟩ := (Option.any_eq_true _ _).mp hrun
  have hinit := loneLife_init (show 512 ≤ 2147483647 by norm_num)
  exact ⟨s, of_decide_eq_true hlive, free_ends_life_iff.1 s (.step (.init hinit) trivial hs) (),
    free_ends_life_iff.2 s (.step (.init hinit) hok hs) ()⟩

/-- Region 0 is freed twice, both times with return code 0; regions 1 and 2 are then
given the same bytes. -/
def freedTwice : List (Unit × MemOp) :=
  [((), .alloc 300 0), ((), .free 0), ((), .free 0), ((), .alloc 300 1), ((), .alloc 300 2)]

theorem repeated_free_overlaps :
    ∃ s1 s2 : LifeSys Unit,
      Reachable lifeSystem (fun s label => AllocsAndFrees s.toRegionSys label) s1 ∧
      s1.freed () 0 = true ∧ ¬EndsLife s1 () ∧
      Reachable lifeSystem (fun s label => AllocsAndFrees s.toRegionSys label) s2 ∧
      ¬LiveDisjoint s2.toRegionSys () := by
  have hinit : ∀ s, (System.ofStep (loneLife 512) lifeStep).init s →
      (lifeSystem : System (LifeSys Unit) (Unit × MemOp)).init s := by
    rintro s rfl
    exact loneLife_init (by norm_num)
  have hnext : ∀ s a t, (System.ofStep (loneLife 512) lifeStep).next s a t →
      (lifeSystem : System (LifeSys Unit) (Unit × MemOp)).next s a t := fun _ _ _ => id
  obtain ⟨s1, hs1, hp1⟩ := exists_reachable_of_runAll lifeStep
    (fun s label => AllocsAndFrees s.toRegionSys label) (loneLife 512) (freedTwice.take 2)
    (fun s => s.freed () 0 &&
      ((memCall (s.mem.pcb ()) (.free 0)).any fun (r : MemRet × Pcb) => decide (r.1.rc = 0)))
    (by decide +kernel)
  obtain ⟨s2, hs2, hp2⟩ := exists_reachable_of_runAll lifeStep
    (fun s label => AllocsAndFrees s.toRegionSys label) (loneLife 512) freedTwice
    (fun s => decide (s.live () 1 = some 300) && (decide (s.live () 2 = some 300) &&
      (decide (((s.mem.mm ()).symrgtbl 1).Has 0) && decide (((s.mem.mm ()).symrgtbl 2).Has 0))))
    (by decide +kernel)
  simp only [Bool.and_eq_true, decide_eq_true_eq, Option.any_eq_true] at hp1 hp2
  obtain ⟨hfreed, ⟨ret, proc⟩, hcall, hrc⟩ := hp1
  obtain ⟨hlive1, hlive2, hbyte1, hbyte2⟩ := hp2
  refine ⟨s1, s2, hs1.mono_system hinit hnext, hfreed, ?_, hs2.mono_system hinit hnext, ?_⟩
  · intro hends
    obtain ⟨⟨ret', hcall', hrc'⟩, -⟩ := hends 0 hfreed
    rw [hcall, Option.some.injEq, Prod.mk.injEq] at hcall'
    exact hrc' (hcall'.1 ▸ hrc)
  · intro hdisjoint
    exact hdisjoint 1 2 (by norm_num) (by simp [hlive1]) (by simp [hlive2]) 0 ⟨hbyte1, hbyte2⟩

end OsSim.Mem
