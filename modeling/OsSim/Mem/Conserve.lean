import OsSim.Mem.Frames

/-!
# Calls that conserve the frames

`ConserveInv` is `FramesInv` with the other half: no frame is lost, and the
processes that are gone own none. No call puts a frame back on a free list, so
`CallConserves` has to keep a call away from every path that drops one: a
growth that pops frames and fails, a growth over pages that have frames, and a
page fault whose victim is not in RAM.
-/

namespace OsSim.Mem
open OsSim.Base

variable {ι : Type} {gone gone' : ι → Prop} {s t : MemSys ι} {p : ι}

/-- The numbers of the frames of the devices. -/
def isFrame (dev : Devices) (slot : Device × ℕ) : Prop := slot.2 < frameCount (dev slot.1)

structure ConserveInv (gone : ι → Prop) (s : MemSys ι) : Prop where
  frames : FramesInv s
  covers : Covers s.own (isFree s.dev) (isFrame s.dev)
  gone_none : ∀ p, gone p → ∀ n, s.own (p, n) = none
  heap : ∀ p, ∃ brk fr, HeapIs (s.mm p) brk fr

/-- A growth that runs short has nothing to pop; one that is served maps pages
without a frame to frames the entries can hold, for a process that is not gone. -/
def GrowthConserves (gone : ι → Prop) (s : MemSys ι) (p : ι) (brk : ℕ) (incSz : ℤ) : Prop :=
  ((s.dev .mram).freeFpList.length < growthPages incSz → (s.dev .mram).freeFpList = []) ∧
    (growthPages incSz ≤ (s.dev .mram).freeFpList.length →
      (∀ f ∈ (s.dev .mram).freeFpList.take (growthPages incSz), f < 8192) ∧
      (∀ k < growthPages incSz, s.own (p, pagingPgn (toInt brk) + k) = none) ∧
      (0 < growthPages incSz → ¬gone p))

/-- A page fault evicts a page that is in RAM to a swap frame the entry can hold. -/
def FaultConserves (s : MemSys ι) (p : ι) (pgn : ℕ) : Prop :=
  pagingPagePresent ((s.mm p).pgd pgn) = false →
    ∀ vic ∈ (s.mm p).fifoPgn.getLast?, ∀ swpfpn ∈ (s.dev .activeMswp).freeFpList.head?,
      ResidentPte ((s.mm p).pgd vic) ∧ swpfpn < 2097152

def AccessConserves (s : MemSys ι) (p : ι) (rgid offset : ℤ) : Prop :=
  0 ≤ rgid → rgid < 30 → FaultConserves s p (pagingPgn ((s.pcb p).accessAddr rgid offset))

/-- The call drops no frame. -/
def CallConserves (gone : ι → Prop) (s : MemSys ι) (p : ι) : MemOp → Prop
  | .alloc size _ => ∀ v ∈ (s.mm p).mmap.head?, takeFit size.toInt v.vmFreergList = none →
      GrowthConserves gone s p v.sbrk (pagingPageAlignsz size.toInt)
  | .free _ => True
  | .read source offset => AccessConserves s p source.toInt offset.toInt
  | .write _ destination offset => AccessConserves s p destination.toInt offset.toInt
  | .memmap regs => regs.a1.toInt = sysmemIncOp → ∀ v ∈ (s.mm p).mmap.head?,
      0 ≤ validateOverlapVmArea (s.mm p) regs.a2.toInt (toInt v.sbrk)
        (toInt (toULong (v.sbrk + pagingPageAlignsz regs.a3.toInt))) →
      GrowthConserves gone s p v.sbrk regs.a3.toInt

instance [DecidablePred gone] (brk : ℕ) (incSz : ℤ) :
    Decidable (GrowthConserves gone s p brk incSz) := inferInstanceAs (Decidable (_ ∧ _))

instance (pgn : ℕ) : Decidable (FaultConserves s p pgn) := inferInstanceAs (Decidable (_ → _))

instance (rgid offset : ℤ) : Decidable (AccessConserves s p rgid offset) :=
  inferInstanceAs (Decidable (_ → _ → _))

instance [DecidablePred gone] (op : MemOp) : Decidable (CallConserves gone s p op) :=
  match op with
  | .alloc _ _ => inferInstanceAs (Decidable (∀ v ∈ (s.mm p).mmap.head?, _ → _))
  | .free _ => inferInstanceAs (Decidable True)
  | .read _ _ => inferInstanceAs (Decidable (AccessConserves ..))
  | .write _ _ _ => inferInstanceAs (Decidable (AccessConserves ..))
  | .memmap _ => inferInstanceAs (Decidable (_ → ∀ v ∈ (s.mm p).mmap.head?, _ → _))

theorem conserveInv_start (gone : ι → Prop) (ramSize swapSize : ℕ) :
    ConserveInv gone (.start ramSize swapSize) where
  frames := framesInv_start ramSize swapSize
  covers := by
    rintro ⟨d, f⟩ hf
    left
    cases d with
    | mram =>
      simp only [isFrame, MemSys.start, frameCount_ramDevice] at hf
      exact List.mem_range.mpr hf
    | activeMswp =>
      simp only [isFrame, MemSys.start, frameCount_ramDevice] at hf
      exact List.mem_range.mpr hf
  gone_none _ _ _ := pteSlot_zero
  heap _ := ⟨0, _, heapIs_fresh⟩

theorem ConserveInv.more_gone (h : ConserveInv gone s)
    (hnew : ∀ p, gone' p → gone p ∨ ∀ n, s.own (p, n) = none) : ConserveInv gone' s where
  frames := h.frames
  covers := h.covers
  gone_none p hp n := by
    rcases hnew p hp with hold | hnone
    · exact h.gone_none p hold n
    · exact hnone n
  heap := h.heap

theorem ConserveInv.congr (h : ConserveInv gone s) (hown : t.own = s.own)
    (hdev : ∀ d, SameShape (s.dev d) (t.dev d)) (hheap : ∀ q, ∃ brk fr, HeapIs (t.mm q) brk fr) :
    ConserveInv gone t where
  frames := h.frames.congr hown hdev
  covers := by
    rintro ⟨d, f⟩ hf
    have hframe : f < frameCount (t.dev d) := hf
    rw [frameCount_shape (hdev d)] at hframe
    rw [hown, isFree, (hdev d).freeFpList]
    exact h.covers (d, f) hframe
  gone_none q hq n := by
    rw [hown]
    exact h.gone_none q hq n
  heap := hheap

variable [DecidableEq ι]

theorem conserveInv_same (h : ConserveInv gone s) {proc : Pcb} (hpgd : proc.mm.pgd = (s.mm p).pgd)
    (hdev : ∀ d, SameShape (s.dev d) (proc.dev d)) (hheap : ∃ brk fr, HeapIs proc.mm brk fr) :
    ConserveInv gone (s.put p proc) := by
  apply h.congr _ hdev (heap_put h.heap hheap)
  rw [own_put, hpgd, withPgd_self]

/-! ### Growths -/

theorem covers_mapFrames {own : ι × ℕ → Option (Device × ℕ)} (frames : List ℕ) (pgn : ℕ)
    {pgd : ℕ → BitVec 32} {free free' all : Device × ℕ → Prop}
    (h : Covers (withPgd own p pgd) free all) (hfit : ∀ f ∈ frames, f < 8192)
    (hnone : ∀ k, pgn ≤ k → k < pgn + frames.length → pteSlot (pgd k) = none)
    (hfree : ∀ slot, free slot → free' slot ∨ ∃ f ∈ frames, slot = (.mram, f)) :
    Covers (withPgd own p (mapFrames pgn frames pgd)) free' all := by
  induction frames generalizing pgn pgd free with
  | nil =>
    intro slot hslot
    rcases h slot hslot with hf | hx
    · exact Or.inl ((hfree slot hf).resolve_right (by simp))
    · exact Or.inr hx
  | cons f frames ih =>
    rw [mapFrames]
    have hfirst : Covers (withPgd own p (Function.update pgd pgn (pteSetFpn (pgd pgn) f)))
        (fun slot => free slot ∧ slot ≠ (.mram, f)) all := by
      rw [withPgd_update, pteSlot_pteSetFpn _ (hfit f (List.mem_cons_self ..))]
      apply h.assign
      · simp only [withPgd, if_true]
        exact hnone pgn le_rfl (by simp)
      · intro slot hslot
        by_cases heq : slot = (.mram, f)
        · exact Or.inr heq
        · exact Or.inl ⟨hslot, heq⟩
    apply ih (pgn + 1) hfirst (fun g hg => hfit g (List.mem_cons_of_mem _ hg))
    · intro k hk hk'
      rw [Function.update_of_ne (by omega)]
      exact hnone k (by omega) (by rw [List.length_cons]; omega)
    · rintro slot ⟨hslot, hne⟩
      rcases hfree slot hslot with hstill | ⟨g, hg, heq⟩
      · exact Or.inl hstill
      · rcases List.mem_cons.mp hg with rfl | hg
        · exact absurd heq hne
        · exact Or.inr ⟨g, hg, heq⟩

theorem conserveInv_grow (h : ConserveInv gone s) {brk : ℕ} {fr : List VmRg} {incSz rc : ℤ}
    (hok : GrowthConserves gone s p brk incSz) {proc : Pcb}
    (hgrow : (s.pcb p).grow brk fr incSz = some (rc, proc)) :
    ConserveInv gone (s.put p proc) := by
  unfold Pcb.grow at hgrow
  dsimp only at hgrow
  split_ifs at hgrow with hshort
  · obtain ⟨-, rfl⟩ := Prod.mk.inj (Option.some.inj hgrow)
    have hnil := hok.1 hshort
    refine conserveInv_same h rfl (fun d => ?_) ⟨_, _, rfl⟩
    cases d with
    | mram => exact ⟨rfl, rfl, hnil.symm⟩
    | activeMswp => exact .refl _
  · obtain ⟨-, rfl⟩ := Prod.mk.inj (Option.some.inj hgrow)
    have hn : growthPages incSz ≤ (s.dev .mram).freeFpList.length := not_lt.mp hshort
    obtain ⟨hfit, hnone, hlive⟩ := hok.2 hn
    have hlen : ((s.dev .mram).freeFpList.take (growthPages incSz)).reverse.length =
        growthPages incSz := by
      rw [List.length_reverse, List.length_take, Nat.min_eq_left hn]
    refine ⟨framesInv_growTo h.frames brk fr hfit hn, ?_, fun q hq n => ?_,
      heap_put h.heap ⟨_, _, rfl⟩⟩
    · have hcovers : Covers (s.put p ((s.pcb p).growTo brk fr incSz)).own
          (isFree ((s.pcb p).growTo brk fr incSz).dev) (isFrame s.dev) := by
        rw [own_put]
        refine covers_mapFrames ((s.dev .mram).freeFpList.take (growthPages incSz)).reverse _
          ((withPgd_self s p).symm ▸ h.covers) (fun f hf => hfit f (List.mem_reverse.mp hf))
          (fun k hk hk' => ?_) fun ⟨d, f⟩ hf => ?_
        · rw [hlen] at hk'
          have hk0 := hnone (k - pagingPgn (toInt brk)) (by omega)
          rwa [show pagingPgn (toInt brk) + (k - pagingPgn (toInt brk)) = k by omega] at hk0
        · cases d with
          | mram =>
            have hmem : f ∈ (s.dev .mram).freeFpList := hf
            rw [← List.take_append_drop (growthPages incSz) (s.dev .mram).freeFpList] at hmem
            rcases List.mem_append.mp hmem with htake | hdrop
            · exact Or.inr ⟨f, List.mem_reverse.mpr htake, rfl⟩
            · exact Or.inl hdrop
          | activeMswp => exact Or.inl hf
      rintro ⟨d, f⟩ hf
      apply hcovers (d, f)
      have hframe : f < frameCount (((s.pcb p).growTo brk fr incSz).dev d) := hf
      rwa [frameCount_growTo] at hframe
    · rw [own_put, withPgd]
      split_ifs with hqp
      · obtain rfl : q = p := hqp
        have h0 : growthPages incSz = 0 := Nat.eq_zero_of_not_pos fun hpos => hlive hpos hq
        have hsame : ((s.pcb q).growTo brk fr incSz).mm.pgd = (s.mm q).pgd := by
          simp only [Pcb.growTo, h0, List.take_zero, List.reverse_nil, mapFrames, MemSys.pcb]
        rw [hsame]
        exact h.gone_none q hq n
      · exact h.gone_none q hq n

/-! ### Accesses -/

theorem conserveInv_page (h : ConserveInv gone s) {pgn : ℕ} (hok : FaultConserves s p pgn)
    {proc : Pcb} (hstep : PageStep (s.pcb p) pgn proc) : ConserveInv gone (s.put p proc) := by
  cases hstep with
  | hit hp hmm hdev =>
    obtain ⟨brk, fr, hheap⟩ := h.heap p
    have hpgd : proc.mm.pgd = (s.mm p).pgd := congrArg Mm.pgd hmm
    exact conserveInv_same h hpgd hdev ⟨brk, fr, hmm ▸ hheap⟩
  | fault vic swpfpn older frames habsent hfifo hfree hmm hram hmswp =>
    change (s.mm p).fifoPgn = older ++ [vic] at hfifo
    change (s.dev .activeMswp).freeFpList = swpfpn :: frames at hfree
    obtain ⟨hvic, hswp⟩ := hok habsent vic (by simp [hfifo]) swpfpn (by simp [hfree])
    have hown := own_swapIn proc hmm hswp (by rintro rfl; simp [MemSys.pcb, hvic.1] at habsent)
    have hvicOwn : s.own (p, vic) = some (.mram, pagingFpn ((s.mm p).pgd vic)) := hvic.pteSlot_eq
    refine ⟨framesInv_fault h.frames habsent hvic hswp hfree hmm hram hmswp, ?_, fun q hq n => ?_,
      heap_put h.heap ?_⟩
    · have hcovers : Covers (s.put p proc).own (isFree proc.dev) (isFrame s.dev) := by
        rw [hown]
        refine h.covers.handOver hvicOwn (pteSlot_eq_none.mpr habsent) ?_
        rintro ⟨d, f⟩ hf
        cases d with
        | mram => exact Or.inl (show f ∈ _ from hram.freeFpList ▸ hf)
        | activeMswp =>
          have hmem : f ∈ (s.dev .activeMswp).freeFpList := hf
          rw [hfree] at hmem
          rcases List.mem_cons.mp hmem with rfl | hmem
          · exact Or.inr rfl
          · exact Or.inl (show f ∈ _ from hmswp.freeFpList ▸ hmem)
      rintro ⟨d, f⟩ hf
      apply hcovers (d, f)
      have hframe : f < frameCount (proc.dev d) := hf
      rwa [frameCount_taken hram hmswp] at hframe
    · -- a process that is gone has no page to evict
      have hqp : q ≠ p := by
        rintro rfl
        rw [h.gone_none q hq vic] at hvicOwn
        exact absurd hvicOwn (by simp)
      rw [hown, Function.update_of_ne (by simp [hqp]), Function.update_of_ne (by simp [hqp])]
      exact h.gone_none q hq n
    · obtain ⟨brk, fr, hheap⟩ := h.heap p
      exact ⟨brk, fr, hmm ▸ hheap⟩

theorem conserveInv_access (h : ConserveInv gone s) {rgid offset : ℤ}
    (hok : AccessConserves s p rgid offset) {proc : Pcb}
    (hstep : AccessStep (s.pcb p) rgid offset proc) : ConserveInv gone (s.put p proc) := by
  cases hstep with
  | refused heq =>
    rw [heq, MemSys.put_pcb]
    exact h
  | page h0 h30 hpage => exact conserveInv_page h (hok h0 h30) hpage

/-! ### Calls -/

theorem conserveInv_alloc (h : ConserveInv gone s) {size regIndex : BitVec 32}
    (hok : CallConserves gone s p (.alloc size regIndex)) {rc : ℤ} {addr : Option ℤ} {proc : Pcb}
    (hcall : alloc (s.pcb p) 0 regIndex.toInt size.toInt = some (rc, addr, proc)) :
    ConserveInv gone (s.put p proc) := by
  obtain ⟨brk, fr, hheap⟩ := h.heap p
  have hmm : (s.mm p).mmap = [⟨0, 0, brk, brk, fr⟩] := hheap
  obtain ⟨mid, brk', hmid, -, hpgd, hdev, fr', hheap'⟩ := alloc_cases hheap hcall
  rcases hmid with ⟨-, rfl⟩ | ⟨hfit, rc', hgrow⟩
  · exact conserveInv_same h hpgd (fun d => hdev ▸ .refl _) ⟨brk', fr', hheap'⟩
  · have hgrowth : GrowthConserves gone s p brk (pagingPageAlignsz size.toInt) :=
      hok ⟨0, 0, brk, brk, fr⟩ (by simp [hmm]) hfit
    apply (conserveInv_grow h hgrowth hgrow).congr
    · rw [own_put, own_put, hpgd]
    · intro d
      change SameShape (mid.dev d) (proc.dev d)
      rw [hdev]
      exact .refl _
    · exact heap_put h.heap ⟨brk', fr', hheap'⟩

theorem conserveInv_memmap (h : ConserveInv gone s) {regs regs' : ScRegs}
    (hok : CallConserves gone s p (.memmap regs)) {rc : ℤ} {proc : Pcb}
    (hcall : sysMemmap (s.pcb p) regs = some (rc, regs', proc)) :
    ConserveInv gone (s.put p proc) := by
  obtain ⟨brk, fr, hheap⟩ := h.heap p
  have hmm : (s.mm p).mmap = [⟨0, 0, brk, brk, fr⟩] := hheap
  rcases sysMemmap_step hcall with ⟨hinc, rc', hcall'⟩ | ⟨-, hsame, hdev⟩
  · by_cases hid : regs.a2.toInt ≤ 0
    · rw [incVmaLimit_heap hheap hid] at hcall'
      split_ifs at hcall' with hoverlap
      · obtain ⟨-, rfl⟩ := Prod.mk.inj (Option.some.inj hcall')
        rw [MemSys.put_pcb]
        exact h
      · have hgrowth : GrowthConserves gone s p brk regs.a3.toInt :=
          hok hinc ⟨0, 0, brk, brk, fr⟩ (by simp [hmm]) (not_lt.mp hoverlap)
        exact conserveInv_grow h hgrowth hcall'
    · have hheap' : HeapIs (s.pcb p).mm brk fr := hheap
      simp [incVmaLimit, getVmaByNum_heap_pos hheap' (not_le.mp hid)] at hcall'
  · have hpgd : proc.mm.pgd = (s.mm p).pgd := congrArg Mm.pgd hsame
    exact conserveInv_same h hpgd hdev ⟨brk, fr, hsame ▸ hheap⟩

theorem conserveInv_call (h : ConserveInv gone s) {op : MemOp} (hok : CallConserves gone s p op)
    (hnext : memStep s (p, op) = some t) : ConserveInv gone t := by
  obtain ⟨⟨ret, proc⟩, hcall, rfl⟩ := Option.map_eq_some_iff.mp hnext
  change memCall (s.pcb p) op = some (ret, proc) at hcall
  change ConserveInv gone (s.put p proc)
  cases memCall_step hcall with
  | alloc halloc => exact conserveInv_alloc h hok halloc
  | @free regIndex rc hfree =>
    obtain ⟨brk, fr, hheap⟩ := h.heap p
    have hheap' : HeapIs (s.pcb p).mm brk fr := hheap
    obtain heq | heq := free_cases hheap' regIndex.toInt
    all_goals obtain ⟨-, rfl⟩ := Prod.mk.inj (Option.some.inj (hfree.symm.trans heq))
    · rw [MemSys.put_pcb]
      exact h
    · exact conserveInv_same h rfl (fun _ => .refl _) ⟨_, _, rfl⟩
  | read hstep => exact conserveInv_access h hok hstep
  | write hstep => exact conserveInv_access h hok hstep
  | memmap hsys => exact conserveInv_memmap h hok hsys

end OsSim.Mem
