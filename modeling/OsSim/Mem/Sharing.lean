import OsSim.Mem.Frames

/-!
# Growing heaps never share a frame

Any number of processes grow their heaps through `SYSMEM_INC_OP` over one `mram`
whose frame numbers fit the entries. Whether the growths succeed or fail, each
page below `vm_end` has a RAM frame of its own.
-/

namespace OsSim.Mem
open OsSim.Base

variable {ι : Type}

/-- Page `n` of `p` starts below `vm_end`. -/
def Below (s : MemSys ι) (p : ι) (n : ℕ) : Prop := ∃ v ∈ (s.mm p).mmap, pagingPagesz * n < v.vmEnd

structure Unshared (s : MemSys ι) : Prop where
  area : ∀ p, ∃ v, (s.mm p).mmap = [v] ∧ v.vmEnd = v.sbrk ∧ pagingPagesz ∣ v.vmEnd
  index : ∀ p n, Below s p n → n < pagingMaxPgn
  present : ∀ p n, Below s p n → pagingPagePresent ((s.mm p).pgd n) = true
  swapped : ∀ p n, Below s p n → pagingPageSwapped ((s.mm p).pgd n) = false
  distinct : ∀ p n q m, Below s p n → Below s q m →
    pagingFpn ((s.mm p).pgd n) = pagingFpn ((s.mm q).pgd m) → (p, n) = (q, m)
  inside : ∀ p n, Below s p n → pagingFpn ((s.mm p).pgd n) < frameCount (s.dev .mram)
  free : ∀ p n, Below s p n → pagingFpn ((s.mm p).pgd n) ∉ (s.dev .mram).freeFpList

instance (s : MemSys ι) (p : ι) (n : ℕ) : Decidable (Below s p n) :=
  inferInstanceAs (Decidable (∃ v ∈ (s.mm p).mmap, _))

/-- System call 17 with `SYSMEM_INC_OP` on area 0. -/
def incRegs (incSz : BitVec 32) : ScRegs := ⟨BitVec.ofInt 32 sysmemIncOp, 0, incSz⟩

/-- A growth by 1 to 2^30 bytes. -/
def IsGrowth : MemOp → Prop
  | .memmap regs => ∃ incSz : BitVec 32, regs = incRegs incSz ∧ 1 ≤ incSz.toNat ∧
      incSz.toNat ≤ 1073741824
  | _ => False

structure SharingInv (ramSize : ℕ) (s : MemSys ι) : Prop where
  frames : FramesInv s
  count : frameCount (s.dev .mram) = ramSize / 256
  proc : ∀ p, ∃ pages, ProcInv s p pages [⟨0, 0⟩]
  swapped : NoSwapped s

theorem SharingInv.unshared {ramSize : ℕ} {s : MemSys ι} (h : SharingInv ramSize s) :
    Unshared s := by
  have hbelow : ∀ p n, Below s p n → n < 8192 ∧ s.own (p, n) ≠ none := by
    intro p n hn
    obtain ⟨pages, hp⟩ := h.proc p
    obtain ⟨v, hv, hlt⟩ := hn
    rw [show (s.mm p).mmap = _ from hp.heap, List.mem_singleton] at hv
    subst hv
    have hmax := hp.le_max
    have hlt' : 256 * n < 256 * pages := hlt
    exact ⟨by omega, hp.mapped n (by omega)⟩
  have hpresent : ∀ p n, Below s p n → pagingPagePresent ((s.mm p).pgd n) = true := fun p n hn =>
    Bool.eq_true_of_not_eq_false fun hf => (hbelow p n hn).2 (pteSlot_eq_none.mpr hf)
  have hown : ∀ p n, Below s p n → s.own (p, n) = some (.mram, pagingFpn ((s.mm p).pgd n)) :=
    fun p n hn => ResidentPte.pteSlot_eq ⟨hpresent p n hn, h.swapped p n (hpresent p n hn)⟩
  refine ⟨fun p => ?_, fun p n hn => (hbelow p n hn).1.trans (by norm_num), hpresent,
    fun p n hn => h.swapped p n (hpresent p n hn), fun p n q m hn hm heq => ?_,
    fun p n hn => h.frames.inside (hown p n hn), fun p n hn => h.frames.owns.busy (hown p n hn)⟩
  · obtain ⟨pages, hp⟩ := h.proc p
    exact ⟨_, hp.heap, rfl, Dvd.intro _ rfl⟩
  · exact h.frames.owns.alone (hown p n hn) (heq ▸ hown q m hm)

/-- Any number of processes after `init_mm` on a zero-filled page directory, over
an `mram` after `init_memphy`. What else `malloc` left is arbitrary. -/
def growthSystem [DecidableEq ι] (ramSize swapSize : ℕ) : System (MemSys ι) (ι × MemOp) where
  init s := (∃ tail old randomflg, initMemphy tail old ramSize randomflg = some (s.dev .mram)) ∧
    s.dev .activeMswp = ramDevice swapSize ∧
    ∀ p, ∃ symrgtbl fifoPgn, s.mm p = initMm (fun _ => 0) symrgtbl fifoPgn
  next s label t := memStep s label = some t

theorem sharingInv_init [DecidableEq ι] {ramSize swapSize : ℕ} (hmin : 2 ≤ ramSize / 256)
    {s : MemSys ι} (h : (growthSystem ramSize swapSize).init s) : SharingInv ramSize s := by
  obtain ⟨⟨tail, old, randomflg, hram⟩, hswap, hmm⟩ := h
  obtain ⟨hmax, hfree⟩ := initMemphy_free hmin hram
  have hcount : frameCount (s.dev .mram) = ramSize / 256 := by
    rw [frameCount, hmax]
    omega
  have hpgd : ∀ p n, (s.mm p).pgd n = 0 := fun p n => by
    obtain ⟨symrgtbl, fifoPgn, hp⟩ := hmm p
    rw [hp]
    rfl
  refine ⟨framesInv_init hpgd fun d => ?_, hcount, fun p => ⟨0, procInv_init ?_ ?_⟩, fun p n hn => ?_⟩
  · cases d with
    | mram => rw [hfree, hcount]
    | activeMswp =>
      rw [hswap, frameCount_ramDevice]
      rfl
  · obtain ⟨symrgtbl, fifoPgn, hp⟩ := hmm p
    rw [hp]
    rfl
  · rw [hfree, hcount]
  · have h0 : pagingPagePresent 0 = false := by decide
    rw [hpgd, h0] at hn
    simp at hn

theorem growthFits_of_few {dev : Devices} {incSz : ℤ}
    (hfrom : FramesFrom (frameCount (dev .mram)) (dev .mram).freeFpList)
    (hcount : frameCount (dev .mram) ≤ 8192) (h0 : 0 ≤ incSz) (h : incSz ≤ 1073741824) :
    GrowthFits dev incSz := by
  refine ⟨?_, fun _ f hf => (hfrom.mem_iff.mp (List.mem_of_mem_take hf)).2.trans_le hcount⟩
  rw [pagingPageAlignsz_eq h0 (by omega)]
  omega

variable [DecidableEq ι]

theorem sharingInv_grow {ramSize : ℕ} (hram : ramSize / 256 ≤ 8192) {s : MemSys ι}
    (h : SharingInv ramSize s) (p : ι) {op : MemOp} (hop : IsGrowth op) :
    ∃ ret proc, memCall (s.pcb p) op = some (ret, proc) ∧ SharingInv ramSize (s.put p proc) := by
  obtain ⟨pages, hp⟩ := h.proc p
  rcases op with _ | _ | _ | _ | regs
  all_goals try exact hop.elim
  obtain ⟨incSz, rfl, hpos, hle⟩ := hop
  have hint : incSz.toInt = incSz.toNat := BitVec.toInt_eq_toNat_of_lt (by omega)
  have hfits : GrowthFits s.dev incSz.toInt :=
    growthFits_of_few (h.frames.free .mram) (h.count.trans_le hram) (by omega) (by omega)
  have hcall : memCall (s.pcb p) (.memmap (incRegs incSz)) =
      ((s.pcb p).grow (256 * pages) [⟨0, 0⟩] incSz.toInt).map fun r => (⟨0, none⟩, r.2) := by
    have hid : (0 : BitVec 32).toInt = 0 := by decide
    rw [memCall, incRegs, sysMemmap_inc, hid, incVmaLimit_zero (show HeapIs (s.pcb p).mm _ _ from hp.heap),
      Option.map_map]
    rfl
  rw [hcall]
  have hothers : ∀ proc : Pcb, (proc.dev .mram).freeFpList.length ≤ (s.dev .mram).freeFpList.length →
      frameCount (proc.dev .mram) = frameCount (s.dev .mram) →
      (∃ pages', ProcInv (s.put p proc) p pages' [⟨0, 0⟩]) →
      ∀ q, ∃ pages', ProcInv (s.put p proc) q pages' [⟨0, 0⟩] := by
    intro proc hlen hcount hself q
    by_cases hqp : q = p
    · exact hqp ▸ hself
    · obtain ⟨pq, hq⟩ := h.proc q
      exact ⟨pq, hq.put_other hqp hlen hcount⟩
  rcases grow_cases h.frames hp hfits with ⟨-, hgrow⟩ | ⟨hn, hgrow⟩
  · rw [hgrow]
    obtain ⟨hframes, hproc⟩ := growShort_inv h.frames hp
    exact ⟨_, _, rfl, hframes, h.count, hothers _ (Nat.zero_le _) rfl ⟨_, hproc⟩,
      noSwapped_put h.swapped (h.swapped p)⟩
  · rw [hgrow]
    refine ⟨_, _, rfl, framesInv_growTo h.frames _ _ (hfits.2 hn) hn, h.count, hothers _ ?_ ?_
      ⟨_, procInv_growTo h.frames hp hfits hn⟩, noSwapped_growTo h.swapped hp⟩
    · rw [growTo_dev, Function.update_self, List.length_drop]
      exact Nat.sub_le _ _
    · exact frameCount_growTo s p _ _ _ .mram

/-- After every sequence of growths, succeeding or failing, the pages below
`vm_end` have RAM frames of their own, and the next growth is defined. -/
theorem growths_unshared {ramSize : ℕ} (swapSize : ℕ) (hmin : 2 ≤ ramSize / 256)
    (hmax : ramSize / 256 ≤ 8192) {s : MemSys ι}
    (h : Reachable (growthSystem ramSize swapSize) (fun _ label => IsGrowth label.2) s) :
    Unshared s ∧ ∀ p op, IsGrowth op → memStep s (p, op) ≠ none := by
  have hinv : SharingInv ramSize s := by
    refine Reachable.invariant (SharingInv ramSize) (fun s0 h0 => sharingInv_init hmin h0) ?_ h
    intro s1 label t hs hop hnext
    obtain ⟨⟨ret, proc⟩, hcall, rfl⟩ := Option.map_eq_some_iff.mp hnext
    obtain ⟨ret', proc', hcall', hinv⟩ := sharingInv_grow hmax hs label.1 hop
    obtain ⟨-, rfl⟩ := Prod.mk.inj (Option.some.inj (hcall.symm.trans hcall'))
    exact hinv
  refine ⟨hinv.unshared, fun p op hop => ?_⟩
  obtain ⟨ret, proc, hcall, -⟩ := sharingInv_grow hmax hinv p hop
  simp [memStep, hcall]

/-- Two processes over two frames: the first takes one page, the second asks for
two, fails, and loses the remaining frame. -/
theorem growths_unshared_two_processes :
    ∃ s : MemSys Bool, Below s false 0 ∧ Unshared s ∧
      ∀ p op, IsGrowth op → memStep s (p, op) ≠ none := by
  have hstart : Reachable (growthSystem (ι := Bool) 512 512) (fun _ label => IsGrowth label.2)
      (.start 512 512) :=
    .init ⟨⟨[], .zero, 1, initMemphy_zero 512⟩, rfl, fun _ => ⟨_, _, rfl⟩⟩
  have hrun : ((memStep (MemSys.start 512 512) (false, .memmap (incRegs 200))).bind fun t =>
      memStep t (true, .memmap (incRegs 512))).any
        (fun s => decide (Below s false 0)) = true := by decide +kernel
  have hfirst : IsGrowth (.memmap (incRegs 200)) := ⟨200, rfl, by decide⟩
  have hsecond : IsGrowth (.memmap (incRegs 512)) := ⟨512, rfl, by decide⟩
  obtain ⟨s, hs, hbelow⟩ := (Option.any_eq_true _ _).mp hrun
  obtain ⟨t, ht, hs⟩ := Option.bind_eq_some_iff.mp hs
  have hreach := Reachable.step (Reachable.step hstart hfirst ht) hsecond hs
  exact ⟨s, of_decide_eq_true hbelow, growths_unshared 512 (by decide) (by decide) hreach⟩

end OsSim.Mem
