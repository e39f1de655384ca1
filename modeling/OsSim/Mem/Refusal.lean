import OsSim.Mem.Bounds
import OsSim.Mem.FailedGrowth
import OsSim.Mem.Frames

/-!
# Errors that are not reported (libmem.c)

Two tests the callers rely on. The region id: `get_symrg_byid` lets the number one
past the table through (`libmem.c:68`), `__free` tests again (`libmem.c:151`), and
`__alloc` indexes `symrgtbl` without any test. The page fault: `pg_getpage` drops
the return codes of `find_victim_page` and `MEMPHY_get_freefp`, and what
`pg_getval` and `pg_setval` answer is dropped by `__read` and `__write`.
-/

namespace OsSim.Mem
open OsSim.Base

variable {ι : Type}

/-! ### Region ids -/

/-- The region id a call is given. -/
def MemOp.regId : MemOp → Option (BitVec 32)
  | .alloc _ regIndex => some regIndex
  | .free regIndex => some regIndex
  | .read source _ => some source
  | .write _ destination _ => some destination
  | .memmap _ => none

/-- The call keeps to the tables, reports an error and leaves the free regions, the
break, the page table and the devices as they were. -/
def IdRefused (proc : Pcb) (op : MemOp) : Prop :=
  ∃ ret proc', memCall proc op = some (ret, proc') ∧ ret.rc ≠ 0 ∧
    proc'.mm.mmap = proc.mm.mmap ∧ proc'.mm.pgd = proc.mm.pgd ∧ proc'.dev = proc.dev

/-- `libfree`, and `libread` and `libwrite` of an id other than the one past the
table. -/
def IdTested : MemOp → Prop
  | .alloc _ _ => False
  | .free _ => True
  | .read source _ => source.toNat ≠ 30
  | .write _ destination _ => destination.toNat ≠ 30
  | .memmap _ => False

instance (op : MemOp) : Decidable (IdTested op) :=
  match op with
  | .alloc _ _ => .isFalse id
  | .free _ => .isTrue trivial
  | .read source _ => inferInstanceAs (Decidable (source.toNat ≠ 30))
  | .write _ destination _ => inferInstanceAs (Decidable (destination.toNat ≠ 30))
  | .memmap _ => .isFalse id

theorem toInt_outside {rgid : BitVec 32} (hout : 30 ≤ rgid.toNat) :
    rgid.toInt < 0 ∨ 30 ≤ rgid.toInt := by
  rw [BitVec.toInt_eq_toNat_cond]
  split_ifs <;> omega

theorem toInt_eq_thirty {rgid : BitVec 32} : rgid.toInt = 30 ↔ rgid.toNat = 30 := by
  have hlt := rgid.isLt
  rw [BitVec.toInt_eq_toNat_cond]
  split_ifs <;> omega

theorem getSymrgByid_outside (mm : Mm) {rgid : BitVec 32} (hout : 30 ≤ rgid.toNat) :
    getSymrgByid mm rgid.toInt = if rgid.toNat = 30 then none else some none := by
  have hint := toInt_outside hout
  rw [getSymrgByid]
  by_cases h30 : rgid.toNat = 30
  · rw [toInt_eq_thirty.mpr h30, if_neg (by simp), if_pos (by simp), if_pos h30]
  · have hne : rgid.toInt ≠ 30 := fun h => h30 (toInt_eq_thirty.mp h)
    rw [if_pos (by simp only [Nat.cast_ofNat]; omega), if_neg h30]

theorem setSymrg_outside (mm : Mm) {rgid : BitVec 32} (hout : 30 ≤ rgid.toNat) (rgnode : VmRg) :
    setSymrg mm rgid.toInt rgnode = none := by
  have hint := toInt_outside hout
  rw [setSymrg, if_neg (by simp only [Nat.cast_ofNat]; omega)]

section Outside
variable {proc : Pcb} {brk : ℕ} {fr : List VmRg} {rgid : BitVec 32}

/-- Either the table is indexed out of range, or a growth has enlisted its region
before the call gives up. -/
theorem alloc_outside (hheap : HeapIs proc.mm brk fr) (hout : 30 ≤ rgid.toNat) (size : ℤ) :
    alloc proc 0 rgid.toInt size = none ∨
      ∃ proc' brk' rg, alloc proc 0 rgid.toInt size = some (-1, none, proc') ∧
        HeapIs proc'.mm brk' (rg :: fr) := by
  cases hfit : takeFit size fr with
  | some found =>
    rw [alloc_fit hheap hfit, setSymrg_outside _ hout]
    exact Or.inl rfl
  | none =>
    cases hgrow : proc.grow brk fr (pagingPageAlignsz size) with
    | none => exact Or.inl (alloc_grow_none hheap hfit hgrow)
    | some grown =>
      obtain ⟨brk', hheap'⟩ := grow_heapIs hgrow
      rw [alloc_grow hheap hfit hgrow hheap']
      cases takeFit size (growthRg brk size :: fr) with
      | none => exact Or.inr ⟨_, brk', growthRg brk size, rfl, rfl⟩
      | some found =>
        simp only [setSymrg_outside _ hout]
        exact Or.inl rfl

theorem alloc_not_idRefused (hheap : HeapIs proc.mm brk fr) (hout : 30 ≤ rgid.toNat)
    (size : BitVec 32) : ¬IdRefused proc (.alloc size rgid) := by
  intro h
  obtain ⟨ret, proc', hcall, -, hmmap, -⟩ := h
  obtain ⟨addr, halloc⟩ := alloc_of_memCall hcall
  obtain hnone | ⟨mid2, brk', rg, hsome, hheap'⟩ := alloc_outside hheap hout size.toInt
  · rw [hnone] at halloc
    simp at halloc
  · rw [hsome] at halloc
    simp only [Option.some.injEq, Prod.mk.injEq] at halloc
    have hmid : mid2 = proc' := halloc.2.2
    have hlong : HeapIs proc.mm brk' (rg :: fr) := by
      rw [HeapIs, ← hmmap, ← hmid]
      exact hheap'
    have hlists := congrArg (fun areas : List VmArea => areas.map fun v => v.vmFreergList.length)
      ((show proc.mm.mmap = _ from hlong).symm.trans hheap)
    simp at hlists

theorem free_idRefused (hout : 30 ≤ rgid.toNat) : IdRefused proc (.free rgid) := by
  have hcall : libfree proc rgid = some (-1, proc) := free_outside (toInt_outside hout)
  exact ⟨⟨-1, none⟩, proc, by rw [memCall, hcall]; rfl, by norm_num, rfl, rfl, rfl⟩

theorem read_outside (hheap : HeapIs proc.mm brk fr) (hout : 30 ≤ rgid.toNat) (offset : ℤ) :
    read proc 0 rgid.toInt offset =
      if rgid.toNat = 30 then none else some (-1, none, proc) := by
  rw [read, getSymrgByid_outside _ hout, getVmaByNum_heap hheap le_rfl]
  split_ifs
  · rfl
  · rfl

theorem write_outside (hheap : HeapIs proc.mm brk fr) (hout : 30 ≤ rgid.toNat) (offset : ℤ)
    (value : Byte) :
    write proc 0 rgid.toInt offset value =
      if rgid.toNat = 30 then none else some (-1, proc) := by
  rw [write, getSymrgByid_outside _ hout, getVmaByNum_heap hheap le_rfl]
  split_ifs
  · rfl
  · rfl

theorem read_idRefused_iff (hheap : HeapIs proc.mm brk fr) (hout : 30 ≤ rgid.toNat)
    (offset : BitVec 32) : IdRefused proc (.read rgid offset) ↔ rgid.toNat ≠ 30 := by
  have hread := read_outside hheap hout offset.toInt
  constructor
  · intro h h30
    obtain ⟨ret, proc', hcall, -⟩ := h
    rw [if_pos h30] at hread
    simp [memCall, libread, hread] at hcall
  · intro h30
    rw [if_neg h30] at hread
    exact ⟨⟨-1, none⟩, proc, by simp [memCall, libread, hread], by norm_num, rfl, rfl, rfl⟩

theorem write_idRefused_iff (hheap : HeapIs proc.mm brk fr) (hout : 30 ≤ rgid.toNat) (data : Byte)
    (offset : BitVec 32) : IdRefused proc (.write data rgid offset) ↔ rgid.toNat ≠ 30 := by
  have hwrite := write_outside hheap hout offset.toInt data
  constructor
  · intro h h30
    obtain ⟨ret, proc', hcall, -⟩ := h
    rw [if_pos h30] at hwrite
    simp [memCall, libwrite, hwrite] at hcall
  · intro h30
    rw [if_neg h30] at hwrite
    exact ⟨⟨-1, none⟩, proc, by simp [memCall, libwrite, hwrite], by norm_num, rfl, rfl, rfl⟩

end Outside

section Run
variable [DecidableEq ι] {s : MemSys ι}

/-- In every reachable state, a call with an id outside the table is refused exactly
when its id is tested: always by `libfree`, by `libread` and `libwrite` unless it is
the one past the table, never by `liballoc`. -/
theorem region_id_refused_iff (h : Reachable anySystem (fun _ _ => True) s) (p : ι) {op : MemOp}
    {rgid : BitVec 32} (hop : op.regId = some rgid) (hout : 30 ≤ rgid.toNat) :
    IdRefused (s.pcb p) op ↔ IdTested op := by
  obtain ⟨brk, fr, hheap⟩ : ∃ brk fr, HeapIs (s.pcb p).mm brk fr := anySystem_heapIs h p
  cases op with
  | alloc size regIndex =>
    obtain rfl := Option.some.inj hop
    exact iff_of_false (alloc_not_idRefused hheap hout size) id
  | free regIndex =>
    obtain rfl := Option.some.inj hop
    exact iff_of_true (free_idRefused hout) trivial
  | read source offset =>
    obtain rfl := Option.some.inj hop
    exact read_idRefused_iff hheap hout offset
  | write data destination offset =>
    obtain rfl := Option.some.inj hop
    exact write_idRefused_iff hheap hout data offset
  | memmap regs => simp [MemOp.regId] at hop

end Run

theorem region_id_refused_huge :
    IdRefused ((MemSys.start 512 512 : MemSys Unit).pcb ()) (.read 4294967295 0) ↔
      IdTested (.read 4294967295 0) :=
  region_id_refused_iff (.init fun _ => ⟨_, _, _, rfl⟩) ()
    (show MemOp.regId (.read 4294967295 0) = some 4294967295 from rfl) (by decide)

/-- `libread` of region 30 and `liballoc` to it index past the table. -/
theorem region_thirty_not_refused :
    ∃ s : MemSys Unit, Reachable anySystem (fun _ _ => True) s ∧
      memCall (s.pcb ()) (.read 30 0) = none ∧ ¬IdRefused (s.pcb ()) (.read 30 0) ∧
      memCall (s.pcb ()) (.alloc 100 30) = none ∧ ¬IdRefused (s.pcb ()) (.alloc 100 30) := by
  have hread : (memCall ((MemSys.start 512 512 : MemSys Unit).pcb ()) (.read 30 0)).isNone =
      true := by decide +kernel
  have halloc : (memCall ((MemSys.start 512 512 : MemSys Unit).pcb ()) (.alloc 100 30)).isNone =
      true := by decide +kernel
  rw [Option.isNone_iff_eq_none] at hread halloc
  refine ⟨.start 512 512, .init fun _ => ⟨_, _, _, rfl⟩, hread, ?_, halloc, ?_⟩
  · rintro ⟨ret, proc', hcall, -⟩
    exact absurd (hread.symm.trans hcall) (by simp)
  · rintro ⟨ret, proc', hcall, -⟩
    exact absurd (halloc.symm.trans hcall) (by simp)

/-! ### Page faults -/

/-- There is no page to evict, or no frame to evict it to. -/
def CannotServe (proc : Pcb) : Prop :=
  proc.mm.fifoPgn = [] ∨ (proc.dev .activeMswp).freeFpList = []

instance (proc : Pcb) : Decidable (CannotServe proc) := inferInstanceAs (Decidable (_ ∨ _))

/-- The entry of the page an access goes to. -/
def Pcb.accessPte (proc : Pcb) (rgid offset : BitVec 32) : BitVec 32 :=
  proc.mm.pgd (pagingPgn (proc.accessAddr rgid.toInt offset.toInt))

section Fault
variable {proc proc' : Pcb}

theorem not_pageStep_of_cannotServe {pgn : ℕ} (hserve : CannotServe proc)
    (habsent : pagingPagePresent (proc.mm.pgd pgn) = false) : ¬PageStep proc pgn proc' := by
  intro hstep
  cases hstep with
  | hit hpresent => simp [hpresent] at habsent
  | fault vic swpfpn older frames _ hfifo hfree =>
    cases hserve with
    | inl hnil => simp [hnil] at hfifo
    | inr hnil => simp [hnil] at hfree

theorem pgGetval_unserved {addr : ℤ} (hserve : CannotServe proc)
    (habsent : pagingPagePresent (proc.mm.pgd (pagingPgn addr)) = false) :
    pgGetval proc addr = none := by
  cases hcall : pgGetval proc addr with
  | none => rfl
  | some r => exact absurd (pgGetval_step hcall) (not_pageStep_of_cannotServe hserve habsent)

theorem pgSetval_unserved {addr : ℤ} (hserve : CannotServe proc)
    (habsent : pagingPagePresent (proc.mm.pgd (pagingPgn addr)) = false) (value : Byte) :
    pgSetval proc addr value = none := by
  cases hcall : pgSetval proc addr value with
  | none => rfl
  | some r => exact absurd (pgSetval_step hcall) (not_pageStep_of_cannotServe hserve habsent)

variable {brk : ℕ} {fr : List VmRg} {rgid offset : BitVec 32}

theorem read_unserved (hheap : HeapIs proc.mm brk fr) (hid : rgid.toNat < 30)
    (hserve : CannotServe proc)
    (habsent : pagingPagePresent (proc.accessPte rgid offset) = false) :
    read proc 0 rgid.toInt offset.toInt = none := by
  have hrgid : rgid.toInt = rgid.toNat := BitVec.toInt_eq_toNat_of_lt (by omega)
  have hval := pgGetval_unserved hserve habsent
  rw [Pcb.accessAddr] at hval
  rw [read, getSymrgByid_eq proc.mm (by omega) (by omega), getVmaByNum_heap hheap le_rfl]
  -- reducing the match would otherwise unfold `pgGetval`
  generalize pgGetval proc = getval at hval ⊢
  rw [Option.bind_eq_bind, Option.bind_some, Option.bind_eq_bind, Option.bind_some]
  dsimp only
  rw [hval]
  rfl

theorem write_unserved (hheap : HeapIs proc.mm brk fr) (hid : rgid.toNat < 30)
    (hserve : CannotServe proc)
    (habsent : pagingPagePresent (proc.accessPte rgid offset) = false) (value : Byte) :
    write proc 0 rgid.toInt offset.toInt value = none := by
  have hrgid : rgid.toInt = rgid.toNat := BitVec.toInt_eq_toNat_of_lt (by omega)
  have hval := pgSetval_unserved hserve habsent value
  rw [Pcb.accessAddr] at hval
  rw [write, getSymrgByid_eq proc.mm (by omega) (by omega), getVmaByNum_heap hheap le_rfl]
  generalize pgSetval proc = setval at hval ⊢
  rw [Option.bind_eq_bind, Option.bind_some, Option.bind_eq_bind, Option.bind_some]
  dsimp only
  rw [hval]
  rfl

end Fault

/-- A fault that cannot be served is never an error without effects: with an entry
that is not `PRESENT` the access is undefined, and with the entry of a page in swap,
which is `PRESENT`, it returns 0. -/
theorem unserved_fault_not_refused [DecidableEq ι] {s : MemSys ι}
    (h : Reachable anySystem (fun _ _ => True) s) (p : ι) {rgid offset : BitVec 32}
    (hid : rgid.toNat < 30) (hpage : ¬ResidentPte ((s.pcb p).accessPte rgid offset))
    (hserve : CannotServe (s.pcb p)) :
    (¬Refused (s.pcb p) (.read rgid offset) ∧
      ∀ data, ¬Refused (s.pcb p) (.write data rgid offset)) ∧
    (pagingPageSwapped ((s.pcb p).accessPte rgid offset) = false →
      memCall (s.pcb p) (.read rgid offset) = none ∧
        ∀ data, memCall (s.pcb p) (.write data rgid offset) = none) := by
  obtain ⟨brk, fr, hheap⟩ : ∃ brk fr, HeapIs (s.pcb p).mm brk fr := anySystem_heapIs h p
  refine ⟨access_not_refused hheap hid offset, fun hswapped => ?_⟩
  have habsent : pagingPagePresent ((s.pcb p).accessPte rgid offset) = false := by
    cases hpresent : pagingPagePresent ((s.pcb p).accessPte rgid offset) with
    | false => rfl
    | true => exact absurd ⟨hpresent, hswapped⟩ hpage
  constructor
  · rw [memCall, libread, read_unserved hheap hid hserve habsent]
    rfl
  · intro data
    rw [memCall, libwrite, write_unserved hheap hid hserve habsent]
    rfl

theorem unserved_fault_fresh :
    (¬Refused ((MemSys.start 512 256 : MemSys Unit).pcb ()) (.read 0 0) ∧
      ∀ data, ¬Refused ((MemSys.start 512 256 : MemSys Unit).pcb ()) (.write data 0 0)) ∧
    (pagingPageSwapped (((MemSys.start 512 256 : MemSys Unit).pcb ()).accessPte 0 0) = false →
      memCall ((MemSys.start 512 256 : MemSys Unit).pcb ()) (.read 0 0) = none ∧
        ∀ data, memCall ((MemSys.start 512 256 : MemSys Unit).pcb ()) (.write data 0 0) = none) :=
  unserved_fault_not_refused (.init fun _ => ⟨_, _, _, rfl⟩) () (by decide) (by decide +kernel)
    (by decide)

/-- Two pages in two RAM frames; the reads at pages 5 and 6 evict page 1 and page 2 to
the two swap frames. -/
def fullSwapCalls : List (Unit × MemOp) :=
  [((), .alloc 256 0), ((), .alloc 256 1), ((), .write 7 0 0), ((), .read 1 1024),
    ((), .read 1 1280)]

/-- Page 1 is in swap and no swap frame is free: `libread` of region 1 returns 0 and
yields the byte that was written to region 0. -/
theorem swapped_page_reads_other_frame :
    ∃ s : MemSys Unit, Reachable anySystem (fun _ _ => True) s ∧
      ¬ResidentPte ((s.pcb ()).accessPte 1 0) ∧ CannotServe (s.pcb ()) ∧
      ((libread (s.pcb ()) 1 0).map fun r => (r.1, r.2.1)) = some (0, some 7) ∧
      ¬Refused (s.pcb ()) (.read 1 0) := by
  obtain ⟨s, hs, hp⟩ := exists_reachable_of_runAll memStep (fun _ _ => True)
    (MemSys.start 512 512) fullSwapCalls
    (fun s : MemSys Unit => decide (¬ResidentPte ((s.pcb ()).accessPte 1 0)) &&
      (decide (CannotServe (s.pcb ())) &&
      decide (((libread (s.pcb ()) 1 0).map fun r => (r.1, r.2.1)) = some (0, some 7))))
    (by decide +kernel)
  simp only [Bool.and_eq_true, decide_eq_true_eq] at hp
  obtain ⟨hpage, hserve, hread⟩ := hp
  obtain ⟨brk, fr, hheap⟩ : ∃ brk fr, HeapIs (s.pcb ()).mm brk fr := reachable_heapIs hs ()
  exact ⟨s, MemReachable.any hs, hpage, hserve, hread, (access_not_refused hheap (by decide) 0).1⟩

end OsSim.Mem
