import OsSim.Mem.Access
import OsSim.Mem.System

/-!
# Region bounds (libmem.c:360-428)

`__read` and `__write` add the offset to the start of the region and test
neither against its end; what `pg_getval` and `pg_setval` answer is dropped. So
no offset is refused, and the byte may be one of another region. `sys_killall.c`
takes the return codes for such a test (`sys_killall.c:18-23`).
-/

namespace OsSim.Mem
open OsSim.Base

variable {ι : Type}

/-- A call that changes no byte, no page table and no list of pages or frames. -/
structure Untouched (proc proc' : Pcb) : Prop where
  storage : ∀ d, (proc'.dev d).storage = (proc.dev d).storage
  freeFpList : ∀ d, (proc'.dev d).freeFpList = (proc.dev d).freeFpList
  pgd : proc'.mm.pgd = proc.mm.pgd
  fifoPgn : proc'.mm.fifoPgn = proc.mm.fifoPgn

/-- The call reports an error and leaves the memory as it was. -/
def Refused (proc : Pcb) (op : MemOp) : Prop :=
  ∃ ret proc', memCall proc op = some (ret, proc') ∧ ret.rc ≠ 0 ∧ Untouched proc proc'

/-- The region `rgid` of process `p` has no byte at `offset`. -/
def OutsideRg (s : MemSys ι) (p : ι) (rgid offset : BitVec 32) : Prop :=
  ((s.mm p).symrgtbl rgid.toNat).len ≤ offset.toNat

instance (s : MemSys ι) (p : ι) (rgid offset : BitVec 32) : Decidable (OutsideRg s p rgid offset) :=
  inferInstanceAs (Decidable (_ ≤ _))

section Access
variable {proc proc' : Pcb} {brk : ℕ} {fr : List VmRg} {rgid offset rc : ℤ}

theorem read_rc (hheap : HeapIs proc.mm brk fr) (h0 : 0 ≤ rgid) (h : rgid < 30)
    {data : Option Byte} (hcall : read proc 0 rgid offset = some (rc, data, proc')) : rc = 0 := by
  rw [read_getval hheap h0 h] at hcall
  obtain ⟨r, -, heq⟩ := Option.map_eq_some_iff.mp hcall
  exact (congrArg Prod.fst heq).symm

theorem write_rc (hheap : HeapIs proc.mm brk fr) (h0 : 0 ≤ rgid) (h : rgid < 30) {value : Byte}
    (hcall : write proc 0 rgid offset value = some (rc, proc')) : rc = 0 := by
  rw [write_setval hheap h0 h] at hcall
  obtain ⟨r, -, heq⟩ := Option.map_eq_some_iff.mp hcall
  exact (congrArg Prod.fst heq).symm

/-- No access to a region of the table reports an error. -/
theorem access_not_refused (hheap : HeapIs proc.mm brk fr) {rgid : BitVec 32}
    (hid : rgid.toNat < 30) (offset : BitVec 32) :
    ¬Refused proc (.read rgid offset) ∧ ∀ data, ¬Refused proc (.write data rgid offset) := by
  have hrgid : rgid.toInt = rgid.toNat := BitVec.toInt_eq_toNat_of_lt (by omega)
  constructor
  · intro h
    obtain ⟨ret, proc', hcall, hrc, -⟩ := h
    obtain ⟨data, hread⟩ := read_of_memCall hcall
    exact hrc (read_rc hheap (by omega) (by omega) hread)
  · intro data h
    obtain ⟨ret, proc', hcall, hrc, -⟩ := h
    exact hrc (write_rc hheap (by omega) (by omega) (libwrite_of_memCall hcall))

end Access

/-- Every process has the one area `init_mm` gave it. -/
def OneArea (s : MemSys ι) : Prop := ∀ p, ∃ brk fr, HeapIs (s.mm p) brk fr

theorem oneArea_init {s : MemSys ι}
    (h : ∀ p, ∃ pgd symrgtbl fifoPgn, s.mm p = initMm pgd symrgtbl fifoPgn) : OneArea s := by
  intro p
  obtain ⟨pgd, symrgtbl, fifoPgn, hp⟩ := h p
  exact ⟨0, [⟨0, 0⟩], hp ▸ rfl⟩

section Run
variable [DecidableEq ι] {ramSize swapSize : ℕ} {s t : MemSys ι}

theorem memStep_oneArea {label : ι × MemOp} (h : OneArea s) (hnext : memStep s label = some t) :
    OneArea t := by
  obtain ⟨⟨ret, proc⟩, hcall, rfl⟩ := Option.map_eq_some_iff.mp hnext
  obtain ⟨brk, fr, hheap⟩ : ∃ brk fr, HeapIs (s.pcb label.1).mm brk fr := h label.1
  exact heap_put h (memCall_heapIs hheap hcall)

theorem reachable_heapIs {ok : MemSys ι → ι × MemOp → Prop}
    (h : MemReachable ramSize swapSize ok s) : OneArea s := by
  refine Reachable.invariant OneArea ?_ (fun s1 label t hs _ hnext => memStep_oneArea hs hnext) h
  intro s0 h0
  obtain rfl : s0 = .start ramSize swapSize := h0
  exact oneArea_init fun _ => ⟨_, _, _, rfl⟩

/-- No offset outside its region is refused, for no region and in no reachable
state. -/
theorem region_bounds_not_enforced (h : MemReachable ramSize swapSize (fun _ _ => True) s) (p : ι)
    {rgid : BitVec 32} (hid : rgid.toNat < 30) :
    ∀ offset, OutsideRg s p rgid offset →
      ¬Refused (s.pcb p) (.read rgid offset) ∧
        ∀ data, ¬Refused (s.pcb p) (.write data rgid offset) := by
  intro offset _
  obtain ⟨brk, fr, hheap⟩ : ∃ brk fr, HeapIs (s.pcb p).mm brk fr := reachable_heapIs h p
  exact access_not_refused hheap hid offset

end Run

/-- The calls of `input/proc/p0s` up to its first write. -/
def p0sCalls : List (Unit × MemOp) :=
  [((), .alloc 300 0), ((), .alloc 300 4), ((), .free 0), ((), .alloc 100 1),
    ((), .write 100 1 20)]

theorem region_bounds_not_enforced_p0s :
    ∃ s : MemSys Unit, OutsideRg s () 2 20 ∧ ¬Refused (s.pcb ()) (.read 2 20) ∧
      ∀ data, ¬Refused (s.pcb ()) (.write data 2 20) := by
  obtain ⟨s, hs, hout⟩ := exists_reachable_of_runAll memStep (fun _ _ => True)
    (MemSys.start 4096 4096) p0sCalls
    (fun s => decide (OutsideRg s () 2 20)) (by decide +kernel)
  have hout' : OutsideRg s () 2 20 := of_decide_eq_true hout
  exact ⟨s, hout', region_bounds_not_enforced hs () (by decide) 20 hout'⟩

/-- The second write of `input/proc/p0s`: region 2 was never allocated, the call
returns 0 and the byte at offset 20 of region 1 is another. -/
theorem write_outside_changes_region :
    ∃ s : MemSys Unit, MemReachable 4096 4096 (fun _ _ => True) s ∧ OutsideRg s () 2 20 ∧
      (s.mm ()).symrgtbl 1 = ⟨0, 100⟩ ∧
      ((libread (s.pcb ()) 1 20).map fun r => r.2.1) = some (some 100) ∧
      ∃ proc, libwrite (s.pcb ()) 102 2 20 = some (0, proc) ∧
        ((libread proc 1 20).map fun r => r.2.1) = some (some 102) := by
  obtain ⟨s, hs, hp⟩ := exists_reachable_of_runAll memStep (fun _ _ => True)
    (MemSys.start 4096 4096) p0sCalls
    (fun s => decide (OutsideRg s () 2 20) &&
      (decide ((s.mm ()).symrgtbl 1 = ⟨0, 100⟩) &&
      (decide (((libread (s.pcb ()) 1 20).map fun r => r.2.1) = some (some 100)) &&
      ((libwrite (s.pcb ()) 102 2 20).any fun (r : ℤ × Pcb) => decide (r.1 = 0 ∧
        ((libread r.2 1 20).map fun r => r.2.1) = some (some 102)))))) (by decide +kernel)
  simp only [Bool.and_eq_true, decide_eq_true_eq, Option.any_eq_true] at hp
  obtain ⟨hout, hrg, hbefore, ⟨rc, proc⟩, hwrite, hrc, hafter⟩ := hp
  exact ⟨s, hs, hout, hrg, hbefore, proc, hrc ▸ hwrite, hafter⟩

end OsSim.Mem
