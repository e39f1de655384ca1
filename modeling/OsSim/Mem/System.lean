import OsSim.Base.Runs
import OsSim.Mem.Libmem

/-!
# Processes sharing the devices

Any number of processes, each with its own tables, over one `mram` and one
`active_mswp` (`os.c:249-272`). One step is one complete call by one process.
-/

namespace OsSim.Mem
open OsSim.Base

/-- The calls a process makes: the library functions and system call 17. -/
inductive MemOp where
  | alloc (size regIndex : BitVec 32)
  | free (regIndex : BitVec 32)
  | read (source offset : BitVec 32)
  | write (data : Byte) (destination offset : BitVec 32)
  | memmap (regs : ScRegs)
  deriving DecidableEq

/-- The return code, and for `libread` the word stored at `destination`. -/
structure MemRet where
  rc : ℤ
  destination : Option (BitVec 32)

def memCall (proc : Pcb) : MemOp → Option (MemRet × Pcb)
  | .alloc size regIndex => (liballoc proc size regIndex).map fun (rc, proc) => (⟨rc, none⟩, proc)
  | .free regIndex => (libfree proc regIndex).map fun (rc, proc) => (⟨rc, none⟩, proc)
  | .read source offset =>
    (libread proc source offset).map fun (rc, destination, proc) => (⟨rc, destination⟩, proc)
  | .write data destination offset =>
    (libwrite proc data destination offset).map fun (rc, proc) => (⟨rc, none⟩, proc)
  | .memmap regs => (sysMemmap proc regs).map fun (rc, _, proc) => (⟨rc, none⟩, proc)

section Inversion
variable {proc proc' : Pcb} {ret : MemRet}

theorem alloc_of_memCall {size regIndex : BitVec 32}
    (h : memCall proc (.alloc size regIndex) = some (ret, proc')) :
    ∃ addr, alloc proc 0 regIndex.toInt size.toInt = some (ret.rc, addr, proc') := by
  obtain ⟨⟨rc, mid⟩, hlib, heq⟩ := Option.map_eq_some_iff.mp h
  obtain ⟨rfl, rfl⟩ := Prod.mk.inj heq
  obtain ⟨⟨rc1, addr, mid1⟩, halloc, hmk⟩ := Option.map_eq_some_iff.mp hlib
  obtain ⟨rfl, rfl⟩ := Prod.mk.inj hmk
  exact ⟨addr, halloc⟩

theorem libfree_of_memCall {regIndex : BitVec 32}
    (h : memCall proc (.free regIndex) = some (ret, proc')) :
    libfree proc regIndex = some (ret.rc, proc') := by
  obtain ⟨⟨rc, mid⟩, hlib, heq⟩ := Option.map_eq_some_iff.mp h
  obtain ⟨rfl, rfl⟩ := Prod.mk.inj heq
  exact hlib

theorem read_of_memCall {source offset : BitVec 32}
    (h : memCall proc (.read source offset) = some (ret, proc')) :
    ∃ data, read proc 0 source.toInt offset.toInt = some (ret.rc, data, proc') := by
  obtain ⟨⟨rc, destination, mid⟩, hlib, heq⟩ := Option.map_eq_some_iff.mp h
  obtain ⟨rfl, rfl⟩ := Prod.mk.inj heq
  obtain ⟨⟨rc1, data, mid1⟩, hread, hmk⟩ := Option.map_eq_some_iff.mp hlib
  simp only [Prod.mk.injEq] at hmk
  obtain ⟨rfl, -, rfl⟩ := hmk
  exact ⟨data, hread⟩

theorem libwrite_of_memCall {data : Byte} {destination offset : BitVec 32}
    (h : memCall proc (.write data destination offset) = some (ret, proc')) :
    libwrite proc data destination offset = some (ret.rc, proc') := by
  obtain ⟨⟨rc, mid⟩, hlib, heq⟩ := Option.map_eq_some_iff.mp h
  obtain ⟨rfl, rfl⟩ := Prod.mk.inj heq
  exact hlib

theorem sysMemmap_of_memCall {regs : ScRegs} (h : memCall proc (.memmap regs) = some (ret, proc')) :
    ∃ regs', sysMemmap proc regs = some (ret.rc, regs', proc') := by
  obtain ⟨⟨rc, regs', mid⟩, hsys, heq⟩ := Option.map_eq_some_iff.mp h
  obtain ⟨rfl, rfl⟩ := Prod.mk.inj heq
  exact ⟨regs', hsys⟩

end Inversion

structure MemSys (ι : Type) where
  mm : ι → Mm
  dev : Devices

variable {ι : Type}

/-- The memory as process `p` sees it. -/
def MemSys.pcb (s : MemSys ι) (p : ι) : Pcb := ⟨s.mm p, s.dev⟩

def MemSys.put [DecidableEq ι] (s : MemSys ι) (p : ι) (proc : Pcb) : MemSys ι :=
  ⟨Function.update s.mm p proc.mm, proc.dev⟩

/-- `init_memphy` on both devices and `init_mm` for every process. What they leave as
`malloc` returned it is 0 here: `pgd`, `symrgtbl` and `fifo_pgn` of every process, and the
cursors. -/
def MemSys.start (ramSize swapSize : ℕ) : MemSys ι where
  mm _ := .fresh
  dev
    | .mram => ramDevice ramSize
    | .activeMswp => ramDevice swapSize

def memStep [DecidableEq ι] (s : MemSys ι) (label : ι × MemOp) : Option (MemSys ι) :=
  (memCall (s.pcb label.1) label.2).map fun (_, proc) => s.put label.1 proc

/-- The states reachable by calls that meet `ok`. -/
def MemReachable [DecidableEq ι] (ramSize swapSize : ℕ) (ok : MemSys ι → ι × MemOp → Prop) :
    MemSys ι → Prop :=
  Reachable (System.ofStep (.start ramSize swapSize) memStep) ok

/-- What is kept by every call whose caller's view keeps it. -/
theorem MemReachable.invariant [DecidableEq ι] {ramSize swapSize : ℕ}
    {ok : MemSys ι → ι × MemOp → Prop} (I : MemSys ι → Prop) (hinit : I (.start ramSize swapSize))
    (hstep : ∀ s p op ret proc, I s → ok s (p, op) → memCall (s.pcb p) op = some (ret, proc) →
      I (s.put p proc)) {s : MemSys ι} (h : MemReachable ramSize swapSize ok s) : I s := by
  refine Reachable.invariant I ?_ ?_ h
  · intro s0 h0
    obtain rfl : s0 = .start ramSize swapSize := h0
    exact hinit
  · intro s1 label t hs hok hnext
    obtain ⟨⟨ret, proc⟩, hcall, rfl⟩ := Option.map_eq_some_iff.mp hnext
    exact hstep s1 label.1 label.2 ret proc hs hok hcall

theorem MemSys.put_mm_self [DecidableEq ι] (s : MemSys ι) (p : ι) (proc : Pcb) :
    (s.put p proc).mm p = proc.mm := Function.update_self ..

theorem MemSys.put_mm_other [DecidableEq ι] (s : MemSys ι) {p q : ι} (proc : Pcb) (h : q ≠ p) :
    (s.put p proc).mm q = s.mm q := Function.update_of_ne h _ _

theorem MemSys.forall_put [DecidableEq ι] {s : MemSys ι} {p : ι} {proc : Pcb} {I : Mm → Prop}
    (hproc : I proc.mm) (h : ∀ q, I (s.mm q)) (q : ι) : I ((s.put p proc).mm q) :=
  (Function.forall_update_iff s.mm fun _ => I).mpr ⟨hproc, fun q _ => h q⟩ q

theorem MemSys.put_pcb [DecidableEq ι] (s : MemSys ι) (p : ι) : s.put p (s.pcb p) = s := by
  simp only [MemSys.put, MemSys.pcb, Function.update_eq_self]

theorem MemSys.put_pcb_self [DecidableEq ι] (s : MemSys ι) (p : ι) (proc : Pcb) :
    (s.put p proc).pcb p = proc := by
  rw [MemSys.pcb, s.put_mm_self]
  rfl

end OsSim.Mem
