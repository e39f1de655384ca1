import OsSim.Mem.Mm

/-!
# System call 17 and the memory library (sys_mem.c, libmem.c)

The calls a process makes, each one atomic step on its tables and the devices.
The return codes are the source's; an indeterminate value that is used makes
the call undefined. `pg_getpage` and its callers are always given the caller's
own `mm`.
-/

namespace OsSim.Mem
open OsSim.Base

/-! ### sys_mem.c -/

/-- The registers of a system call (`syscall.h:13-30`) that `__sys_memmap` uses. -/
structure ScRegs where
  a1 : BitVec 32
  a2 : BitVec 32
  a3 : BitVec 32
  deriving DecidableEq

abbrev sysmemMapOp : ℤ := 1
abbrev sysmemIncOp : ℤ := 2
abbrev sysmemSwpOp : ℤ := 3
abbrev sysmemIoRead : ℤ := 4
abbrev sysmemIoWrite : ℤ := 5

/-- `__sys_memmap` (`sys_mem.c:17-45`), which `syscall(caller, 17, regs)` calls.
It answers 0 whatever the operation answered. -/
def sysMemmap (caller : Pcb) (regs : ScRegs) : Option (ℤ × ScRegs × Pcb) :=
  let memop := regs.a1.toInt
  if memop = sysmemMapOp then some (0, regs, caller)
  else if memop = sysmemIncOp then
    (incVmaLimit caller regs.a2.toInt regs.a3.toInt).map fun (_, caller) => (0, regs, caller)
  else if memop = sysmemSwpOp then
    (mmSwapPage caller regs.a2.toInt regs.a3.toInt).map fun (_, caller) => (0, regs, caller)
  else if memop = sysmemIoRead then do
    let (_, value, mram) ← memphyRead (caller.dev .mram) regs.a2.toInt
    let value ← value
    some (0, { regs with a3 := value.signExtend 32 },
      { caller with dev := Function.update caller.dev .mram mram })
  else if memop = sysmemIoWrite then do
    let (_, mram) ← memphyWrite (caller.dev .mram) regs.a2.toInt (regs.a3.setWidth 8)
    some (0, regs, { caller with dev := Function.update caller.dev .mram mram })
  else some (0, regs, caller)

/-! ### Regions -/

/-- `enlist_vm_rg_node` (`mm.c:284-290`). -/
def enlistVmRgNode (rglist : List VmRg) (rgnode : VmRg) : List VmRg := rgnode :: rglist

/-- `init_vm_rg` (`mm.c:273-282`): the bounds are `int` parameters. -/
def initVmRg (rgStart rgEnd : ℤ) : VmRg := ⟨toULong (toInt rgStart), toULong (toInt rgEnd)⟩

/-- `enlist_vm_freerg_list` (`libmem.c:35-58`), on the first area. -/
def enlistVmFreergList (mm : Mm) (rgElmt : VmRg) : Option (ℤ × Mm) :=
  match mm.mmap with
  | [] => none
  | v :: rest =>
    if rgElmt.rgEnd ≤ rgElmt.rgStart then some (-1, mm)
    else some (0, { mm with
      mmap := { v with vmFreergList := rgElmt :: v.vmFreergList } :: rest })

/-- `get_symrg_byid` (`libmem.c:66-72`) and the read through it. The index 30 is
let through and is one past the table. -/
def getSymrgByid (mm : Mm) (rgid : ℤ) : Option (Option VmRg) :=
  if rgid < 0 ∨ pagingMaxSymtblSz < rgid then some none
  else if rgid = pagingMaxSymtblSz then none
  else some (some (mm.symrgtbl rgid.toNat))

/-- The length of a region as the code computes it. -/
def VmRg.len (rg : VmRg) : ℕ := toULong (rg.rgEnd - rg.rgStart)

/-- The loop of `get_free_vmrg_area`: the first region that is long enough gives
its first `size` bytes. -/
def takeFit (size : ℤ) : List VmRg → Option (VmRg × List VmRg)
  | [] => none
  | rgit :: rest =>
    if toULong size ≤ rgit.len then
      let rgEnd := toULong (rgit.rgStart + size)
      some (⟨rgit.rgStart, rgEnd⟩, { rgit with rgStart := rgEnd } :: rest)
    else (takeFit size rest).map fun (newrg, rest) => (newrg, rgit :: rest)

/-- `get_free_vmrg_area` (`libmem.c:500-539`): no region is the return code -1. -/
def getFreeVmrgArea (mm : Mm) (vmaid size : ℤ) : Option (Option (VmRg × Mm)) := do
  let ptr ← getVmaByNum mm vmaid
  let i ← ptr
  let curVma ← mm.mmap[i]?
  some ((takeFit size curVma.vmFreergList).map fun (newrg, rest) =>
    (newrg, mm.setVma i { curVma with vmFreergList := rest }))

/-- `caller->mm->symrgtbl[rgid] = rgnode`. -/
def setSymrg (mm : Mm) (rgid : ℤ) (rgnode : VmRg) : Option Mm :=
  if 0 ≤ rgid ∧ rgid < pagingMaxSymtblSz then
    some { mm with symrgtbl := Function.update mm.symrgtbl rgid.toNat rgnode }
  else none

/-- `__alloc` (`libmem.c:74-145`): the return code and `*alloc_addr` if it is
written. The result of system call 17 is never below -1, so a growth that
failed is enlisted as a free region all the same. -/
def alloc (caller : Pcb) (vmaid rgid size : ℤ) : Option (ℤ × Option ℤ × Pcb) := do
  match ← getFreeVmrgArea caller.mm vmaid size with
  | some (rgnode, mm) =>
    let mm ← setSymrg mm rgid rgnode
    some (0, some (toInt rgnode.rgStart), { caller with mm := mm })
  | none =>
    let ptr ← getVmaByNum caller.mm vmaid
    let i ← ptr
    let curVma ← caller.mm.mmap[i]?
    let oldSbrk := toInt curVma.sbrk
    let incSz := pagingPageAlignsz size
    let (rc, _, caller) ← sysMemmap caller
      ⟨BitVec.ofInt 32 sysmemIncOp, BitVec.ofInt 32 vmaid, BitVec.ofInt 32 incSz⟩
    if rc < -1 then some (-1, none, caller)
    else
      let cur ← caller.mm.mmap[i]?
      let rg := initVmRg oldSbrk (oldSbrk + incSz)
      let mm := caller.mm.setVma i { cur with vmFreergList := enlistVmRgNode cur.vmFreergList rg }
      match ← getFreeVmrgArea mm vmaid size with
      | none => some (-1, none, { caller with mm := mm })
      | some (rgnode, mm) =>
        let mm ← setSymrg mm rgid rgnode
        some (0, some (toInt rgnode.rgStart), { caller with mm := mm })

/-- `__free` (`libmem.c:147-181`). `symrgtbl` keeps the region. -/
def free (caller : Pcb) (rgid : ℤ) : Option (ℤ × Pcb) :=
  if rgid < 0 ∨ pagingMaxSymtblSz ≤ rgid then some (-1, caller)
  else do
    match ← getSymrgByid caller.mm rgid with
    | none => some (-1, caller)
    | some rgnode =>
      let (rc, mm) ← enlistVmFreergList caller.mm (initVmRg rgnode.rgStart rgnode.rgEnd)
      if rc ≠ 0 then some (-1, caller) else some (0, { caller with mm := mm })

/-- `liballoc` (`libmem.c:183-188`). -/
def liballoc (proc : Pcb) (size regIndex : BitVec 32) : Option (ℤ × Pcb) :=
  (alloc proc 0 regIndex.toInt size.toInt).map fun (rc, _, proc) => (rc, proc)

/-- `libfree` (`libmem.c:191-194`). -/
def libfree (proc : Pcb) (regIndex : BitVec 32) : Option (ℤ × Pcb) := free proc regIndex.toInt

/-! ### Pages -/

/-- `find_victim_page` (`libmem.c:466-491`): the oldest page, none if the list is
empty. -/
def findVictimPage (mm : Mm) : Option (ℕ × Mm) :=
  mm.fifoPgn.getLast?.map fun pgn => (pgn, { mm with fifoPgn := mm.fifoPgn.dropLast })

def Mm.pte (mm : Mm) (pgn : ℕ) : Option (BitVec 32) :=
  if pgn < pagingMaxPgn then some (mm.pgd pgn) else none

def Mm.setPte (mm : Mm) (pgn : ℕ) (pte : BitVec 32) : Mm :=
  { mm with pgd := Function.update mm.pgd pgn pte }

/-- `pg_getpage` (`libmem.c:196-283`): the return code and `*fpn`. Without a
victim or a free swap frame it goes on with indeterminate numbers. -/
def pgGetpage (caller : Pcb) (pgn : ℕ) : Option (ℤ × Option ℕ × Pcb) := do
  let pte ← caller.mm.pte pgn
  if pagingPagePresent pte then some (0, some (pagingFpn pte), caller)
  else
    let (vicpgn, mm) ← findVictimPage caller.mm
    let (swpfpn, mswp) ← memphyGetFreefp (caller.dev .activeMswp)
    let caller : Pcb := ⟨mm, Function.update caller.dev .activeMswp mswp⟩
    let vicpte ← caller.mm.pte vicpgn
    let vicfpn := pagingFpn vicpte
    -- the victim's frame to the swap frame
    let (rc, _, caller) ← sysMemmap caller
      ⟨BitVec.ofInt 32 sysmemSwpOp, BitVec.ofNat 32 vicfpn, BitVec.ofNat 32 swpfpn⟩
    if rc < 0 then some (-1, none, caller)
    else
      -- meant to bring the target page in; it copies from RAM to swap again
      let tgtfpn := pagingFpn pte
      let (rc, _, caller) ← sysMemmap caller
        ⟨BitVec.ofInt 32 sysmemSwpOp, BitVec.ofNat 32 tgtfpn, BitVec.ofNat 32 vicfpn⟩
      if rc < 0 then some (-1, none, caller)
      else
        let mm := caller.mm.setPte vicpgn (pteSetSwap (caller.mm.pgd vicpgn) 0 swpfpn)
        let mm := mm.setPte pgn (pteSetFpn (mm.pgd pgn) vicfpn)
        let mm := { mm with fifoPgn := enlistPgnNode mm.fifoPgn pgn }
        some (0, some (pagingFpn (mm.pgd pgn)), { caller with mm := mm })

/-- `pg_getval` (`libmem.c:292-316`): the return code and `*data` if it is
written. -/
def pgGetval (caller : Pcb) (addr : ℤ) : Option (ℤ × Option Byte × Pcb) := do
  let (rc, fpn, caller) ← pgGetpage caller (pagingPgn addr)
  if rc ≠ 0 then some (-1, none, caller)
  else
    let fpn ← fpn
    let phyaddr := toInt (fpn * pagingPagesz + pagingOffst addr)
    let (rc, regs, caller) ← sysMemmap caller
      ⟨BitVec.ofInt 32 sysmemIoRead, BitVec.ofInt 32 phyaddr, 0⟩
    if rc < 0 then some (-1, none, caller) else some (0, some (regs.a3.setWidth 8), caller)

/-- `pg_setval` (`libmem.c:324-350`). The byte is written twice. -/
def pgSetval (caller : Pcb) (addr : ℤ) (value : Byte) : Option (ℤ × Pcb) := do
  let (rc, fpn, caller) ← pgGetpage caller (pagingPgn addr)
  if rc ≠ 0 then some (-1, caller)
  else
    let fpn ← fpn
    let phyaddr := toInt (fpn * pagingPagesz + pagingOffst addr)
    let (rc, _, caller) ← sysMemmap caller
      ⟨BitVec.ofInt 32 sysmemIoWrite, BitVec.ofInt 32 phyaddr, value.signExtend 32⟩
    if rc < 0 then some (-1, caller)
    else
      let (_, mram) ← memphyWrite (caller.dev .mram) phyaddr value
      some (0, { caller with dev := Function.update caller.dev .mram mram })

/-- `__read` (`libmem.c:360-371`). The result of `pg_getval` is ignored. -/
def read (caller : Pcb) (vmaid rgid offset : ℤ) : Option (ℤ × Option Byte × Pcb) := do
  let currg ← getSymrgByid caller.mm rgid
  let curVma ← getVmaByNum caller.mm vmaid
  match currg, curVma with
  | some currg, some _ =>
    let (_, data, caller) ← pgGetval caller (toInt (toULong (currg.rgStart + offset)))
    some (0, data, caller)
  | _, _ => some (-1, none, caller)

/-- `libread` (`libmem.c:373-388`): the return code and `*destination`, none when
an indeterminate byte is stored there. -/
def libread (proc : Pcb) (source offset : BitVec 32) :
    Option (ℤ × Option (BitVec 32) × Pcb) :=
  (read proc 0 source.toInt offset.toInt).map fun (val, data, proc) =>
    (val, data.map (BitVec.signExtend 32), proc)

/-- `__write` (`libmem.c:398-409`). The result of `pg_setval` is ignored. -/
def write (caller : Pcb) (vmaid rgid offset : ℤ) (value : Byte) : Option (ℤ × Pcb) := do
  let currg ← getSymrgByid caller.mm rgid
  let curVma ← getVmaByNum caller.mm vmaid
  match currg, curVma with
  | some currg, some _ =>
    let (_, caller) ← pgSetval caller (toInt (toULong (currg.rgStart + offset))) value
    some (0, caller)
  | _, _ => some (-1, caller)

/-- `libwrite` (`libmem.c:412-428`). -/
def libwrite (proc : Pcb) (data : Byte) (destination offset : BitVec 32) : Option (ℤ × Pcb) :=
  write proc 0 destination.toInt offset.toInt data

end OsSim.Mem
