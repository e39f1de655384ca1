import OsSim.Base.Cells
import OsSim.Mem.Format
import OsSim.Mem.System

/-!
# The memory manager on pointers (libmem.c, mm.c, mm-vm.c, mm-memphy.c)

`Mm` and `MemphyStruct` keep the free frames, the free regions and the page list as
Lean lists. Here the functions do what the C code does: `malloc`, links, writes through
pointers and `free`, all processes and both devices in one heap. Following a pointer
to a cell that is not live, freeing one, or taking one structure for another has no
result (`none`). What touches no list is taken over from the lists' model.
-/

namespace OsSim.Mem
open OsSim.Base

/-- `struct framephy_struct`, `struct pgn_t` or `struct vm_rg_struct` (`os-mm.h`),
without the pointer to the next one. -/
inductive Node where
  | framephy (fpn : ℕ)
  | page (pgn : ℕ)
  | region (rg : VmRg)

def Node.framephy? : Node → Option ℕ
  | .framephy fpn => some fpn
  | _ => none

def Node.page? : Node → Option ℕ
  | .page pgn => some pgn
  | _ => none

def Node.region? : Node → Option VmRg
  | .region rg => some rg
  | _ => none

/-- `struct vm_area_struct`; the links between the areas never change. -/
structure VmAreaNodes where
  vmId : ℕ
  vmStart : ℕ
  vmEnd : ℕ
  sbrk : ℕ
  vmFreergList : Option ℕ

/-- `struct mm_struct`. -/
structure MmNodes where
  pgd : ℕ → BitVec 32
  mmap : List VmAreaNodes
  symrgtbl : ℕ → VmRg
  fifoPgn : Option ℕ

/-- What a `pcb_t` gives the memory functions access to, and the heap. -/
structure PcbNodes where
  mm : MmNodes
  dev : Device → MemphyNodes
  heap : CellHeap Node

/-! ### Without the lists -/

def VmAreaNodes.plain (v : VmAreaNodes) : VmArea := ⟨v.vmId, v.vmStart, v.vmEnd, v.sbrk, []⟩

def MmNodes.plain (mm : MmNodes) : Mm := ⟨mm.pgd, mm.mmap.map VmAreaNodes.plain, mm.symrgtbl, []⟩

def MemphyNodes.plain (mp : MemphyNodes) : MemphyStruct :=
  ⟨mp.storage, mp.maxsz, mp.rdmflg, mp.cursor, []⟩

/-- The device after an access that left `r`. -/
def MemphyNodes.after (mp : MemphyNodes) (r : MemphyStruct) : MemphyNodes :=
  ⟨r.storage, r.maxsz, r.rdmflg, r.cursor, mp.freeFpList⟩

def MmNodes.vma (mm : MmNodes) (i : Option ℕ) : Option VmAreaNodes := i.bind fun i => mm.mmap[i]?

def MmNodes.setVma (mm : MmNodes) (i : ℕ) (v : VmAreaNodes) : MmNodes :=
  { mm with mmap := mm.mmap.set i v }

def MmNodes.setPte (mm : MmNodes) (pgn : ℕ) (pte : BitVec 32) : MmNodes :=
  { mm with pgd := Function.update mm.pgd pgn pte }

namespace Nodes

/-! ### mm-memphy.c -/

/-- `MEMPHY_get_freefp` (`mm-memphy.c:142-158`): the frame, or `none` for -1. -/
def memphyGetFreefp (mp : MemphyNodes) (heap : CellHeap Node) :
    Option (Option ℕ × MemphyNodes × CellHeap Node) :=
  match mp.freeFpList with
  | none => some (none, mp, heap)
  | some fp => do
    let node ← heap.cell fp
    let fpn ← node.value.framephy?
    let heap ← heap.free fp
    some (some fpn, { mp with freeFpList := node.next }, heap)

/-- `MEMPHY_read` (`mm-memphy.c:58-69`). -/
def memphyRead (mp : MemphyNodes) (addr : ℤ) : Option (ℤ × Option Byte × MemphyNodes) :=
  (Mem.memphyRead mp.plain addr).map fun (rc, data, r) => (rc, data, mp.after r)

/-- `MEMPHY_write` (`mm-memphy.c:97-108`). -/
def memphyWrite (mp : MemphyNodes) (addr : ℤ) (data : Byte) : Option (ℤ × MemphyNodes) :=
  (Mem.memphyWrite mp.plain addr data).map fun (rc, r) => (rc, mp.after r)

/-! ### mm.c -/

/-- `init_vm_rg` (`mm.c:273-282`). -/
def initVmRg (m : Allocator Node) (heap : CellHeap Node) (rgStart rgEnd : ℤ) : ℕ × CellHeap Node :=
  m.malloc heap ⟨.region (Mem.initVmRg rgStart rgEnd), none⟩

/-- `enlist_vm_rg_node` (`mm.c:284-290`). -/
def enlistVmRgNode (heap : CellHeap Node) (rglist : Option ℕ) (rgnode : ℕ) :
    Option (Option ℕ × CellHeap Node) := do
  let node ← heap.cell rgnode
  let heap ← heap.store rgnode { node with next := rglist }
  some (some rgnode, heap)

/-- `enlist_pgn_node` (`mm.c:292-301`). -/
def enlistPgnNode (m : Allocator Node) (heap : CellHeap Node) (plist : Option ℕ) (pgn : ℕ) :
    Option ℕ × CellHeap Node :=
  let (pnode, heap) := m.malloc heap ⟨.page pgn, plist⟩
  (some pnode, heap)

/-- `init_mm` (`mm.c:246-271`) in zero-filled memory. -/
def initMm (m : Allocator Node) (heap : CellHeap Node) : Option (MmNodes × CellHeap Node) := do
  let (firstRg, heap) := initVmRg m heap 0 0
  let (vmFreergList, heap) ← enlistVmRgNode heap none firstRg
  some (⟨fun _ => 0, [⟨0, 0, 0, 0, vmFreergList⟩], fun _ => ⟨0, 0⟩, none⟩, heap)

/-- The loop of `alloc_pages_range`: `*frm_lst` is a list of new nodes. -/
def allocLoop (m : Allocator Node) : ℕ → MemphyNodes → CellHeap Node → Option ℕ →
    Option (ℤ × Option ℕ × MemphyNodes × CellHeap Node)
  | 0, mram, heap, frmLst => some (0, frmLst, mram, heap)
  | n + 1, mram, heap, frmLst => do
    let (fpn, mram, heap) ← memphyGetFreefp mram heap
    match fpn with
    | none => some (-1, frmLst, mram, heap)
    | some fpn =>
      let (newfpStr, heap) := m.malloc heap ⟨.framephy fpn, frmLst⟩
      allocLoop m n mram heap (some newfpStr)

/-- `alloc_pages_range` (`mm.c:139-173`). -/
def allocPagesRange (m : Allocator Node) (caller : PcbNodes) (reqPgnum : ℤ) :
    Option (ℤ × Option ℕ × PcbNodes) := do
  let (rc, frmLst, mram, heap) ← allocLoop m reqPgnum.toNat (caller.dev .mram) caller.heap none
  some (rc, frmLst, { caller with dev := Function.update caller.dev .mram mram, heap := heap })

/-- The loop of `vmap_page_range`: the number of pages for which no frame was left. -/
def vmapLoop (heap : CellHeap Node) :
    ℕ → ℕ → Option ℕ → (ℕ → BitVec 32) → Option (ℕ × (ℕ → BitVec 32))
  | 0, _, _, pgd => some (0, pgd)
  | n + 1, _, none, pgd => some (n + 1, pgd)
  | n + 1, pgn, some frames, pgd => do
    let node ← heap.cell frames
    let fpn ← node.value.framephy?
    if pgn < pagingMaxPgn then
      vmapLoop heap n (pgn + 1) node.next (Function.update pgd pgn (pteSetFpn (pgd pgn) fpn))
    else none

/-- `vmap_page_range` (`mm.c:87-130`); `retRg` is the address of `*ret_rg`. -/
def vmapPageRange (m : Allocator Node) (caller : PcbNodes) (addr pgnum : ℤ) (frames : Option ℕ)
    (retRg : ℕ) : Option (ℤ × PcbNodes) := do
  let pgn := pagingPgn addr
  let rg ← caller.heap.cell retRg
  let _ ← rg.value.region?
  let (left, pgd) ← vmapLoop caller.heap pgnum.toNat pgn frames caller.mm.pgd
  let rgEnd := addr + (pgnum.toNat - left : ℕ) * pagingPagesz
  let heap ← caller.heap.store retRg ⟨.region ⟨toULong addr, toULong rgEnd⟩, rg.next⟩
  if left = 0 then
    let (fifoPgn, heap) := enlistPgnNode m heap caller.mm.fifoPgn (pgn + pgnum.toNat)
    some (0, { caller with mm := { caller.mm with pgd := pgd, fifoPgn := fifoPgn }, heap := heap })
  else some (-1, { caller with mm := { caller.mm with pgd := pgd }, heap := heap })

/-- `vm_map_ram` (`mm.c:184-215`). The nodes of `frm_lst` are never freed. -/
def vmMapRam (m : Allocator Node) (caller : PcbNodes) (mapstart incpgnum : ℤ) (retRg : ℕ) :
    Option (ℤ × PcbNodes) := do
  let (retAlloc, frmLst, caller) ← allocPagesRange m caller incpgnum
  if retAlloc < 0 then some (-1, caller)
  else
    let (_, caller) ← vmapPageRange m caller mapstart incpgnum frmLst retRg
    some (0, caller)

/-- `__swap_cp_page` (`mm.c:223-239`). -/
def swapCpPage (src : Device) (srcfpn : ℤ) (dst : Device) (dstfpn : ℤ)
    (dev : Device → MemphyNodes) : Option (Device → MemphyNodes) :=
  (Mem.swapCpPage src srcfpn dst dstfpn fun d => (dev d).plain).map fun r d => (dev d).after (r d)

/-! ### mm-vm.c -/

/-- `get_vm_area_node_at_brk` (`mm-vm.c:55-69`). Without an area the new node is lost. -/
def getVmAreaNodeAtBrk (m : Allocator Node) (caller : PcbNodes) (vmaid alignedsz : ℤ) :
    Option (Option ℕ × PcbNodes) := do
  let (newrg, heap) := m.malloc caller.heap ⟨.region ⟨0, 0⟩, none⟩
  let ptr ← Mem.getVmaByNum caller.mm.plain vmaid
  match caller.mm.vma ptr with
  | none => some (none, { caller with heap := heap })
  | some curVma => do
    let heap ← heap.store newrg ⟨.region (Mem.getVmAreaNodeAtBrk curVma.plain alignedsz), none⟩
    some (some newrg, { caller with heap := heap })

/-- `free(area)`, nothing for `NULL`. -/
def freeArea (heap : CellHeap Node) : Option ℕ → Option (CellHeap Node)
  | none => some heap
  | some area => heap.free area

/-- `inc_vma_limit` (`mm-vm.c:107-143`). An area that overlaps is not freed. -/
def incVmaLimit (m : Allocator Node) (caller : PcbNodes) (vmaid incSz : ℤ) :
    Option (ℤ × PcbNodes) := do
  let incAmt := pagingPageAlignsz incSz
  let incnumpage := incAmt.tdiv pagingPagesz
  let (ptrArea, caller) ← getVmAreaNodeAtBrk m caller vmaid incAmt
  let ptr ← Mem.getVmaByNum caller.mm.plain vmaid
  match ptrArea, ptr, caller.mm.vma ptr with
  | some area, some i, some curVma => do
    let node ← caller.heap.cell area
    let rg ← node.value.region?
    let oldEnd := toInt curVma.vmEnd
    if validateOverlapVmArea caller.mm.plain vmaid (toInt rg.rgStart) (toInt rg.rgEnd) < 0 then
      some (-1, caller)
    else
      let grown := { curVma with vmEnd := rg.rgEnd, sbrk := rg.rgEnd }
      let (rc, caller) ←
        vmMapRam m { caller with mm := caller.mm.setVma i grown } oldEnd incnumpage area
      let heap ← caller.heap.free area
      if rc < 0 then
        let back := { curVma with vmEnd := toULong oldEnd, sbrk := toULong oldEnd }
        some (-1, { caller with mm := caller.mm.setVma i back, heap := heap })
      else some (0, { caller with heap := heap })
  | _, _, _ => do
    let heap ← freeArea caller.heap ptrArea
    some (-1, { caller with heap := heap })

/-- `__mm_swap_page` (`mm-vm.c:40-44`). -/
def mmSwapPage (caller : PcbNodes) (vicfpn swpfpn : ℤ) : Option (ℤ × PcbNodes) :=
  (swapCpPage .mram vicfpn .activeMswp swpfpn caller.dev).map fun dev =>
    (0, { caller with dev := dev })

/-! ### sys_mem.c -/

/-- `__sys_memmap` (`sys_mem.c:17-45`). -/
def sysMemmap (m : Allocator Node) (caller : PcbNodes) (regs : ScRegs) :
    Option (ℤ × ScRegs × PcbNodes) :=
  let memop := regs.a1.toInt
  if memop = sysmemMapOp then some (0, regs, caller)
  else if memop = sysmemIncOp then
    (incVmaLimit m caller regs.a2.toInt regs.a3.toInt).map fun (_, caller) => (0, regs, caller)
  else if memop = sysmemSwpOp then
    (mmSwapPage caller regs.a2.toInt regs.a3.toInt).map fun (_, caller) => (0, regs, caller)
  else if memop = sysmemIoRead then do
    let (_, value, mram) ← memphyRead (caller.dev .mram) regs.a2.toInt
    let value ← value
    some (0, { regs with a3 := value.signExtend 32 },
      { caller with dev := Function.update caller.dev .mram mram })
  else if memop = sysmemIoWrite then do
    let (_, mram) ← memphyWrite (caller.dev .mram) regs.a2.toInt (regs.a3.setWidth 8)
    some (0, regs, { caller with dev := Function.update caller.dev .mram mram })
  else some (0, regs, caller)

/-! ### libmem.c -/

/-- `enlist_vm_freerg_list` (`libmem.c:35-58`). -/
def enlistVmFreergList (caller : PcbNodes) (rgElmt : ℕ) : Option (ℤ × PcbNodes) :=
  match caller.mm.mmap with
  | [] => none
  | v :: rest => do
    let node ← caller.heap.cell rgElmt
    let rg ← node.value.region?
    if rg.rgEnd ≤ rg.rgStart then some (-1, caller)
    else
      -- into an empty list the node goes with the pointer it has
      let rgNext := v.vmFreergList.orElse fun _ => node.next
      let heap ← caller.heap.store rgElmt { node with next := rgNext }
      let mm := { caller.mm with mmap := { v with vmFreergList := some rgElmt } :: rest }
      some (0, { caller with mm := mm, heap := heap })

/-- The test of the loop of `get_free_vmrg_area`. -/
def fits (size : ℤ) (node : Node) : Option Bool :=
  node.region?.map fun rgit => decide (toULong size ≤ rgit.len)

/-- `get_free_vmrg_area` (`libmem.c:500-539`): no region is the return code -1. -/
def getFreeVmrgArea (caller : PcbNodes) (vmaid size : ℤ) : Option (Option VmRg × PcbNodes) := do
  let ptr ← Mem.getVmaByNum caller.mm.plain vmaid
  let i ← ptr
  let curVma ← caller.mm.mmap[i]?
  let found ← caller.heap.find (fits size) caller.heap.brk curVma.vmFreergList
  match found with
  | none => some (none, caller)
  | some (rgit, node) => do
    let rg ← node.value.region?
    let rgEnd := toULong (rg.rgStart + size)
    let heap ← caller.heap.store rgit { node with value := .region { rg with rgStart := rgEnd } }
    some (some ⟨rg.rgStart, rgEnd⟩, { caller with heap := heap })

/-- `caller->mm->symrgtbl[rgid] = rgnode`. -/
def setSymrg (mm : MmNodes) (rgid : ℤ) (rgnode : VmRg) : Option MmNodes :=
  if 0 ≤ rgid ∧ rgid < pagingMaxSymtblSz then
    some { mm with symrgtbl := Function.update mm.symrgtbl rgid.toNat rgnode }
  else none

/-- `__alloc` (`libmem.c:74-145`). -/
def alloc (m : Allocator Node) (caller : PcbNodes) (vmaid rgid size : ℤ) :
    Option (ℤ × Option ℤ × PcbNodes) := do
  let (rgnode, caller) ← getFreeVmrgArea caller vmaid size
  match rgnode with
  | some rgnode => do
    let mm ← setSymrg caller.mm rgid rgnode
    some (0, some (toInt rgnode.rgStart), { caller with mm := mm })
  | none => do
    let ptr ← Mem.getVmaByNum caller.mm.plain vmaid
    let i ← ptr
    let curVma ← caller.mm.mmap[i]?
    let oldSbrk := toInt curVma.sbrk
    let incSz := pagingPageAlignsz size
    let (rc, _, caller) ← sysMemmap m caller
      ⟨BitVec.ofInt 32 sysmemIncOp, BitVec.ofInt 32 vmaid, BitVec.ofInt 32 incSz⟩
    if rc < -1 then some (-1, none, caller)
    else
      let cur ← caller.mm.mmap[i]?
      let (rg, heap) := initVmRg m caller.heap oldSbrk (oldSbrk + incSz)
      let (vmFreergList, heap) ← enlistVmRgNode heap cur.vmFreergList rg
      let mm := caller.mm.setVma i { cur with vmFreergList := vmFreergList }
      let (rgnode, caller) ← getFreeVmrgArea { caller with mm := mm, heap := heap } vmaid size
      match rgnode with
      | none => some (-1, none, caller)
      | some rgnode => do
        let mm ← setSymrg caller.mm rgid rgnode
        some (0, some (toInt rgnode.rgStart), { caller with mm := mm })

/-- `__free` (`libmem.c:147-181`). A node that is not enlisted is lost. -/
def free (m : Allocator Node) (caller : PcbNodes) (rgid : ℤ) : Option (ℤ × PcbNodes) :=
  if rgid < 0 ∨ pagingMaxSymtblSz ≤ rgid then some (-1, caller)
  else do
    let rgnode ← getSymrgByid caller.mm.plain rgid
    match rgnode with
    | none => some (-1, caller)
    | some rgnode => do
      let (freerg, heap) := initVmRg m caller.heap rgnode.rgStart rgnode.rgEnd
      let (rc, caller) ← enlistVmFreergList { caller with heap := heap } freerg
      if rc ≠ 0 then some (-1, caller) else some (0, caller)

/-- `liballoc` (`libmem.c:183-188`). -/
def liballoc (m : Allocator Node) (proc : PcbNodes) (size regIndex : BitVec 32) :
    Option (ℤ × PcbNodes) :=
  (alloc m proc 0 regIndex.toInt size.toInt).map fun (rc, _, proc) => (rc, proc)

/-- `libfree` (`libmem.c:191-194`). -/
def libfree (m : Allocator Node) (proc : PcbNodes) (regIndex : BitVec 32) : Option (ℤ × PcbNodes) :=
  free m proc regIndex.toInt

/-- `find_victim_page` (`libmem.c:466-491`). The node cut off is not freed. -/
def findVictimPage (caller : PcbNodes) : Option (Option ℕ × PcbNodes) :=
  match caller.mm.fifoPgn with
  | none => some (none, caller)
  | some pg => do
    let (prevPg, pg) ← walkLast caller.heap.next caller.heap.brk none pg
    let last ← caller.heap.cell pg
    let pgn ← last.value.page?
    match prevPg with
    | some prev => do
      let node ← caller.heap.cell prev
      let heap ← caller.heap.store prev { node with next := none }
      some (some pgn, { caller with heap := heap })
    | none => some (some pgn, { caller with mm := { caller.mm with fifoPgn := none } })

/-- `pg_getpage` (`libmem.c:196-283`). -/
def pgGetpage (m : Allocator Node) (caller : PcbNodes) (pgn : ℕ) :
    Option (ℤ × Option ℕ × PcbNodes) := do
  let pte ← caller.mm.plain.pte pgn
  if pagingPagePresent pte then some (0, some (pagingFpn pte), caller)
  else
    let (vicpgn, caller) ← findVictimPage caller
    let vicpgn ← vicpgn
    let (swpfpn, mswp, heap) ← memphyGetFreefp (caller.dev .activeMswp) caller.heap
    let swpfpn ← swpfpn
    let caller : PcbNodes := ⟨caller.mm, Function.update caller.dev .activeMswp mswp, heap⟩
    let vicpte ← caller.mm.plain.pte vicpgn
    let vicfpn := pagingFpn vicpte
    let (rc, _, caller) ← sysMemmap m caller
      ⟨BitVec.ofInt 32 sysmemSwpOp, BitVec.ofNat 32 vicfpn, BitVec.ofNat 32 swpfpn⟩
    if rc < 0 then some (-1, none, caller)
    else
      let tgtfpn := pagingFpn pte
      let (rc, _, caller) ← sysMemmap m caller
        ⟨BitVec.ofInt 32 sysmemSwpOp, BitVec.ofNat 32 tgtfpn, BitVec.ofNat 32 vicfpn⟩
      if rc < 0 then some (-1, none, caller)
      else
        let mm := caller.mm.setPte vicpgn (pteSetSwap (caller.mm.pgd vicpgn) 0 swpfpn)
        let mm := mm.setPte pgn (pteSetFpn (mm.pgd pgn) vicfpn)
        let (fifoPgn, heap) := enlistPgnNode m caller.heap mm.fifoPgn pgn
        some (0, some (pagingFpn (mm.pgd pgn)),
          { caller with mm := { mm with fifoPgn := fifoPgn }, heap := heap })

/-- `pg_getval` (`libmem.c:292-316`). -/
def pgGetval (m : Allocator Node) (caller : PcbNodes) (addr : ℤ) :
    Option (ℤ × Option Byte × PcbNodes) := do
  let (rc, fpn, caller) ← pgGetpage m caller (pagingPgn addr)
  if rc ≠ 0 then some (-1, none, caller)
  else
    let fpn ← fpn
    let phyaddr := toInt (fpn * pagingPagesz + pagingOffst addr)
    let (rc, regs, caller) ← sysMemmap m caller
      ⟨BitVec.ofInt 32 sysmemIoRead, BitVec.ofInt 32 phyaddr, 0⟩
    if rc < 0 then some (-1, none, caller) else some (0, some (regs.a3.setWidth 8), caller)

/-- `pg_setval` (`libmem.c:324-350`). -/
def pgSetval (m : Allocator Node) (caller : PcbNodes) (addr : ℤ) (value : Byte) :
    Option (ℤ × PcbNodes) := do
  let (rc, fpn, caller) ← pgGetpage m caller (pagingPgn addr)
  if rc ≠ 0 then some (-1, caller)
  else
    let fpn ← fpn
    let phyaddr := toInt (fpn * pagingPagesz + pagingOffst addr)
    let (rc, _, caller) ← sysMemmap m caller
      ⟨BitVec.ofInt 32 sysmemIoWrite, BitVec.ofInt 32 phyaddr, value.signExtend 32⟩
    if rc < 0 then some (-1, caller)
    else
      let (_, mram) ← memphyWrite (caller.dev .mram) phyaddr value
      some (0, { caller with dev := Function.update caller.dev .mram mram })

/-- `__read` (`libmem.c:360-371`). -/
def read (m : Allocator Node) (caller : PcbNodes) (vmaid rgid offset : ℤ) :
    Option (ℤ × Option Byte × PcbNodes) := do
  let currg ← getSymrgByid caller.mm.plain rgid
  let curVma ← getVmaByNum caller.mm.plain vmaid
  match currg, curVma with
  | some currg, some _ => do
    let (_, data, caller) ← pgGetval m caller (toInt (toULong (currg.rgStart + offset)))
    some (0, data, caller)
  | _, _ => some (-1, none, caller)

/-- `libread` (`libmem.c:373-388`). -/
def libread (m : Allocator Node) (proc : PcbNodes) (source offset : BitVec 32) :
    Option (ℤ × Option (BitVec 32) × PcbNodes) :=
  (read m proc 0 source.toInt offset.toInt).map fun (val, data, proc) =>
    (val, data.map (BitVec.signExtend 32), proc)

/-- `__write` (`libmem.c:398-409`). -/
def write (m : Allocator Node) (caller : PcbNodes) (vmaid rgid offset : ℤ) (value : Byte) :
    Option (ℤ × PcbNodes) := do
  let currg ← getSymrgByid caller.mm.plain rgid
  let curVma ← getVmaByNum caller.mm.plain vmaid
  match currg, curVma with
  | some currg, some _ => do
    let (_, caller) ← pgSetval m caller (toInt (toULong (currg.rgStart + offset))) value
    some (0, caller)
  | _, _ => some (-1, caller)

/-- `libwrite` (`libmem.c:412-428`). -/
def libwrite (m : Allocator Node) (proc : PcbNodes) (data : Byte) (destination offset : BitVec 32) :
    Option (ℤ × PcbNodes) :=
  write m proc 0 destination.toInt offset.toInt data

def memCall (m : Allocator Node) (proc : PcbNodes) : MemOp → Option (MemRet × PcbNodes)
  | .alloc size regIndex => (liballoc m proc size regIndex).map fun (rc, proc) => (⟨rc, none⟩, proc)
  | .free regIndex => (libfree m proc regIndex).map fun (rc, proc) => (⟨rc, none⟩, proc)
  | .read source offset =>
    (libread m proc source offset).map fun (rc, destination, proc) => (⟨rc, destination⟩, proc)
  | .write data destination offset =>
    (libwrite m proc data destination offset).map fun (rc, proc) => (⟨rc, none⟩, proc)
  | .memmap regs => (sysMemmap m proc regs).map fun (rc, _, proc) => (⟨rc, none⟩, proc)

end Nodes

/-! ### All processes -/

/-- The processes loaded so far, over the two devices and the heap. -/
structure SysNodes (ι : Type) where
  mm : ι → Option MmNodes
  dev : Device → MemphyNodes
  heap : CellHeap Node

inductive NodeLabel (ι : Type) where
  | load (p : ι)
  | call (p : ι) (op : MemOp)

section System
variable {ι : Type}

/-- `init_memphy` on both devices (`os.c:256-262`) of structs with contents `oldRam` and
`oldSwap`, the calls of `malloc` answered by `calls` in turn. -/
def initDevices (calls : Malloc) (oldRam oldSwap : MemphyNodes) (ramSize swapSize : ℕ) :
    Option (MemphyNodes × MemphyNodes × FpHeap) := do
  let (mram, nodes) ← initMemphyNodes calls oldRam (fun _ => none) ramSize 1
  let (mswp, nodes) ←
    initMemphyNodes (calls.after (ramSize / pagingPagesz)) oldSwap nodes swapSize 1
  some (mram, mswp, nodes)

/-- The nodes of the free lists are on the heap, whatever else is. -/
def HasNodes (heap : CellHeap Node) (nodes : FpHeap) : Prop :=
  ∀ a node, nodes a = some node → heap.cell a = some ⟨.framephy node.fpn.toNat, node.fpNext⟩

/-- `main` has set up the devices and no process is loaded. What the nodes and the structs
held before is arbitrary but for the cursors, which no random access reads. -/
structure Boots (calls : Malloc) (oldRam oldSwap : MemphyNodes) (ramSize swapSize : ℕ)
    (s : SysNodes ι) : Prop where
  new : Function.Injective calls.addr
  cursor : oldRam.cursor = 0 ∧ oldSwap.cursor = 0
  unloaded : ∀ p, s.mm p = none
  devices : ∃ nodes, initDevices calls oldRam oldSwap ramSize swapSize =
    some (s.dev .mram, s.dev .activeMswp, nodes) ∧ HasNodes s.heap nodes

variable [DecidableEq ι]

def SysNodes.put (s : SysNodes ι) (p : ι) (proc : PcbNodes) : SysNodes ι :=
  ⟨Function.update s.mm p (some proc.mm), proc.dev, proc.heap⟩

/-- `ld_routine` gives a process its `mm` (`os.c:143-144`), or a process makes a call. -/
def nodesStep (m : Allocator Node) (s : SysNodes ι) : NodeLabel ι → Option (SysNodes ι)
  | .load p =>
    match s.mm p with
    | some _ => none
    | none => (Nodes.initMm m s.heap).map fun (mm, heap) => s.put p ⟨mm, s.dev, heap⟩
  | .call p op => do
    let mm ← s.mm p
    let (_, proc) ← Nodes.memCall m ⟨mm, s.dev, s.heap⟩ op
    some (s.put p proc)

def nodesSystem (m : Allocator Node) (ramSize swapSize : ℕ) :
    System (SysNodes ι) (NodeLabel ι) where
  init s := ∃ calls oldRam oldSwap, Boots calls oldRam oldSwap ramSize swapSize s
  next s label t := nodesStep m s label = some t

end System

end OsSim.Mem
