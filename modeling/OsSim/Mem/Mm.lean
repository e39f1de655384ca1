import OsSim.Mem.Memphy

/-!
# Memory management units and virtual memory areas (mm.c, mm-vm.c)

The tables of a process and the code that grows its heap. `none` is undefined
behaviour: a `NULL` pointer followed, or an index outside `pgd` or `symrgtbl`.
A pointer to a VMA is its position in `mmap`.
-/

namespace OsSim.Mem
open OsSim.Base

/-- `struct vm_rg_struct` (`os-mm.h:21-26`); the lists are Lean lists. -/
structure VmRg where
  rgStart : ℕ
  rgEnd : ℕ
  deriving DecidableEq

/-- `struct vm_area_struct` (`os-mm.h:31-44`). -/
structure VmArea where
  vmId : ℕ
  vmStart : ℕ
  vmEnd : ℕ
  sbrk : ℕ
  vmFreergList : List VmRg
  deriving DecidableEq

/-- `PAGING_MAX_SYMTBL_SZ` (`os-mm.h:7`). -/
abbrev pagingMaxSymtblSz : ℕ := 30

/-- `struct mm_struct` (`os-mm.h:49-59`). `pgd` has `pagingMaxPgn` entries and
`symrgtbl` has `pagingMaxSymtblSz`; the head of `fifoPgn` is the newest page. -/
structure Mm where
  pgd : ℕ → BitVec 32
  mmap : List VmArea
  symrgtbl : ℕ → VmRg
  fifoPgn : List ℕ

/-- What a `pcb_t` gives the memory functions access to. -/
structure Pcb where
  mm : Mm
  dev : Devices

/-- `init_mm` (`mm.c:246-271`): the page directory, the region table and the page
list are as `malloc` left them. -/
def initMm (pgd : ℕ → BitVec 32) (symrgtbl : ℕ → VmRg) (fifoPgn : List ℕ) : Mm where
  pgd := pgd
  mmap := [⟨0, 0, 0, 0, [⟨0, 0⟩]⟩]
  symrgtbl := symrgtbl
  fifoPgn := fifoPgn

/-- `init_mm` in zero-filled memory. -/
def Mm.fresh : Mm := initMm (fun _ => 0) (fun _ => ⟨0, 0⟩) []

/-! ### mm-vm.c -/

/-- The loop of `get_vma_by_num`: stepping past the last area reads `NULL->vm_id`. -/
def getVmaFrom (vmaid : ℤ) : List VmArea → Option ℕ
  | [] => none
  | v :: rest => if toInt v.vmId < vmaid then (getVmaFrom vmaid rest).map (· + 1) else some 0

/-- `get_vma_by_num` (`mm-vm.c:19-37`): the inner `none` is `NULL`. -/
def getVmaByNum (mm : Mm) (vmaid : ℤ) : Option (Option ℕ) :=
  match mm.mmap with
  | [] => some none
  | areas => (getVmaFrom vmaid areas).map some

/-- The area a pointer points to. -/
def Mm.vma (mm : Mm) (i : Option ℕ) : Option VmArea := i.bind fun i => mm.mmap[i]?

def Mm.setVma (mm : Mm) (i : ℕ) (v : VmArea) : Mm := { mm with mmap := mm.mmap.set i v }

/-- `PAGING_PAGE_ALIGNSZ` (`mm.h:10`). -/
def pagingPageAlignsz (sz : ℤ) : ℤ := toInt (divRoundUp sz pagingPagesz * pagingPagesz)

/-- `get_vm_area_node_at_brk` (`mm-vm.c:55-69`) on the current area. -/
def getVmAreaNodeAtBrk (curVma : VmArea) (alignedsz : ℤ) : VmRg :=
  ⟨curVma.sbrk, toULong (curVma.sbrk + alignedsz)⟩

/-- `OVERLAP` (`mm.h:99`), on `unsigned long`. -/
def overlap (x1 x2 y1 y2 : ℕ) : Bool := x1 ≤ y2 && y1 ≤ x2

/-- `validate_overlap_vm_area` (`mm-vm.c:79-98`). -/
def validateOverlapVmArea (mm : Mm) (vmaid vmastart vmaend : ℤ) : ℤ :=
  if mm.mmap.any fun vma => vma.vmId != toULong vmaid &&
      overlap vma.vmStart vma.vmEnd (toULong vmastart) (toULong vmaend) then -1
  else 0

/-! ### mm.c -/

/-- The loop of `vmap_page_range`: frame by frame from page `pgn` on; the flag
says whether the frames lasted. -/
def vmapLoop : ℕ → ℕ → List ℕ → (ℕ → BitVec 32) → Option (Bool × (ℕ → BitVec 32))
  | 0, _, _, pgd => some (true, pgd)
  | _ + 1, _, [], pgd => some (false, pgd)
  | n + 1, pgn, fpn :: frames, pgd =>
    if pgn < pagingMaxPgn then
      vmapLoop n (pgn + 1) frames (Function.update pgd pgn (pteSetFpn (pgd pgn) fpn))
    else none

/-- `enlist_pgn_node` (`mm.c:292-301`). -/
def enlistPgnNode (plist : List ℕ) (pgn : ℕ) : List ℕ := pgn :: plist

/-- `vmap_page_range` (`mm.c:87-130`). Only the page one past the mapped ones is
enlisted. The returned region is dropped by every caller. -/
def vmapPageRange (mm : Mm) (addr pgnum : ℤ) (frames : List ℕ) : Option (ℤ × Mm) :=
  let pgn := pagingPgn addr
  (vmapLoop pgnum.toNat pgn frames mm.pgd).map fun (all, pgd) =>
    if all then
      (0, { mm with pgd := pgd, fifoPgn := enlistPgnNode mm.fifoPgn (pgn + pgnum.toNat) })
    else (-1, { mm with pgd := pgd })

/-- The loop of `alloc_pages_range`: pop a frame and push it on the list. -/
def allocLoop : ℕ → MemphyStruct → List ℕ → ℤ × List ℕ × MemphyStruct
  | 0, mp, frmLst => (0, frmLst, mp)
  | n + 1, mp, frmLst =>
    match memphyGetFreefp mp with
    | some (fpn, mp) => allocLoop n mp (fpn :: frmLst)
    | none => (-1, frmLst, mp)

/-- `alloc_pages_range` (`mm.c:139-173`). On failure the frames already popped
stay popped. -/
def allocPagesRange (mram : MemphyStruct) (reqPgnum : ℤ) : ℤ × List ℕ × MemphyStruct :=
  allocLoop reqPgnum.toNat mram []

/-- `vm_map_ram` (`mm.c:184-215`). The result of `vmap_page_range` is ignored. -/
def vmMapRam (caller : Pcb) (mapstart incpgnum : ℤ) : Option (ℤ × Pcb) :=
  let (retAlloc, frmLst, mram) := allocPagesRange (caller.dev .mram) incpgnum
  let dev := Function.update caller.dev .mram mram
  if retAlloc < 0 then some (-1, { caller with dev := dev })
  else (vmapPageRange caller.mm mapstart incpgnum frmLst).map fun (_, mm) => (0, ⟨mm, dev⟩)

/-- `inc_vma_limit` (`mm-vm.c:107-143`). -/
def incVmaLimit (caller : Pcb) (vmaid incSz : ℤ) : Option (ℤ × Pcb) := do
  let incAmt := pagingPageAlignsz incSz
  let incnumpage := incAmt.tdiv pagingPagesz
  let ptr ← getVmaByNum caller.mm vmaid
  match ptr, caller.mm.vma ptr with
  | some i, some curVma =>
    let area := getVmAreaNodeAtBrk curVma incAmt
    let oldEnd := toInt curVma.vmEnd
    if validateOverlapVmArea caller.mm vmaid (toInt area.rgStart) (toInt area.rgEnd) < 0 then
      some (-1, caller)
    else
      let grown := { curVma with vmEnd := area.rgEnd, sbrk := area.rgEnd }
      let (rc, caller) ← vmMapRam { caller with mm := caller.mm.setVma i grown } oldEnd incnumpage
      if rc < 0 then
        let back := { curVma with vmEnd := toULong oldEnd, sbrk := toULong oldEnd }
        some (-1, { caller with mm := caller.mm.setVma i back })
      else some (0, caller)
  | _, _ => some (-1, caller)

/-- `__mm_swap_page` (`mm-vm.c:40-44`). -/
def mmSwapPage (caller : Pcb) (vicfpn swpfpn : ℤ) : Option (ℤ × Pcb) :=
  (swapCpPage .mram vicfpn .activeMswp swpfpn caller.dev).map fun dev => (0, { caller with dev := dev })

end OsSim.Mem
