import OsSim.Mem.Encoding
import OsSim.Mem.FirstFit
import OsSim.Mem.Refusal

/-!
# The frame numbers stored in page tables (mm.c:58-130, libmem.c:196-283)

Every update of a page table is one by `vmap_page_range` or one of the two by
`pg_getpage`. The stored numbers come from the free lists, which `MEMPHY_format`
fills with as many frames as the configured size gives (`mm-memphy.c:114-140`);
nothing compares that with the 13 bits of `FPN` and the 21 bits of `SWPOFF`.
-/

namespace OsSim.Mem
open OsSim.Base

variable {ι : Type}

/-- One update of a page table. -/
structure PteStore where
  pgn : ℕ
  op : PteOp
  deriving DecidableEq

def applyStores (pgd : ℕ → BitVec 32) (stores : List PteStore) : ℕ → BitVec 32 :=
  stores.foldl (fun pgd st => Function.update pgd st.pgn (pteApply (pgd st.pgn) st.op)) pgd

/-- The updates of `vmap_page_range` (`mm.c:111-121`). -/
def vmapStores : ℕ → List ℕ → List PteStore
  | _, [] => []
  | pgn, fpn :: frames => ⟨pgn, .setFpn fpn⟩ :: vmapStores (pgn + 1) frames

/-- The frames a growth takes and maps; it maps none when it runs short. -/
def Pcb.grown (proc : Pcb) (incSz : ℤ) : List ℕ :=
  if proc.freeFrames.length < growthPages incSz then []
  else proc.freeFrames.take (growthPages incSz)

def Pcb.growStores (proc : Pcb) (incSz : ℤ) : List PteStore :=
  match proc.mm.mmap with
  | [] => []
  | v :: _ => vmapStores (pagingPgn (toInt v.vmEnd)) (proc.grown incSz).reverse

/-- The updates of `pg_getpage` (`libmem.c:266-272`). -/
def Pcb.faultStores (proc : Pcb) (pgn : ℕ) : List PteStore :=
  match proc.mm.fifoPgn.getLast?, (proc.dev .activeMswp).freeFpList with
  | some vic, swpfpn :: _ =>
    [⟨vic, .setSwap 0 swpfpn⟩, ⟨pgn, .setFpn (pagingFpn (proc.mm.pgd vic))⟩]
  | _, _ => []

/-- The increment of the growth a call makes. -/
def Pcb.increment (proc : Pcb) : MemOp → Option ℤ
  | .alloc size _ =>
    if getFreeVmrgArea proc.mm 0 size.toInt = some none then
      some (pagingPageAlignsz size.toInt)
    else none
  | .memmap regs =>
    match proc.mm.mmap with
    | [] => none
    | v :: _ =>
      let area := getVmAreaNodeAtBrk v (pagingPageAlignsz regs.a3.toInt)
      if regs.a1.toInt = sysmemIncOp ∧ ¬validateOverlapVmArea proc.mm regs.a2.toInt
          (toInt area.rgStart) (toInt area.rgEnd) < 0 then some regs.a3.toInt
      else none
  | _ => none

/-- The page of an access through region `rgid`, if it is a page fault. -/
def Pcb.faultAt (proc : Pcb) (rgid offset : BitVec 32) : Option ℕ :=
  if rgid.toNat < 30 ∧ pagingPagePresent (proc.accessPte rgid offset) = false then
    some (pagingPgn (proc.accessAddr rgid.toInt offset.toInt))
  else none

/-- The page a call faults on. -/
def Pcb.faultPage (proc : Pcb) : MemOp → Option ℕ
  | .read source offset => proc.faultAt source offset
  | .write _ destination offset => proc.faultAt destination offset
  | _ => none

/-- The updates of the page table a call makes. -/
def Pcb.stores (proc : Pcb) (op : MemOp) : List PteStore :=
  match proc.increment op, proc.faultPage op with
  | some incSz, _ => proc.growStores incSz
  | none, some pgn => proc.faultStores pgn
  | none, none => []

/-- The frames a call takes off the free lists to store them. -/
def Pcb.taken (proc : Pcb) (op : MemOp) : Device → List ℕ
  | .mram => ((proc.increment op).map proc.grown).getD []
  | .activeMswp =>
    if (proc.faultPage op).isSome then (proc.dev .activeMswp).freeFpList.take 1 else []

/-! ### The updates are those of the code -/

theorem applyStores_cons (pgd : ℕ → BitVec 32) (st : PteStore) (rest : List PteStore) :
    applyStores pgd (st :: rest) =
      applyStores (Function.update pgd st.pgn (pteApply (pgd st.pgn) st.op)) rest := rfl

theorem mapFrames_eq_applyStores (frames : List ℕ) (pgn : ℕ) (pgd : ℕ → BitVec 32) :
    mapFrames pgn frames pgd = applyStores pgd (vmapStores pgn frames) := by
  induction frames generalizing pgn pgd with
  | nil => rfl
  | cons fpn frames ih =>
    rw [mapFrames, ih]
    rfl

theorem mapFrames_getElem (frames : List ℕ) (pgn : ℕ) (pgd : ℕ → BitVec 32) {i : ℕ}
    (h : i < frames.length) :
    mapFrames pgn frames pgd (pgn + i) = pteSetFpn (pgd (pgn + i)) frames[i] := by
  induction frames generalizing pgn pgd i with
  | nil => simp at h
  | cons fpn frames ih =>
    rw [mapFrames]
    cases i with
    | zero =>
      rw [mapFrames_below _ _ (by omega), Nat.add_zero, Function.update_self]
      rfl
    | succ i =>
      have htail := ih (pgn + 1) (Function.update pgd pgn (pteSetFpn (pgd pgn) fpn))
        (i := i) (by simpa using h)
      rw [show pgn + (i + 1) = pgn + 1 + i by omega, htail, Function.update_of_ne (by omega)]
      rfl

theorem mem_vmapStores {frames : List ℕ} {pgn : ℕ} {st : PteStore} (h : st ∈ vmapStores pgn frames) :
    ∃ f ∈ frames, st.op = .setFpn f := by
  induction frames generalizing pgn with
  | nil => simp [vmapStores] at h
  | cons fpn frames ih =>
    cases List.mem_cons.mp h with
    | inl heq => exact ⟨fpn, List.mem_cons_self .., by rw [heq]⟩
    | inr htail =>
      obtain ⟨f, hf, hop⟩ := ih htail
      exact ⟨f, List.mem_cons_of_mem _ hf, hop⟩

theorem getElem_mem_vmapStores (frames : List ℕ) (pgn : ℕ) {i : ℕ} (h : i < frames.length) :
    ⟨pgn + i, .setFpn frames[i]⟩ ∈ vmapStores pgn frames := by
  induction frames generalizing pgn i with
  | nil => simp at h
  | cons fpn frames ih =>
    cases i with
    | zero => exact List.mem_cons_self ..
    | succ i =>
      have htail := ih (pgn + 1) (i := i) (by simpa using h)
      rw [show pgn + 1 + i = pgn + (i + 1) by omega] at htail
      exact List.mem_cons_of_mem _ htail

section Call
variable {proc proc' : Pcb} {brk : ℕ} {fr : List VmRg}

theorem Pcb.growStores_heap (hheap : HeapIs proc.mm brk fr) (incSz : ℤ) :
    proc.growStores incSz = vmapStores (pagingPgn (toInt brk)) (proc.grown incSz).reverse := by
  have hmm : proc.mm.mmap = [⟨0, 0, brk, brk, fr⟩] := hheap
  rw [Pcb.growStores, hmm]

theorem grow_pgd (hheap : HeapIs proc.mm brk fr) {incSz rc : ℤ}
    (h : proc.grow brk fr incSz = some (rc, proc')) :
    proc'.mm.pgd = applyStores proc.mm.pgd (proc.growStores incSz) := by
  rw [Pcb.growStores_heap hheap, Pcb.grown]
  rw [Pcb.grow] at h
  split_ifs at h with hshort hroom
  · simp only [Option.some.injEq, Prod.mk.injEq] at h
    rw [if_pos hshort, ← h.2]
    rfl
  · simp only [Option.some.injEq, Prod.mk.injEq] at h
    rw [if_neg hshort, ← h.2, ← mapFrames_eq_applyStores]
    rfl

theorem PageStep.pgd_eq {pgn : ℕ} (h : PageStep proc pgn proc') :
    proc'.mm.pgd = if pagingPagePresent (proc.mm.pgd pgn) = false then
      applyStores proc.mm.pgd (proc.faultStores pgn) else proc.mm.pgd := by
  cases h with
  | hit hpresent hmm => rw [hmm, if_neg (by simp [hpresent])]
  | fault vic swpfpn older frames habsent hfifo hfree hmm =>
    have hlast : proc.mm.fifoPgn.getLast? = some vic := by rw [hfifo, List.getLast?_concat]
    rw [if_pos habsent, Pcb.faultStores, hlast, hfree, hmm]
    rfl

theorem read_pageStep (hheap : HeapIs proc.mm brk fr) {rgid : BitVec 32} (hid : rgid.toNat < 30)
    {offset rc : ℤ} {data : Option Byte}
    (h : read proc 0 rgid.toInt offset = some (rc, data, proc')) :
    PageStep proc (pagingPgn (proc.accessAddr rgid.toInt offset)) proc' := by
  have hrgid : rgid.toInt = rgid.toNat := BitVec.toInt_eq_toNat_of_lt (by omega)
  rw [read_getval hheap (by omega) (by omega)] at h
  obtain ⟨⟨rc1, data1, mid⟩, hval, heq⟩ := Option.map_eq_some_iff.mp h
  simp only [Prod.mk.injEq] at heq
  exact heq.2.2 ▸ pgGetval_step hval

theorem write_pageStep (hheap : HeapIs proc.mm brk fr) {rgid : BitVec 32} (hid : rgid.toNat < 30)
    {offset rc : ℤ} {value : Byte} (h : write proc 0 rgid.toInt offset value = some (rc, proc')) :
    PageStep proc (pagingPgn (proc.accessAddr rgid.toInt offset)) proc' := by
  have hrgid : rgid.toInt = rgid.toNat := BitVec.toInt_eq_toNat_of_lt (by omega)
  rw [write_setval hheap (by omega) (by omega)] at h
  obtain ⟨⟨rc1, mid⟩, hval, heq⟩ := Option.map_eq_some_iff.mp h
  obtain ⟨-, rfl⟩ := Prod.mk.inj heq
  exact pgSetval_step hval

/-- What a call does to the page table and to the free lists: a growth, a page fault,
or neither. -/
inductive StoreStep (proc : Pcb) (brk : ℕ) (fr : List VmRg) (op : MemOp) (proc' : Pcb) : Prop where
  | grows {incSz rc : ℤ} {mid : Pcb} : proc.increment op = some incSz → proc.faultPage op = none →
      proc.grow brk fr incSz = some (rc, mid) → proc'.mm.pgd = mid.mm.pgd → proc'.dev = mid.dev →
      StoreStep proc brk fr op proc'
  | faults {pgn : ℕ} : proc.increment op = none → proc.faultPage op = some pgn →
      pagingPagePresent (proc.mm.pgd pgn) = false → PageStep proc pgn proc' →
      StoreStep proc brk fr op proc'
  | still : proc.increment op = none → proc.faultPage op = none → proc'.mm.pgd = proc.mm.pgd →
      (∀ d, (proc'.dev d).freeFpList = (proc.dev d).freeFpList) → StoreStep proc brk fr op proc'

theorem alloc_storeStep (hheap : HeapIs proc.mm brk fr) {size regIndex : BitVec 32} {rc : ℤ}
    {addr : Option ℤ}
    (hcall : alloc proc 0 regIndex.toInt size.toInt = some (rc, addr, proc')) :
    StoreStep proc brk fr (.alloc size regIndex) proc' := by
  have hsearch : getFreeVmrgArea proc.mm 0 size.toInt = some none ↔ takeFit size.toInt fr = none :=
    getFreeVmrgArea_none hheap
  obtain ⟨mid, brk', hmid, -, hpgd, hdev, -⟩ := alloc_cases hheap hcall
  cases hmid with
  | inl h =>
    obtain ⟨hfit, rfl⟩ := h
    exact .still (if_neg fun hnone => hfit (hsearch.mp hnone)) rfl hpgd fun d => by rw [hdev]
  | inr h =>
    obtain ⟨hfit, rc', hgrow⟩ := h
    exact .grows (if_pos (hsearch.mpr hfit)) rfl hgrow hpgd hdev

theorem free_storeStep (hheap : HeapIs proc.mm brk fr) {regIndex : BitVec 32} {rc : ℤ}
    (hcall : libfree proc regIndex = some (rc, proc')) :
    StoreStep proc brk fr (.free regIndex) proc' := by
  obtain heq | heq := free_cases hheap regIndex.toInt
  all_goals
    obtain ⟨-, rfl⟩ := Prod.mk.inj (Option.some.inj (hcall.symm.trans heq))
    exact .still rfl rfl rfl fun _ => rfl

theorem Pcb.faultAt_present (proc : Pcb) {rgid offset : BitVec 32}
    (h : rgid.toNat < 30 → pagingPagePresent (proc.accessPte rgid offset) = true) :
    proc.faultAt rgid offset = none := by
  rw [Pcb.faultAt, if_neg]
  intro hfault
  have hpresent := h hfault.1
  rw [hfault.2] at hpresent
  exact absurd hpresent (by decide)

theorem Pcb.stores_eq_nil {op : MemOp} (hop : proc.increment op = none)
    (hpage : proc.faultPage op = none) : proc.stores op = [] := by
  rw [Pcb.stores, hop, hpage]

/-- An access that is not a fault leaves the page table and the free lists alone. -/
theorem PageStep.storeStep {op : MemOp} {rgid offset : BitVec 32} (hop : proc.increment op = none)
    (hpage : proc.faultPage op = proc.faultAt rgid offset) (hid : rgid.toNat < 30)
    (h : PageStep proc (pagingPgn (proc.accessAddr rgid.toInt offset.toInt)) proc') :
    StoreStep proc brk fr op proc' := by
  cases hpresent : pagingPagePresent (proc.accessPte rgid offset) with
  | false => exact .faults hop (by rw [hpage, Pcb.faultAt, if_pos ⟨hid, hpresent⟩]) hpresent h
  | true =>
    cases h with
    | hit _ hmm hdev =>
      have hfault := proc.faultAt_present fun _ => hpresent
      exact .still hop (hpage.trans hfault) (by rw [hmm]) fun d => (hdev d).freeFpList
    | fault vic swpfpn older frames habsent =>
      exact absurd (hpresent.symm.trans habsent) (by simp)

theorem read_storeStep (hheap : HeapIs proc.mm brk fr) {source offset : BitVec 32} {rc : ℤ}
    {data : Option Byte}
    (hcall : read proc 0 source.toInt offset.toInt = some (rc, data, proc')) :
    StoreStep proc brk fr (.read source offset) proc' := by
  by_cases hid : source.toNat < 30
  · exact (read_pageStep hheap hid hcall).storeStep rfl rfl hid
  · rw [read_outside hheap (not_lt.mp hid)] at hcall
    split_ifs at hcall
    simp only [Option.some.injEq, Prod.mk.injEq] at hcall
    obtain ⟨-, -, rfl⟩ := hcall
    exact .still rfl (if_neg fun h => hid h.1) rfl fun _ => rfl

theorem write_storeStep (hheap : HeapIs proc.mm brk fr) {destination offset : BitVec 32}
    {data : Byte} {rc : ℤ}
    (hcall : write proc 0 destination.toInt offset.toInt data = some (rc, proc')) :
    StoreStep proc brk fr (.write data destination offset) proc' := by
  by_cases hid : destination.toNat < 30
  · exact (write_pageStep hheap hid hcall).storeStep rfl rfl hid
  · rw [write_outside hheap (not_lt.mp hid)] at hcall
    split_ifs at hcall
    simp only [Option.some.injEq, Prod.mk.injEq] at hcall
    obtain ⟨-, rfl⟩ := hcall
    exact .still rfl (if_neg fun h => hid h.1) rfl fun _ => rfl

theorem memmap_storeStep (hheap : HeapIs proc.mm brk fr) {regs regs' : ScRegs} {rc : ℤ}
    (hcall : sysMemmap proc regs = some (rc, regs', proc')) :
    StoreStep proc brk fr (.memmap regs) proc' := by
  have hmm : proc.mm.mmap = [⟨0, 0, brk, brk, fr⟩] := hheap
  have hinc : proc.increment (.memmap regs) =
      if regs.a1.toInt = sysmemIncOp ∧ ¬validateOverlapVmArea proc.mm regs.a2.toInt (toInt brk)
        (toInt (toULong (brk + pagingPageAlignsz regs.a3.toInt))) < 0 then some regs.a3.toInt
      else none := by
    rw [Pcb.increment, hmm]
    rfl
  cases sysMemmap_step hcall with
  | inl h =>
    obtain ⟨hop, rc', hgrow⟩ := h
    have hid : regs.a2.toInt ≤ 0 := by
      by_contra hpos
      simp [incVmaLimit, getVmaByNum_heap_pos hheap (not_le.mp hpos)] at hgrow
    rw [incVmaLimit_heap hheap hid] at hgrow
    split_ifs at hgrow with hv
    · simp only [Option.some.injEq, Prod.mk.injEq] at hgrow
      obtain ⟨-, rfl⟩ := hgrow
      exact .still (hinc.trans (if_neg fun h => h.2 hv)) rfl rfl fun _ => rfl
    · exact .grows (hinc.trans (if_pos ⟨hop, hv⟩)) rfl hgrow rfl rfl
  | inr h =>
    obtain ⟨hop, hsame, hdev⟩ := h
    exact .still (hinc.trans (if_neg fun h => hop h.1)) rfl (by rw [hsame])
      fun d => (hdev d).freeFpList

theorem memCall_storeStep (hheap : HeapIs proc.mm brk fr) {op : MemOp} {ret : MemRet}
    (hcall : memCall proc op = some (ret, proc')) : StoreStep proc brk fr op proc' := by
  cases op with
  | alloc size regIndex =>
    obtain ⟨addr, halloc⟩ := alloc_of_memCall hcall
    exact alloc_storeStep hheap halloc
  | free regIndex => exact free_storeStep hheap (libfree_of_memCall hcall)
  | read source offset =>
    obtain ⟨data, hread⟩ := read_of_memCall hcall
    exact read_storeStep hheap hread
  | write data destination offset =>
    exact write_storeStep hheap (libwrite_of_memCall hcall)
  | memmap regs =>
    obtain ⟨regs', hsys⟩ := sysMemmap_of_memCall hcall
    exact memmap_storeStep hheap hsys

theorem memCall_pgd (hheap : HeapIs proc.mm brk fr) {op : MemOp} {ret : MemRet}
    (hcall : memCall proc op = some (ret, proc')) :
    proc'.mm.pgd = applyStores proc.mm.pgd (proc.stores op) := by
  cases memCall_storeStep hheap hcall with
  | grows hinc hpage hgrow hpgd =>
    rw [Pcb.stores, hinc, hpgd]
    exact grow_pgd hheap hgrow
  | faults hinc hpage habsent hstep =>
    rw [Pcb.stores, hinc, hpage, hstep.pgd_eq, if_pos habsent]
  | still hinc hpage hpgd =>
    rw [Pcb.stores_eq_nil hinc hpage, hpgd]
    rfl

/-- The free lists only lose frames, from the front. -/
theorem memCall_free_suffix (hheap : HeapIs proc.mm brk fr) {op : MemOp} {ret : MemRet}
    (hcall : memCall proc op = some (ret, proc')) (d : Device) :
    (proc'.dev d).freeFpList <:+ (proc.dev d).freeFpList := by
  cases memCall_storeStep hheap hcall with
  | grows _ _ hgrow _ hdev =>
    rw [hdev]
    rw [Pcb.grow] at hgrow
    split_ifs at hgrow
    all_goals
      simp only [Option.some.injEq, Prod.mk.injEq] at hgrow
      rw [← hgrow.2]
    · cases d with
      | mram => exact List.nil_suffix
      | activeMswp => exact List.suffix_refl _
    · cases d with
      | mram => exact List.drop_suffix _ _
      | activeMswp => exact List.suffix_refl _
  | faults _ _ _ hstep =>
    cases hstep with
    | hit _ _ hdev => rw [(hdev d).freeFpList]
    | fault vic swpfpn older frames _ _ hfree _ hram hswp =>
      cases d with
      | mram => rw [hram.freeFpList]
      | activeMswp =>
        rw [hswp.freeFpList, hfree]
        exact List.suffix_cons ..
  | still _ _ _ hdev => rw [hdev d]

end Call

/-! ### What is read back -/

/-- The frames a field of an entry can number. -/
def fieldSize : Device → ℕ
  | .mram => 8192
  | .activeMswp => 2097152

/-- The frame an update stores. -/
def PteOp.frame : PteOp → Device × ℕ
  | .setFpn fpn => (.mram, fpn)
  | .setSwap _ swpoff => (.activeMswp, swpoff)

/-- The frame read back from an entry after the update: `PAGING_PTE_FPN` or
`PAGING_PTE_SWP`. -/
def PteOp.decoded (op : PteOp) (pte : BitVec 32) : Device × ℕ :=
  match op with
  | .setFpn _ => (.mram, pagingPteFpn pte)
  | .setSwap _ _ => (.activeMswp, pagingPteSwp pte)

theorem PteOp.decoded_pteApply (op : PteOp) (pte : BitVec 32) :
    op.decoded (pteApply pte op) = (op.frame.1, op.frame.2 % fieldSize op.frame.1) := by
  cases op with
  | setFpn fpn =>
    have hfpn := pagingFpn_pteSetFpn pte fpn
    simp only [decoded, frame, fieldSize, pteApply, pagingPteFpn_eq, hfpn]
  | setSwap swptyp swpoff =>
    have hoff := pagingPteSwp_pteSetSwap pte swptyp swpoff
    simp only [decoded, frame, fieldSize, pteApply, hoff]

/-- Every frame number the call stores is read back unchanged, so that the entries of
two different frames of a device are read as different frames. -/
structure StoresReadBack (proc : Pcb) (op : MemOp) : Prop where
  readBack : ∀ st ∈ proc.stores op, ∀ pte, st.op.decoded (pteApply pte st.op) = st.op.frame
  apart : ∀ st ∈ proc.stores op, ∀ st' ∈ proc.stores op, ∀ pte pte',
    st.op.decoded (pteApply pte st.op) = st'.op.decoded (pteApply pte' st'.op) →
      st.op.frame = st'.op.frame

/-- The frames the call takes off the free lists fit the fields of an entry. -/
def FramesFit (proc : Pcb) (op : MemOp) : Prop := ∀ d, ∀ f ∈ proc.taken op d, f < fieldSize d

theorem storesReadBack_iff (proc : Pcb) (op : MemOp) :
    StoresReadBack proc op ↔
      ∀ st ∈ proc.stores op, st.op.frame.2 < fieldSize st.op.frame.1 := by
  constructor
  · intro h st hst
    have hback := h.readBack st hst 0
    rw [PteOp.decoded_pteApply] at hback
    have hpos : 0 < fieldSize st.op.frame.1 := by
      cases st.op.frame.1 with
      | mram => norm_num [fieldSize]
      | activeMswp => norm_num [fieldSize]
    have hmod : st.op.frame.2 % fieldSize st.op.frame.1 = st.op.frame.2 := congrArg Prod.snd hback
    exact hmod ▸ Nat.mod_lt _ hpos
  · intro h
    have hback : ∀ st ∈ proc.stores op, ∀ pte,
        st.op.decoded (pteApply pte st.op) = st.op.frame := by
      intro st hst pte
      rw [PteOp.decoded_pteApply, Nat.mod_eq_of_lt (h st hst)]
    refine ⟨hback, fun st hst st' hst' pte pte' heq => ?_⟩
    rw [hback st hst, hback st' hst'] at heq
    exact heq

section Stored
variable {proc proc' : Pcb} {brk : ℕ} {fr : List VmRg} {op : MemOp} {ret : MemRet}

theorem Pcb.taken_mram (proc : Pcb) (op : MemOp) :
    proc.taken op .mram = ((proc.increment op).map proc.grown).getD [] := rfl

theorem Pcb.taken_activeMswp (proc : Pcb) (op : MemOp) : proc.taken op .activeMswp =
    if (proc.faultPage op).isSome then (proc.dev .activeMswp).freeFpList.take 1 else [] := rfl

theorem grows_fit_iff (hheap : HeapIs proc.mm brk fr) {incSz : ℤ}
    (hinc : proc.increment op = some incSz) (hpage : proc.faultPage op = none) :
    (∀ st ∈ proc.stores op, st.op.frame.2 < fieldSize st.op.frame.1) ↔ FramesFit proc op := by
  have hstores : proc.stores op = vmapStores (pagingPgn (toInt brk)) (proc.grown incSz).reverse := by
    rw [Pcb.stores, hinc]
    exact Pcb.growStores_heap hheap incSz
  have htaken : proc.taken op .mram = proc.grown incSz := by
    rw [Pcb.taken_mram, hinc]
    rfl
  have hswap : proc.taken op .activeMswp = [] := by
    rw [Pcb.taken_activeMswp, hpage]
    rfl
  rw [hstores]
  constructor
  · intro h d f hf
    cases d with
    | mram =>
      rw [htaken] at hf
      obtain ⟨i, hi, rfl⟩ := List.getElem_of_mem (List.mem_reverse.mpr hf)
      exact h _ (getElem_mem_vmapStores _ (pagingPgn (toInt brk)) hi)
    | activeMswp => simp [hswap] at hf
  · intro h st hst
    obtain ⟨f, hf, hop⟩ := mem_vmapStores hst
    rw [hop]
    exact h .mram f (htaken ▸ List.mem_reverse.mp hf)

/-- The frame a fault takes from its victim is one that was read from an entry. -/
theorem fault_fit_iff {pgn : ℕ} (hinc : proc.increment op = none)
    (hpage : proc.faultPage op = some pgn)
    (habsent : pagingPagePresent (proc.mm.pgd pgn) = false) (hstep : PageStep proc pgn proc') :
    (∀ st ∈ proc.stores op, st.op.frame.2 < fieldSize st.op.frame.1) ↔ FramesFit proc op := by
  cases hstep with
  | hit hpresent => exact absurd (hpresent.symm.trans habsent) (by simp)
  | fault vic swpfpn older frames _ hfifo hfree =>
    have hlast : proc.mm.fifoPgn.getLast? = some vic := by rw [hfifo, List.getLast?_concat]
    have hvic : pagingFpn (proc.mm.pgd vic) < 8192 := pagingFpn_lt _
    have hstores : proc.stores op =
        [⟨vic, .setSwap 0 swpfpn⟩, ⟨pgn, .setFpn (pagingFpn (proc.mm.pgd vic))⟩] := by
      simp only [Pcb.stores, hinc, hpage, Pcb.faultStores, hlast, hfree]
    have htaken : proc.taken op .activeMswp = [swpfpn] := by
      rw [Pcb.taken_activeMswp, hpage, hfree]
      rfl
    have hram : proc.taken op .mram = [] := by
      rw [Pcb.taken_mram, hinc]
      rfl
    rw [hstores]
    constructor
    · intro h d f hf
      cases d with
      | mram => simp [hram] at hf
      | activeMswp =>
        rw [htaken, List.mem_singleton] at hf
        rw [hf]
        exact h ⟨vic, .setSwap 0 swpfpn⟩ (List.mem_cons_self ..)
    · intro h st hst
      rw [List.mem_cons, List.mem_singleton] at hst
      cases hst with
      | inl heq =>
        rw [heq]
        exact h .activeMswp swpfpn (htaken ▸ List.mem_singleton_self _)
      | inr heq =>
        rw [heq]
        exact hvic

/-- The numbers stored are those of the frames taken. -/
theorem stores_fit_iff (hheap : HeapIs proc.mm brk fr)
    (hcall : memCall proc op = some (ret, proc')) :
    (∀ st ∈ proc.stores op, st.op.frame.2 < fieldSize st.op.frame.1) ↔ FramesFit proc op := by
  cases memCall_storeStep hheap hcall with
  | grows hinc hpage => exact grows_fit_iff hheap hinc hpage
  | faults hinc hpage habsent hstep => exact fault_fit_iff hinc hpage habsent hstep
  | still hinc hpage =>
    rw [Pcb.stores_eq_nil hinc hpage]
    refine iff_of_true (by simp) fun d f hf => ?_
    cases d with
    | mram => simp [Pcb.taken_mram, hinc] at hf
    | activeMswp => simp [Pcb.taken_activeMswp, hpage] at hf

end Stored

/-! ### Runs -/

theorem mem_of_mem_taken {proc : Pcb} {op : MemOp} {d : Device} {f : ℕ}
    (h : f ∈ proc.taken op d) : f ∈ (proc.dev d).freeFpList := by
  cases d with
  | mram =>
    cases hinc : proc.increment op with
    | none => simp [Pcb.taken_mram, hinc] at h
    | some incSz =>
      rw [Pcb.taken_mram, hinc, Option.map_some, Option.getD_some, Pcb.grown] at h
      split_ifs at h
      · simp at h
      · exact List.mem_of_mem_take h
  | activeMswp =>
    rw [Pcb.taken_activeMswp] at h
    split_ifs at h
    · exact List.mem_of_mem_take h
    · simp at h

section Run
variable [DecidableEq ι] {ramSize swapSize : ℕ} {s : MemSys ι}

theorem reachable_free_suffix (h : MemReachable ramSize swapSize (fun _ _ => True) s) (d : Device) :
    (s.dev d).freeFpList <:+
      ((MemSys.start ramSize swapSize : MemSys ι).dev d).freeFpList := by
  have hinv : (∀ p, ∃ brk fr, HeapIs (s.mm p) brk fr) ∧ ∀ d, (s.dev d).freeFpList <:+
      ((MemSys.start ramSize swapSize : MemSys ι).dev d).freeFpList := by
    apply MemReachable.invariant (fun s : MemSys ι => (∀ p, ∃ brk fr, HeapIs (s.mm p) brk fr) ∧
      ∀ d, (s.dev d).freeFpList <:+
        ((MemSys.start ramSize swapSize : MemSys ι).dev d).freeFpList) _ _ h
    · exact ⟨fun p => ⟨0, _, heapIs_fresh⟩, fun d => List.suffix_refl _⟩
    · intro s p op ret proc hs _ hcall
      obtain ⟨brk, fr, hheap⟩ : ∃ brk fr, HeapIs (s.pcb p).mm brk fr := hs.1 p
      exact ⟨heap_put hs.1 (memCall_heapIs hheap hcall),
        fun d => (memCall_free_suffix hheap hcall d).trans (hs.2 d)⟩
  exact hinv.2 d

theorem framesFit_of_small (h : MemReachable ramSize swapSize (fun _ _ => True) s) (p : ι)
    (hram : ramSize / 256 ≤ 8192) (hswap : swapSize / 256 ≤ 2097152) (op : MemOp) :
    FramesFit (s.pcb p) op := by
  intro d f hf
  have hmem := (reachable_free_suffix h d).subset (mem_of_mem_taken hf)
  cases d with
  | mram =>
    have hlt : f < ramSize / 256 := List.mem_range.mp hmem
    exact hlt.trans_le hram
  | activeMswp =>
    have hlt : f < swapSize / 256 := List.mem_range.mp hmem
    exact hlt.trans_le hswap

end Run

/-- The growth of a fresh process by 8193 pages. -/
theorem big_growth {ramSize swapSize : ℕ} (p : ι) (hram : 8193 ≤ ramSize / 256) :
    (∃ ret proc', memCall ((MemSys.start ramSize swapSize : MemSys ι).pcb p)
      (.alloc 2097408#32 0#32) = some (ret, proc')) ∧
    ((MemSys.start ramSize swapSize : MemSys ι).pcb p).increment (.alloc 2097408#32 0#32) =
      some 2097408 ∧
    ((MemSys.start ramSize swapSize : MemSys ι).pcb p).grown 2097408 = List.range 8193 := by
  have hheap : HeapIs ((MemSys.start ramSize swapSize : MemSys ι).pcb p).mm (256 * 0) [⟨0, 0⟩] :=
    heapIs_fresh
  have hfit : takeFit (2097408#32).toInt [⟨0, 0⟩] = none := by decide +kernel
  have hfree : ((MemSys.start ramSize swapSize : MemSys ι).pcb p).freeFrames =
      List.range (ramSize / 256) := rfl
  have halign : pagingPageAlignsz 2097408 = 2097408 := by decide +kernel
  have hpages : growthPages 2097408 = 8193 := by decide +kernel
  have hsize : (2097408#32).toInt = 2097408 := by decide
  have hserved : GrowthServed ((MemSys.start ramSize swapSize : MemSys ι).pcb p) 0
      (2097408#32).toInt := by
    rw [hsize]
    have hn : allocPages 2097408 = 8193 := by rw [allocPages, halign, hpages]
    refine ⟨by rw [halign]; norm_num, ?_, by rw [hn]; norm_num, Or.inr ?_⟩
    · rw [hn, hfree, List.length_range]
      exact hram
    · rw [hn]
      decide +kernel
  obtain ⟨rc, addr, proc', hcall, -⟩ := alloc_returns hheap (fun _ => hserved)
    (show 0 ≤ (0#32).toInt by decide) (by decide) (by decide)
  refine ⟨⟨⟨rc, none⟩, proc', ?_⟩, ?_, ?_⟩
  · rw [memCall, liballoc, hcall]
    rfl
  · rw [Pcb.increment, if_pos ((getFreeVmrgArea_none hheap).mpr hfit), hsize, halign]
  · rw [Pcb.grown, hpages, hfree, List.length_range, if_neg (by omega), List.take_range,
      Nat.min_eq_left hram]

theorem not_framesFit_of_big {ramSize swapSize : ℕ} (p : ι) (hram : 8193 ≤ ramSize / 256) :
    ¬FramesFit ((MemSys.start ramSize swapSize : MemSys ι).pcb p) (.alloc 2097408#32 0#32) := by
  obtain ⟨-, hinc, hgrown⟩ := @big_growth ι ramSize swapSize p hram
  intro hfit
  have hlt : 8192 < fieldSize .mram := hfit .mram 8192 (by
    rw [Pcb.taken_mram, hinc, Option.map_some, Option.getD_some, hgrown]
    exact List.mem_range.mpr (by norm_num))
  exact absurd hlt (by decide)

/-- In every reachable state, the frame numbers a call stores are read back exactly when
the frames it takes off the free lists fit the fields of an entry. On a swap of at most
2^21 frames that is so in all runs exactly when `mram` has at most 2^13 frames. -/
theorem stored_frames_read_back_iff [DecidableEq ι] (p : ι) :
    (∀ s : MemSys ι, Reachable anySystem (fun _ _ => True) s → ∀ op ret proc',
      memCall (s.pcb p) op = some (ret, proc') →
        proc'.mm.pgd = applyStores (s.mm p).pgd ((s.pcb p).stores op) ∧
          (StoresReadBack (s.pcb p) op ↔ FramesFit (s.pcb p) op)) ∧
    ∀ ramSize swapSize, swapSize / 256 ≤ 2097152 →
      ((∀ s : MemSys ι, MemReachable ramSize swapSize (fun _ _ => True) s → ∀ op ret proc',
        memCall (s.pcb p) op = some (ret, proc') → StoresReadBack (s.pcb p) op) ↔
          ramSize / 256 ≤ 8192) := by
  constructor
  · intro s h op ret proc' hcall
    obtain ⟨brk, fr, hheap⟩ : ∃ brk fr, HeapIs (s.pcb p).mm brk fr := anySystem_heapIs h p
    exact ⟨memCall_pgd hheap hcall,
      (storesReadBack_iff _ op).trans (stores_fit_iff hheap hcall)⟩
  · intro ramSize swapSize hswap
    constructor
    · intro hall
      by_contra hram
      obtain ⟨⟨ret, proc', hcall⟩, -, -⟩ :=
        @big_growth ι ramSize swapSize p (Nat.lt_of_not_le hram)
      have hback := hall (.start ramSize swapSize) (.init rfl) _ ret proc' hcall
      have hheap : HeapIs ((MemSys.start ramSize swapSize : MemSys ι).pcb p).mm 0 [⟨0, 0⟩] :=
        heapIs_fresh
      exact not_framesFit_of_big p (Nat.lt_of_not_le hram)
        ((stores_fit_iff hheap hcall).mp ((storesReadBack_iff _ _).mp hback))
    · intro hram s h op ret proc' hcall
      obtain ⟨brk, fr, hheap⟩ : ∃ brk fr, HeapIs (s.pcb p).mm brk fr :=
        anySystem_heapIs (MemReachable.any h) p
      exact (storesReadBack_iff _ op).mpr
        ((stores_fit_iff hheap hcall).mpr (framesFit_of_small h p hram hswap op))

theorem stored_frames_read_back_two_pages :
    ∃ ret proc', memCall ((MemSys.start 512 512 : MemSys Unit).pcb ()) (.alloc 300 0) =
        some (ret, proc') ∧
      StoresReadBack ((MemSys.start 512 512 : MemSys Unit).pcb ()) (.alloc 300 0) := by
  have hdef : (memCall ((MemSys.start 512 512 : MemSys Unit).pcb ()) (.alloc 300 0)).isSome =
      true := by decide +kernel
  obtain ⟨⟨ret, proc'⟩, hcall⟩ := Option.isSome_iff_exists.mp hdef
  exact ⟨ret, proc', hcall, ((stored_frames_read_back_iff ()).2 512 512 (by decide)).mpr (by decide)
    _ (.init rfl) _ ret proc' hcall⟩

/-- With one frame more than the field can number, page 0 gets frame 8192 and page 8192
gets frame 0; both entries are read as frame 0. -/
theorem frame_8192_reads_as_0 :
    ∃ s : MemSys Unit, MemReachable 2097408 512 (fun _ _ => True) s ∧ ∃ ret proc',
      memCall (s.pcb ()) (.alloc 2097408 0) = some (ret, proc') ∧
        ⟨0, .setFpn 8192⟩ ∈ (s.pcb ()).stores (.alloc 2097408 0) ∧
        ⟨8192, .setFpn 0⟩ ∈ (s.pcb ()).stores (.alloc 2097408 0) ∧
        pagingPteFpn (proc'.mm.pgd 0) = 0 ∧ pagingPteFpn (proc'.mm.pgd 8192) = 0 ∧
        ¬StoresReadBack (s.pcb ()) (.alloc 2097408 0) := by
  have hheap : HeapIs ((MemSys.start 2097408 512 : MemSys Unit).pcb ()).mm 0 [⟨0, 0⟩] :=
    heapIs_fresh
  obtain ⟨⟨ret, proc', hcall⟩, hinc, hgrown⟩ :=
    @big_growth Unit 2097408 512 () (by norm_num)
  have hstores : ((MemSys.start 2097408 512 : MemSys Unit).pcb ()).stores (.alloc 2097408#32 0#32) =
      vmapStores 0 (List.range 8193).reverse := by
    have hpgn : pagingPgn (toInt (0 : ℕ)) = 0 := by decide +kernel
    have hgrow := Pcb.growStores_heap hheap 2097408
    rw [hgrown, hpgn] at hgrow
    rw [Pcb.stores, hinc]
    exact hgrow
  have hpgd : proc'.mm.pgd = mapFrames 0 (List.range 8193).reverse fun _ => 0 := by
    rw [memCall_pgd hheap hcall, hstores, mapFrames_eq_applyStores]
    rfl
  have hlen : (List.range 8193).reverse.length = 8193 := by
    rw [List.length_reverse, List.length_range]
  have hget : ∀ i, i < 8193 → proc'.mm.pgd i = pteSetFpn 0 (8192 - i) ∧
      ⟨i, .setFpn (8192 - i)⟩ ∈ vmapStores 0 (List.range 8193).reverse := by
    intro i hi
    have hmap := mapFrames_getElem (List.range 8193).reverse 0 (fun _ => 0) (hlen.symm ▸ hi)
    have hmem := getElem_mem_vmapStores (List.range 8193).reverse 0 (hlen.symm ▸ hi)
    rw [List.getElem_reverse, List.getElem_range, List.length_range, Nat.zero_add] at hmap hmem
    exact ⟨hpgd ▸ hmap, hmem⟩
  refine ⟨.start 2097408 512, .init rfl, ret, proc', hcall, ?_, ?_, ?_, ?_, ?_⟩
  · exact hstores ▸ (hget 0 (by norm_num)).2
  · exact hstores ▸ (hget 8192 (by norm_num)).2
  · rw [(hget 0 (by norm_num)).1, pagingPteFpn_eq, pagingFpn_pteSetFpn]
  · rw [(hget 8192 (by norm_num)).1, pagingPteFpn_eq, pagingFpn_pteSetFpn]
  · intro hback
    exact not_framesFit_of_big () (by norm_num)
      ((stores_fit_iff hheap hcall).mp ((storesReadBack_iff _ _).mp hback))

end OsSim.Mem
