import OsSim.Base.Clients
import OsSim.Base.Count
import OsSim.Mem.Access
import OsSim.Mem.Backed
import OsSim.Mem.Refusal

/-!
# A process and its own memory

The memory calls as a process means them: a heap of zero-filled pages, its free
regions, the regions recorded under ids, and a byte at every address. A `Heap`
knows no frame, no page table and no device, and no other process. The shared
memory serves every process as its own heap would, as long as there are frames
for the pages of all heaps together.
-/

namespace OsSim.Mem
open OsSim.Base

/-! ### The private machine -/

structure Heap where
  pages : ℕ
  free : List VmRg
  sym : ℕ → VmRg
  bytes : ℕ → Byte

def Heap.fresh : Heap := ⟨0, [⟨0, 0⟩], fun _ => ⟨0, 0⟩, fun _ => 0⟩

/-- The heap in which `__alloc` takes its region. -/
def Heap.room (h : Heap) (size : ℤ) : Option Heap :=
  if (takeFit size h.free).isSome then some h
  else if 0 ≤ pagingPageAlignsz size then
    some { h with
      pages := h.pages + allocPages size
      free := ⟨256 * h.pages, 256 * (h.pages + allocPages size)⟩ :: h.free }
  else none

def Heap.place (h : Heap) (rgid : ℕ) (size : ℤ) : ℤ × Heap :=
  match takeFit size h.free with
  | none => (-1, h)
  | some (rgnode, rest) =>
    (0, { h with free := rest, sym := Function.update h.sym rgid rgnode })

/-- The address of a byte of a region, if it is in the heap. -/
def Heap.addr (h : Heap) (rgid : ℕ) (offset : ℤ) : Option ℕ :=
  if 0 ≤ (h.sym rgid).rgStart + offset ∧ (h.sym rgid).rgStart + offset < 256 * h.pages then
    some ((h.sym rgid).rgStart + offset).toNat
  else none

def Heap.store (h : Heap) (a : ℕ) (data : Byte) : Heap :=
  { h with bytes := Function.update h.bytes a data }

/-- An access to region `rgid`: refused for an id outside the table, and undefined
for the entry behind its end and outside the heap. -/
def Heap.access (h : Heap) (rgid offset : BitVec 32) (f : ℕ → MemRet × Heap) :
    Option (MemRet × Heap) :=
  if 30 < rgid.toNat then some (⟨-1, none⟩, h)
  else if rgid.toNat = 30 then none
  else (h.addr rgid.toNat offset.toInt).map f

/-- One call on the caller's own heap. The operations of system call 17 that name
frames or cells of the devices have no meaning here. -/
def Heap.call : MemOp → Heap → Option (MemRet × Heap)
  | .alloc size regIndex, h =>
    if regIndex.toNat < 30 then (h.room size.toInt).map fun h =>
      (⟨(h.place regIndex.toNat size.toInt).1, none⟩, (h.place regIndex.toNat size.toInt).2)
    else none
  | .free regIndex, h =>
    if regIndex.toNat < 30 ∧ (h.sym regIndex.toNat).rgStart < (h.sym regIndex.toNat).rgEnd then
      some (⟨0, none⟩, { h with free := h.sym regIndex.toNat :: h.free })
    else some (⟨-1, none⟩, h)
  | .read source offset, h =>
    h.access source offset fun a => (⟨0, some ((h.bytes a).signExtend 32)⟩, h)
  | .write data destination offset, h =>
    h.access destination offset fun a => (⟨0, none⟩, h.store a data)
  | .memmap regs, h =>
    if regs.a1.toInt = sysmemIncOp then
      if regs.a2.toInt = 0 ∧ 0 ≤ pagingPageAlignsz regs.a3.toInt then
        some (⟨0, none⟩, { h with pages := h.pages + growthPages regs.a3.toInt })
      else none
    else if regs.a1.toInt = sysmemSwpOp ∨ regs.a1.toInt = sysmemIoRead ∨
        regs.a1.toInt = sysmemIoWrite then none
    else some (⟨0, none⟩, h)

theorem Heap.room_pages {h h' : Heap} {size : ℤ} (hroom : h.room size = some h') :
    h.pages ≤ h'.pages := by
  rw [Heap.room] at hroom
  split_ifs at hroom
  · exact (Option.some.inj hroom) ▸ le_rfl
  · rw [← Option.some.inj hroom]
    exact Nat.le_add_right ..

theorem Heap.place_pages (h : Heap) (rgid : ℕ) (size : ℤ) :
    (h.place rgid size).2.pages = h.pages := by
  rw [Heap.place]
  split <;> rfl

theorem Heap.access_pages {h h' : Heap} {rgid offset : BitVec 32} {f : ℕ → MemRet × Heap}
    {ret : MemRet} (hacc : h.access rgid offset f = some (ret, h'))
    (hf : ∀ a, (f a).2.pages = h.pages) : h'.pages = h.pages := by
  rw [Heap.access] at hacc
  split_ifs at hacc
  · exact (Prod.mk.inj (Option.some.inj hacc)).2 ▸ rfl
  · obtain ⟨a, -, heq⟩ := Option.map_eq_some_iff.mp hacc
    have hpages := hf a
    rw [heq] at hpages
    exact hpages

/-- A heap never shrinks. -/
theorem Heap.call_pages {h h' : Heap} {op : MemOp} {ret : MemRet}
    (hcall : h.call op = some (ret, h')) : h.pages ≤ h'.pages := by
  cases op with
  | alloc size regIndex =>
    rw [Heap.call] at hcall
    split_ifs at hcall
    obtain ⟨heap1, hroom, heq⟩ := Option.map_eq_some_iff.mp hcall
    obtain ⟨-, rfl⟩ := Prod.mk.inj heq
    rw [heap1.place_pages]
    exact Heap.room_pages hroom
  | free regIndex =>
    rw [Heap.call] at hcall
    split_ifs at hcall
    · exact (Prod.mk.inj (Option.some.inj hcall)).2 ▸ le_rfl
    · exact (Prod.mk.inj (Option.some.inj hcall)).2 ▸ le_rfl
  | read source offset =>
    rw [Heap.call] at hcall
    exact (Heap.access_pages hcall fun _ => rfl).ge
  | write data destination offset =>
    rw [Heap.call] at hcall
    exact (Heap.access_pages hcall fun _ => rfl).ge
  | memmap regs =>
    rw [Heap.call] at hcall
    split_ifs at hcall
    · rw [← (Prod.mk.inj (Option.some.inj hcall)).2]
      exact Nat.le_add_right ..
    · exact (Prod.mk.inj (Option.some.inj hcall)).2 ▸ le_rfl

/-! ### The heaps in the shared memory -/

/-- The memory holds the heaps of the processes, those of the first `n` with pages,
in `ram` frames. -/
structure OwnHeaps (n ram : ℕ) (s : MemSys ℕ) (h : ℕ → Heap) : Prop where
  frames : FramesInv s
  swapped : NoSwapped s
  random : (s.dev .mram).rdmflg = true
  heap : ∀ p, HeapInv s p (h p).pages (h p).free
  sym : ∀ p, (s.mm p).symrgtbl = (h p).sym
  bytes : ∀ p, ∀ x < 256 * (h p).pages,
    (s.dev .mram).storage ((s.mm p).phys x) = (h p).bytes x
  blank : ∀ p x, 256 * (h p).pages ≤ x → (h p).bytes x = 0
  clean : ∀ f ∈ (s.dev .mram).freeFpList, ∀ o < 256, (s.dev .mram).storage (f * 256 + o) = 0
  count : (s.dev .mram).freeFpList.length + ∑ p ∈ Finset.range n, (h p).pages = ram
  total : frameCount (s.dev .mram) = ram
  numbered : ram ≤ 8192

/-- A process finds the heap `h` in its memory: the pages and the free regions of its
area, its table of regions, and what `pg_getval` reads at every address. -/
structure HoldsHeap (proc : Pcb) (h : Heap) : Prop where
  area : HeapIs proc.mm (256 * h.pages) h.free
  regions : proc.mm.symrgtbl = h.sym
  bytes : ∀ x : ℕ, x < 256 * h.pages → pgGetval proc x = some (0, some (h.bytes x), proc)

def HeapsFit (n ram : ℕ) (h : ℕ → Heap) : Prop := ∑ p ∈ Finset.range n, (h p).pages ≤ ram

theorem ownHeaps_start (n : ℕ) {ramSize : ℕ} (swapSize : ℕ) (hram : ramSize / 256 ≤ 8192) :
    OwnHeaps n (ramSize / 256) (.start ramSize swapSize) fun _ => .fresh where
  frames := framesInv_start ramSize swapSize
  swapped p n hn := absurd (show pagingPagePresent 0 = true from hn) (by decide)
  random := rfl
  heap p := heapInv_start ramSize swapSize p
  sym p := rfl
  bytes p x hx := absurd hx (Nat.not_lt_zero x)
  blank p x hx := rfl
  clean f hf o ho := rfl
  count := by
    simp only [Heap.fresh, Finset.sum_const_zero, Nat.add_zero]
    exact List.length_range ..
  total := frameCount_ramDevice ramSize
  numbered := hram

section Cells
variable {n ram : ℕ} {s : MemSys ℕ} {h : ℕ → Heap}

theorem OwnHeaps.own_eq (hs : OwnHeaps n ram s h) {p x : ℕ} (hx : x < 256 * (h p).pages) :
    s.own (p, x / 256) = some (.mram, pagingFpn ((s.mm p).pgd (x / 256))) := by
  have hpresent : pagingPagePresent ((s.mm p).pgd (x / 256)) = true :=
    Bool.eq_true_of_not_eq_false fun hf =>
      (hs.heap p).proc.mapped (x / 256) (by omega) (pteSlot_eq_none.mpr hf)
  exact ResidentPte.pteSlot_eq ⟨hpresent, hs.swapped p _ hpresent⟩

theorem OwnHeaps.hitAt (hs : OwnHeaps n ram s h) {p x : ℕ} (hx : x < 256 * (h p).pages) :
    (s.pcb p).HitAt x := by
  have hown := hs.own_eq hx
  have hin := hs.frames.inside hown
  have hmax := (hs.heap p).proc.le_max
  refine ⟨by omega, ?_, hs.random, ?_⟩
  · by_contra hf
    rw [MemSys.own, pteSlot_eq_none.mpr (Bool.not_eq_true _ ▸ hf)] at hown
    simp at hown
  · simp only [frameCount] at hin
    change (((s.mm p).phys x : ℕ) : ℤ) < (s.dev .mram).maxsz
    rw [Mm.phys]
    omega

theorem OwnHeaps.holdsHeap (hs : OwnHeaps n ram s h) (p : ℕ) : HoldsHeap (s.pcb p) (h p) where
  area := (hs.heap p).proc.heap
  regions := hs.sym p
  bytes x hx := by
    have hhit := hs.hitAt hx
    rw [hhit.hits.getval, hhit.cell_eq]
    exact congrArg (fun b => some (0, some b, s.pcb p)) (hs.bytes p x hx)

/-- Different addresses of all heaps have different cells. -/
theorem OwnHeaps.phys_inj (hs : OwnHeaps n ram s h) {p q x y : ℕ} (hx : x < 256 * (h p).pages)
    (hy : y < 256 * (h q).pages) (heq : (s.mm p).phys x = (s.mm q).phys y) : p = q ∧ x = y := by
  have hownx := hs.own_eq hx
  have howny := hs.own_eq hy
  rw [Mm.phys, Mm.phys] at heq
  have hframe : pagingFpn ((s.mm p).pgd (x / 256)) = pagingFpn ((s.mm q).pgd (y / 256)) := by
    omega
  rw [← hframe] at howny
  obtain ⟨rfl, hpage⟩ := Prod.mk.inj (hs.frames.owns.alone hownx howny)
  exact ⟨rfl, by omega⟩

/-- The cells of a heap are in no free frame. -/
theorem OwnHeaps.phys_taken (hs : OwnHeaps n ram s h) {p x : ℕ} (hx : x < 256 * (h p).pages)
    {f o : ℕ} (hf : f ∈ (s.dev .mram).freeFpList) (ho : o < 256) :
    f * 256 + o ≠ (s.mm p).phys x := by
  intro heq
  have hown := hs.own_eq hx
  rw [Mm.phys] at heq
  have hframe : f = pagingFpn ((s.mm p).pgd (x / 256)) := by omega
  rw [← hframe] at hown
  exact hs.frames.owns.busy hown hf

end Cells

/-! ### What one call keeps -/

section Step
variable {n ram : ℕ} {s : MemSys ℕ} {h : ℕ → Heap}

/-- The memory after a step of `p` that left it the heap `heap'`. -/
theorem OwnHeaps.put (hs : OwnHeaps n ram s h) {p : ℕ} (hp : p < n) {proc : Pcb} {heap' : Heap}
    (hkept : Kept s p proc heap'.pages heap'.free) (hswapped : NoSwapped (s.put p proc))
    (hrandom : (proc.dev .mram).rdmflg = true) (hsym : proc.mm.symrgtbl = heap'.sym)
    (hbytes : ∀ x < 256 * heap'.pages,
      (proc.dev .mram).storage (proc.mm.phys x) = heap'.bytes x)
    (hblank : ∀ x, 256 * heap'.pages ≤ x → heap'.bytes x = 0)
    (hothers : ∀ q ≠ p, ∀ x < 256 * (h q).pages, (proc.dev .mram).storage ((s.mm q).phys x) =
      (s.dev .mram).storage ((s.mm q).phys x))
    (hclean : ∀ f ∈ (proc.dev .mram).freeFpList, ∀ o < 256,
      (proc.dev .mram).storage (f * 256 + o) = 0)
    (hcount : (proc.dev .mram).freeFpList.length + heap'.pages =
      (s.dev .mram).freeFpList.length + (h p).pages) :
    OwnHeaps n ram (s.put p proc) (Function.update h p heap') := by
  have hsum := sum_update Heap.pages h heap' hp
  have htotal := hs.count
  refine ⟨hkept.frames, hswapped, hrandom, fun q => ?_, fun q => ?_, fun q x hx => ?_,
    fun q x hx => ?_, hclean, ?_, hkept.count.trans hs.total, hs.numbered⟩
  · by_cases hqp : q = p
    · subst hqp
      rw [Function.update_self]
      exact hkept.heap
    · rw [Function.update_of_ne hqp]
      exact (hs.heap q).put_other hqp hkept
  · by_cases hqp : q = p
    · subst hqp
      rw [Function.update_self, s.put_mm_self, hsym]
    · rw [Function.update_of_ne hqp, s.put_mm_other _ hqp, hs.sym q]
  · change (proc.dev .mram).storage (((s.put p proc).mm q).phys x) = _
    by_cases hqp : q = p
    · subst hqp
      rw [Function.update_self] at hx ⊢
      rw [s.put_mm_self, hbytes x hx]
    · rw [Function.update_of_ne hqp] at hx ⊢
      rw [s.put_mm_other _ hqp, hothers q hqp x hx, hs.bytes q x hx]
  · by_cases hqp : q = p
    · subst hqp
      rw [Function.update_self] at hx ⊢
      exact hblank x hx
    · rw [Function.update_of_ne hqp] at hx ⊢
      exact hs.blank q x hx
  · change (proc.dev .mram).freeFpList.length + _ = ram
    omega

/-- The heap of `p` now has `pages` pages; no byte of it was written. -/
structure Extends (s : MemSys ℕ) (p : ℕ) (heap : Heap) (mid : Pcb) (pages : ℕ) : Prop where
  le : heap.pages ≤ pages
  swapped : NoSwapped (s.put p mid)
  random : (mid.dev .mram).rdmflg = true
  storage : (mid.dev .mram).storage = (s.dev .mram).storage
  bytes : ∀ x < 256 * pages, (s.dev .mram).storage (mid.mm.phys x) = heap.bytes x
  free : (mid.dev .mram).freeFpList ⊆ (s.dev .mram).freeFpList
  count : (mid.dev .mram).freeFpList.length + pages =
    (s.dev .mram).freeFpList.length + heap.pages

theorem OwnHeaps.extends_refl (hs : OwnHeaps n ram s h) (p : ℕ) :
    Extends s p (h p) (s.pcb p) (h p).pages where
  le := le_rfl
  swapped := by rw [MemSys.put_pcb]; exact hs.swapped
  random := hs.random
  storage := rfl
  bytes := hs.bytes p
  free := fun _ hf => hf
  count := rfl

/-- New pages are blank, since their frames have never been written. -/
theorem OwnHeaps.extends_growTo (hs : OwnHeaps n ram s h) (p : ℕ) {incSz : ℤ}
    (hn : growthPages incSz ≤ (s.dev .mram).freeFpList.length) :
    Extends s p (h p) ((s.pcb p).growTo (256 * (h p).pages) (h p).free incSz)
      ((h p).pages + growthPages incSz) := by
  have hproc := (hs.heap p).proc
  refine ⟨Nat.le_add_right .., noSwapped_growTo hs.swapped hproc, hs.random, rfl, fun x hx => ?_, ?_, ?_⟩
  · rw [Mm.phys, growTo_pgd hproc]
    by_cases hold : x / 256 < (h p).pages
    · rw [mapFrames_below _ _ hold]
      exact hs.bytes p x (by omega)
    · obtain ⟨f, hf, pte, hnew⟩ := mapFrames_mapped
        ((s.dev .mram).freeFpList.take (growthPages incSz)).reverse (s.mm p).pgd (not_lt.mp hold)
        (by rw [List.length_reverse, List.length_take, Nat.min_eq_left hn]; omega)
      have hfree : f ∈ (s.dev .mram).freeFpList := List.mem_of_mem_take (List.mem_reverse.mp hf)
      have hlt := ((hs.frames.free .mram).mem_iff.mp hfree).2
      have hram := hs.numbered
      rw [hs.total] at hlt
      rw [hnew, pagingFpn_pteSetFpn, Nat.mod_eq_of_lt (by omega), hs.blank p x (by omega)]
      exact hs.clean f hfree _ (Nat.mod_lt _ (by norm_num))
  · rw [growTo_dev, Function.update_self]
    exact List.drop_subset _ _
  · rw [growTo_dev, Function.update_self, List.length_drop]
    omega

/-- The tables of `p` are changed after its heap was extended. -/
theorem OwnHeaps.relabel (hs : OwnHeaps n ram s h) {p : ℕ} (hp : p < n) {mid proc : Pcb}
    {heap' : Heap} (hext : Extends s p (h p) mid heap'.pages) (hpgd : proc.mm.pgd = mid.mm.pgd)
    (hdev : proc.dev = mid.dev) (hkept : Kept s p proc heap'.pages heap'.free)
    (hsym : proc.mm.symrgtbl = heap'.sym) (hbytes : heap'.bytes = (h p).bytes) :
    OwnHeaps n ram (s.put p proc) (Function.update h p heap') := by
  have hphys : ∀ x, proc.mm.phys x = mid.mm.phys x := by
    intro x
    rw [Mm.phys, hpgd, Mm.phys]
  have hswapped : NoSwapped (s.put p proc) := by
    apply noSwapped_put hs.swapped
    intro k hk
    rw [hpgd] at hk ⊢
    have hmid := hext.swapped p k
    rw [s.put_mm_self] at hmid
    exact hmid hk
  have hle := hext.le
  apply hs.put hp hkept hswapped (hdev ▸ hext.random) hsym
  · intro x hx
    rw [hdev, hphys, hext.storage, hbytes]
    exact hext.bytes x hx
  · intro x hx
    rw [hbytes]
    exact hs.blank p x (by omega)
  · intro q _ x _
    rw [hdev, hext.storage]
  · intro f hf o ho
    rw [hdev] at hf ⊢
    rw [hext.storage]
    exact hs.clean f (hext.free hf) o ho
  · rw [hdev]
    exact hext.count

/-- The free frames are enough for the pages a call adds. -/
theorem OwnHeaps.enough (hs : OwnHeaps n ram s h) {p : ℕ} (hp : p < n) {heap' : Heap}
    (hfit : HeapsFit n ram (Function.update h p heap')) :
    heap'.pages ≤ (h p).pages + (s.dev .mram).freeFpList.length := by
  have hsum := sum_update Heap.pages h heap' hp
  have htotal := hs.count
  rw [HeapsFit] at hfit
  omega

theorem OwnHeaps.numbers (hs : OwnHeaps n ram s h) {f : ℕ} (hf : f ∈ (s.dev .mram).freeFpList) :
    f < 8192 := by
  have hlt := ((hs.frames.free .mram).mem_iff.mp hf).2
  rw [hs.total] at hlt
  exact hlt.trans_le hs.numbered

/-! ### liballoc -/

theorem Ready.room {proc mid : Pcb} {heap : Heap} {size : ℤ} {pages : ℕ} {fr : List VmRg}
    (hready : Ready proc heap.pages heap.free size mid pages fr) :
    heap.room size = some { heap with pages := pages, free := fr } := by
  cases hready with
  | fits hfit => rw [Heap.room, if_pos (Option.isSome_iff_ne_none.mpr hfit)]
  | grown hfit hserved =>
    rw [Heap.room, hfit, if_neg (by simp), if_pos hserved.aligned, hserved.growthRg_eq]

theorem OwnHeaps.extends_ready (hs : OwnHeaps n ram s h) {p : ℕ} {mid : Pcb} {size : ℤ}
    {pages : ℕ} {fr : List VmRg}
    (hready : Ready (s.pcb p) (h p).pages (h p).free size mid pages fr) :
    Extends s p (h p) mid pages := by
  cases hready with
  | fits => exact hs.extends_refl p
  | grown hfit hserved => exact hs.extends_growTo p hserved.enough

theorem OwnHeaps.served (hs : OwnHeaps n ram s h) {p : ℕ} {size : ℤ} {heap1 : Heap}
    (hroom : (h p).room size = some heap1)
    (henough : heap1.pages ≤ (h p).pages + (s.dev .mram).freeFpList.length)
    (hfit : takeFit size (h p).free = none) : Served s.dev size := by
  rw [Heap.room, hfit, if_neg (by simp)] at hroom
  split_ifs at hroom with haligned
  obtain rfl := Option.some.inj hroom
  exact ⟨haligned, by simpa using henough, fun f hf => hs.numbers (List.mem_of_mem_take hf)⟩

theorem OwnHeaps.alloc (hs : OwnHeaps n ram s h) {p : ℕ} (hp : p < n) {size regIndex : BitVec 32}
    (hid : regIndex.toNat < 30) {heap1 : Heap} (hroom : (h p).room size.toInt = some heap1)
    (hfit : HeapsFit n ram (Function.update h p (heap1.place regIndex.toNat size.toInt).2)) :
    ∃ proc, liballoc (s.pcb p) size regIndex =
        some ((heap1.place regIndex.toNat size.toInt).1, proc) ∧
      OwnHeaps n ram (s.put p proc)
        (Function.update h p (heap1.place regIndex.toNat size.toInt).2) := by
  have henough := hs.enough hp hfit
  rw [heap1.place_pages] at henough
  have hheap := hs.heap p
  have hserved : takeFit size.toInt (h p).free = none → Served s.dev size.toInt :=
    hs.served hroom henough
  have hgrowth := fun hnone => ((hserved hnone).growthServed hs.frames hheap.proc).2
  have hreg : regIndex.toInt = regIndex.toNat := BitVec.toInt_eq_toNat_of_lt (by omega)
  obtain ⟨hlow, hhigh⟩ := bitVec_toInt_range size
  obtain ⟨mid, pages, fr, hready, hcall⟩ :=
    alloc_ready (show HeapIs (s.pcb p).mm _ _ from hheap.proc.heap) hgrowth regIndex.toInt
  obtain rfl := Option.some.inj (hroom.symm.trans hready.room)
  have hext := hs.extends_ready hready
  have hsym : mid.mm.symrgtbl = (h p).sym := hready.symrgtbl.trans (hs.sym p)
  rw [liballoc, hcall]
  cases hplace : takeFit size.toInt fr with
  | none =>
    refine ⟨mid.withFree (256 * pages) fr, ?_, ?_⟩
    · simp [Heap.place, hplace]
    · have hkept := refused_kept hserved hready hs.frames hheap
      simp only [Heap.place, hplace]
      exact hs.relabel hp hext rfl rfl hkept hsym rfl
  | some r =>
    obtain ⟨rgnode, rest⟩ := r
    refine ⟨mid.place (256 * pages) rest regIndex.toInt rgnode, ?_, ?_⟩
    · simp only [setSymrg_eq _ (show 0 ≤ regIndex.toInt by omega)
        (show regIndex.toInt < 30 by omega), Option.bind_some, Option.map_some, Heap.place, hplace]
      rfl
    · have hkept := placed_kept hserved hready hs.frames hheap hlow hhigh regIndex.toInt hplace
      simp only [Heap.place, hplace]
      refine hs.relabel hp hext rfl rfl hkept ?_ rfl
      simp only [Pcb.place, hsym, hreg, Int.toNat_natCast]

/-! ### The other calls -/

theorem OwnHeaps.free (hs : OwnHeaps n ram s h) {p : ℕ} (hp : p < n) {regIndex : BitVec 32}
    {ret : MemRet} {heap' : Heap} (hown : (h p).call (.free regIndex) = some (ret, heap')) :
    ∃ proc, libfree (s.pcb p) regIndex = some (ret.rc, proc) ∧ ret.destination = none ∧
      OwnHeaps n ram (s.put p proc) (Function.update h p heap') := by
  have hheap := hs.heap p
  rw [libfree_eq hheap, hs.sym p]
  rw [Heap.call] at hown
  by_cases hid : regIndex.toNat < 30 ∧
      ((h p).sym regIndex.toNat).rgStart < ((h p).sym regIndex.toNat).rgEnd
  · rw [if_pos hid] at hown ⊢
    obtain ⟨rfl, rfl⟩ := Prod.mk.inj (Option.some.inj hown)
    refine ⟨_, rfl, rfl, ?_⟩
    have hkept := freed_kept hs.frames hheap hid.1
    rw [hs.sym p] at hkept
    exact hs.relabel hp (hs.extends_refl p) rfl rfl hkept (hs.sym p) rfl
  · rw [if_neg hid] at hown ⊢
    obtain ⟨rfl, rfl⟩ := Prod.mk.inj (Option.some.inj hown)
    refine ⟨_, rfl, rfl, ?_⟩
    rw [MemSys.put_pcb, Function.update_eq_self]
    exact hs

/-- An access is refused, or goes to a byte of the heap. -/
theorem OwnHeaps.access (hs : OwnHeaps n ram s h) {p : ℕ} {rgid offset : BitVec 32}
    {f : ℕ → MemRet × Heap} {r : MemRet × Heap} (hown : (h p).access rgid offset f = some r) :
    (30 < rgid.toNat ∧ r = (⟨-1, none⟩, h p)) ∨
    ∃ a < 256 * (h p).pages, 0 ≤ rgid.toInt ∧ rgid.toInt < 30 ∧
      (s.pcb p).accessAddr rgid.toInt offset.toInt = a ∧ r = f a := by
  rw [Heap.access] at hown
  split_ifs at hown with hout hlast
  · exact Or.inl ⟨hout, (Option.some.inj hown).symm⟩
  · obtain ⟨a, ha, rfl⟩ := Option.map_eq_some_iff.mp hown
    rw [Heap.addr] at ha
    split_ifs at ha with hin
    obtain rfl := Option.some.inj ha
    have hmax := (hs.heap p).proc.le_max
    have hreg : rgid.toInt = rgid.toNat := BitVec.toInt_eq_toNat_of_lt (by omega)
    have haddr : (s.pcb p).accessAddr rgid.toInt offset.toInt =
        ((h p).sym rgid.toNat).rgStart + offset.toInt := by
      rw [Pcb.accessAddr, hreg, Int.toNat_natCast]
      change toInt (toULong (((s.mm p).symrgtbl rgid.toNat).rgStart + offset.toInt)) = _
      rw [hs.sym p, toULong_of_nonneg hin.1 (by omega), Int.toNat_of_nonneg hin.1,
        toInt_of_range (by omega) (by omega)]
    refine Or.inr ⟨_, by omega, by omega, by omega, ?_, rfl⟩
    rw [haddr, Int.toNat_of_nonneg hin.1]

theorem OwnHeaps.read (hs : OwnHeaps n ram s h) {p : ℕ} {source offset : BitVec 32} {ret : MemRet}
    {heap' : Heap} (hown : (h p).call (.read source offset) = some (ret, heap')) :
    libread (s.pcb p) source offset = some (ret.rc, ret.destination, s.pcb p) ∧ heap' = h p := by
  have hheap : HeapIs (s.pcb p).mm (256 * (h p).pages) (h p).free := (hs.heap p).proc.heap
  rcases hs.access hown with ⟨hout, heq⟩ | ⟨a, ha, h0, h30, haddr, heq⟩
  · obtain ⟨rfl, rfl⟩ := Prod.mk.inj heq
    refine ⟨?_, rfl⟩
    rw [libread, read_outside hheap hout.le, if_neg hout.ne']
    rfl
  · obtain ⟨rfl, rfl⟩ := Prod.mk.inj heq
    have hhit := hs.hitAt ha
    refine ⟨?_, rfl⟩
    rw [libread, (haddr ▸ hhit.hits : (s.pcb p).Hits _).read_eq hheap h0 h30, haddr, hhit.cell_eq]
    change some ((0 : ℤ), some (((s.dev .mram).storage ((s.mm p).phys a)).signExtend 32), s.pcb p) = _
    rw [hs.bytes p a ha]

theorem OwnHeaps.write (hs : OwnHeaps n ram s h) {p : ℕ} (hp : p < n) {data : Byte}
    {destination offset : BitVec 32} {ret : MemRet} {heap' : Heap}
    (hown : (h p).call (.write data destination offset) = some (ret, heap')) :
    ∃ proc, libwrite (s.pcb p) data destination offset = some (ret.rc, proc) ∧
      ret.destination = none ∧ OwnHeaps n ram (s.put p proc) (Function.update h p heap') := by
  have hheap : HeapIs (s.pcb p).mm (256 * (h p).pages) (h p).free := (hs.heap p).proc.heap
  rcases hs.access hown with ⟨hout, heq⟩ | ⟨a, ha, h0, h30, haddr, heq⟩
  · obtain ⟨rfl, rfl⟩ := Prod.mk.inj heq
    refine ⟨s.pcb p, ?_, rfl, ?_⟩
    · rw [libwrite, write_outside hheap hout.le, if_neg hout.ne']
    · rw [MemSys.put_pcb, Function.update_eq_self]
      exact hs
  · obtain ⟨rfl, rfl⟩ := Prod.mk.inj heq
    have hhit := hs.hitAt ha
    have hcall : libwrite (s.pcb p) data destination offset =
        some (0, (s.pcb p).store ((s.mm p).phys a) data) := by
      rw [libwrite, (haddr ▸ hhit.hits : (s.pcb p).Hits _).write_eq hheap h0 h30, haddr,
        hhit.cell_eq]
      rfl
    refine ⟨_, hcall, rfl, ?_⟩
    have hkept : Kept s p ((s.pcb p).store ((s.mm p).phys a) data) ((h p).store a data).pages
        ((h p).store a data).free :=
      access_kept hs.frames (hs.heap p) rfl ((s.pcb p).store_shape _ data)
    generalize hcell : (s.mm p).phys a = cell at hkept
    have hstorage : (((s.pcb p).store cell data).dev .mram).storage =
        Function.update (s.dev .mram).storage cell data := by
      rw [Pcb.store_mram]
      rfl
    have hlist : (((s.pcb p).store cell data).dev .mram).freeFpList =
        (s.dev .mram).freeFpList := by
      rw [Pcb.store_mram]
      rfl
    apply hs.put hp hkept
    · apply noSwapped_put hs.swapped
      intro k hk
      exact hs.swapped p k hk
    · rw [Pcb.store_mram]
      exact hs.random
    · exact hs.sym p
    · intro x hx
      have hphys : ((s.pcb p).store cell data).mm.phys x = (s.mm p).phys x := rfl
      have hbyte : ((h p).store a data).bytes x = Function.update (h p).bytes a data x := rfl
      rw [hstorage, hphys, hbyte]
      by_cases hxa : x = a
      · rw [hxa, hcell, Function.update_self, Function.update_self]
      · rw [Function.update_of_ne hxa, Function.update_of_ne, hs.bytes p x hx]
        exact fun heq => hxa (hs.phys_inj hx ha (heq.trans hcell.symm)).2
    · intro x hx
      have hbyte : ((h p).store a data).bytes x = Function.update (h p).bytes a data x := rfl
      have hxa : x ≠ a := (ha.trans_le hx).ne'
      rw [hbyte, Function.update_of_ne hxa]
      exact hs.blank p x hx
    · intro q hqp x hx
      rw [hstorage]
      exact Function.update_of_ne (fun heq => hqp (hs.phys_inj hx ha (heq.trans hcell.symm)).1) _ _
    · intro f hf o ho
      rw [hlist] at hf
      have htaken := hs.phys_taken ha hf ho
      rw [hcell] at htaken
      rw [hstorage, Function.update_of_ne htaken]
      exact hs.clean f hf o ho
    · rw [hlist]
      rfl

theorem OwnHeaps.memmap (hs : OwnHeaps n ram s h) {p : ℕ} (hp : p < n) {regs : ScRegs}
    {ret : MemRet} {heap' : Heap} (hown : (h p).call (.memmap regs) = some (ret, heap'))
    (hfit : HeapsFit n ram (Function.update h p heap')) :
    ∃ regs' proc, sysMemmap (s.pcb p) regs = some (ret.rc, regs', proc) ∧
      ret.destination = none ∧ OwnHeaps n ram (s.put p proc) (Function.update h p heap') := by
  have hheap := hs.heap p
  have henough := hs.enough hp hfit
  rw [Heap.call] at hown
  by_cases hinc : regs.a1.toInt = sysmemIncOp
  · rw [if_pos hinc] at hown
    split_ifs at hown with harea
    obtain ⟨rfl, rfl⟩ := Prod.mk.inj (Option.some.inj hown)
    have hn : growthPages regs.a3.toInt ≤ (s.dev .mram).freeFpList.length := by simpa using henough
    have hfits : GrowthFits s.dev regs.a3.toInt :=
      ⟨harea.2, fun _ f hf => hs.numbers (List.mem_of_mem_take hf)⟩
    have hgrow : incVmaLimit (s.pcb p) regs.a2.toInt regs.a3.toInt =
        some (0, (s.pcb p).growTo (256 * (h p).pages) (h p).free regs.a3.toInt) := by
      rw [harea.1, incVmaLimit_zero (show HeapIs (s.pcb p).mm _ _ from hheap.proc.heap)]
      rcases grow_cases hs.frames hheap.proc hfits with ⟨hshort, -⟩ | ⟨-, heq⟩
      · omega
      · exact heq
    have hcall : sysMemmap (s.pcb p) regs =
        some (0, regs, (s.pcb p).growTo (256 * (h p).pages) (h p).free regs.a3.toInt) := by
      simp only [sysMemmap, hinc, hgrow, Option.map_some]
      rfl
    have hle : 256 * (h p).pages ≤ 256 * ((h p).pages + growthPages regs.a3.toInt) :=
      Nat.mul_le_mul_left _ (Nat.le_add_right ..)
    have hkept : Kept s p ((s.pcb p).growTo (256 * (h p).pages) (h p).free regs.a3.toInt)
        ((h p).pages + growthPages regs.a3.toInt) (h p).free := by
      refine ⟨framesInv_growTo hs.frames _ _ (hfits.2 hn) hn,
        ⟨procInv_growTo hs.frames hheap.proc hfits hn, fun rg hrg => (hheap.free_in rg hrg).mono hle,
          ?_⟩, ?_, frameCount_growTo s p _ _ _ .mram⟩
      · rw [s.put_mm_self]
        exact fun i hi => (hheap.sym_in i hi).mono hle
      · rw [growTo_dev, Function.update_self, List.length_drop]
        exact Nat.sub_le _ _
    exact ⟨_, _, hcall, rfl, hs.relabel hp (hs.extends_growTo p hn) rfl rfl hkept (hs.sym p) rfl⟩
  · rw [if_neg hinc] at hown
    split_ifs at hown with hdev
    obtain ⟨rfl, rfl⟩ := Prod.mk.inj (Option.some.inj hown)
    refine ⟨regs, s.pcb p, ?_, rfl, ?_⟩
    · simp only [not_or] at hdev
      simp only [sysMemmap, if_neg hinc, if_neg hdev.1, if_neg hdev.2.1, if_neg hdev.2.2, ite_self]
    · rw [MemSys.put_pcb, Function.update_eq_self]
      exact hs

/-- A call that is defined on the caller's own heap is defined on the shared memory
and answers the same, if the frames are enough. -/
theorem OwnHeaps.call (hs : OwnHeaps n ram s h) {p : ℕ} (hp : p < n) {op : MemOp} {ret : MemRet}
    {heap' : Heap} (hown : (h p).call op = some (ret, heap'))
    (hfit : HeapsFit n ram (Function.update h p heap')) :
    ∃ proc, memCall (s.pcb p) op = some (ret, proc) ∧
      OwnHeaps n ram (s.put p proc) (Function.update h p heap') := by
  cases op with
  | alloc size regIndex =>
    rw [Heap.call] at hown
    split_ifs at hown with hid
    obtain ⟨heap1, hroom, heq⟩ := Option.map_eq_some_iff.mp hown
    obtain ⟨rfl, rfl⟩ := Prod.mk.inj heq
    obtain ⟨proc, hcall, hput⟩ := hs.alloc hp hid hroom hfit
    exact ⟨proc, by rw [memCall, hcall]; rfl, hput⟩
  | free regIndex =>
    obtain ⟨proc, hcall, hnone, hput⟩ := hs.free hp hown
    refine ⟨proc, ?_, hput⟩
    rw [memCall, hcall, Option.map_some, ← hnone]
  | read source offset =>
    obtain ⟨hcall, rfl⟩ := hs.read hown
    refine ⟨s.pcb p, by rw [memCall, hcall]; rfl, ?_⟩
    rw [MemSys.put_pcb, Function.update_eq_self]
    exact hs
  | write data destination offset =>
    obtain ⟨proc, hcall, hnone, hput⟩ := hs.write hp hown
    refine ⟨proc, ?_, hput⟩
    rw [memCall, hcall, Option.map_some, ← hnone]
  | memmap regs =>
    obtain ⟨regs', proc, hcall, hnone, hput⟩ := hs.memmap hp hown hfit
    refine ⟨proc, ?_, hput⟩
    rw [memCall, hcall, Option.map_some, ← hnone]

end Step

end OsSim.Mem
