import OsSim.Mem.Stores

/-!
# What malloc leaves in a new process (mm.c:241-271)

`init_mm` fills in the one area and leaves the page directory, the region table and the
page list as `malloc` returned them. Two processes that differ there only are told apart
by a call that looks at such an entry before one was written; as long as none does, they
run alike.
-/

namespace OsSim.Mem
open OsSim.Base

variable {ι : Type}

/-- The memory, the entries of the region tables that a `liballoc` has filled in and the
entries of the page directories that were updated. -/
structure Known (ι : Type) where
  mem : MemSys ι
  given : ι → ℕ → Bool
  mapped : ι → ℕ → Bool

def givenAfter (given : ℕ → Bool) (rc : ℤ) : MemOp → ℕ → Bool
  | .alloc _ regIndex => if rc = 0 then Function.update given regIndex.toNat true else given
  | _ => given

def mappedAfter (mapped : ℕ → Bool) (stores : List PteStore) (n : ℕ) : Bool :=
  mapped n || stores.any fun st => st.pgn = n

section Runs
variable [DecidableEq ι]

def Known.after (k : Known ι) (p : ι) (op : MemOp) (ret : MemRet) (proc : Pcb) : Known ι where
  mem := k.mem.put p proc
  given := Function.update k.given p (givenAfter (k.given p) ret.rc op)
  mapped := Function.update k.mapped p (mappedAfter (k.mapped p) ((k.mem.pcb p).stores op))

/-- The calls one after the other: what they return, and the memory in the end. -/
def runCalls (k : Known ι) : List (ι × MemOp) → Option (List MemRet × Known ι)
  | [] => some ([], k)
  | (p, op) :: rest => do
    let (ret, proc) ← memCall (k.mem.pcb p) op
    let (rets, k) ← runCalls (k.after p op ret proc) rest
    some (ret :: rets, k)

/-- An id outside the table, or one of a filled entry for an access to an updated page. -/
def Known.Reaches (k : Known ι) (p : ι) (rgid offset : BitVec 32) : Prop :=
  rgid.toNat < 30 → k.given p rgid.toNat = true ∧
    k.mapped p (pagingPgn ((k.mem.pcb p).accessAddr rgid.toInt offset.toInt)) = true

/-- The call looks at filled entries and updated pages only. -/
def Known.Covers (k : Known ι) (p : ι) : MemOp → Prop
  | .alloc _ _ => True
  | .free regIndex => regIndex.toNat < 30 → k.given p regIndex.toNat = true
  | .read source offset => k.Reaches p source offset
  | .write _ destination offset => k.Reaches p destination offset
  | .memmap _ => False

def Admits (k : Known ι) : List (ι × MemOp) → Prop
  | [] => True
  | (p, op) :: rest => k.Covers p op ∧
      ∀ r ∈ memCall (k.mem.pcb p) op, Admits (k.after p op r.1 r.2) rest

end Runs

/-! ### Processes that cannot be told apart -/

/-- Present entries of one frame, whatever else is in them. -/
def SameFrame (a b : BitVec 32) : Prop :=
  pagingPagePresent a = true ∧ pagingPagePresent b = true ∧ pagingFpn a = pagingFpn b

structure Agree (given mapped : ℕ → Bool) (a b : Mm) : Prop where
  mmap : b.mmap = a.mmap
  symrgtbl : ∀ i, given i = true → b.symrgtbl i = a.symrgtbl i
  pgd : ∀ n, mapped n = true → SameFrame (a.pgd n) (b.pgd n)

/-- The same answer, and processes that agree over the same devices. -/
structure SameCall (given mapped : ℕ → Bool) (r r' : MemRet × Pcb) : Prop where
  ret : r'.1 = r.1
  dev : r'.2.dev = r.2.dev
  agree : Agree given mapped r.2.mm r'.2.mm

theorem applyStores_sameFrame {stores : List PteStore}
    (hset : ∀ st ∈ stores, ∃ f, st.op = .setFpn f) {a b : ℕ → BitVec 32} {n : ℕ}
    (h : SameFrame (a n) (b n) ∨ ∃ st ∈ stores, st.pgn = n) :
    SameFrame (applyStores a stores n) (applyStores b stores n) := by
  induction stores generalizing a b with
  | nil => exact h.resolve_right (by simp)
  | cons st rest ih =>
    obtain ⟨f, hf⟩ := hset st (List.mem_cons_self ..)
    rw [applyStores_cons, applyStores_cons]
    apply ih fun st hst => hset st (List.mem_cons_of_mem _ hst)
    by_cases hn : st.pgn = n
    · left
      rw [← hn, Function.update_self, Function.update_self, hf]
      refine ⟨pagingPagePresent_pteSetFpn .., pagingPagePresent_pteSetFpn .., ?_⟩
      exact (pagingFpn_pteSetFpn ..).trans (pagingFpn_pteSetFpn ..).symm
    · rw [Function.update_of_ne (Ne.symm hn), Function.update_of_ne (Ne.symm hn)]
      cases h with
      | inl hsame => exact Or.inl hsame
      | inr hmem =>
        obtain ⟨st', hst', heq⟩ := hmem
        cases List.mem_cons.mp hst' with
        | inl hhead => exact absurd (hhead ▸ heq) hn
        | inr htail => exact Or.inr ⟨st', htail, heq⟩

theorem mappedAfter_nil (mapped : ℕ → Bool) : mappedAfter mapped [] = mapped := by
  funext n
  simp [mappedAfter]

theorem memCall_alloc (proc : Pcb) (size regIndex : BitVec 32) :
    memCall proc (.alloc size regIndex) = (alloc proc 0 regIndex.toInt size.toInt).map fun r =>
      (⟨r.1, none⟩, r.2.2) := by
  rw [memCall, liballoc, Option.map_map]
  rfl

namespace Agree
variable {given mapped : ℕ → Bool} {a b : Mm} (dev : Devices) {brk : ℕ} {fr : List VmRg}

theorem heapIs (h : Agree given mapped a b) (hheap : HeapIs a brk fr) : HeapIs b brk fr :=
  h.mmap.trans hheap

/-- Both page directories get the same updates. -/
theorem stored (h : Agree given mapped a b) {stores : List PteStore}
    (hset : ∀ st ∈ stores, ∃ f, st.op = .setFpn f) {a' b' : Mm} (hmmap : b'.mmap = a'.mmap)
    (hsym : ∀ i, given i = true → b'.symrgtbl i = a'.symrgtbl i)
    (hpgd : a'.pgd = applyStores a.pgd stores) (hpgd' : b'.pgd = applyStores b.pgd stores) :
    Agree given (mappedAfter mapped stores) a' b' where
  mmap := hmmap
  symrgtbl := hsym
  pgd n hn := by
    rw [hpgd, hpgd']
    apply applyStores_sameFrame hset
    cases Bool.or_eq_true_iff.mp hn with
    | inl hmapped => exact Or.inl (h.pgd n hmapped)
    | inr hany =>
      obtain ⟨st, hst, heq⟩ := List.any_eq_true.mp hany
      exact Or.inr ⟨st, hst, of_decide_eq_true heq⟩

/-- A growth takes the same frames for both and updates the same pages. -/
theorem grow (h : Agree given mapped a b) (hheap : HeapIs a brk fr) (incSz : ℤ) :
    Option.Rel (fun r r' : ℤ × Pcb => r'.1 = r.1 ∧ r'.2.dev = r.2.dev ∧
        Agree given (mappedAfter mapped ((⟨a, dev⟩ : Pcb).growStores incSz)) r.2.mm r'.2.mm)
      ((⟨a, dev⟩ : Pcb).grow brk fr incSz) ((⟨b, dev⟩ : Pcb).grow brk fr incSz) := by
  have hstores : (⟨b, dev⟩ : Pcb).growStores incSz = (⟨a, dev⟩ : Pcb).growStores incSz := by
    rw [Pcb.growStores_heap (h.heapIs hheap), Pcb.growStores_heap hheap]
    rfl
  have hset : ∀ st ∈ (⟨a, dev⟩ : Pcb).growStores incSz, ∃ f, st.op = .setFpn f := by
    intro st hst
    rw [Pcb.growStores_heap hheap] at hst
    obtain ⟨f, -, hf⟩ := mem_vmapStores hst
    exact ⟨f, hf⟩
  have hpgd : ∀ {rc proc}, (⟨a, dev⟩ : Pcb).grow brk fr incSz = some (rc, proc) →
      proc.mm.pgd = applyStores a.pgd ((⟨a, dev⟩ : Pcb).growStores incSz) :=
    fun hgrow => grow_pgd hheap hgrow
  have hpgd' : ∀ {rc proc}, (⟨b, dev⟩ : Pcb).grow brk fr incSz = some (rc, proc) →
      proc.mm.pgd = applyStores b.pgd ((⟨a, dev⟩ : Pcb).growStores incSz) :=
    fun hgrow => hstores ▸ grow_pgd (h.heapIs hheap) hgrow
  by_cases hshort : (⟨a, dev⟩ : Pcb).freeFrames.length < growthPages incSz
  · have hgrow : (⟨a, dev⟩ : Pcb).grow brk fr incSz = some (-1, (⟨a, dev⟩ : Pcb).growShort brk fr) :=
      if_pos hshort
    have hgrow' : (⟨b, dev⟩ : Pcb).grow brk fr incSz =
        some (-1, (⟨b, dev⟩ : Pcb).growShort brk fr) := if_pos hshort
    rw [hgrow, hgrow']
    exact .some ⟨rfl, rfl, h.stored hset rfl h.symrgtbl (hpgd hgrow) (hpgd' hgrow')⟩
  · by_cases hroom : growthPages incSz = 0 ∨
        pagingPgn (toInt brk) + growthPages incSz ≤ pagingMaxPgn
    · have hgrow := Pcb.grow_eq ⟨a, dev⟩ fr (not_lt.mp hshort) hroom
      have hgrow' := Pcb.grow_eq ⟨b, dev⟩ fr (not_lt.mp hshort) hroom
      rw [hgrow, hgrow']
      exact .some ⟨rfl, rfl, h.stored hset rfl h.symrgtbl (hpgd hgrow) (hpgd' hgrow')⟩
    · have hgrow : ∀ mm, (⟨mm, dev⟩ : Pcb).grow brk fr incSz = none := by
        intro mm
        rw [Pcb.grow]
        exact (if_neg hshort).trans (if_neg hroom)
      rw [hgrow, hgrow]
      exact .none

theorem withFree (h : Agree given mapped a b) (brk : ℕ) (fr : List VmRg) :
    Agree given mapped ((⟨a, dev⟩ : Pcb).withFree brk fr).mm ((⟨b, dev⟩ : Pcb).withFree brk fr).mm :=
  ⟨rfl, h.symrgtbl, h.pgd⟩

/-- The region is recorded for both. -/
theorem place (h : Agree given mapped a b) (brk : ℕ) (fr : List VmRg) (rgid : ℤ) (rgnode : VmRg) :
    Agree (Function.update given rgid.toNat true) mapped
      ((⟨a, dev⟩ : Pcb).place brk fr rgid rgnode).mm
      ((⟨b, dev⟩ : Pcb).place brk fr rgid rgnode).mm where
  mmap := rfl
  symrgtbl i hi := by
    dsimp only [Pcb.place]
    by_cases hr : i = rgid.toNat
    · rw [hr, Function.update_self, Function.update_self]
    · rw [Function.update_of_ne hr] at hi ⊢
      rw [Function.update_of_ne hr]
      exact h.symrgtbl i hi
  pgd := h.pgd

/-- The end of `__alloc`: both processes record the region, or neither can. -/
theorem recorded (h : Agree given mapped a b) (brk : ℕ) (fr : List VmRg) (size regIndex : BitVec 32)
    (rgnode : VmRg) (addr : Option ℤ) :
    Option.Rel (fun r r' => SameCall (givenAfter given r.1.rc (.alloc size regIndex)) mapped r r')
      (((setSymrg ((⟨a, dev⟩ : Pcb).withFree brk fr).mm regIndex.toInt rgnode).bind fun mm =>
        some ((0 : ℤ), addr, (⟨mm, dev⟩ : Pcb))).map fun r => ((⟨r.1, none⟩ : MemRet), r.2.2))
      (((setSymrg ((⟨b, dev⟩ : Pcb).withFree brk fr).mm regIndex.toInt rgnode).bind fun mm =>
        some ((0 : ℤ), addr, (⟨mm, dev⟩ : Pcb))).map fun r => ((⟨r.1, none⟩ : MemRet), r.2.2)) := by
  by_cases hid : 0 ≤ regIndex.toInt ∧ regIndex.toInt < 30
  · rw [setSymrg_eq _ hid.1 hid.2, setSymrg_eq _ hid.1 hid.2]
    have hreg := bitVec_toInt_eq hid.1
    have hplace := h.place dev brk fr regIndex.toInt rgnode
    have hnat : regIndex.toInt.toNat = regIndex.toNat := by omega
    rw [hnat] at hplace
    exact .some ⟨rfl, rfl, by rw [givenAfter, if_pos rfl]; exact hplace⟩
  · have hnone : ∀ mm, setSymrg mm regIndex.toInt rgnode = none := fun mm => if_neg hid
    rw [hnone, hnone]
    exact .none

theorem call_alloc (h : Agree given mapped a b) (hheap : HeapIs a brk fr) (size regIndex : BitVec 32) :
    Option.Rel (fun r r' => SameCall (givenAfter given r.1.rc (.alloc size regIndex))
        (mappedAfter mapped ((⟨a, dev⟩ : Pcb).stores (.alloc size regIndex))) r r')
      (memCall ⟨a, dev⟩ (.alloc size regIndex)) (memCall ⟨b, dev⟩ (.alloc size regIndex)) := by
  have hleft : HeapIs (⟨a, dev⟩ : Pcb).mm brk fr := hheap
  have hright : HeapIs (⟨b, dev⟩ : Pcb).mm brk fr := h.heapIs hheap
  have hsearch : getFreeVmrgArea a 0 size.toInt = some none ↔ takeFit size.toInt fr = none :=
    getFreeVmrgArea_none hheap
  rw [memCall_alloc, memCall_alloc]
  cases hfit : takeFit size.toInt fr with
  | some found =>
    have hfound : getFreeVmrgArea a 0 size.toInt ≠ some none := by
      intro hnone
      exact absurd (hfit.symm.trans (hsearch.mp hnone)) (Option.some_ne_none found)
    have hstores : (⟨a, dev⟩ : Pcb).stores (.alloc size regIndex) = [] :=
      Pcb.stores_eq_nil (if_neg hfound) rfl
    rw [alloc_fit hleft hfit, alloc_fit hright hfit, hstores,
      mappedAfter_nil]
    exact h.recorded dev brk found.2 size regIndex found.1 _
  | none =>
    have hstores : (⟨a, dev⟩ : Pcb).stores (.alloc size regIndex) =
        (⟨a, dev⟩ : Pcb).growStores (pagingPageAlignsz size.toInt) := by
      rw [Pcb.stores, Pcb.increment, if_pos (hsearch.mpr hfit)]
    rw [hstores]
    obtain ⟨hgrow, hgrow'⟩ | ⟨⟨rc, mid, dev1⟩, ⟨rc', mid', dev1'⟩, hgrow, hgrow', rfl, rfl, hagree⟩ :=
      rel_cases (h.grow dev hheap (pagingPageAlignsz size.toInt))
    · rw [alloc_grow_none hleft hfit hgrow, alloc_grow_none hright hfit hgrow']
      exact .none
    · obtain ⟨brk', hmid⟩ := grow_heapIs hgrow
      rw [alloc_grow hleft hfit hgrow hmid, alloc_grow hright hfit hgrow' (hagree.heapIs hmid)]
      cases takeFit size.toInt (growthRg brk size.toInt :: fr) with
      | none => exact .some ⟨rfl, rfl, hagree.withFree _ brk' _⟩
      | some found => exact hagree.recorded _ brk' found.2 size regIndex found.1 _

theorem call_free (h : Agree given mapped a b) (hheap : HeapIs a brk fr) {regIndex : BitVec 32}
    (hgiven : regIndex.toNat < 30 → given regIndex.toNat = true) :
    Option.Rel (SameCall given mapped) (memCall ⟨a, dev⟩ (.free regIndex))
      (memCall ⟨b, dev⟩ (.free regIndex)) := by
  have hleft : HeapIs (⟨a, dev⟩ : Pcb).mm brk fr := hheap
  have hright : HeapIs (⟨b, dev⟩ : Pcb).mm brk fr := h.heapIs hheap
  rw [memCall, memCall, libfree, libfree]
  by_cases hid : regIndex.toNat < 30
  · have hreg : regIndex.toInt = regIndex.toNat := BitVec.toInt_eq_toNat_of_lt (by omega)
    have hfreed : (⟨b, dev⟩ : Pcb).freedRg regIndex.toInt = (⟨a, dev⟩ : Pcb).freedRg regIndex.toInt := by
      rw [hreg, Pcb.freedRg, Pcb.freedRg, Int.toNat_natCast, h.symrgtbl _ (hgiven hid)]
    rw [free_eq hleft (by omega) (by omega),
      free_eq hright (by omega) (by omega), hfreed]
    split_ifs
    · exact .some ⟨rfl, rfl, h⟩
    · exact .some ⟨rfl, rfl, h.withFree dev brk _⟩
  · have hout := toInt_outside (not_lt.mp hid)
    rw [free_outside hout, free_outside hout]
    exact .some ⟨rfl, rfl, h⟩

/-- An access to an updated page of a filled entry goes to one cell. -/
theorem access (h : Agree given mapped a b) {rgid : BitVec 32} (hid : rgid.toNat < 30)
    {offset : ℤ} (hgiven : given rgid.toNat = true)
    (hmapped : mapped (pagingPgn ((⟨a, dev⟩ : Pcb).accessAddr rgid.toInt offset)) = true) :
    (⟨b, dev⟩ : Pcb).accessAddr rgid.toInt offset = (⟨a, dev⟩ : Pcb).accessAddr rgid.toInt offset ∧
      b.cell ((⟨a, dev⟩ : Pcb).accessAddr rgid.toInt offset) =
        a.cell ((⟨a, dev⟩ : Pcb).accessAddr rgid.toInt offset) := by
  have hreg : rgid.toInt = rgid.toNat := BitVec.toInt_eq_toNat_of_lt (by omega)
  constructor
  · rw [Pcb.accessAddr, Pcb.accessAddr, hreg, Int.toNat_natCast, h.symrgtbl _ hgiven]
  · rw [Mm.cell, Mm.cell, (h.pgd _ hmapped).2.2]

theorem call_read (h : Agree given mapped a b) (hheap : HeapIs a brk fr) {source offset : BitVec 32}
    (hreach : source.toNat < 30 → given source.toNat = true ∧
      mapped (pagingPgn ((⟨a, dev⟩ : Pcb).accessAddr source.toInt offset.toInt)) = true) :
    Option.Rel (SameCall given mapped) (memCall ⟨a, dev⟩ (.read source offset))
      (memCall ⟨b, dev⟩ (.read source offset)) := by
  have hleft : HeapIs (⟨a, dev⟩ : Pcb).mm brk fr := hheap
  have hright : HeapIs (⟨b, dev⟩ : Pcb).mm brk fr := h.heapIs hheap
  rw [memCall, memCall, libread, libread]
  by_cases hid : source.toNat < 30
  · obtain ⟨hgiven, hmapped⟩ := hreach hid
    obtain ⟨haddr, hcell⟩ := h.access dev hid hgiven hmapped
    have hframe := h.pgd _ hmapped
    have hreg : source.toInt = source.toNat := BitVec.toInt_eq_toNat_of_lt (by omega)
    rw [read_getval hleft (by omega) (by omega),
      read_getval hright (by omega) (by omega), haddr,
      @pgGetval_present ⟨a, dev⟩ _ hframe.1, @pgGetval_present ⟨b, dev⟩ _ hframe.2.1]
    dsimp only
    rw [hcell]
    cases memphyRead (dev .mram) (a.cell ((⟨a, dev⟩ : Pcb).accessAddr source.toInt offset.toInt)) with
    | none => exact .none
    | some r =>
      obtain ⟨rc, value, mram⟩ := r
      cases value with
      | none => exact .none
      | some byte => exact .some ⟨rfl, rfl, h⟩
  · rw [read_outside hleft (not_lt.mp hid),
      read_outside hright (not_lt.mp hid)]
    split_ifs
    · exact .none
    · exact .some ⟨rfl, rfl, h⟩

theorem call_write (h : Agree given mapped a b) (hheap : HeapIs a brk fr) {data : Byte}
    {destination offset : BitVec 32}
    (hreach : destination.toNat < 30 → given destination.toNat = true ∧
      mapped (pagingPgn ((⟨a, dev⟩ : Pcb).accessAddr destination.toInt offset.toInt)) = true) :
    Option.Rel (SameCall given mapped) (memCall ⟨a, dev⟩ (.write data destination offset))
      (memCall ⟨b, dev⟩ (.write data destination offset)) := by
  have hleft : HeapIs (⟨a, dev⟩ : Pcb).mm brk fr := hheap
  have hright : HeapIs (⟨b, dev⟩ : Pcb).mm brk fr := h.heapIs hheap
  rw [memCall, memCall, libwrite, libwrite]
  by_cases hid : destination.toNat < 30
  · obtain ⟨hgiven, hmapped⟩ := hreach hid
    obtain ⟨haddr, hcell⟩ := h.access dev hid hgiven hmapped
    have hframe := h.pgd _ hmapped
    have hreg : destination.toInt = destination.toNat := BitVec.toInt_eq_toNat_of_lt (by omega)
    rw [write_setval hleft (by omega) (by omega),
      write_setval hright (by omega) (by omega), haddr,
      @pgSetval_present ⟨a, dev⟩ _ hframe.1, @pgSetval_present ⟨b, dev⟩ _ hframe.2.1]
    dsimp only
    rw [hcell]
    cases memphyWrite (dev .mram)
        (a.cell ((⟨a, dev⟩ : Pcb).accessAddr destination.toInt offset.toInt)) data with
    | none => exact .none
    | some r =>
      rw [Option.bind_some, Option.bind_some]
      cases memphyWrite r.2
          (a.cell ((⟨a, dev⟩ : Pcb).accessAddr destination.toInt offset.toInt)) data with
      | none => exact .none
      | some r => exact .some ⟨rfl, rfl, h⟩
  · rw [write_outside hleft (not_lt.mp hid),
      write_outside hright (not_lt.mp hid)]
    split_ifs
    · exact .none
    · exact .some ⟨rfl, rfl, h⟩

end Agree

/-! ### Two runs -/

structure AgreeSys (k k' : Known ι) : Prop where
  area : OneArea k.mem
  dev : k'.mem.dev = k.mem.dev
  agree : ∀ p, Agree (k.given p) (k.mapped p) (k.mem.mm p) (k'.mem.mm p)

theorem AgreeSys.call {k k' : Known ι} (h : AgreeSys k k') {p : ι} {op : MemOp}
    (hcovers : k.Covers p op) :
    Option.Rel (fun r r' => SameCall (givenAfter (k.given p) r.1.rc op)
        (mappedAfter (k.mapped p) ((k.mem.pcb p).stores op)) r r')
      (memCall (k.mem.pcb p) op) (memCall (k'.mem.pcb p) op) := by
  obtain ⟨brk, fr, hheap⟩ := h.area p
  have hagree := h.agree p
  have hright : k'.mem.pcb p = ⟨k'.mem.mm p, k.mem.dev⟩ := by rw [← h.dev]; rfl
  have hpresent : ∀ {rgid offset}, k.Reaches p rgid offset →
      (k.mem.pcb p).faultAt rgid offset = none := fun hreach =>
    Pcb.faultAt_present _ fun hid => (hagree.pgd _ (hreach hid).2).1
  rw [hright]
  cases op with
  | alloc size regIndex => exact hagree.call_alloc k.mem.dev hheap size regIndex
  | free regIndex =>
    have hstores : (k.mem.pcb p).stores (.free regIndex) = [] := Pcb.stores_eq_nil rfl rfl
    rw [hstores, mappedAfter_nil]
    exact hagree.call_free k.mem.dev hheap hcovers
  | read source offset =>
    have hstores : (k.mem.pcb p).stores (.read source offset) = [] :=
      Pcb.stores_eq_nil rfl (hpresent hcovers)
    rw [hstores, mappedAfter_nil]
    exact hagree.call_read k.mem.dev hheap hcovers
  | write data destination offset =>
    have hstores : (k.mem.pcb p).stores (.write data destination offset) = [] :=
      Pcb.stores_eq_nil rfl (hpresent hcovers)
    rw [hstores, mappedAfter_nil]
    exact hagree.call_write k.mem.dev hheap hcovers
  | memmap regs => exact absurd hcovers id

section Step
variable [DecidableEq ι] {k k' : Known ι}

theorem AgreeSys.after (h : AgreeSys k k') {p : ι} {op : MemOp} {ret ret' : MemRet}
    {proc proc' : Pcb} (hcall : memCall (k.mem.pcb p) op = some (ret, proc))
    (hsame : SameCall (givenAfter (k.given p) ret.rc op)
      (mappedAfter (k.mapped p) ((k.mem.pcb p).stores op)) (ret, proc) (ret', proc')) :
    AgreeSys (k.after p op ret proc) (k'.after p op ret' proc') where
  area := by
    obtain ⟨brk, fr, hheap⟩ : ∃ brk fr, HeapIs (k.mem.pcb p).mm brk fr := h.area p
    exact heap_put h.area (memCall_heapIs hheap hcall)
  dev := hsame.dev
  agree q := by
    dsimp only [Known.after]
    by_cases hq : q = p
    · subst hq
      rw [Function.update_self, Function.update_self, MemSys.put_mm_self, MemSys.put_mm_self]
      exact hsame.agree
    · rw [Function.update_of_ne hq, Function.update_of_ne hq, MemSys.put_mm_other _ _ hq,
        MemSys.put_mm_other _ _ hq]
      exact h.agree q

/-- One call after the other, both runs return the same and agree in the end. -/
theorem AgreeSys.runCalls {calls : List (ι × MemOp)} (h : AgreeSys k k') (hok : Admits k calls) :
    Option.Rel (fun r r' => r'.1 = r.1 ∧ AgreeSys r.2 r'.2) (Mem.runCalls k calls)
      (Mem.runCalls k' calls) := by
  induction calls generalizing k k' with
  | nil => exact .some ⟨rfl, h⟩
  | cons label rest ih =>
    obtain ⟨p, op⟩ := label
    obtain ⟨hcovers, hrest⟩ := hok
    rw [Mem.runCalls, Mem.runCalls]
    obtain ⟨hcall, hcall'⟩ | ⟨⟨ret, proc⟩, ⟨ret', proc'⟩, hcall, hcall', hsame⟩ :=
      rel_cases (h.call hcovers)
    · rw [hcall, hcall']
      exact .none
    · obtain rfl : ret' = ret := hsame.ret
      rw [hcall, hcall']
      simp only [Option.bind_eq_bind, Option.bind_some]
      obtain ⟨hrun, hrun'⟩ | ⟨⟨rets, t⟩, ⟨rets', t'⟩, hrun, hrun', rfl, hend⟩ :=
        rel_cases (ih (h.after hcall hsame) (hrest _ hcall))
      · rw [hrun, hrun']
        exact .none
      · rw [hrun, hrun']
        exact .some ⟨rfl, hend⟩

end Step

section Decide
variable [DecidableEq ι]

instance Known.Reaches.decidable (k : Known ι) (p : ι) (rgid offset : BitVec 32) :
    Decidable (k.Reaches p rgid offset) :=
  inferInstanceAs (Decidable (rgid.toNat < 30 → k.given p rgid.toNat = true ∧
    k.mapped p (pagingPgn ((k.mem.pcb p).accessAddr rgid.toInt offset.toInt)) = true))

instance Known.Covers.decidable (k : Known ι) (p : ι) : (op : MemOp) → Decidable (k.Covers p op)
  | .alloc _ _ => .isTrue trivial
  | .free regIndex =>
    inferInstanceAs (Decidable (regIndex.toNat < 30 → k.given p regIndex.toNat = true))
  | .read source offset => inferInstanceAs (Decidable (k.Reaches p source offset))
  | .write _ destination offset => inferInstanceAs (Decidable (k.Reaches p destination offset))
  | .memmap _ => .isFalse id

instance Admits.decidable (k : Known ι) : (calls : List (ι × MemOp)) → Decidable (Admits k calls)
  | [] => .isTrue trivial
  | (p, op) :: rest =>
    have (r : MemRet × Pcb) : Decidable (Admits (k.after p op r.1 r.2) rest) :=
      Admits.decidable _ rest
    inferInstanceAs (Decidable (k.Covers p op ∧
      ∀ r ∈ memCall (k.mem.pcb p) op, Admits (k.after p op r.1 r.2) rest))

end Decide

end OsSim.Mem
