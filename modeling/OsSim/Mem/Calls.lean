import OsSim.Mem.Growth

/-!
# What the library calls do (libmem.c)

One lemma per function, on a process with one area. The allocator is described
by the list of free regions, a page access by `PageStep`: it finds the page
present, or it evicts the oldest page of `fifo_pgn` into a free swap frame and
gives that page's frame to the target.
-/

namespace OsSim.Mem
open OsSim.Base

/-! ### Regions -/

/-- A region within the first `bound` bytes. -/
def RgIn (bound : ℕ) (rg : VmRg) : Prop := rg.rgStart ≤ rg.rgEnd ∧ rg.rgEnd ≤ bound

theorem RgIn.mono {a b : ℕ} {rg : VmRg} (h : RgIn a rg) (hab : a ≤ b) : RgIn b rg :=
  ⟨h.1, h.2.trans hab⟩

theorem RgIn.len_eq {bound : ℕ} {rg : VmRg} (h : RgIn bound rg) (hb : bound < 2147483648) :
    rg.len = rg.rgEnd - rg.rgStart := by
  have hcast : (rg.rgEnd : ℤ) - rg.rgStart = (rg.rgEnd - rg.rgStart : ℕ) := by
    have := h.1
    omega
  have hle := h.2
  rw [VmRg.len, hcast, toULong_natCast (by omega)]

theorem RgIn.initVmRg_eq {bound : ℕ} {rg : VmRg} (h : RgIn bound rg) (hb : bound < 2147483648) :
    initVmRg rg.rgStart rg.rgEnd = rg := by
  have h1 := h.1
  have h2 := h.2
  rw [initVmRg, toULong_toInt_natCast (by omega), toULong_toInt_natCast (by omega)]

theorem initVmRg_growth {brk inc : ℕ} (h : brk + inc < 2147483648) :
    initVmRg (toInt brk) (toInt brk + inc) = ⟨brk, brk + inc⟩ := by
  have hend : toInt brk + inc = ((brk + inc : ℕ) : ℤ) := by
    rw [toInt_of_range (by omega) (by omega)]
    push_cast
    rfl
  rw [initVmRg, hend, toULong_toInt_natCast h, toInt_of_range (toInt_range _).1 (toInt_range _).2,
    toULong_toInt_natCast (by omega)]

/-- The region found is the first one with `size` bytes, which it loses. -/
theorem takeFit_spec {bound : ℕ} (hb : bound < 2147483648) {size : ℤ}
    (hsize : -2147483648 ≤ size) (hsize' : size < 2147483648) {fr rest : List VmRg} {newrg : VmRg}
    (hin : ∀ rg ∈ fr, RgIn bound rg) (h : takeFit size fr = some (newrg, rest)) :
    0 ≤ size ∧ ∃ before rg after, fr = before ++ rg :: after ∧
      rg.rgStart + size.toNat ≤ rg.rgEnd ∧
      newrg = ⟨rg.rgStart, rg.rgStart + size.toNat⟩ ∧
      rest = before ++ ⟨rg.rgStart + size.toNat, rg.rgEnd⟩ :: after := by
  induction fr generalizing rest with
  | nil => simp [takeFit] at h
  | cons rg fr ih =>
    have hrg := hin rg (List.mem_cons_self ..)
    have hle := hrg.2
    rw [takeFit, hrg.len_eq hb] at h
    by_cases hfit : toULong size ≤ rg.rgEnd - rg.rgStart
    · rw [if_pos hfit] at h
      simp only [Option.some.injEq, Prod.mk.injEq] at h
      obtain ⟨rfl, rfl⟩ := h
      have hpos := nonneg_of_toULong_le hfit hsize (by omega)
      rw [toULong_of_nonneg hpos hsize'] at hfit
      have hend : toULong (rg.rgStart + size) = rg.rgStart + size.toNat := by
        have hlow := hrg.1
        rw [show (rg.rgStart : ℤ) + size = ((rg.rgStart + size.toNat : ℕ) : ℤ) by omega,
          toULong_natCast (by omega)]
      have hroom : rg.rgStart + size.toNat ≤ rg.rgEnd := by
        have := hrg.1
        omega
      exact ⟨hpos, [], rg, fr, rfl, hroom, by rw [hend], by rw [hend]; rfl⟩
    · rw [if_neg hfit] at h
      obtain ⟨⟨nrg, tail⟩, htail, heq⟩ := Option.map_eq_some_iff.mp h
      simp only [Prod.mk.injEq] at heq
      obtain ⟨rfl, rfl⟩ := heq
      obtain ⟨hpos, before, rg', after, rfl, hroom, hnew, rfl⟩ :=
        ih (fun r hr => hin r (List.mem_cons_of_mem _ hr)) htail
      exact ⟨hpos, rg :: before, rg', after, rfl, hroom, hnew, rfl⟩

theorem takeFit_head {size : ℤ} {rg : VmRg} (fr : List VmRg) (h : toULong size ≤ rg.len) :
    takeFit size (rg :: fr) = some (⟨rg.rgStart, toULong (rg.rgStart + size)⟩,
      ⟨toULong (rg.rgStart + size), rg.rgEnd⟩ :: fr) := by
  rw [takeFit, if_pos h]

theorem getFreeVmrgArea_heap {mm : Mm} {brk : ℕ} {fr : List VmRg} (h : HeapIs mm brk fr)
    (size : ℤ) : getFreeVmrgArea mm 0 size = some ((takeFit size fr).map fun (newrg, rest) =>
      (newrg, { mm with mmap := [⟨0, 0, brk, brk, rest⟩] })) := by
  have hmm : mm.mmap = [⟨0, 0, brk, brk, fr⟩] := h
  simp only [getFreeVmrgArea, getVmaByNum_heap h le_rfl, Option.bind_eq_bind, Option.bind_some, hmm,
    List.getElem?_cons_zero, Mm.setVma, List.set_cons_zero]

instance (mm : Mm) (vmaid size : ℤ) : Decidable (getFreeVmrgArea mm vmaid size = some none) :=
  decidable_of_iff ((getFreeVmrgArea mm vmaid size).any Option.isNone = true) (by
    rcases getFreeVmrgArea mm vmaid size with - | - | r <;> simp)

theorem getFreeVmrgArea_none {mm : Mm} {brk : ℕ} {fr : List VmRg} (h : HeapIs mm brk fr) {size : ℤ} :
    getFreeVmrgArea mm 0 size = some none ↔ takeFit size fr = none := by
  rw [getFreeVmrgArea_heap h, Option.some.injEq, Option.map_eq_none_iff]

/-! ### liballoc -/

/-- The free list replaced. -/
def Pcb.withFree (proc : Pcb) (brk : ℕ) (fr : List VmRg) : Pcb :=
  { proc with mm := { proc.mm with mmap := [⟨0, 0, brk, brk, fr⟩] } }

/-- The free list replaced and the region recorded. -/
def Pcb.place (proc : Pcb) (brk : ℕ) (fr : List VmRg) (rgid : ℤ) (rgnode : VmRg) : Pcb :=
  { proc with mm := { proc.mm with
      mmap := [⟨0, 0, brk, brk, fr⟩]
      symrgtbl := Function.update proc.mm.symrgtbl rgid.toNat rgnode } }

theorem setSymrg_eq (mm : Mm) {rgid : ℤ} (h0 : 0 ≤ rgid) (h : rgid < 30) (rgnode : VmRg) :
    setSymrg mm rgid rgnode =
      some { mm with symrgtbl := Function.update mm.symrgtbl rgid.toNat rgnode } := by
  rw [setSymrg, if_pos ⟨h0, h⟩]

theorem alloc_fit {proc : Pcb} {brk : ℕ} {fr : List VmRg} (hheap : HeapIs proc.mm brk fr)
    {rgid size : ℤ} {rgnode : VmRg} {rest : List VmRg}
    (hfit : takeFit size fr = some (rgnode, rest)) :
    alloc proc 0 rgid size =
      (setSymrg (proc.withFree brk rest).mm rgid rgnode).bind fun mm =>
        some (0, some (toInt rgnode.rgStart), ⟨mm, proc.dev⟩) := by
  simp only [alloc, getFreeVmrgArea_heap hheap, hfit, Option.bind_eq_bind, Option.bind_some,
    Option.map_some]
  rfl

theorem sysMemmap_inc (proc : Pcb) (a2 a3 : BitVec 32) :
    sysMemmap proc ⟨BitVec.ofInt 32 sysmemIncOp, a2, a3⟩ =
      (incVmaLimit proc a2.toInt a3.toInt).map fun (_, proc) =>
        (0, ⟨BitVec.ofInt 32 sysmemIncOp, a2, a3⟩, proc) := by
  have h : (BitVec.ofInt 32 sysmemIncOp).toInt = 2 := by decide
  simp only [sysMemmap, h]
  rfl

/-- The named area never overlaps itself. -/
theorem validateOverlapVmArea_heap {mm : Mm} {brk : ℕ} {fr : List VmRg} (h : HeapIs mm brk fr)
    (a b : ℤ) : validateOverlapVmArea mm 0 a b = 0 := by
  have hmm : mm.mmap = [⟨0, 0, brk, brk, fr⟩] := h
  simp [validateOverlapVmArea, hmm, toULong]

theorem incVmaLimit_zero {proc : Pcb} {brk : ℕ} {fr : List VmRg} (h : HeapIs proc.mm brk fr)
    (incSz : ℤ) : incVmaLimit proc 0 incSz = proc.grow brk fr incSz := by
  rw [incVmaLimit_heap h le_rfl, validateOverlapVmArea_heap h, if_neg (lt_irrefl _)]

/-- What a call keeps of a process with one area: the area stays the only one and
starts at 0, its break is its end and stays on a page boundary, and the devices
keep their access mode. -/
structure HeapKept (proc : Pcb) (brk : ℕ) (proc' : Pcb) (brk' : ℕ) (fr' : List VmRg) : Prop where
  heap : HeapIs proc'.mm brk' fr'
  aligned : 256 ∣ brk → 256 ∣ brk'
  random : ∀ d, (proc'.dev d).rdmflg = (proc.dev d).rdmflg

theorem HeapKept.refl {proc : Pcb} {brk : ℕ} {fr : List VmRg} (h : HeapIs proc.mm brk fr) :
    HeapKept proc brk proc brk fr := ⟨h, id, fun _ => rfl⟩

theorem dvd_toULong {x : ℤ} (h : (256 : ℤ) ∣ x) : 256 ∣ toULong x := by
  rw [toULong]
  omega

theorem dvd_toInt {x : ℤ} (h : (256 : ℤ) ∣ x) : (256 : ℤ) ∣ toInt x := by
  rw [toInt]
  omega

theorem grow_heapKept {proc proc' : Pcb} {brk : ℕ} {fr : List VmRg} {incSz rc : ℤ}
    (h : proc.grow brk fr incSz = some (rc, proc')) : ∃ brk', HeapKept proc brk proc' brk' fr := by
  have hrandom : ∀ (frames : List ℕ) (d : Device), ((Function.update proc.dev .mram
      { proc.dev .mram with freeFpList := frames }) d).rdmflg = (proc.dev d).rdmflg := by
    intro frames d
    cases d <;> rfl
  have hamt := pagingPageAlignsz_dvd incSz
  rw [Pcb.grow] at h
  split_ifs at h
  all_goals
    simp only [Option.some.injEq, Prod.mk.injEq] at h
    obtain ⟨-, rfl⟩ := h
  · exact ⟨_, rfl, fun hbrk => dvd_toULong (dvd_toInt (by omega)), hrandom _⟩
  · exact ⟨_, rfl, fun hbrk => dvd_toULong (by omega), hrandom _⟩

theorem grow_heapIs {proc proc' : Pcb} {brk : ℕ} {fr : List VmRg} {incSz rc : ℤ}
    (h : proc.grow brk fr incSz = some (rc, proc')) : ∃ brk', HeapIs proc'.mm brk' fr := by
  obtain ⟨brk', hkept⟩ := grow_heapKept h
  exact ⟨brk', hkept.heap⟩

/-- An aligned size is an `int` and goes through a register unchanged. -/
theorem ofInt_pagingPageAlignsz (size : ℤ) :
    (BitVec.ofInt 32 (pagingPageAlignsz size)).toInt = pagingPageAlignsz size := by
  have hr := pagingPageAlignsz_range size
  rw [bitVec_toInt_ofInt, toInt_of_range hr.1 hr.2]

/-- The region `__alloc` enlists after the growth, whether it succeeded or not. -/
def growthRg (brk : ℕ) (size : ℤ) : VmRg := initVmRg (toInt brk) (toInt brk + pagingPageAlignsz size)

/-- After the growth the new region is enlisted and the search is repeated. -/
theorem alloc_grow {proc proc' : Pcb} {brk brk' : ℕ} {fr : List VmRg}
    (hheap : HeapIs proc.mm brk fr) {rgid size rc : ℤ} (hfit : takeFit size fr = none)
    (hgrow : proc.grow brk fr (pagingPageAlignsz size) = some (rc, proc'))
    (hheap' : HeapIs proc'.mm brk' fr) :
    alloc proc 0 rgid size = match takeFit size (growthRg brk size :: fr) with
      | none => some (-1, none, proc'.withFree brk' (growthRg brk size :: fr))
      | some (rgnode, rest) =>
        (setSymrg (proc'.withFree brk' rest).mm rgid rgnode).bind fun mm =>
          some (0, some (toInt rgnode.rgStart), ⟨mm, proc'.dev⟩) := by
  have hmm : proc.mm.mmap = [⟨0, 0, brk, brk, fr⟩] := hheap
  have hmm' : proc'.mm.mmap = [⟨0, 0, brk', brk', fr⟩] := hheap'
  have hid : (BitVec.ofInt 32 0).toInt = 0 := by decide
  have hset : HeapIs (proc'.mm.setVma 0 ⟨0, 0, brk', brk',
      enlistVmRgNode fr (growthRg brk size)⟩) brk' (growthRg brk size :: fr) := by
    simp only [HeapIs, Mm.setVma, hmm', List.set_cons_zero, enlistVmRgNode]
  have hrg : initVmRg (toInt brk) (toInt brk + pagingPageAlignsz size) = growthRg brk size := rfl
  simp only [alloc, getFreeVmrgArea_heap hheap, hfit, Option.bind_eq_bind, Option.bind_some,
    Option.map_none, getVmaByNum_heap hheap le_rfl, hmm, List.getElem?_cons_zero, sysMemmap_inc,
    ofInt_pagingPageAlignsz, hid, incVmaLimit_zero hheap, hgrow, Option.map_some, hmm']
  rw [if_neg (by norm_num), hrg, getFreeVmrgArea_heap hset, Option.bind_some]
  rcases takeFit size (growthRg brk size :: fr) with - | ⟨rgnode, rest⟩
  · simp only [Option.map_none, Pcb.withFree, Mm.setVma, hmm', List.set_cons_zero, enlistVmRgNode]
  · simp only [Option.map_some, Pcb.withFree, Mm.setVma]

theorem alloc_grow_none {proc : Pcb} {brk : ℕ} {fr : List VmRg} (hheap : HeapIs proc.mm brk fr)
    {rgid size : ℤ} (hfit : takeFit size fr = none)
    (hgrow : proc.grow brk fr (pagingPageAlignsz size) = none) : alloc proc 0 rgid size = none := by
  have hmm : proc.mm.mmap = [⟨0, 0, brk, brk, fr⟩] := hheap
  have hid : (BitVec.ofInt 32 0).toInt = 0 := by decide
  simp only [alloc, getFreeVmrgArea_heap hheap, hfit, Option.bind_eq_bind, Option.bind_some,
    Option.map_none, getVmaByNum_heap hheap le_rfl, hmm, List.getElem?_cons_zero, sysMemmap_inc,
    ofInt_pagingPageAlignsz, hid, incVmaLimit_zero hheap, hgrow, Option.bind_none]

/-- The new region has room for a positive size, whatever overflowed. -/
theorem growthRg_fits (brk : ℕ) {size : ℤ} (h0 : 0 < size) (h : size < 2147483648) :
    toULong size ≤ (growthRg brk size).len := by
  have hlen : (growthRg brk size).len =
      toULong (toInt (toInt brk + pagingPageAlignsz size) - toInt brk) := by
    simp only [growthRg, initVmRg, VmRg.len, toULong_sub]
    rw [toInt_of_range (toInt_range brk).1 (toInt_range brk).2]
  have hrange := pagingPageAlignsz_range size
  have hb := toInt_range brk
  have halign : size ≤ pagingPageAlignsz size ∨ pagingPageAlignsz size < 0 := by
    by_cases hbig : size ≤ 2147483392
    · rw [pagingPageAlignsz_eq h0.le hbig]
      omega
    · exact Or.inr (pagingPageAlignsz_neg (not_le.mp hbig) h)
  have hdiff : ∀ x : ℤ, -2147483648 ≤ x → x < 2147483648 →
      toInt (x + pagingPageAlignsz size) - x = pagingPageAlignsz size ∨
      toInt (x + pagingPageAlignsz size) - x = pagingPageAlignsz size - 4294967296 ∨
      toInt (x + pagingPageAlignsz size) - x = pagingPageAlignsz size + 4294967296 := by
    intro x hx hx'
    simp only [toInt]
    omega
  rw [hlen, toULong_of_nonneg h0.le h]
  generalize pagingPageAlignsz size = a at *
  generalize toInt brk = b at *
  rcases hdiff b hb.1 hb.2 with hd | hd | hd
  all_goals
    rw [hd, toULong]
    omega

theorem getSymrgByid_eq (mm : Mm) {rgid : ℤ} (h0 : 0 ≤ rgid) (h : rgid < 30) :
    getSymrgByid mm rgid = some (some (mm.symrgtbl rgid.toNat)) := by
  rw [getSymrgByid, if_neg (by simp; omega), if_neg (by simp; omega)]

/-! ### libfree -/

theorem free_outside {proc : Pcb} {rgid : ℤ} (h : rgid < 0 ∨ 30 ≤ rgid) :
    free proc rgid = some (-1, proc) := by
  rw [free, if_pos (by simpa using h)]

theorem enlistVmFreergList_heap {mm : Mm} {brk : ℕ} {fr : List VmRg} (h : HeapIs mm brk fr)
    (rg : VmRg) : enlistVmFreergList mm rg =
      if rg.rgEnd ≤ rg.rgStart then some (-1, mm)
      else some (0, { mm with mmap := [⟨0, 0, brk, brk, rg :: fr⟩] }) := by
  have hmm : mm.mmap = [⟨0, 0, brk, brk, fr⟩] := h
  simp only [enlistVmFreergList, hmm]

/-- The region `__free` enlists. -/
def Pcb.freedRg (proc : Pcb) (rgid : ℤ) : VmRg :=
  initVmRg (proc.mm.symrgtbl rgid.toNat).rgStart (proc.mm.symrgtbl rgid.toNat).rgEnd

theorem free_eq {proc : Pcb} {brk : ℕ} {fr : List VmRg} (hheap : HeapIs proc.mm brk fr) {rgid : ℤ}
    (h0 : 0 ≤ rgid) (h : rgid < 30) :
    free proc rgid =
      if (proc.freedRg rgid).rgEnd ≤ (proc.freedRg rgid).rgStart then some (-1, proc)
      else some (0, proc.withFree brk (proc.freedRg rgid :: fr)) := by
  have hrg : initVmRg (proc.mm.symrgtbl rgid.toNat).rgStart
      (proc.mm.symrgtbl rgid.toNat).rgEnd = proc.freedRg rgid := rfl
  rw [free, if_neg (by simp; omega), getSymrgByid_eq _ h0 h]
  simp only [Option.bind_eq_bind, Option.bind_some]
  rw [hrg, enlistVmFreergList_heap hheap]
  generalize proc.freedRg rgid = rg
  by_cases hempty : rg.rgEnd ≤ rg.rgStart
  · simp only [hempty, if_true, Option.bind_some]
    rw [if_pos (by norm_num)]
  · simp only [hempty, if_false, Option.bind_some]
    rw [if_neg (by norm_num)]
    rfl

theorem free_cases {proc : Pcb} {brk : ℕ} {fr : List VmRg} (hheap : HeapIs proc.mm brk fr)
    (rgid : ℤ) :
    free proc rgid = some (-1, proc) ∨
      free proc rgid = some (0, proc.withFree brk (proc.freedRg rgid :: fr)) := by
  by_cases hid : rgid < 0 ∨ 30 ≤ rgid
  · exact Or.inl (free_outside hid)
  · rw [free_eq hheap (by omega) (by omega)]
    split_ifs
    · exact Or.inl rfl
    · exact Or.inr rfl

/-! ### Page accesses -/

/-- The page tables after `pgn` took the frame of `vic`, which went to the swap
frame `swpfpn`. -/
def Mm.swapIn (mm : Mm) (pgn vic swpfpn : ℕ) (older : List ℕ) : Mm :=
  let mid := mm.setPte vic (pteSetSwap (mm.pgd vic) 0 swpfpn)
  { mid.setPte pgn (pteSetFpn (mid.pgd pgn) (pagingFpn (mm.pgd vic))) with fifoPgn := pgn :: older }

/-- What an access to page `pgn` can do to the tables and the free lists. -/
inductive PageStep (proc : Pcb) (pgn : ℕ) (proc' : Pcb) : Prop where
  | hit : pagingPagePresent (proc.mm.pgd pgn) = true → proc'.mm = proc.mm →
      (∀ d, SameShape (proc.dev d) (proc'.dev d)) → PageStep proc pgn proc'
  | fault (vic swpfpn : ℕ) (older frames : List ℕ) :
      pagingPagePresent (proc.mm.pgd pgn) = false → proc.mm.fifoPgn = older ++ [vic] →
      (proc.dev .activeMswp).freeFpList = swpfpn :: frames →
      proc'.mm = proc.mm.swapIn pgn vic swpfpn older →
      SameShape (proc.dev .mram) (proc'.dev .mram) →
      SameShape { proc.dev .activeMswp with freeFpList := frames } (proc'.dev .activeMswp) →
      PageStep proc pgn proc'

theorem PageStep.then_access {proc mid proc' : Pcb} {pgn : ℕ} (h : PageStep proc pgn mid)
    (hmm : proc'.mm = mid.mm) (hdev : ∀ d, SameShape (mid.dev d) (proc'.dev d)) :
    PageStep proc pgn proc' := by
  cases h with
  | hit hp hm hd => exact .hit hp (hmm.trans hm) fun d => (hd d).trans (hdev d)
  | fault vic swpfpn older frames hp hfifo hfree hm hr hs =>
    exact .fault vic swpfpn older frames hp hfifo hfree (hmm.trans hm) (hr.trans (hdev _))
      (hs.trans (hdev _))

theorem PageStep.present {proc proc' : Pcb} {pgn : ℕ} (h : PageStep proc pgn proc') :
    pagingPagePresent (proc'.mm.pgd pgn) = true := by
  cases h with
  | hit hp hmm => rw [hmm, hp]
  | fault vic swpfpn older frames _ _ _ hmm =>
    rw [hmm, Mm.swapIn]
    dsimp only [Mm.setPte]
    rw [Function.update_self]
    exact pagingPagePresent_pteSetFpn ..

/-- No access takes `PRESENT` away, not even from the victim. -/
theorem PageStep.present_mono {proc proc' : Pcb} {pgn n : ℕ} (h : PageStep proc pgn proc')
    (hn : pagingPagePresent (proc.mm.pgd n) = true) :
    pagingPagePresent (proc'.mm.pgd n) = true := by
  cases h with
  | hit _ hmm => rw [hmm, hn]
  | fault vic swpfpn older frames _ _ _ hmm =>
    rw [hmm, Mm.swapIn]
    dsimp only [Mm.setPte]
    by_cases hpgn : n = pgn
    · rw [hpgn, Function.update_self]
      exact pagingPagePresent_pteSetFpn ..
    · rw [Function.update_of_ne hpgn]
      by_cases hvic : n = vic
      · rw [hvic, Function.update_self]
        exact pagingPagePresent_pteSetSwap ..
      · rw [Function.update_of_ne hvic, hn]

theorem sysMemmap_swp (proc : Pcb) (a2 a3 : BitVec 32) :
    sysMemmap proc ⟨BitVec.ofInt 32 sysmemSwpOp, a2, a3⟩ =
      (mmSwapPage proc a2.toInt a3.toInt).map fun (_, proc) =>
        (0, ⟨BitVec.ofInt 32 sysmemSwpOp, a2, a3⟩, proc) := by
  have h : (BitVec.ofInt 32 sysmemSwpOp).toInt = 3 := by decide
  simp only [sysMemmap, h]
  rfl

theorem sysMemmap_swp_shape {proc proc' : Pcb} {a2 a3 : BitVec 32} {rc : ℤ} {regs : ScRegs}
    (h : sysMemmap proc ⟨BitVec.ofInt 32 sysmemSwpOp, a2, a3⟩ = some (rc, regs, proc')) :
    rc = 0 ∧ proc'.mm = proc.mm ∧ ∀ d, SameShape (proc.dev d) (proc'.dev d) := by
  rw [sysMemmap_swp, mmSwapPage] at h
  obtain ⟨⟨rc', mid⟩, hmid, heq⟩ := Option.map_eq_some_iff.mp h
  obtain ⟨dev, hdev, hmk⟩ := Option.map_eq_some_iff.mp hmid
  simp only [Prod.mk.injEq] at heq hmk
  obtain ⟨rfl, -, rfl⟩ := heq
  obtain ⟨-, rfl⟩ := hmk
  exact ⟨rfl, rfl, swapCpPage_shape hdev⟩

theorem pgGetpage_present {proc : Pcb} {pgn : ℕ} (hpgn : pgn < pagingMaxPgn)
    (h : pagingPagePresent (proc.mm.pgd pgn) = true) :
    pgGetpage proc pgn = some (0, some (pagingFpn (proc.mm.pgd pgn)), proc) := by
  simp only [pgGetpage, Mm.pte, if_pos hpgn, Option.bind_eq_bind, Option.bind_some, h, if_true]

/-- The frame it answers is the one in the entry it leaves. -/
theorem pgGetpage_step {proc proc' : Pcb} {pgn : ℕ} {rc : ℤ} {fpn : Option ℕ}
    (h : pgGetpage proc pgn = some (rc, fpn, proc')) : rc = 0 ∧
      fpn = some (pagingFpn (proc'.mm.pgd pgn)) ∧ PageStep proc pgn proc' := by
  have hpgn : pgn < pagingMaxPgn := by
    by_contra hge
    simp [pgGetpage, Mm.pte, if_neg hge] at h
  by_cases hp : pagingPagePresent (proc.mm.pgd pgn) = true
  · rw [pgGetpage_present hpgn hp] at h
    simp only [Option.some.injEq, Prod.mk.injEq] at h
    obtain ⟨rfl, rfl, rfl⟩ := h
    exact ⟨rfl, rfl, .hit hp rfl fun _ => .refl _⟩
  · have hp' := Bool.not_eq_true _ ▸ hp
    simp only [pgGetpage, Mm.pte, if_pos hpgn, Option.bind_eq_bind, Option.bind_some, hp',
      Bool.false_eq_true, if_false] at h
    obtain ⟨⟨vic, mm⟩, hvic, h⟩ := Option.bind_eq_some_iff.mp h
    obtain ⟨⟨swpfpn, mswp⟩, hfree, h⟩ := Option.bind_eq_some_iff.mp h
    obtain ⟨vicpte, hvicpte, h⟩ := Option.bind_eq_some_iff.mp h
    obtain ⟨⟨rc1, regs1, proc1⟩, hcopy1, h⟩ := Option.bind_eq_some_iff.mp h
    obtain ⟨rfl, hmm1, hdev1⟩ := sysMemmap_swp_shape hcopy1
    rw [if_neg (by norm_num)] at h
    obtain ⟨⟨rc2, regs2, proc2⟩, hcopy2, h⟩ := Option.bind_eq_some_iff.mp h
    obtain ⟨rfl, hmm2, hdev2⟩ := sysMemmap_swp_shape hcopy2
    rw [if_neg (by norm_num)] at h
    simp only [Option.some.injEq, Prod.mk.injEq] at h
    obtain ⟨rfl, rfl, rfl⟩ := h
    -- the victim is the last entry of the list, the swap frame the first free one
    obtain ⟨v, hlast, hv⟩ := Option.map_eq_some_iff.mp hvic
    simp only [Prod.mk.injEq] at hv
    obtain ⟨rfl, rfl⟩ := hv
    obtain ⟨older, hfifo⟩ := List.getLast?_eq_some_iff.mp hlast
    have hdrop : proc.mm.fifoPgn.dropLast = older := by rw [hfifo, List.dropLast_concat]
    rcases hf : (proc.dev .activeMswp).freeFpList with - | ⟨f, frames⟩
    · simp [memphyGetFreefp, hf] at hfree
    · simp only [memphyGetFreefp, hf, Option.some.injEq, Prod.mk.injEq] at hfree
      obtain ⟨rfl, rfl⟩ := hfree
      have hpte : vicpte = proc.mm.pgd v := by
        split_ifs at hvicpte
        exact (Option.some.inj hvicpte).symm
      refine ⟨rfl, rfl, .fault v f older frames hp' hfifo hf ?_ ?_ ?_⟩
      · simp only [hmm2, hmm1, hpte, hdrop, Mm.swapIn, Mm.setPte, enlistPgnNode]
      · exact ((hdev1 .mram).trans (hdev2 .mram))
      · exact ((hdev1 .activeMswp).trans (hdev2 .activeMswp))

theorem sysMemmap_ioRead (proc : Pcb) (a2 a3 : BitVec 32) :
    sysMemmap proc ⟨BitVec.ofInt 32 sysmemIoRead, a2, a3⟩ =
      (memphyRead (proc.dev .mram) a2.toInt).bind fun r => r.2.1.bind fun value =>
        some (0, ⟨BitVec.ofInt 32 sysmemIoRead, a2, value.signExtend 32⟩,
          { proc with dev := Function.update proc.dev .mram r.2.2 }) := by
  have h : (BitVec.ofInt 32 sysmemIoRead).toInt = 4 := by decide
  simp only [sysMemmap, h]
  rfl

theorem sysMemmap_ioWrite (proc : Pcb) (a2 a3 : BitVec 32) :
    sysMemmap proc ⟨BitVec.ofInt 32 sysmemIoWrite, a2, a3⟩ =
      (memphyWrite (proc.dev .mram) a2.toInt (a3.setWidth 8)).bind fun r =>
        some (0, ⟨BitVec.ofInt 32 sysmemIoWrite, a2, a3⟩,
          { proc with dev := Function.update proc.dev .mram r.2 }) := by
  have h : (BitVec.ofInt 32 sysmemIoWrite).toInt = 5 := by decide
  simp only [sysMemmap, h]
  rfl

theorem pgGetval_step {proc proc' : Pcb} {addr rc : ℤ} {data : Option Byte}
    (h : pgGetval proc addr = some (rc, data, proc')) : PageStep proc (pagingPgn addr) proc' := by
  obtain ⟨⟨rc1, fpn, mid⟩, hpage, h⟩ := Option.bind_eq_some_iff.mp h
  obtain ⟨rfl, -, hstep⟩ := pgGetpage_step hpage
  simp only [ne_eq, not_true_eq_false, if_false] at h
  obtain ⟨f, -, h⟩ := Option.bind_eq_some_iff.mp h
  obtain ⟨⟨rc2, regs, proc2⟩, hio, h⟩ := Option.bind_eq_some_iff.mp h
  rw [sysMemmap_ioRead] at hio
  obtain ⟨⟨rc3, value, mram⟩, hread, hio⟩ := Option.bind_eq_some_iff.mp hio
  obtain ⟨byte, -, heq⟩ := Option.bind_eq_some_iff.mp hio
  simp only [Option.some.injEq, Prod.mk.injEq] at heq
  obtain ⟨rfl, rfl, rfl⟩ := heq
  simp only [lt_self_iff_false, if_false, Option.some.injEq, Prod.mk.injEq] at h
  obtain ⟨-, -, rfl⟩ := h
  exact hstep.then_access rfl (sameShape_update (memphyRead_shape hread))

theorem pgSetval_step {proc proc' : Pcb} {addr rc : ℤ} {value : Byte}
    (h : pgSetval proc addr value = some (rc, proc')) : PageStep proc (pagingPgn addr) proc' := by
  obtain ⟨⟨rc1, fpn, mid⟩, hpage, h⟩ := Option.bind_eq_some_iff.mp h
  obtain ⟨rfl, -, hstep⟩ := pgGetpage_step hpage
  simp only [ne_eq, not_true_eq_false, if_false] at h
  obtain ⟨f, -, h⟩ := Option.bind_eq_some_iff.mp h
  obtain ⟨⟨rc2, regs, proc2⟩, hio, h⟩ := Option.bind_eq_some_iff.mp h
  rw [sysMemmap_ioWrite] at hio
  obtain ⟨⟨rc3, mram⟩, hwrite, heq⟩ := Option.bind_eq_some_iff.mp hio
  simp only [Option.some.injEq, Prod.mk.injEq] at heq
  obtain ⟨rfl, rfl, rfl⟩ := heq
  simp only [lt_self_iff_false, if_false] at h
  obtain ⟨⟨rc4, mram'⟩, hwrite', heq⟩ := Option.bind_eq_some_iff.mp h
  simp only [Option.some.injEq, Prod.mk.injEq] at heq
  obtain ⟨-, rfl⟩ := heq
  have hfirst := sameShape_update (memphyWrite_shape hwrite)
  exact hstep.then_access rfl fun d => (hfirst d).trans
    (sameShape_update (memphyWrite_shape hwrite') d)

/-- The address an access goes to. -/
def Pcb.accessAddr (proc : Pcb) (rgid offset : ℤ) : ℤ :=
  toInt (toULong ((proc.mm.symrgtbl rgid.toNat).rgStart + offset))

/-- What `libread` and `libwrite` can do to the tables and the free lists. -/
inductive AccessStep (proc : Pcb) (rgid offset : ℤ) (proc' : Pcb) : Prop where
  | refused : proc' = proc → AccessStep proc rgid offset proc'
  | page : 0 ≤ rgid → rgid < 30 → PageStep proc (pagingPgn (proc.accessAddr rgid offset)) proc' →
      AccessStep proc rgid offset proc'

theorem getSymrgByid_cases {mm : Mm} {rgid : ℤ} {currg : Option VmRg}
    (h : getSymrgByid mm rgid = some currg) :
    currg = none ∨ 0 ≤ rgid ∧ rgid < 30 ∧ currg = some (mm.symrgtbl rgid.toNat) := by
  rw [getSymrgByid] at h
  split_ifs at h with h1 h2
  · exact Or.inl (Option.some.inj h).symm
  · simp only [Nat.cast_ofNat, not_or, not_lt] at h1 h2
    exact Or.inr ⟨h1.1, lt_of_le_of_ne h1.2 h2, (Option.some.inj h).symm⟩

theorem read_step {proc proc' : Pcb} {rgid offset rc : ℤ} {data : Option Byte}
    (h : read proc 0 rgid offset = some (rc, data, proc')) :
    AccessStep proc rgid offset proc' := by
  obtain ⟨currg, hsym, h⟩ := Option.bind_eq_some_iff.mp h
  obtain ⟨curVma, -, h⟩ := Option.bind_eq_some_iff.mp h
  split at h
  · obtain ⟨⟨rc1, data1, mid⟩, hval, heq⟩ := Option.bind_eq_some_iff.mp h
    simp only [Option.some.injEq, Prod.mk.injEq] at heq
    obtain ⟨-, -, rfl⟩ := heq
    obtain hnone | ⟨h0, h30, hrg⟩ := getSymrgByid_cases hsym
    · simp at hnone
    · obtain rfl := Option.some.inj hrg
      exact .page h0 h30 (pgGetval_step hval)
  · simp only [Option.some.injEq, Prod.mk.injEq] at h
    exact .refused h.2.2.symm

theorem write_step {proc proc' : Pcb} {rgid offset rc : ℤ} {value : Byte}
    (h : write proc 0 rgid offset value = some (rc, proc')) : AccessStep proc rgid offset proc' := by
  obtain ⟨currg, hsym, h⟩ := Option.bind_eq_some_iff.mp h
  obtain ⟨curVma, -, h⟩ := Option.bind_eq_some_iff.mp h
  split at h
  · obtain ⟨⟨rc1, mid⟩, hval, heq⟩ := Option.bind_eq_some_iff.mp h
    simp only [Option.some.injEq, Prod.mk.injEq] at heq
    obtain ⟨-, rfl⟩ := heq
    obtain hnone | ⟨h0, h30, hrg⟩ := getSymrgByid_cases hsym
    · simp at hnone
    · obtain rfl := Option.some.inj hrg
      exact .page h0 h30 (pgSetval_step hval)
  · simp only [Option.some.injEq, Prod.mk.injEq] at h
    exact .refused h.2.symm

/-! ### The shape of the heap -/

theorem incVmaLimit_cases {proc proc' : Pcb} {brk : ℕ} {fr : List VmRg}
    (h : HeapIs proc.mm brk fr) {vmaid incSz rc : ℤ}
    (hcall : incVmaLimit proc vmaid incSz = some (rc, proc')) :
    proc' = proc ∨ proc.grow brk fr incSz = some (rc, proc') := by
  by_cases hid : vmaid ≤ 0
  · rw [incVmaLimit_heap h hid] at hcall
    split_ifs at hcall
    · simp only [Option.some.injEq, Prod.mk.injEq] at hcall
      exact Or.inl hcall.2.symm
    · exact Or.inr hcall
  · simp [incVmaLimit, getVmaByNum_heap_pos h (not_le.mp hid)] at hcall

theorem incVmaLimit_heapKept {proc proc' : Pcb} {brk : ℕ} {fr : List VmRg}
    (h : HeapIs proc.mm brk fr) {vmaid incSz rc : ℤ}
    (hcall : incVmaLimit proc vmaid incSz = some (rc, proc')) :
    ∃ brk', HeapKept proc brk proc' brk' fr := by
  rcases incVmaLimit_cases h hcall with rfl | hgrow
  · exact ⟨brk, .refl h⟩
  · exact grow_heapKept hgrow

/-- System call 17 grows the heap, or keeps the tables and the free lists. -/
theorem sysMemmap_step {proc proc' : Pcb} {regs regs' : ScRegs} {rc : ℤ}
    (hcall : sysMemmap proc regs = some (rc, regs', proc')) :
    (regs.a1.toInt = sysmemIncOp ∧
      ∃ rc', incVmaLimit proc regs.a2.toInt regs.a3.toInt = some (rc', proc')) ∨
    (regs.a1.toInt ≠ sysmemIncOp ∧ proc'.mm = proc.mm ∧
      ∀ d, SameShape (proc.dev d) (proc'.dev d)) := by
  have hsame : ∀ q : Pcb, proc = q → q.mm = proc.mm ∧ ∀ d, SameShape (proc.dev d) (q.dev d) :=
    fun q hq => hq ▸ ⟨rfl, fun _ => .refl _⟩
  simp only [sysMemmap] at hcall
  split_ifs at hcall with hmap hinc
  · simp only [Option.some.injEq, Prod.mk.injEq] at hcall
    exact Or.inr ⟨by rw [hmap]; decide, hsame _ hcall.2.2⟩
  · obtain ⟨⟨rc1, mid⟩, hcall', heq⟩ := Option.map_eq_some_iff.mp hcall
    simp only [Prod.mk.injEq] at heq
    exact Or.inl ⟨hinc, rc1, heq.2.2 ▸ hcall'⟩
  · obtain ⟨⟨rc1, mid⟩, hswap, heq⟩ := Option.map_eq_some_iff.mp hcall
    obtain ⟨dev, hcopy, hmk⟩ := Option.map_eq_some_iff.mp hswap
    simp only [Prod.mk.injEq] at heq hmk
    obtain ⟨-, -, rfl⟩ := heq
    obtain ⟨-, rfl⟩ := hmk
    exact Or.inr ⟨hinc, rfl, swapCpPage_shape hcopy⟩
  · obtain ⟨⟨rc1, value, mram⟩, hread, hval⟩ := Option.bind_eq_some_iff.mp hcall
    obtain ⟨byte, -, heq⟩ := Option.bind_eq_some_iff.mp hval
    simp only [Option.some.injEq, Prod.mk.injEq] at heq
    obtain ⟨-, -, rfl⟩ := heq
    exact Or.inr ⟨hinc, rfl, sameShape_update (memphyRead_shape hread)⟩
  · obtain ⟨⟨rc1, mram⟩, hwrite, heq⟩ := Option.bind_eq_some_iff.mp hcall
    simp only [Option.some.injEq, Prod.mk.injEq] at heq
    obtain ⟨-, -, rfl⟩ := heq
    exact Or.inr ⟨hinc, rfl, sameShape_update (memphyWrite_shape hwrite)⟩
  · simp only [Option.some.injEq, Prod.mk.injEq] at hcall
    exact Or.inr ⟨hinc, hsame _ hcall.2.2⟩

theorem sysMemmap_heapKept {proc proc' : Pcb} {brk : ℕ} {fr : List VmRg}
    (h : HeapIs proc.mm brk fr) {regs regs' : ScRegs} {rc : ℤ}
    (hcall : sysMemmap proc regs = some (rc, regs', proc')) :
    ∃ brk', HeapKept proc brk proc' brk' fr := by
  rcases sysMemmap_step hcall with ⟨-, rc', hinc⟩ | ⟨-, hmm, hdev⟩
  · exact incVmaLimit_heapKept h hinc
  · exact ⟨brk, hmm ▸ h, id, fun d => (hdev d).rdmflg⟩

theorem setSymrg_keeps {mm mm' : Mm} {rgid : ℤ} {rgnode : VmRg}
    (h : setSymrg mm rgid rgnode = some mm') : mm'.mmap = mm.mmap ∧ mm'.pgd = mm.pgd := by
  rw [setSymrg] at h
  split_ifs at h
  obtain rfl := Option.some.inj h
  exact ⟨rfl, rfl⟩

/-- `__alloc` grows the heap when no region fits; the rest touches neither the page
directory nor the devices. -/
theorem alloc_cases {proc proc' : Pcb} {brk : ℕ} {fr : List VmRg} (h : HeapIs proc.mm brk fr)
    {rgid size rc : ℤ} {addr : Option ℤ} (hcall : alloc proc 0 rgid size = some (rc, addr, proc')) :
    ∃ mid brk', (takeFit size fr ≠ none ∧ mid = proc ∨ takeFit size fr = none ∧
        ∃ rc', proc.grow brk fr (pagingPageAlignsz size) = some (rc', mid)) ∧
      HeapKept proc brk mid brk' fr ∧ proc'.mm.pgd = mid.mm.pgd ∧ proc'.dev = mid.dev ∧
        ∃ fr', HeapIs proc'.mm brk' fr' := by
  rcases hfit : takeFit size fr with - | ⟨rgnode, rest⟩
  · rcases hgrow : proc.grow brk fr (pagingPageAlignsz size) with - | ⟨rc1, mid⟩
    · simp [alloc_grow_none h hfit hgrow] at hcall
    · obtain ⟨brk', hkept⟩ := grow_heapKept hgrow
      refine ⟨mid, brk', Or.inr ⟨rfl, rc1, rfl⟩, hkept, ?_⟩
      rw [alloc_grow h hfit hgrow hkept.heap] at hcall
      split at hcall
      · simp only [Option.some.injEq, Prod.mk.injEq] at hcall
        rw [← hcall.2.2]
        exact ⟨rfl, rfl, _, rfl⟩
      · obtain ⟨mm, hset, heq⟩ := Option.bind_eq_some_iff.mp hcall
        obtain ⟨hmmap, hpgd⟩ := setSymrg_keeps hset
        simp only [Option.some.injEq, Prod.mk.injEq] at heq
        rw [← heq.2.2]
        exact ⟨hpgd, rfl, _, hmmap⟩
  · refine ⟨proc, brk, Or.inl ⟨by simp, rfl⟩, .refl h, ?_⟩
    rw [alloc_fit h hfit] at hcall
    obtain ⟨mm, hset, heq⟩ := Option.bind_eq_some_iff.mp hcall
    obtain ⟨hmmap, hpgd⟩ := setSymrg_keeps hset
    simp only [Option.some.injEq, Prod.mk.injEq] at heq
    rw [← heq.2.2]
    exact ⟨hpgd, rfl, _, hmmap⟩

theorem AccessStep.heapKept {proc proc' : Pcb} {brk : ℕ} {fr : List VmRg} {rgid offset : ℤ}
    (h : HeapIs proc.mm brk fr) (hstep : AccessStep proc rgid offset proc') :
    HeapKept proc brk proc' brk fr := by
  cases hstep with
  | refused heq =>
    subst heq
    exact .refl h
  | page _ _ hpage =>
    cases hpage with
    | hit _ hmm hdev => exact ⟨hmm ▸ h, id, fun d => (hdev d).rdmflg⟩
    | fault vic swpfpn older frames _ _ _ hmm hram hmswp =>
      refine ⟨hmm ▸ h, id, fun d => ?_⟩
      cases d with
      | mram => exact hram.rdmflg
      | activeMswp => exact hmswp.rdmflg

/-- The function a call runs, as far as the process is concerned. -/
inductive CallStep (proc proc' : Pcb) : MemOp → Prop where
  | alloc {size regIndex : BitVec 32} {rc : ℤ} {addr : Option ℤ}
      (hcall : Mem.alloc proc 0 regIndex.toInt size.toInt = some (rc, addr, proc')) :
      CallStep proc proc' (.alloc size regIndex)
  | free {regIndex : BitVec 32} {rc : ℤ} (hcall : libfree proc regIndex = some (rc, proc')) :
      CallStep proc proc' (.free regIndex)
  | read {source offset : BitVec 32} (hstep : AccessStep proc source.toInt offset.toInt proc') :
      CallStep proc proc' (.read source offset)
  | write {data : Byte} {destination offset : BitVec 32}
      (hstep : AccessStep proc destination.toInt offset.toInt proc') :
      CallStep proc proc' (.write data destination offset)
  | memmap {regs regs' : ScRegs} {rc : ℤ}
      (hcall : sysMemmap proc regs = some (rc, regs', proc')) : CallStep proc proc' (.memmap regs)

theorem memCall_step {proc proc' : Pcb} {op : MemOp} {ret : MemRet}
    (hcall : memCall proc op = some (ret, proc')) : CallStep proc proc' op := by
  cases op with
  | alloc size regIndex =>
    obtain ⟨addr, halloc⟩ := alloc_of_memCall hcall
    exact .alloc halloc
  | free regIndex => exact .free (libfree_of_memCall hcall)
  | read source offset =>
    obtain ⟨data, hread⟩ := read_of_memCall hcall
    exact .read (read_step hread)
  | write data destination offset => exact .write (write_step (libwrite_of_memCall hcall))
  | memmap regs =>
    obtain ⟨regs', hsys⟩ := sysMemmap_of_memCall hcall
    exact .memmap hsys

theorem memCall_heapKept {proc proc' : Pcb} {brk : ℕ} {fr : List VmRg} (h : HeapIs proc.mm brk fr)
    {op : MemOp} {ret : MemRet} (hcall : memCall proc op = some (ret, proc')) :
    ∃ brk' fr', HeapKept proc brk proc' brk' fr' := by
  cases memCall_step hcall with
  | alloc halloc =>
    obtain ⟨mid, brk', -, hkept, -, hdev, fr', hheap⟩ := alloc_cases h halloc
    exact ⟨brk', fr', hheap, hkept.aligned, fun d => hdev ▸ hkept.random d⟩
  | @free regIndex rc hfree =>
    obtain heq | heq := free_cases h regIndex.toInt
    all_goals obtain ⟨-, rfl⟩ := Prod.mk.inj (Option.some.inj (hfree.symm.trans heq))
    · exact ⟨_, _, .refl h⟩
    · exact ⟨_, _, rfl, id, fun _ => rfl⟩
  | read hstep => exact ⟨_, _, hstep.heapKept h⟩
  | write hstep => exact ⟨_, _, hstep.heapKept h⟩
  | memmap hsys =>
    obtain ⟨brk', hkept⟩ := sysMemmap_heapKept h hsys
    exact ⟨brk', fr, hkept⟩

theorem memCall_heapIs {proc proc' : Pcb} {brk : ℕ} {fr : List VmRg} (h : HeapIs proc.mm brk fr)
    {op : MemOp} {ret : MemRet} (hcall : memCall proc op = some (ret, proc')) :
    ∃ brk' fr', HeapIs proc'.mm brk' fr' := by
  obtain ⟨brk', fr', hkept⟩ := memCall_heapKept h hcall
  exact ⟨brk', fr', hkept.heap⟩

theorem heap_put {ι : Type} [DecidableEq ι] {s : MemSys ι} {p : ι}
    (h : ∀ q, ∃ brk fr, HeapIs (s.mm q) brk fr) {proc : Pcb}
    (hproc : ∃ brk fr, HeapIs proc.mm brk fr) (q : ι) :
    ∃ brk fr, HeapIs ((s.put p proc).mm q) brk fr :=
  MemSys.forall_put (I := fun mm => ∃ brk fr, HeapIs mm brk fr) hproc h q

end OsSim.Mem
