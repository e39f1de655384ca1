import OsSim.Mem.Allocator
import OsSim.Mem.FailedGrowth

/-!
# First fit before growth (libmem.c:74-145, 500-539)

`get_free_vmrg_area` walks the free regions in list order and cuts `size` bytes
off the first one that is long enough. `__alloc` searches, grows the heap when
nothing fits, and searches again; the region it has just enlisted is then the
head of the list and always long enough. The address it returns is an `int`, and
`vmap_page_range` does not check that the new pages have entries.
-/

namespace OsSim.Mem
open OsSim.Base

/-- The region has room for `size` bytes. -/
def VmRg.Fits (size : ℕ) (rg : VmRg) : Prop := size ≤ rg.rgEnd - rg.rgStart

instance VmRg.decidableFits (size : ℕ) (rg : VmRg) : Decidable (rg.Fits size) := inferInstanceAs (Decidable (_ ≤ _))

/-- The bounds are an `unsigned long` each, in order. -/
def VmRg.Ordered (rg : VmRg) : Prop := rg.rgStart ≤ rg.rgEnd ∧ rg.rgEnd < 18446744073709551616

theorem VmRg.Ordered.len_eq {rg : VmRg} (h : rg.Ordered) : rg.len = rg.rgEnd - rg.rgStart := by
  have hle := h.1
  have hlt := h.2
  have hcast : (rg.rgEnd : ℤ) - rg.rgStart = (rg.rgEnd - rg.rgStart : ℕ) := by omega
  rw [VmRg.len, hcast, toULong_natCast (by omega)]

theorem VmRg.Ordered.test_iff {rg : VmRg} (h : rg.Ordered) {size : ℕ} (hsize : size < 2147483648) :
    toULong size ≤ rg.len ↔ rg.Fits size := by
  rw [h.len_eq, toULong_natCast (by omega)]
  rfl

/-! ### The search -/

section Search
variable {size : ℕ} {fr : List VmRg}

theorem takeFit_eq_none_iff (hsize : size < 2147483648) (hord : ∀ rg ∈ fr, rg.Ordered) :
    takeFit size fr = none ↔ ∀ rg ∈ fr, ¬rg.Fits size := by
  induction fr with
  | nil => simp [takeFit]
  | cons rg fr ih =>
    have hrg := (hord rg (List.mem_cons_self ..)).test_iff hsize
    have htail := ih fun r hr => hord r (List.mem_cons_of_mem _ hr)
    rw [takeFit, List.forall_mem_cons, ← htail, ← hrg]
    cases Nat.decLe (toULong size) rg.len with
    | isTrue hfit => simp [hfit]
    | isFalse hno => simp [hno]

/-- The first region that is long enough gives its first `size` bytes; the
regions before and after it stay. -/
theorem takeFit_first (hsize : size < 2147483648) {before : List VmRg} (after : List VmRg) {rg : VmRg}
    (hord : ∀ r ∈ before, r.Ordered) (hno : ∀ r ∈ before, ¬r.Fits size) (hrg : rg.Ordered)
    (hfit : rg.Fits size) :
    takeFit size (before ++ rg :: after) =
      some (⟨rg.rgStart, rg.rgStart + size⟩,
        before ++ ⟨rg.rgStart + size, rg.rgEnd⟩ :: after) := by
  induction before with
  | nil =>
    have hend : toULong ((rg.rgStart : ℤ) + size) = rg.rgStart + size := by
      have hle := hrg.1
      have hlt := hrg.2
      have hroom : size ≤ rg.rgEnd - rg.rgStart := hfit
      rw [show (rg.rgStart : ℤ) + size = ((rg.rgStart + size : ℕ) : ℤ) by push_cast; rfl,
        toULong_natCast (by omega)]
    rw [List.nil_append, List.nil_append, takeFit_head after ((hrg.test_iff hsize).mpr hfit), hend]
  | cons r before ih =>
    have hr : ¬toULong size ≤ r.len := fun h =>
      hno r (List.mem_cons_self ..) (((hord r (List.mem_cons_self ..)).test_iff hsize).mp h)
    have htail := ih (fun q hq => hord q (List.mem_cons_of_mem _ hq))
      (fun q hq => hno q (List.mem_cons_of_mem _ hq))
    rw [List.cons_append, takeFit, if_neg hr, htail]
    rfl

theorem exists_first_fit (h : ∃ rg ∈ fr, rg.Fits size) :
    ∃ before rg after, fr = before ++ rg :: after ∧ (∀ r ∈ before, ¬r.Fits size) ∧
      rg.Fits size := by
  induction fr with
  | nil => simp at h
  | cons r fr ih =>
    cases (inferInstance : Decidable (r.Fits size)) with
    | isTrue hr => exact ⟨[], r, fr, rfl, by simp, hr⟩
    | isFalse hr =>
      obtain ⟨rg, hmem, hfit⟩ := h
      have hne : rg ≠ r := fun heq => hr (heq ▸ hfit)
      obtain ⟨before, rg', after, rfl, hno, hfit'⟩ :=
        ih ⟨rg, (List.mem_cons.mp hmem).resolve_left hne, hfit⟩
      exact ⟨r :: before, rg', after, rfl, List.forall_mem_cons.mpr ⟨hr, hno⟩, hfit'⟩

end Search

/-! ### What the two functions are meant to do -/

/-- `get_free_vmrg_area` fails when no region is long enough, and otherwise takes
the first `size` bytes of the first one that is. -/
structure SearchesFirstFit (mm : Mm) (brk : ℕ) (fr : List VmRg) (size : ℕ) : Prop where
  fails : (∀ rg ∈ fr, ¬rg.Fits size) → getFreeVmrgArea mm 0 size = some none
  takes : ∀ before rg after, fr = before ++ rg :: after → (∀ r ∈ before, ¬r.Fits size) →
    rg.Fits size → getFreeVmrgArea mm 0 size = some (some (⟨rg.rgStart, rg.rgStart + size⟩,
      { mm with mmap := [⟨0, 0, brk, brk,
        before ++ ⟨rg.rgStart + size, rg.rgEnd⟩ :: after⟩] }))

/-- `__alloc` leaves the break, the page table and the devices alone when some
region is long enough; otherwise, with enough free frames, it moves the break up by
the page-aligned size and returns the old one. -/
structure AllocFirstFit (proc : Pcb) (brk : ℕ) (fr : List VmRg) (rgid : ℤ) (size : ℕ) : Prop where
  stays : (∃ rg ∈ fr, rg.Fits size) → ∃ addr proc' fr',
    alloc proc 0 rgid size = some (0, some addr, proc') ∧ HeapIs proc'.mm brk fr' ∧
      proc'.mm.pgd = proc.mm.pgd ∧ proc'.dev = proc.dev
  grows : (∀ rg ∈ fr, ¬rg.Fits size) → pagesNeeded size ≤ proc.freeFrames.length →
    ∃ proc' fr', alloc proc 0 rgid size = some (0, some (brk : ℤ), proc') ∧
      HeapIs proc'.mm (brk + 256 * pagesNeeded size) fr'

/-- The region id is one of the table, and a growth that finds its frames starts
below `INT_MAX` and ends within the page directory. -/
def InRange (proc : Pcb) (brk : ℕ) (fr : List VmRg) (rgid : ℤ) (size : ℕ) : Prop :=
  ((∃ rg ∈ fr, rg.Fits size) → 0 ≤ rgid ∧ rgid < 30) ∧
  ((∀ rg ∈ fr, ¬rg.Fits size) → pagesNeeded size ≤ proc.freeFrames.length →
    (0 ≤ rgid ∧ rgid < 30) ∧ brk < 2147483648 ∧
      pagingPgn (toInt brk) + pagesNeeded size ≤ pagingMaxPgn)

theorem searchesFirstFit {mm : Mm} {brk : ℕ} {fr : List VmRg} (hheap : HeapIs mm brk fr)
    (hord : ∀ rg ∈ fr, rg.Ordered) {size : ℕ} (hsize : size < 2147483648) :
    SearchesFirstFit mm brk fr size := by
  constructor
  · intro hno
    exact (getFreeVmrgArea_none hheap).mpr ((takeFit_eq_none_iff hsize hord).mpr hno)
  · intro before rg after hfr hno hfit
    subst hfr
    have htake := takeFit_first hsize after
      (fun r hr => hord r (List.mem_append_left _ hr)) hno (hord rg (by simp)) hfit
    rw [getFreeVmrgArea_heap hheap, htake]
    rfl

/-! ### `__alloc` -/

theorem setSymrg_isSome_iff {mm : Mm} {rgid : ℤ} {rgnode : VmRg} :
    (∃ mm', setSymrg mm rgid rgnode = some mm') ↔ 0 ≤ rgid ∧ rgid < 30 := by
  rw [setSymrg]
  constructor
  · rintro ⟨mm', h⟩
    split_ifs at h with hid
    exact hid
  · intro hid
    exact ⟨_, if_pos hid⟩

/-- The pages `__alloc` asks for, up to the size where rounding up overflows. -/
theorem growthPages_alloc {size : ℤ} (h0 : 0 < size) (h : size ≤ 2147483392) :
    pagingPageAlignsz size = 256 * pagesNeeded size ∧
      growthPages (pagingPageAlignsz size) = pagesNeeded size := by
  have halign := pagingPageAlignsz_eq h0.le h
  have hpos : 0 ≤ pagingPageAlignsz size := by omega
  have hn := growthPages_eq_needed h0 h
  refine ⟨?_, ?_⟩
  · rw [halign, pagesNeeded]
    omega
  · rw [growthPages, pagingPageAlignsz_idem hpos, ← hn]
    rfl

theorem toInt_toULong (x : ℤ) : toInt (toULong x) = toInt x := by
  simp only [toInt, toULong]
  omega

/-- The address `__alloc` returns after a growth is the old break as an `int`. -/
theorem growthRg_start (brk : ℕ) (size : ℤ) : toInt (growthRg brk size).rgStart = toInt brk := by
  have hrange := toInt_range (brk : ℤ)
  rw [growthRg, initVmRg, toInt_toULong, toInt_of_range (toInt_range _).1 (toInt_range _).2,
    toInt_of_range hrange.1 hrange.2]

section Alloc
variable {proc : Pcb} {brk : ℕ} {fr : List VmRg} {rgid : ℤ} {size : ℕ}

theorem alloc_fit_iff (hheap : HeapIs proc.mm brk fr) (hord : ∀ rg ∈ fr, rg.Ordered)
    (hsize : size < 2147483648) (hfit : ∃ rg ∈ fr, rg.Fits size) :
    (∃ addr proc' fr', alloc proc 0 rgid size = some (0, some addr, proc') ∧
      HeapIs proc'.mm brk fr' ∧ proc'.mm.pgd = proc.mm.pgd ∧ proc'.dev = proc.dev) ↔
      0 ≤ rgid ∧ rgid < 30 := by
  obtain ⟨before, rg, after, rfl, hno, hrg⟩ := exists_first_fit hfit
  have htake := takeFit_first hsize after
    (fun r hr => hord r (List.mem_append_left _ hr)) hno (hord rg (by simp)) hrg
  rw [alloc_fit hheap htake]
  constructor
  · rintro ⟨addr, proc', fr', hcall, -⟩
    obtain ⟨mm, hset, -⟩ := Option.bind_eq_some_iff.mp hcall
    exact setSymrg_isSome_iff.mp ⟨mm, hset⟩
  · intro hid
    rw [setSymrg_eq _ hid.1 hid.2, Option.bind_some]
    exact ⟨_, _, _, rfl, rfl, rfl, rfl⟩

theorem alloc_grow_iff (hheap : HeapIs proc.mm brk fr) (hord : ∀ rg ∈ fr, rg.Ordered)
    (h1 : 1 ≤ size) (hsize : size ≤ 1073741824) (hno : ∀ rg ∈ fr, ¬rg.Fits size)
    (henough : pagesNeeded size ≤ proc.freeFrames.length) :
    (∃ proc' fr', alloc proc 0 rgid size = some (0, some (brk : ℤ), proc') ∧
      HeapIs proc'.mm (brk + 256 * pagesNeeded size) fr') ↔
      (0 ≤ rgid ∧ rgid < 30) ∧ brk < 2147483648 ∧
        pagingPgn (toInt brk) + pagesNeeded size ≤ pagingMaxPgn := by
  have hfit := (takeFit_eq_none_iff (by omega) hord).mpr hno
  obtain ⟨halign, hn⟩ := growthPages_alloc (show (0 : ℤ) < size by omega) (by omega)
  have hpos : 1 ≤ pagesNeeded size := by
    rw [pagesNeeded]
    omega
  have hbytes : pagesNeeded size ≤ 4194304 := by
    rw [pagesNeeded]
    omega
  have hhead := growthRg_fits brk (show (0 : ℤ) < size by omega) (by omega)
  by_cases hroom : pagingPgn (toInt brk) + pagesNeeded size ≤ pagingMaxPgn
  · have hgrow := proc.grow_eq fr (by rw [hn]; exact henough) (by rw [hn]; exact Or.inr hroom)
    have hheap' : HeapIs (proc.growTo brk fr (pagingPageAlignsz size)).mm
        (toULong (brk + pagingPageAlignsz (pagingPageAlignsz size))) fr := rfl
    rw [alloc_grow hheap hfit hgrow hheap', takeFit_head fr hhead]
    dsimp only
    rw [growthRg_start]
    constructor
    · rintro ⟨proc', fr', hcall, -⟩
      obtain ⟨mm, hset, heq⟩ := Option.bind_eq_some_iff.mp hcall
      simp only [Option.some.injEq, Prod.mk.injEq, true_and] at heq
      have hrange := toInt_range (brk : ℤ)
      exact ⟨setSymrg_isSome_iff.mp ⟨mm, hset⟩, by omega, hroom⟩
    · rintro ⟨hid, hbrk, -⟩
      have hend : toULong (brk + pagingPageAlignsz (pagingPageAlignsz (size : ℤ))) =
          brk + 256 * pagesNeeded size := by
        rw [pagingPageAlignsz_idem (by omega), halign,
          show (brk : ℤ) + 256 * (pagesNeeded size : ℤ) =
            ((brk + 256 * pagesNeeded size : ℕ) : ℤ) by push_cast; rfl,
          toULong_natCast (by omega)]
      rw [setSymrg_eq _ hid.1 hid.2, Option.bind_some, toInt_of_range (by omega) (by omega), ← hend]
      exact ⟨_, _, rfl, rfl⟩
  · have hgrow : proc.grow brk fr (pagingPageAlignsz size) = none := by
      rw [Pcb.grow, hn, if_neg (not_lt.mpr henough), if_neg (by omega)]
    rw [alloc_grow_none hheap hfit hgrow]
    constructor
    · rintro ⟨proc', fr', hcall, -⟩
      simp at hcall
    · rintro ⟨-, -, hin⟩
      exact absurd hin hroom

theorem allocFirstFit_iff (hheap : HeapIs proc.mm brk fr) (hord : ∀ rg ∈ fr, rg.Ordered)
    (h1 : 1 ≤ size) (hsize : size ≤ 1073741824) :
    AllocFirstFit proc brk fr rgid size ↔ InRange proc brk fr rgid size := by
  constructor
  · rintro ⟨hstays, hgrows⟩
    constructor
    · intro hfit
      exact (alloc_fit_iff hheap hord (by omega) hfit).mp (hstays hfit)
    · intro hno henough
      exact (alloc_grow_iff hheap hord h1 hsize hno henough).mp (hgrows hno henough)
  · rintro ⟨hstays, hgrows⟩
    constructor
    · intro hfit
      exact (alloc_fit_iff hheap hord (by omega) hfit).mpr (hstays hfit)
    · intro hno henough
      exact (alloc_grow_iff hheap hord h1 hsize hno henough).mpr (hgrows hno henough)

end Alloc

/-- In every process with one area whose free regions are in order: the search is
first fit, and `__alloc` uses it before it grows the heap, and grows it as it
should, exactly when the id and the growth are in range. -/
theorem first_fit_before_growth_iff {proc : Pcb} {brk : ℕ} {fr : List VmRg}
    (hheap : HeapIs proc.mm brk fr) (hord : ∀ rg ∈ fr, rg.Ordered) {size : ℕ} (h1 : 1 ≤ size)
    (hsize : size ≤ 1073741824) (rgid : ℤ) :
    SearchesFirstFit proc.mm brk fr size ∧
      (AllocFirstFit proc brk fr rgid size ↔ InRange proc brk fr rgid size) := by
  exact ⟨searchesFirstFit hheap hord (by omega), allocFirstFit_iff hheap hord h1 hsize⟩

theorem first_fit_before_growth_fresh :
    SearchesFirstFit ((MemSys.start 512 256 : MemSys Unit).mm ()) 0 [⟨0, 0⟩] 300 ∧
      (AllocFirstFit ((MemSys.start 512 256 : MemSys Unit).pcb ()) 0 [⟨0, 0⟩] 0 300 ↔
        InRange ((MemSys.start 512 256 : MemSys Unit).pcb ()) 0 [⟨0, 0⟩] 0 300) :=
  first_fit_before_growth_iff
    (show HeapIs ((MemSys.start 512 256 : MemSys Unit).pcb ()).mm 0 [⟨0, 0⟩] from rfl)
    (by simp [VmRg.Ordered]) (by norm_num) (by norm_num) 0

theorem start_freeFrames (ramSize swapSize : ℕ) :
    ((MemSys.start ramSize swapSize : MemSys Unit).pcb ()).freeFrames.length = ramSize / 256 :=
  List.length_range

/-- With 8 MB of `mram` the frames for 4 MB and one byte are free, no region fits,
and the growth is undefined. -/
theorem growth_without_entries :
    ∃ s : MemSys Unit, Reachable anySystem (fun _ _ => True) s ∧ HeapIs (s.mm ()) 0 [⟨0, 0⟩] ∧
      pagesNeeded 4194305 ≤ (s.pcb ()).freeFrames.length ∧
      ¬AllocFirstFit (s.pcb ()) 0 [⟨0, 0⟩] 0 4194305 := by
  have hfree := start_freeFrames 8388608 256
  have hn : pagesNeeded 4194305 = 16385 := by decide
  refine ⟨.start 8388608 256, .init fun _ => ⟨_, _, _, rfl⟩, rfl, ?_, ?_⟩
  · rw [hn, hfree]
    norm_num
  · intro hok
    have hheap : HeapIs ((MemSys.start 8388608 256 : MemSys Unit).pcb ()).mm 0 [⟨0, 0⟩] := rfl
    have hin := (allocFirstFit_iff hheap (by simp [VmRg.Ordered]) (by norm_num)
      (by norm_num)).mp hok
    have hno : ∀ rg ∈ [(⟨0, 0⟩ : VmRg)], ¬rg.Fits 4194305 := by decide
    have hend := (hin.2 hno (by rw [hfree]; decide)).2.2
    exact absurd hend (by decide +kernel)

end OsSim.Mem
