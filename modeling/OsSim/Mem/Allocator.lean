import OsSim.Base.Count
import OsSim.Mem.Calls

/-!
# The region allocator (libmem.c:74-181, 500-539)

What `__alloc` does when a growth finds its frames: it carves the region out of
the first free one that fits; if there is none, it enlists the grown part of the
heap and searches again. A byte is counted in the live and the free regions that
contain it: carving and freeing move bytes between the two, a growth adds every
new byte once.
-/

namespace OsSim.Mem
open OsSim.Base

/-- The pages `__alloc` grows by. -/
def allocPages (size : ℤ) : ℕ := growthPages (pagingPageAlignsz size)

theorem allocPages_mul {size : ℤ} (h : 0 ≤ pagingPageAlignsz size) :
    (256 * allocPages size : ℤ) = pagingPageAlignsz size := by
  have hidem := pagingPageAlignsz_idem h
  rw [allocPages, growthPages_mul (by rw [hidem]; exact h), hidem]

/-- A growth by `__alloc` that finds its frames and stays in the page directory;
2^23 - 1 pages are less than `INT_MAX` bytes. -/
structure GrowthServed (proc : Pcb) (pages : ℕ) (size : ℤ) : Prop where
  aligned : 0 ≤ pagingPageAlignsz size
  enough : allocPages size ≤ proc.freeFrames.length
  small : pages + allocPages size ≤ 8388607
  room : allocPages size = 0 ∨
    pagingPgn (toInt ((256 * pages : ℕ) : ℤ)) + allocPages size ≤ pagingMaxPgn

theorem GrowthServed.growthRg_eq {proc : Pcb} {pages : ℕ} {size : ℤ}
    (h : GrowthServed proc pages size) :
    growthRg (256 * pages) size = ⟨256 * pages, 256 * (pages + allocPages size)⟩ := by
  have hsmall := h.small
  rw [growthRg, ← allocPages_mul h.aligned, mul_add]
  exact_mod_cast initVmRg_growth (show 256 * pages + 256 * allocPages size < 2147483648 by omega)

/-- The process in which `__alloc` takes its region, with the pages of its heap
and its free regions: as it was, or after a growth. -/
inductive Ready (proc : Pcb) (pages : ℕ) (fr : List VmRg) (size : ℤ) :
    Pcb → ℕ → List VmRg → Prop where
  | fits : takeFit size fr ≠ none → Ready proc pages fr size proc pages fr
  | grown : takeFit size fr = none → GrowthServed proc pages size →
      Ready proc pages fr size (proc.growTo (256 * pages) fr (pagingPageAlignsz size))
        (pages + allocPages size) (growthRg (256 * pages) size :: fr)

inductive AllocStep (proc : Pcb) (pages : ℕ) (fr : List VmRg) (rgid size : ℤ) :
    ℤ → Pcb → Prop where
  | placed {mid : Pcb} {pages' : ℕ} {fr' rest : List VmRg} {rgnode : VmRg} :
      Ready proc pages fr size mid pages' fr' → 0 ≤ rgid → rgid < 30 →
      takeFit size fr' = some (rgnode, rest) →
      AllocStep proc pages fr rgid size 0 (mid.place (256 * pages') rest rgid rgnode)
  | refused {mid : Pcb} {pages' : ℕ} {fr' : List VmRg} :
      Ready proc pages fr size mid pages' fr' → takeFit size fr' = none →
      AllocStep proc pages fr rgid size (-1) (mid.withFree (256 * pages') fr')

theorem GrowthServed.grow_eq {proc : Pcb} {pages : ℕ} {size : ℤ} (h : GrowthServed proc pages size)
    (fr : List VmRg) : proc.grow (256 * pages) fr (pagingPageAlignsz size) =
      some (0, proc.growTo (256 * pages) fr (pagingPageAlignsz size)) :=
  proc.grow_eq fr h.enough h.room

theorem GrowthServed.heapIs {proc : Pcb} {pages : ℕ} {size : ℤ} (h : GrowthServed proc pages size)
    (fr : List VmRg) : HeapIs (proc.growTo (256 * pages) fr (pagingPageAlignsz size)).mm
      (256 * (pages + allocPages size)) fr :=
  proc.growTo_heap fr (by rw [pagingPageAlignsz_idem h.aligned]; exact h.aligned) h.small

section Alloc
variable {proc : Pcb} {pages : ℕ} {fr : List VmRg} {rgid size : ℤ}

theorem alloc_ready (hheap : HeapIs proc.mm (256 * pages) fr)
    (hserved : takeFit size fr = none → GrowthServed proc pages size) (rgid : ℤ) :
    ∃ mid pages' fr', Ready proc pages fr size mid pages' fr' ∧
      alloc proc 0 rgid size = match takeFit size fr' with
        | none => some (-1, none, mid.withFree (256 * pages') fr')
        | some (rgnode, rest) => (setSymrg (mid.withFree (256 * pages') rest).mm rgid rgnode).bind
            fun mm => some (0, some (toInt rgnode.rgStart), ⟨mm, mid.dev⟩) := by
  rcases hfit : takeFit size fr with - | ⟨rgnode, rest⟩
  · have h := hserved hfit
    exact ⟨_, _, _, .grown hfit h, alloc_grow hheap hfit (h.grow_eq fr) (h.heapIs fr)⟩
  · refine ⟨proc, pages, fr, .fits (by simp [hfit]), ?_⟩
    rw [hfit]
    exact alloc_fit hheap hfit

theorem alloc_step (hheap : HeapIs proc.mm (256 * pages) fr)
    (hserved : takeFit size fr = none → GrowthServed proc pages size) {rc : ℤ} {addr : Option ℤ}
    {proc' : Pcb} (hcall : alloc proc 0 rgid size = some (rc, addr, proc')) :
    AllocStep proc pages fr rgid size rc proc' := by
  obtain ⟨mid, pages', fr', hready, heq⟩ := alloc_ready hheap hserved rgid
  rw [heq] at hcall
  rcases hfit : takeFit size fr' with - | ⟨rgnode, rest⟩ <;> simp only [hfit] at hcall
  · simp only [Option.some.injEq, Prod.mk.injEq] at hcall
    obtain ⟨rfl, -, rfl⟩ := hcall
    exact .refused hready hfit
  · obtain ⟨mm, hset, hcall⟩ := Option.bind_eq_some_iff.mp hcall
    simp only [Option.some.injEq, Prod.mk.injEq] at hcall
    obtain ⟨rfl, -, rfl⟩ := hcall
    rw [setSymrg] at hset
    split_ifs at hset with hid
    obtain rfl := Option.some.inj hset
    have h : AllocStep proc pages fr rgid size 0 (mid.place (256 * pages') rest rgid rgnode) :=
      .placed hready hid.1 hid.2 hfit
    exact h

/-- A served call with a valid region id is defined, and succeeds for a positive
size. -/
theorem alloc_returns (hheap : HeapIs proc.mm (256 * pages) fr)
    (hserved : takeFit size fr = none → GrowthServed proc pages size) (h0 : 0 ≤ rgid)
    (h : rgid < 30) (hsize : size < 2147483648) :
    ∃ rc addr proc', alloc proc 0 rgid size = some (rc, addr, proc') ∧ (0 < size → rc = 0) := by
  obtain ⟨mid, pages', fr', hready, heq⟩ := alloc_ready hheap hserved rgid
  rw [heq]
  rcases hfit : takeFit size fr' with - | ⟨rgnode, rest⟩
  · refine ⟨_, _, _, rfl, fun hpos => ?_⟩
    cases hready with
    | fits hne => exact absurd hfit hne
    | grown =>
      rw [takeFit_head fr (growthRg_fits (256 * pages) hpos hsize)] at hfit
      simp at hfit
  · simp only [setSymrg_eq _ h0 h, Option.bind_some]
    exact ⟨_, _, _, rfl, fun _ => rfl⟩

end Alloc

/-! ### Where the regions are -/

theorem takeFit_in {bound : ℕ} (hb : bound < 2147483648) {size : ℤ} (hsize : -2147483648 ≤ size)
    (hsize' : size < 2147483648) {fr rest : List VmRg} {rgnode : VmRg}
    (hin : ∀ rg ∈ fr, RgIn bound rg) (h : takeFit size fr = some (rgnode, rest)) :
    0 ≤ size ∧ rgnode.rgEnd = rgnode.rgStart + size.toNat ∧ RgIn bound rgnode ∧
      ∀ rg ∈ rest, RgIn bound rg := by
  obtain ⟨hpos, before, rg, after, rfl, hroom, rfl, rfl⟩ := takeFit_spec hb hsize hsize' hin h
  have hrg := hin rg (by simp)
  refine ⟨hpos, rfl, ⟨Nat.le_add_right .., hroom.trans hrg.2⟩, fun r hr => ?_⟩
  rcases List.mem_append.mp hr with hr | hr
  · exact hin r (List.mem_append_left _ hr)
  · rcases List.mem_cons.mp hr with rfl | hr
    · exact ⟨hroom, hrg.2⟩
    · exact hin r (List.mem_append_right _ (List.mem_cons_of_mem _ hr))

section Ready
variable {proc mid : Pcb} {pages pages' : ℕ} {fr fr' : List VmRg} {size : ℤ}

theorem Ready.pages_le (h : Ready proc pages fr size mid pages' fr') : pages ≤ pages' := by
  cases h with
  | fits => exact le_rfl
  | grown => exact Nat.le_add_right ..

theorem Ready.symrgtbl (h : Ready proc pages fr size mid pages' fr') :
    mid.mm.symrgtbl = proc.mm.symrgtbl := by
  cases h with
  | fits => rfl
  | grown => rfl

theorem Ready.frames (h : Ready proc pages fr size mid pages' fr') :
    pages' + mid.freeFrames.length = pages + proc.freeFrames.length := by
  cases h with
  | fits => rfl
  | grown _ hserved =>
    have hn := hserved.enough
    have hlen : (proc.growTo (256 * pages) fr (pagingPageAlignsz size)).freeFrames.length =
        proc.freeFrames.length - allocPages size := by
      simp only [Pcb.freeFrames, Pcb.growTo, Function.update_self, List.length_drop]
      rfl
    omega

theorem Ready.free_in (h : Ready proc pages fr size mid pages' fr')
    (hin : ∀ rg ∈ fr, RgIn (256 * pages) rg) : ∀ rg ∈ fr', RgIn (256 * pages') rg := by
  cases h with
  | fits => exact hin
  | grown _ hserved =>
    intro rg hrg
    rcases List.mem_cons.mp hrg with rfl | hrg
    · rw [hserved.growthRg_eq]
      exact ⟨Nat.mul_le_mul_left _ (Nat.le_add_right ..), le_rfl⟩
    · exact (hin rg hrg).mono (Nat.mul_le_mul_left _ (Nat.le_add_right ..))

end Ready

/-! ### Bytes counted -/

/-- The byte lies in the region. -/
def VmRg.Has (rg : VmRg) (x : ℕ) : Prop := rg.rgStart ≤ x ∧ x < rg.rgEnd

instance (rg : VmRg) (x : ℕ) : Decidable (rg.Has x) := inferInstanceAs (Decidable (_ ∧ _))

theorem cover_cut {lo mid hi : ℕ} (h : lo ≤ mid) (h' : mid ≤ hi) (x : ℕ) :
    cover VmRg.Has [⟨lo, hi⟩] x =
      cover VmRg.Has [⟨lo, mid⟩] x + cover VmRg.Has [⟨mid, hi⟩] x := by
  simp only [cover_cons, cover_nil, zero_add]
  by_cases hx : x < mid
  · rw [if_neg (show ¬VmRg.Has ⟨mid, hi⟩ x from fun hm => absurd hm.1 (not_le.mpr hx)), add_zero]
    exact if_congr ⟨fun hm => ⟨hm.1, hx⟩, fun hm => ⟨hm.1, hm.2.trans_le h'⟩⟩ rfl rfl
  · rw [if_neg (show ¬VmRg.Has ⟨lo, mid⟩ x from fun hm => hx hm.2), zero_add]
    exact if_congr ⟨fun hm => ⟨not_lt.mp hx, hm.2⟩, fun hm => ⟨h.trans hm.1, hm.2⟩⟩ rfl rfl

theorem takeFit_cover {bound : ℕ} (hb : bound < 2147483648) {size : ℤ}
    (hsize : -2147483648 ≤ size) (hsize' : size < 2147483648) {fr rest : List VmRg} {rgnode : VmRg}
    (hin : ∀ rg ∈ fr, RgIn bound rg) (h : takeFit size fr = some (rgnode, rest)) (x : ℕ) :
    cover VmRg.Has fr x = cover VmRg.Has rest x + cover VmRg.Has [rgnode] x := by
  obtain ⟨-, before, ⟨lo, hi⟩, after, rfl, hroom, rfl, rfl⟩ := takeFit_spec hb hsize hsize' hin h
  have hcut := cover_cut (Nat.le_add_right lo size.toNat) hroom x
  simp only [cover_append, cover_cons, cover_nil] at hcut ⊢
  omega

theorem Ready.cover_eq {proc mid : Pcb} {pages pages' : ℕ} {fr fr' : List VmRg} {size : ℤ}
    (h : Ready proc pages fr size mid pages' fr') (x : ℕ) :
    cover VmRg.Has fr' x =
      cover VmRg.Has fr x + cover VmRg.Has [⟨256 * pages, 256 * pages'⟩] x := by
  cases h with
  | fits =>
    rw [cover_cons, cover_nil, if_neg fun h => absurd h.2 (not_lt.mpr h.1), add_zero, add_zero]
  | grown _ hserved =>
    rw [hserved.growthRg_eq]
    simp

/-- The region of id `i`, if it is live. -/
def liveRgs (live : ℕ → Bool) (symrgtbl : ℕ → VmRg) (i : ℕ) : List VmRg :=
  if live i then [symrgtbl i] else []

/-- How many live and free regions contain the byte. -/
def heapCover (live : ℕ → Bool) (symrgtbl : ℕ → VmRg) (fr : List VmRg) (x : ℕ) : ℕ :=
  ∑ i ∈ Finset.range 30, cover VmRg.Has (liveRgs live symrgtbl i) x + cover VmRg.Has fr x

theorem liveRgs_place (live : ℕ → Bool) (symrgtbl : ℕ → VmRg) (r : ℕ) (rgnode : VmRg) :
    liveRgs (Function.update live r true) (Function.update symrgtbl r rgnode) =
      Function.update (liveRgs live symrgtbl) r [rgnode] := by
  funext i
  by_cases hi : i = r
  · subst hi
    simp [liveRgs]
  · simp [liveRgs, Function.update_of_ne hi]

theorem liveRgs_drop (live : ℕ → Bool) (symrgtbl : ℕ → VmRg) (r : ℕ) :
    liveRgs (Function.update live r false) symrgtbl =
      Function.update (liveRgs live symrgtbl) r [] := by
  funext i
  by_cases hi : i = r
  · subst hi
    simp [liveRgs]
  · simp [liveRgs, Function.update_of_ne hi]

/-- Carving moves the bytes from the free regions to the live one; what was
recorded under the id before is lost. -/
theorem heapCover_place {bound : ℕ} (hb : bound < 2147483648) {size : ℤ}
    (hsize : -2147483648 ≤ size) (hsize' : size < 2147483648) {fr rest : List VmRg} {rgnode : VmRg}
    (hin : ∀ rg ∈ fr, RgIn bound rg) (h : takeFit size fr = some (rgnode, rest))
    (live : ℕ → Bool) (symrgtbl : ℕ → VmRg) {r : ℕ} (hr : r < 30) (x : ℕ) :
    heapCover (Function.update live r true) (Function.update symrgtbl r rgnode) rest x +
        cover VmRg.Has (liveRgs live symrgtbl r) x =
      heapCover live symrgtbl fr x := by
  have hmove := sum_update (fun l => cover VmRg.Has l x) (liveRgs live symrgtbl) [rgnode] hr
  have hfit := takeFit_cover hb hsize hsize' hin h x
  rw [heapCover, heapCover, liveRgs_place]
  omega

theorem heapCover_free (live : ℕ → Bool) (symrgtbl : ℕ → VmRg) {r : ℕ} (hr : r < 30)
    (hlive : live r = true) (fr : List VmRg) (x : ℕ) :
    heapCover (Function.update live r false) symrgtbl (symrgtbl r :: fr) x =
      heapCover live symrgtbl fr x := by
  have hmove := sum_update (fun l => cover VmRg.Has l x) (liveRgs live symrgtbl) [] hr
  have hrg : liveRgs live symrgtbl r = [symrgtbl r] := if_pos hlive
  rw [hrg] at hmove
  simp only [cover_cons, cover_nil] at hmove
  rw [heapCover, heapCover, liveRgs_drop, cover_cons]
  omega

/-! ### Every byte once -/

/-- The live and the free regions lie in the heap and contain each of its bytes once.
With `frames` free frames the heap stays below `INT_MAX`. -/
structure HeapOnce (mm : Mm) (frames : ℕ) (live : ℕ → Bool) (pages : ℕ) (fr : List VmRg) :
    Prop where
  heap : HeapIs mm (256 * pages) fr
  small : pages + frames ≤ 8388607
  free_in : ∀ rg ∈ fr, RgIn (256 * pages) rg
  live_in : ∀ i, live i = true → i < 30 ∧ RgIn (256 * pages) (mm.symrgtbl i)
  once : ∀ x, heapCover live mm.symrgtbl fr x = cover VmRg.Has [⟨0, 256 * pages⟩] x

section Once
variable {proc mid : Pcb} {live : ℕ → Bool} {pages pages' : ℕ} {fr fr' : List VmRg} {size : ℤ}

theorem heapOnce_init {pgd : ℕ → BitVec 32} {symrgtbl : ℕ → VmRg} {fifoPgn : List ℕ} {frames : ℕ}
    (h : frames ≤ 8388607) (hlive : ∀ i, live i = false) :
    HeapOnce (initMm pgd symrgtbl fifoPgn) frames live 0 [⟨0, 0⟩] where
  heap := rfl
  small := by omega
  free_in rg hrg := by
    obtain rfl := List.mem_singleton.mp hrg
    exact ⟨le_rfl, le_rfl⟩
  live_in i hi := by simp [hlive] at hi
  once x := by simp [heapCover, liveRgs, hlive]

theorem HeapOnce.mono {mm : Mm} {frames frames' : ℕ} (h : HeapOnce mm frames live pages fr)
    (hle : frames' ≤ frames) : HeapOnce mm frames' live pages fr :=
  ⟨h.heap, by have := h.small; omega, h.free_in, h.live_in, h.once⟩

/-- Two live regions have no byte in common. -/
theorem HeapOnce.disjoint {mm : Mm} {frames : ℕ} (h : HeapOnce mm frames live pages fr) {i j : ℕ}
    (hi : live i = true) (hj : live j = true) (hij : i ≠ j) (x : ℕ) :
    ¬((mm.symrgtbl i).Has x ∧ (mm.symrgtbl j).Has x) := by
  intro hboth
  have hpos : ∀ k, live k = true → (mm.symrgtbl k).Has x →
      0 < cover VmRg.Has (liveRgs live mm.symrgtbl k) x := by
    intro k hk hx
    exact (cover_pos _).mpr ⟨mm.symrgtbl k, by simp [liveRgs, hk], hx⟩
  have hone : cover VmRg.Has [⟨0, 256 * pages⟩] x ≤ 1 := by
    rw [cover_cons, cover_nil]
    split_ifs <;> omega
  have hsum : ∑ k ∈ Finset.range 30, cover VmRg.Has (liveRgs live mm.symrgtbl k) x ≤ 1 := by
    have honce := h.once x
    rw [heapCover] at honce
    omega
  exact hij (eq_of_sum_le_one hsum (h.live_in i hi).1 (h.live_in j hj).1 (hpos i hi hboth.1)
    (hpos j hj hboth.2))

variable (h : HeapOnce proc.mm proc.freeFrames.length live pages fr)
  (hready : Ready proc pages fr size mid pages' fr')
include h hready

/-- The bytes a growth adds are in the enlisted region. -/
theorem HeapOnce.ready :
    HeapOnce (mid.withFree (256 * pages') fr').mm mid.freeFrames.length live pages' fr' := by
  have hframes := hready.frames
  have hsmall := h.small
  have hle := hready.pages_le
  refine ⟨rfl, by omega, hready.free_in h.free_in, fun i hi => ?_, fun x => ?_⟩
  · obtain ⟨hi30, hrg⟩ := h.live_in i hi
    simp only [Pcb.withFree, hready.symrgtbl]
    exact ⟨hi30, hrg.mono (Nat.mul_le_mul_left _ hle)⟩
  · simp only [Pcb.withFree, hready.symrgtbl]
    rw [cover_cut (Nat.zero_le (256 * pages)) (Nat.mul_le_mul_left 256 hle), ← h.once x,
      heapCover, heapCover, hready.cover_eq x, add_assoc]

/-- Carving moves the bytes of a new region from a free one. -/
theorem HeapOnce.placed (hsize : -2147483648 ≤ size) (hsize' : size < 2147483648) {r : ℕ}
    (hr : r < 30) (hnew : live r = false) {rest : List VmRg} {rgnode : VmRg}
    (hfit : takeFit size fr' = some (rgnode, rest)) :
    HeapOnce (mid.place (256 * pages') rest r rgnode).mm mid.freeFrames.length
      (Function.update live r true) pages' rest := by
  have hmid := h.ready hready
  have hsmall := hmid.small
  have hbound : 256 * pages' < 2147483648 := by omega
  obtain ⟨-, -, hrg, hrest⟩ := takeFit_in hbound hsize hsize' hmid.free_in hfit
  have hplace := fun x => heapCover_place hbound hsize hsize' hmid.free_in hfit live
    (mid.withFree (256 * pages') fr').mm.symrgtbl hr x
  have hnone : liveRgs live (mid.withFree (256 * pages') fr').mm.symrgtbl r = [] := by
    simp [liveRgs, hnew]
  refine ⟨rfl, hsmall, hrest, fun i hi => ?_, fun x => ?_⟩
  · simp only [Pcb.place, Int.toNat_natCast]
    by_cases hir : i = r
    · rw [hir, Function.update_self]
      exact ⟨hr, hrg⟩
    · rw [Function.update_of_ne hir] at hi ⊢
      exact hmid.live_in i hi
  · have hx := hplace x
    rw [hnone, cover_nil, add_zero, hmid.once x] at hx
    simp only [Pcb.place, Int.toNat_natCast]
    exact hx

omit hready

/-- Freeing moves them back. -/
theorem HeapOnce.freed {r : ℕ} (hlive : live r = true) :
    HeapOnce (proc.withFree (256 * pages) (proc.mm.symrgtbl r :: fr)).mm proc.freeFrames.length
      (Function.update live r false) pages (proc.mm.symrgtbl r :: fr) := by
  obtain ⟨hr, hrg⟩ := h.live_in r hlive
  refine ⟨rfl, h.small, fun rg hmem => ?_, fun i hi => ?_, fun x => ?_⟩
  · cases List.mem_cons.mp hmem with
    | inl heq => exact heq ▸ hrg
    | inr hmem => exact h.free_in rg hmem
  · rw [Function.update_apply] at hi
    split_ifs at hi
    exact h.live_in i hi
  · simp only [Pcb.withFree]
    rw [heapCover_free _ _ hr hlive]
    exact h.once x

end Once

end OsSim.Mem
