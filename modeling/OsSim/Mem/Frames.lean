import OsSim.Base.Ownership
import OsSim.Mem.Calls

/-!
# Who owns which frame

A page owns the frame its entry denotes: a RAM frame if `PRESENT` is set and
`SWAPPED` is clear, a swap frame if both are set. `FramesInv` says that no frame
has two owners, that free frames have none, and that `free_fp_list` is what is
left of the list `MEMPHY_format` built. A growth and a page fault are moves of
the ownership rules.
-/

namespace OsSim.Mem
open OsSim.Base

/-- The frame an entry denotes. -/
def pteSlot (pte : BitVec 32) : Option (Device × ℕ) :=
  if pagingPagePresent pte then
    some (if pagingPageSwapped pte then (.activeMswp, pagingPteSwp pte) else (.mram, pagingFpn pte))
  else none

theorem pteSlot_zero : pteSlot 0 = none := by decide

theorem pteSlot_pteSetFpn (pte : BitVec 32) {fpn : ℕ} (h : fpn < 8192) :
    pteSlot (pteSetFpn pte fpn) = some (.mram, fpn) := by
  rw [pteSlot, pagingPagePresent_pteSetFpn, pagingPageSwapped_pteSetFpn, pagingFpn_pteSetFpn,
    Nat.mod_eq_of_lt h]
  rfl

theorem pteSlot_pteSetSwap (pte : BitVec 32) (swptyp : ℕ) {swpoff : ℕ} (h : swpoff < 2097152) :
    pteSlot (pteSetSwap pte swptyp swpoff) = some (.activeMswp, swpoff) := by
  rw [pteSlot, pagingPagePresent_pteSetSwap, pagingPageSwapped_pteSetSwap,
    pagingPteSwp_pteSetSwap, Nat.mod_eq_of_lt h]
  rfl

theorem pteSlot_eq_none {pte : BitVec 32} : pteSlot pte = none ↔ pagingPagePresent pte = false := by
  rw [pteSlot]
  cases pagingPagePresent pte <;> simp

/-- `PRESENT` and not `SWAPPED`. -/
def ResidentPte (pte : BitVec 32) : Prop :=
  pagingPagePresent pte = true ∧ pagingPageSwapped pte = false

instance (pte : BitVec 32) : Decidable (ResidentPte pte) := inferInstanceAs (Decidable (_ ∧ _))

theorem ResidentPte.pteSlot_eq {pte : BitVec 32} (h : ResidentPte pte) :
    pteSlot pte = some (.mram, pagingFpn pte) := by
  simp [pteSlot, h.1, h.2]

variable {ι : Type}

/-- Nothing is swapped out, as long as no page fault happens. -/
def NoSwapped (s : MemSys ι) : Prop :=
  ∀ p n, pagingPagePresent ((s.mm p).pgd n) = true → pagingPageSwapped ((s.mm p).pgd n) = false

/-- The frame of page `x.2` of process `x.1`. -/
def MemSys.own (s : MemSys ι) (x : ι × ℕ) : Option (Device × ℕ) := pteSlot ((s.mm x.1).pgd x.2)

def isFree (dev : Devices) (slot : Device × ℕ) : Prop := slot.2 ∈ (dev slot.1).freeFpList

/-- The owners when the page directory of `p` is `pgd`. -/
def withPgd [DecidableEq ι] (own : ι × ℕ → Option (Device × ℕ)) (p : ι) (pgd : ℕ → BitVec 32)
    (x : ι × ℕ) : Option (Device × ℕ) := if x.1 = p then pteSlot (pgd x.2) else own x

theorem withPgd_self [DecidableEq ι] (s : MemSys ι) (p : ι) : withPgd s.own p (s.mm p).pgd = s.own := by
  funext x
  rw [withPgd]
  split_ifs with hx
  · rw [← hx]
    rfl
  · rfl

theorem own_put [DecidableEq ι] (s : MemSys ι) (p : ι) (proc : Pcb) :
    (s.put p proc).own = withPgd s.own p proc.mm.pgd := by
  funext x
  rw [withPgd, MemSys.own]
  split_ifs with hx
  · rw [hx, s.put_mm_self]
  · rw [s.put_mm_other proc hx]
    rfl

theorem withPgd_update [DecidableEq ι] (own : ι × ℕ → Option (Device × ℕ)) (p : ι)
    (pgd : ℕ → BitVec 32) (n : ℕ) (pte : BitVec 32) :
    withPgd own p (Function.update pgd n pte) =
      Function.update (withPgd own p pgd) (p, n) (pteSlot pte) := by
  funext ⟨q, m⟩
  simp only [withPgd, Function.update_apply, Prod.mk.injEq]
  by_cases hq : q = p
  · by_cases hm : m = n <;> simp [hq, hm]
  · simp [hq]

/-- Mapping free frames that fit the entry gives each of them to its page. -/
theorem owns_mapFrames [DecidableEq ι] {own : ι × ℕ → Option (Device × ℕ)} {p : ι}
    (frames : List ℕ) (pgn : ℕ) {pgd : ℕ → BitVec 32} {free free' : Device × ℕ → Prop}
    (h : Owns (withPgd own p pgd) free) (hmem : ∀ f ∈ frames, free (.mram, f))
    (hnodup : frames.Nodup) (hfit : ∀ f ∈ frames, f < 8192)
    (hfree : ∀ slot, free' slot → free slot ∧ ∀ f ∈ frames, slot ≠ (.mram, f)) :
    Owns (withPgd own p (mapFrames pgn frames pgd)) free' := by
  induction frames generalizing pgn pgd free with
  | nil => exact h.shrink fun slot hs => (hfree slot hs).1
  | cons f frames ih =>
    have hf := List.nodup_cons.mp hnodup
    rw [mapFrames]
    have hfirst : Owns (withPgd own p (Function.update pgd pgn (pteSetFpn (pgd pgn) f)))
        (fun slot => free slot ∧ slot ≠ (.mram, f)) := by
      rw [withPgd_update, pteSlot_pteSetFpn _ (hfit f (List.mem_cons_self ..))]
      exact h.assign _ (hmem f (List.mem_cons_self ..)) fun _ ht => ht
    refine ih (pgn + 1) hfirst (fun g hg => ?_) hf.2
      (fun g hg => hfit g (List.mem_cons_of_mem _ hg)) fun slot hs => ?_
    · refine ⟨hmem g (List.mem_cons_of_mem _ hg), fun heq => hf.1 ?_⟩
      rw [← (Prod.mk.inj heq).2]
      exact hg
    · obtain ⟨hold, hne⟩ := hfree slot hs
      exact ⟨⟨hold, hne f (List.mem_cons_self ..)⟩,
        fun g hg => hne g (List.mem_cons_of_mem _ hg)⟩

/-! ### The free lists -/

def frameCount (mp : MemphyStruct) : ℕ := (mp.maxsz / 256).toNat

/-- `l` is what is left of `0, 1, .., count - 1` after taking from the front. -/
structure FramesFrom (count : ℕ) (l : List ℕ) : Prop where
  length_le : l.length ≤ count
  eq_range : l = List.range' (count - l.length) l.length

theorem framesFrom_range (count : ℕ) : FramesFrom count (List.range count) where
  length_le := (List.length_range ..).le
  eq_range := by rw [List.length_range, Nat.sub_self, List.range_eq_range']

theorem framesFrom_nil (count : ℕ) : FramesFrom count [] := ⟨Nat.zero_le _, rfl⟩

theorem FramesFrom.mem_iff {count : ℕ} {l : List ℕ} (h : FramesFrom count l) {f : ℕ} :
    f ∈ l ↔ count - l.length ≤ f ∧ f < count := by
  have hle := h.length_le
  rw [h.eq_range, List.mem_range'_1, List.length_range']
  omega

theorem FramesFrom.nodup {count : ℕ} {l : List ℕ} (h : FramesFrom count l) : l.Nodup := by
  rw [h.eq_range]
  exact List.nodup_range'

theorem FramesFrom.drop {count : ℕ} {l : List ℕ} (h : FramesFrom count l) {n : ℕ}
    (hn : n ≤ l.length) : FramesFrom count (l.drop n) := by
  have hle := h.length_le
  refine ⟨by rw [List.length_drop]; omega, ?_⟩
  rw [List.length_drop]
  conv_lhs => rw [h.eq_range]
  rw [List.drop_range']
  congr 1
  omega

theorem FramesFrom.mem_take {count : ℕ} {l : List ℕ} (h : FramesFrom count l) {n f : ℕ}
    (hn : n ≤ l.length) : f ∈ l.take n ↔ count - l.length ≤ f ∧ f < count - l.length + n := by
  conv_lhs => rw [h.eq_range]
  rw [List.take_range'_of_length_ge hn, List.mem_range'_1]

structure FramesInv (s : MemSys ι) : Prop where
  owns : Owns s.own (isFree s.dev)
  free : ∀ d, FramesFrom (frameCount (s.dev d)) (s.dev d).freeFpList
  inside : ∀ {x slot}, s.own x = some slot → slot.2 < frameCount (s.dev slot.1)

theorem frameCount_ramDevice (size : ℕ) : frameCount (ramDevice size) = size / 256 := by
  simp only [frameCount, ramDevice]
  omega

theorem framesInv_init {s : MemSys ι} (hpgd : ∀ p n, (s.mm p).pgd n = 0)
    (hfree : ∀ d, (s.dev d).freeFpList = List.range (frameCount (s.dev d))) : FramesInv s := by
  have hown : s.own = fun _ => none := by
    funext x
    rw [MemSys.own, hpgd, pteSlot_zero]
  refine ⟨by rw [hown]; exact owns_none _, fun d => ?_, fun h => by simp [hown] at h⟩
  rw [hfree]
  exact framesFrom_range _

theorem framesInv_start (ramSize swapSize : ℕ) :
    FramesInv (MemSys.start ramSize swapSize : MemSys ι) := by
  refine framesInv_init (fun _ _ => rfl) fun d => ?_
  cases d <;> simp only [MemSys.start, frameCount_ramDevice] <;> rfl

theorem frameCount_shape {a b : MemphyStruct} (h : SameShape a b) : frameCount b = frameCount a := by
  rw [frameCount, h.maxsz, frameCount]

theorem frameCount_taken {dev dev' : Devices} {frames : List ℕ}
    (hram : SameShape (dev .mram) (dev' .mram))
    (hmswp : SameShape { dev .activeMswp with freeFpList := frames } (dev' .activeMswp))
    (d : Device) : frameCount (dev' d) = frameCount (dev d) := by
  cases d with
  | mram => exact frameCount_shape hram
  | activeMswp => exact (frameCount_shape hmswp).trans rfl

theorem FramesInv.congr {s t : MemSys ι} (h : FramesInv s) (hown : t.own = s.own)
    (hdev : ∀ d, SameShape (s.dev d) (t.dev d)) : FramesInv t where
  owns := by
    rw [hown]
    exact h.owns.shrink fun slot hs => by
      rw [isFree, (hdev _).freeFpList] at hs
      exact hs
  free d := by
    rw [frameCount_shape (hdev d), (hdev d).freeFpList]
    exact h.free d
  inside hx := by
    rw [hown] at hx
    rw [frameCount_shape (hdev _)]
    exact h.inside hx

/-! ### Processes -/

/-- The heap of `p` is its first `pages` pages, each with a frame; it has taken
at most the frames that left the free list, and its frame numbers fit. -/
structure ProcInv (s : MemSys ι) (p : ι) (pages : ℕ) (fr : List VmRg) : Prop where
  heap : HeapIs (s.mm p) (256 * pages) fr
  le_taken : pages + (s.dev .mram).freeFpList.length ≤ frameCount (s.dev .mram)
  le_max : pages ≤ 8192
  mapped : ∀ n < pages, s.own (p, n) ≠ none

theorem procInv_init {s : MemSys ι} {p : ι} (hheap : HeapIs (s.mm p) 0 [⟨0, 0⟩])
    (hfree : (s.dev .mram).freeFpList = List.range (frameCount (s.dev .mram))) :
    ProcInv s p 0 [⟨0, 0⟩] where
  heap := hheap
  le_taken := by rw [hfree, List.length_range, Nat.zero_add]
  le_max := Nat.zero_le _
  mapped n hn := absurd hn (Nat.not_lt_zero _)

theorem procInv_start (ramSize swapSize : ℕ) (p : ι) :
    ProcInv (.start ramSize swapSize) p 0 [⟨0, 0⟩] :=
  procInv_init heapIs_fresh (by simp only [MemSys.start, frameCount_ramDevice]; rfl)

theorem ProcInv.put_other [DecidableEq ι] {s : MemSys ι} {p q : ι} {pages : ℕ} {fr : List VmRg}
    (h : ProcInv s q pages fr) (hqp : q ≠ p) {proc : Pcb}
    (hlen : (proc.dev .mram).freeFpList.length ≤ (s.dev .mram).freeFpList.length)
    (hcount : frameCount (proc.dev .mram) = frameCount (s.dev .mram)) :
    ProcInv (s.put p proc) q pages fr where
  heap := by rw [s.put_mm_other proc hqp]; exact h.heap
  le_taken := by
    have := h.le_taken
    change pages + (proc.dev .mram).freeFpList.length ≤ frameCount (proc.dev .mram)
    omega
  le_max := h.le_max
  mapped n hn := by
    rw [own_put, withPgd, if_neg hqp]
    exact h.mapped n hn

/-- The frames of a growth are numbered so that an entry can hold them. -/
def GrowthFits (dev : Devices) (incSz : ℤ) : Prop :=
  0 ≤ pagingPageAlignsz incSz ∧ (growthPages incSz ≤ (dev .mram).freeFpList.length →
    ∀ f ∈ (dev .mram).freeFpList.take (growthPages incSz), f < 8192)

instance (dev : Devices) (incSz : ℤ) : Decidable (GrowthFits dev incSz) :=
  inferInstanceAs (Decidable (_ ∧ _))

section Grow
variable {s : MemSys ι} {p : ι} {pages : ℕ} {fr : List VmRg} {incSz : ℤ}

theorem ProcInv.grown_le (hs : FramesInv s) (hp : ProcInv s p pages fr)
    (hfits : GrowthFits s.dev incSz) (hn : growthPages incSz ≤ (s.dev .mram).freeFpList.length) :
    pages + growthPages incSz ≤ 8192 := by
  have hle := hp.le_taken
  have hmax := hp.le_max
  by_cases h0 : growthPages incSz = 0
  · omega
  · have hlast := hfits.2 hn (frameCount (s.dev .mram) - (s.dev .mram).freeFpList.length +
      growthPages incSz - 1) (((hs.free .mram).mem_take hn).mpr ⟨by omega, by omega⟩)
    omega

theorem growTo_pgd (hp : ProcInv s p pages fr) :
    ((s.pcb p).growTo (256 * pages) fr incSz).mm.pgd =
      mapFrames pages ((s.dev .mram).freeFpList.take (growthPages incSz)).reverse (s.mm p).pgd := by
  have hmax := hp.le_max
  simp only [Pcb.growTo, pagingPgn_brk (show pages < 16384 by omega)]
  rfl

theorem growTo_dev (s : MemSys ι) (p : ι) (brk : ℕ) (fr : List VmRg) (incSz : ℤ) :
    ((s.pcb p).growTo brk fr incSz).dev = Function.update s.dev .mram
      { s.dev .mram with freeFpList := (s.dev .mram).freeFpList.drop (growthPages incSz) } := rfl

theorem frameCount_growTo (s : MemSys ι) (p : ι) (brk : ℕ) (fr : List VmRg) (incSz : ℤ)
    (d : Device) : frameCount (((s.pcb p).growTo brk fr incSz).dev d) = frameCount (s.dev d) := by
  cases d <;> rfl

/-- A growth whose frames fit is defined: it runs short or it succeeds. -/
theorem grow_cases (hs : FramesInv s) (hp : ProcInv s p pages fr) (hfits : GrowthFits s.dev incSz) :
    ((s.dev .mram).freeFpList.length < growthPages incSz ∧
      (s.pcb p).grow (256 * pages) fr incSz = some (-1, (s.pcb p).growShort (256 * pages) fr)) ∨
    (growthPages incSz ≤ (s.dev .mram).freeFpList.length ∧
      (s.pcb p).grow (256 * pages) fr incSz =
        some (0, (s.pcb p).growTo (256 * pages) fr incSz)) := by
  by_cases hshort : (s.dev .mram).freeFpList.length < growthPages incSz
  · exact Or.inl ⟨hshort, if_pos hshort⟩
  · have hroom := hp.grown_le hs hfits (not_lt.mp hshort)
    exact Or.inr ⟨not_lt.mp hshort,
      (s.pcb p).grow_eq fr (not_lt.mp hshort) (inPgd_of_le (by omega))⟩

variable [DecidableEq ι]

/-- A growth from any break, when the numbers of its frames fit the entries. -/
theorem framesInv_growTo (hs : FramesInv s) (brk : ℕ) (fr : List VmRg)
    (hfit : ∀ f ∈ (s.dev .mram).freeFpList.take (growthPages incSz), f < 8192)
    (hn : growthPages incSz ≤ (s.dev .mram).freeFpList.length) :
    FramesInv (s.put p ((s.pcb p).growTo brk fr incSz)) := by
  have hfree := hs.free .mram
  have hpgd : ((s.pcb p).growTo brk fr incSz).mm.pgd = mapFrames (pagingPgn (toInt brk))
      ((s.dev .mram).freeFpList.take (growthPages incSz)).reverse (s.mm p).pgd := rfl
  refine ⟨?_, fun d => ?_, fun {x slot} hx => ?_⟩
  · rw [own_put, hpgd]
    have howns : Owns (withPgd s.own p (s.mm p).pgd) (isFree s.dev) := by
      rw [withPgd_self]
      exact hs.owns
    refine owns_mapFrames _ _ howns
      (fun f hf => List.mem_of_mem_take (List.mem_reverse.mp hf))
      (List.nodup_reverse.mpr (hfree.nodup.sublist (List.take_sublist ..)))
      (fun f hf => hfit f (List.mem_reverse.mp hf)) fun ⟨d, f⟩ hs' => ?_
    cases d with
    | mram =>
      have hdrop : f ∈ (s.dev .mram).freeFpList.drop (growthPages incSz) := hs'
      refine ⟨List.mem_of_mem_drop hdrop, fun g hg heq => ?_⟩
      have hnd := hfree.nodup
      rw [← List.take_append_drop (growthPages incSz) (s.dev .mram).freeFpList] at hnd
      exact (List.nodup_append.mp hnd).2.2 g (List.mem_reverse.mp hg) f hdrop
        (Prod.mk.inj heq).2.symm
    | activeMswp => exact ⟨hs', fun g _ heq => by simp at heq⟩
  · cases d with
    | mram => exact hfree.drop hn
    | activeMswp => exact hs.free .activeMswp
  · change slot.2 < frameCount (((s.pcb p).growTo brk fr incSz).dev slot.1)
    rw [frameCount_growTo]
    rw [own_put, hpgd, withPgd] at hx
    split_ifs at hx with hxp
    · rcases mapFrames_cases (pagingPgn (toInt brk))
        ((s.dev .mram).freeFpList.take (growthPages incSz)).reverse (s.mm p).pgd x.2 with
        hold | ⟨f, hf, pte, hnew⟩
      · rw [hold, ← hxp] at hx
        exact hs.inside hx
      · have hmem := List.mem_reverse.mp hf
        rw [hnew, pteSlot_pteSetFpn _ (hfit f hmem)] at hx
        rw [← Option.some.inj hx]
        exact (hfree.mem_iff.mp (List.mem_of_mem_take hmem)).2
    · exact hs.inside hx

theorem procInv_growTo (hs : FramesInv s) (hp : ProcInv s p pages fr)
    (hfits : GrowthFits s.dev incSz) (hn : growthPages incSz ≤ (s.dev .mram).freeFpList.length) :
    ProcInv (s.put p ((s.pcb p).growTo (256 * pages) fr incSz)) p
      (pages + growthPages incSz) fr where
  heap := by
    have hroom := hp.grown_le hs hfits hn
    rw [s.put_mm_self]
    exact (s.pcb p).growTo_heap fr hfits.1 (by omega)
  le_taken := by
    have hle := hp.le_taken
    change _ + (((s.pcb p).growTo (256 * pages) fr incSz).dev .mram).freeFpList.length ≤
      frameCount (((s.pcb p).growTo (256 * pages) fr incSz).dev .mram)
    rw [frameCount_growTo, growTo_dev, Function.update_self, List.length_drop]
    omega
  le_max := hp.grown_le hs hfits hn
  mapped n hlt := by
    rw [own_put, withPgd, if_pos rfl, growTo_pgd hp]
    by_cases hold : n < pages
    · rw [mapFrames_below _ _ hold]
      exact hp.mapped n hold
    · obtain ⟨f, hf, pte, hnew⟩ := mapFrames_mapped
        ((s.dev .mram).freeFpList.take (growthPages incSz)).reverse (s.mm p).pgd (not_lt.mp hold)
        (by rw [List.length_reverse, List.length_take, Nat.min_eq_left hn]; exact hlt)
      rw [hnew, pteSlot_pteSetFpn _ (hfits.2 hn f (List.mem_reverse.mp hf))]
      simp

theorem noSwapped_put (h : NoSwapped s) {proc : Pcb} (hproc : ∀ n,
    pagingPagePresent (proc.mm.pgd n) = true → pagingPageSwapped (proc.mm.pgd n) = false) :
    NoSwapped (s.put p proc) :=
  MemSys.forall_put (I := fun mm => ∀ n, pagingPagePresent (mm.pgd n) = true →
    pagingPageSwapped (mm.pgd n) = false) hproc h

theorem noSwapped_growTo (h : NoSwapped s) (hp : ProcInv s p pages fr) :
    NoSwapped (s.put p ((s.pcb p).growTo (256 * pages) fr incSz)) := by
  apply noSwapped_put h
  intro n
  rw [growTo_pgd hp]
  rcases mapFrames_cases pages ((s.dev .mram).freeFpList.take (growthPages incSz)).reverse
    (s.mm p).pgd n with hold | ⟨f, -, pte, hnew⟩
  · rw [hold]
    exact h p n
  · rw [hnew]
    exact fun _ => pagingPageSwapped_pteSetFpn pte f

/-- A growth that ran short loses the free frames and nothing else. -/
theorem growShort_inv (hs : FramesInv s) (hp : ProcInv s p pages fr) :
    FramesInv (s.put p ((s.pcb p).growShort (256 * pages) fr)) ∧
      ProcInv (s.put p ((s.pcb p).growShort (256 * pages) fr)) p pages fr := by
  have hmax := hp.le_max
  have hbrk : toULong (toInt ((256 * pages : ℕ) : ℤ)) = 256 * pages :=
    toULong_toInt_natCast (by omega)
  have hown : (s.put p ((s.pcb p).growShort (256 * pages) fr)).own = s.own := by
    rw [own_put]
    exact withPgd_self s p
  refine ⟨⟨?_, fun d => ?_, fun {x slot} hx => ?_⟩, ⟨?_, ?_, hmax, ?_⟩⟩
  · rw [hown]
    refine hs.owns.shrink fun ⟨d, f⟩ hf => ?_
    cases d with
    | mram => exact absurd hf (List.not_mem_nil)
    | activeMswp => exact hf
  · cases d with
    | mram => exact framesFrom_nil _
    | activeMswp => exact hs.free .activeMswp
  · rw [hown] at hx
    have h := hs.inside hx
    obtain ⟨d, f⟩ := slot
    cases d <;> exact h
  · rw [s.put_mm_self]
    simp only [Pcb.growShort, HeapIs, hbrk]
  · have hle := hp.le_taken
    exact (Nat.add_le_add_left (Nat.zero_le _) _).trans hle
  · intro n hn
    rw [hown]
    exact hp.mapped n hn

end Grow

/-! ### Calls that move no frame -/

section Keep
variable {s : MemSys ι} {p : ι} {pages : ℕ} {fr : List VmRg} [DecidableEq ι]

theorem access_inv (hs : FramesInv s) (hp : ProcInv s p pages fr) {proc : Pcb}
    (hmm : proc.mm = s.mm p) (hdev : ∀ d, SameShape (s.dev d) (proc.dev d)) :
    FramesInv (s.put p proc) ∧ ProcInv (s.put p proc) p pages fr := by
  have hown : (s.put p proc).own = s.own := by
    rw [own_put, hmm, withPgd_self]
  refine ⟨hs.congr hown hdev, ?_, ?_, hp.le_max, fun n hn => ?_⟩
  · rw [s.put_mm_self, hmm]
    exact hp.heap
  · change pages + (proc.dev .mram).freeFpList.length ≤ frameCount (proc.dev .mram)
    rw [frameCount_shape (hdev .mram), (hdev .mram).freeFpList]
    exact hp.le_taken
  · rw [hown]
    exact hp.mapped n hn

theorem relabel_inv {proc : Pcb} (proc' : Pcb) {fr' : List VmRg} (hs : FramesInv (s.put p proc))
    (hp : ProcInv (s.put p proc) p pages fr) (hpgd : proc'.mm.pgd = proc.mm.pgd)
    (hdev : proc'.dev = proc.dev) (hheap : HeapIs proc'.mm (256 * pages) fr') :
    FramesInv (s.put p proc') ∧ ProcInv (s.put p proc') p pages fr' := by
  have hown : (s.put p proc').own = (s.put p proc).own := by rw [own_put, own_put, hpgd]
  have hdev' : (s.put p proc').dev = (s.put p proc).dev := hdev
  refine ⟨hs.congr hown fun d => hdev' ▸ .refl _, ?_, ?_, hp.le_max, fun n hn => ?_⟩
  · rw [s.put_mm_self]
    exact hheap
  · rw [hdev']
    exact hp.le_taken
  · rw [hown]
    exact hp.mapped n hn

end Keep

/-! ### Page faults -/

section Fault
variable {s : MemSys ι} {p : ι} {pages pgn vic swpfpn : ℕ} {fr : List VmRg} {older frames : List ℕ}
  [DecidableEq ι]

/-- The victim goes to the swap frame, the target takes its RAM frame. -/
theorem own_swapIn (proc : Pcb) (hmm : proc.mm = (s.mm p).swapIn pgn vic swpfpn older)
    (hswp : swpfpn < 2097152) (hne : pgn ≠ vic) :
    (s.put p proc).own = Function.update
      (Function.update s.own (p, vic) (some (.activeMswp, swpfpn))) (p, pgn)
      (some (.mram, pagingFpn ((s.mm p).pgd vic))) := by
  rw [own_put, hmm]
  simp only [Mm.swapIn, Mm.setPte, withPgd_update, Function.update_of_ne hne, withPgd_self,
    pteSlot_pteSetSwap _ _ hswp, pteSlot_pteSetFpn _ (pagingFpn_lt _)]

variable {proc : Pcb} (hs : FramesInv s)
  (habsent : pagingPagePresent ((s.mm p).pgd pgn) = false)
  (hvic : ResidentPte ((s.mm p).pgd vic)) (hswp : swpfpn < 2097152)
  (hfree : (s.dev .activeMswp).freeFpList = swpfpn :: frames)
  (hmm : proc.mm = (s.mm p).swapIn pgn vic swpfpn older)
  (hram : SameShape (s.dev .mram) (proc.dev .mram))
  (hmswp : SameShape { s.dev .activeMswp with freeFpList := frames } (proc.dev .activeMswp))
include hs habsent hvic hswp hfree hmm hram hmswp

theorem framesInv_fault : FramesInv (s.put p proc) := by
  have hown := own_swapIn proc hmm hswp (by rintro rfl; simp [hvic.1] at habsent)
  have hvicOwn : s.own (p, vic) = some (.mram, pagingFpn ((s.mm p).pgd vic)) := hvic.pteSlot_eq
  have hpgnOwn : s.own (p, pgn) = none := pteSlot_eq_none.mpr habsent
  have hcount := frameCount_taken hram hmswp
  have hfrom := hs.free .activeMswp
  rw [hfree] at hfrom
  refine ⟨?_, fun d => ?_, fun {x slot} hx => ?_⟩
  · rw [hown]
    refine hs.owns.handOver hvicOwn hpgnOwn (show swpfpn ∈ _ by rw [hfree]; simp) ?_
    rintro ⟨d, f⟩ hf
    cases d with
    | mram =>
      have hf' : f ∈ (proc.dev .mram).freeFpList := hf
      rw [hram.freeFpList] at hf'
      exact ⟨hf', by simp⟩
    | activeMswp =>
      have hf' : f ∈ (proc.dev .activeMswp).freeFpList := hf
      rw [hmswp.freeFpList] at hf'
      refine ⟨show f ∈ _ by rw [hfree]; exact List.mem_cons_of_mem _ hf', fun heq => ?_⟩
      obtain ⟨-, rfl⟩ := Prod.mk.inj heq
      exact (List.nodup_cons.mp hfrom.nodup).1 hf'
  · change FramesFrom (frameCount (proc.dev d)) (proc.dev d).freeFpList
    rw [hcount]
    cases d with
    | mram =>
      rw [hram.freeFpList]
      exact hs.free .mram
    | activeMswp =>
      rw [hmswp.freeFpList]
      exact @FramesFrom.drop _ _ hfrom 1 (by simp)
  · change slot.2 < frameCount (proc.dev slot.1)
    rw [hcount]
    rw [hown, Function.update_apply, Function.update_apply] at hx
    split_ifs at hx
    · obtain rfl := Option.some.inj hx
      exact hs.inside hvicOwn
    · obtain rfl := Option.some.inj hx
      exact (hfrom.mem_iff.mp (List.mem_cons_self ..)).2
    · exact hs.inside hx

theorem fault_inv (hp : ProcInv s p pages fr) :
    FramesInv (s.put p proc) ∧ ProcInv (s.put p proc) p pages fr := by
  have hown := own_swapIn proc hmm hswp (by rintro rfl; simp [hvic.1] at habsent)
  refine ⟨framesInv_fault hs habsent hvic hswp hfree hmm hram hmswp, ?_, ?_, hp.le_max,
    fun n hn => ?_⟩
  · rw [s.put_mm_self, hmm]
    exact hp.heap
  · change pages + (proc.dev .mram).freeFpList.length ≤ frameCount (proc.dev .mram)
    rw [frameCount_taken hram hmswp, hram.freeFpList]
    exact hp.le_taken
  · rw [hown, Function.update_apply, Function.update_apply]
    split_ifs
    · simp
    · simp
    · exact hp.mapped n hn

end Fault

end OsSim.Mem
