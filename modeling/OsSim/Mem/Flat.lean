import OsSim.Mem.Access
import OsSim.Mem.Backed

/-!
# Paged memory behaves as flat memory

Runs of `liballoc`, `libfree`, `libread` and `libwrite` beside a flat memory: for
every process the live regions and the byte last written to each of their
offsets. As long as every growth is served with frames and nothing is freed
twice, no page leaves its frame, different addresses have different cells, and
`libread` answers what the flat memory holds.
-/

namespace OsSim.Mem
open OsSim.Base

variable {ι : Type}

/-! ### The flat memory -/

/-- A live region: its size, and the byte last written to each offset since it was
allocated. -/
structure FlatRg where
  size : ℕ
  bytes : ℕ → Option Byte

def FlatRg.set (rg : FlatRg) (off : ℕ) (data : Byte) : FlatRg :=
  { rg with bytes := Function.update rg.bytes off (some data) }

/-- The memory and its flat counterpart. -/
structure FlatSys (ι : Type) where
  mem : MemSys ι
  flat : ι → ℕ → Option FlatRg

/-- The regions of the caller after a call that returned 0. -/
def flatAfter (flat : ℕ → Option FlatRg) : MemOp → ℕ → Option FlatRg
  | .alloc size regIndex =>
    Function.update flat regIndex.toNat (some ⟨size.toNat, fun _ => none⟩)
  | .free regIndex => Function.update flat regIndex.toNat none
  | .write data destination offset =>
    Function.update flat destination.toNat
      ((flat destination.toNat).map fun rg => rg.set offset.toNat data)
  | _ => flat

def flatStep [DecidableEq ι] (s : FlatSys ι) (label : ι × MemOp) : Option (FlatSys ι) :=
  (memCall (s.mem.pcb label.1) label.2).map fun (ret, proc) =>
    ⟨s.mem.put label.1 proc,
      if ret.rc = 0 then
        Function.update s.flat label.1 (flatAfter (s.flat label.1) label.2)
      else s.flat⟩

/-- The access stays inside a live region. -/
def InLive (s : FlatSys ι) (p : ι) (rgid offset : BitVec 32) : Prop :=
  ∃ rg, s.flat p rgid.toNat = some rg ∧ offset.toNat < rg.size

instance (s : FlatSys ι) (p : ι) (rgid offset : BitVec 32) : Decidable (InLive s p rgid offset) :=
  decidable_of_iff ((s.flat p rgid.toNat).any (fun rg => decide (offset.toNat < rg.size)) = true) (by
    simp [InLive, Option.any_eq_true])

/-- Accesses inside live regions; growths that are served; and no `libfree` of a
region that was freed already. -/
def FlatOk (s : FlatSys ι) (label : ι × MemOp) : Prop :=
  match label.2 with
  | .alloc size regIndex => regIndex.toNat < 30 ∧
      (getFreeVmrgArea (s.mem.mm label.1) 0 size.toInt = some none →
        Served s.mem.dev size.toInt)
  | .free regIndex => s.flat label.1 regIndex.toNat = none → regIndex.toNat < 30 →
      ((s.mem.mm label.1).symrgtbl regIndex.toNat).rgEnd ≤
        ((s.mem.mm label.1).symrgtbl regIndex.toNat).rgStart
  | .read source offset => InLive s label.1 source offset
  | .write _ destination offset => InLive s label.1 destination offset
  | .memmap _ => False

instance (s : FlatSys ι) : (label : ι × MemOp) → Decidable (FlatOk s label)
  | (_, .alloc ..) => inferInstanceAs (Decidable (_ ∧ (_ → _)))
  | (_, .free ..) => inferInstanceAs (Decidable (_ → _ → _))
  | (p, .read source offset) => inferInstanceAs (Decidable (InLive s p source offset))
  | (p, .write _ destination offset) => inferInstanceAs (Decidable (InLive s p destination offset))
  | (_, .memmap _) => inferInstanceAs (Decidable False)

/-- Before the first call, in zero-filled memory. -/
def FlatSys.start (ramSize swapSize : ℕ) : FlatSys ι := ⟨.start ramSize swapSize, fun _ _ => none⟩

/-- Every byte that was written is what `libread` answers. -/
def ReadsBack (s : FlatSys ι) : Prop :=
  ∀ p (source offset : BitVec 32) rg data, s.flat p source.toNat = some rg →
    offset.toNat < rg.size → rg.bytes offset.toNat = some data →
    ∃ proc, libread (s.mem.pcb p) source offset = some (0, some (data.signExtend 32), proc)

/-! ### The invariant -/

/-- The regions of a process and the cells of their bytes. -/
structure FlatProc (mm : Mm) (flat : ℕ → Option FlatRg) (storage : ℕ → Byte) (pages : ℕ)
    (fr : List VmRg) : Prop where
  live : ∀ {i rg}, flat i = some rg → i < 30 ∧
    (mm.symrgtbl i).rgEnd = (mm.symrgtbl i).rgStart + rg.size
  once : ∀ x, heapCover (fun i => (flat i).isSome) mm.symrgtbl fr x ≤
    cover VmRg.Has [⟨0, 256 * pages⟩] x
  bytes : ∀ {i rg off data}, flat i = some rg → off < rg.size → rg.bytes off = some data →
    storage (mm.phys ((mm.symrgtbl i).rgStart + off)) = data

structure FlatInv (s : FlatSys ι) : Prop where
  frames : FramesInv s.mem
  swapped : NoSwapped s.mem
  random : (s.mem.dev .mram).rdmflg = true
  proc : ∀ p, ∃ pages fr, HeapInv s.mem p pages fr ∧
    FlatProc (s.mem.mm p) (s.flat p) (s.mem.dev .mram).storage pages fr

theorem flatInv_start (ramSize swapSize : ℕ) :
    FlatInv (FlatSys.start ramSize swapSize : FlatSys ι) where
  frames := framesInv_start ramSize swapSize
  swapped p n hn := absurd (show pagingPagePresent 0 = true from hn) (by decide)
  random := rfl
  proc p := by
    refine ⟨0, [⟨0, 0⟩], heapInv_start ramSize swapSize p, fun hi => ?_, fun x => ?_, fun hi => ?_⟩
    · simp [FlatSys.start] at hi
    · simp [heapCover, liveRgs, FlatSys.start]
    · simp [FlatSys.start] at hi

section Cells
variable {s : FlatSys ι} {p : ι} {pages : ℕ} {fr : List VmRg}

theorem FlatProc.byte_lt {flat : ℕ → Option FlatRg} {storage : ℕ → Byte}
    (h : FlatProc (s.mem.mm p) flat storage pages fr) (hp : HeapInv s.mem p pages fr) {i off : ℕ}
    {rg : FlatRg} (hi : flat i = some rg) (hoff : off < rg.size) :
    ((s.mem.mm p).symrgtbl i).rgStart + off < 256 * pages := by
  obtain ⟨hi30, hend⟩ := h.live hi
  have hrg := (hp.sym_in i hi30).2
  omega

theorem FlatProc.region_unique {flat : ℕ → Option FlatRg} {storage : ℕ → Byte} {mm : Mm}
    (h : FlatProc mm flat storage pages fr) {i j off off' : ℕ} {rg rg' : FlatRg}
    (hi : flat i = some rg) (hj : flat j = some rg') (hoff : off < rg.size) (hoff' : off' < rg'.size)
    (heq : (mm.symrgtbl i).rgStart + off = (mm.symrgtbl j).rgStart + off') : i = j := by
  have hhas : ∀ {k o : ℕ} {r : FlatRg}, flat k = some r → o < r.size →
      0 < cover VmRg.Has (liveRgs (fun i => (flat i).isSome) mm.symrgtbl k)
        ((mm.symrgtbl k).rgStart + o) := by
    intro k o r hk ho
    have hend := (h.live hk).2
    refine (cover_pos _).mpr ⟨mm.symrgtbl k, by simp [liveRgs, hk], Nat.le_add_right .., by omega⟩
  have honce := h.once ((mm.symrgtbl i).rgStart + off)
  have hone : cover VmRg.Has [⟨0, 256 * pages⟩] ((mm.symrgtbl i).rgStart + off) ≤ 1 := by
    rw [cover_cons, cover_nil]
    split_ifs <;> omega
  refine eq_of_sum_le_one ((Nat.le_add_right _ _).trans (honce.trans hone)) (h.live hi).1
    (h.live hj).1 (hhas hi hoff) ?_
  rw [heq]
  exact hhas hj hoff'

theorem FlatInv.own_eq (h : FlatInv s) (hp : HeapInv s.mem p pages fr) {x : ℕ}
    (hx : x < 256 * pages) :
    s.mem.own (p, x / 256) = some (.mram, pagingFpn ((s.mem.mm p).pgd (x / 256))) := by
  have hpresent : pagingPagePresent ((s.mem.mm p).pgd (x / 256)) = true :=
    Bool.eq_true_of_not_eq_false fun hf =>
      hp.proc.mapped (x / 256) (by omega) (pteSlot_eq_none.mpr hf)
  exact ResidentPte.pteSlot_eq ⟨hpresent, h.swapped p _ hpresent⟩

theorem FlatInv.hitAt (h : FlatInv s) (hp : HeapInv s.mem p pages fr) {x : ℕ}
    (hx : x < 256 * pages) : (s.mem.pcb p).HitAt x := by
  have hown := h.own_eq hp hx
  have hin := h.frames.inside hown
  have hmax := hp.proc.le_max
  refine ⟨by omega, ?_, h.random, ?_⟩
  · by_contra hf
    rw [MemSys.own, pteSlot_eq_none.mpr (Bool.not_eq_true _ ▸ hf)] at hown
    simp at hown
  · simp only [frameCount] at hin
    change (((s.mem.mm p).phys x : ℕ) : ℤ) < (s.mem.dev .mram).maxsz
    rw [Mm.phys]
    omega

/-- Different addresses have different cells. -/
theorem FlatInv.phys_inj (h : FlatInv s) (hp : HeapInv s.mem p pages fr) {q : ι} {pages' : ℕ}
    {fr' : List VmRg} (hq : HeapInv s.mem q pages' fr') {x y : ℕ} (hx : x < 256 * pages)
    (hy : y < 256 * pages') (heq : (s.mem.mm p).phys x = (s.mem.mm q).phys y) : p = q ∧ x = y := by
  have hownx := h.own_eq hp hx
  have howny := h.own_eq hq hy
  rw [Mm.phys, Mm.phys] at heq
  have hframe : pagingFpn ((s.mem.mm p).pgd (x / 256)) = pagingFpn ((s.mem.mm q).pgd (y / 256)) := by
    omega
  rw [← hframe] at howny
  obtain ⟨rfl, hpage⟩ := Prod.mk.inj (h.frames.owns.alone hownx howny)
  exact ⟨rfl, by omega⟩

theorem live_hit (h : FlatInv s) (hp : HeapInv s.mem p pages fr)
    (hflat : FlatProc (s.mem.mm p) (s.flat p) (s.mem.dev .mram).storage pages fr)
    {rgid offset : BitVec 32} {rg : FlatRg} (hrg : s.flat p rgid.toNat = some rg)
    (hoff : offset.toNat < rg.size) :
    rgid.toNat < 30 ∧ rgid.toInt = rgid.toNat ∧ offset.toInt = offset.toNat ∧
      (s.mem.pcb p).HitAt (((s.mem.mm p).symrgtbl rgid.toNat).rgStart + offset.toNat) := by
  have hid := (hflat.live hrg).1
  have hlt := hflat.byte_lt hp hrg hoff
  have hbound := hp.bound
  exact ⟨hid, BitVec.toInt_eq_toNat_of_lt (by omega), BitVec.toInt_eq_toNat_of_lt (by omega),
    h.hitAt hp hlt⟩

theorem libread_live (h : FlatInv s) (hp : HeapInv s.mem p pages fr)
    (hflat : FlatProc (s.mem.mm p) (s.flat p) (s.mem.dev .mram).storage pages fr)
    {source offset : BitVec 32} {rg : FlatRg} (hrg : s.flat p source.toNat = some rg)
    (hoff : offset.toNat < rg.size) :
    libread (s.mem.pcb p) source offset = some (0, some (((s.mem.dev .mram).storage
      ((s.mem.mm p).phys (((s.mem.mm p).symrgtbl source.toNat).rgStart + offset.toNat))).signExtend
        32), s.mem.pcb p) := by
  obtain ⟨hid, hsrc, hofs, hhit⟩ := live_hit h hp hflat hrg hoff
  have hheap : HeapIs (s.mem.pcb p).mm (256 * pages) fr := hp.proc.heap
  rw [libread, hsrc, hofs, hhit.read_eq hheap hid rfl]
  rfl

theorem store_flat (h : FlatInv s) (hp : HeapInv s.mem p pages fr)
    (hflat : FlatProc (s.mem.mm p) (s.flat p) (s.mem.dev .mram).storage pages fr) (data : Byte)
    {r off : ℕ} {rg : FlatRg} (hrg : s.flat p r = some rg) (hoff : off < rg.size) :
    FlatProc (s.mem.mm p) (Function.update (s.flat p) r (some (rg.set off data)))
      (Function.update (s.mem.dev .mram).storage
        ((s.mem.mm p).phys (((s.mem.mm p).symrgtbl r).rgStart + off)) data) pages fr := by
  have hlt := hflat.byte_lt hp hrg hoff
  have hisSome : (fun i => (Function.update (s.flat p) r (some (rg.set off data)) i).isSome) =
      fun i => (s.flat p i).isSome := by
    funext i
    rw [Function.update_apply]
    split_ifs with hir
    · rw [hir, hrg]
      rfl
    · rfl
  refine ⟨fun {i rg'} hi => ?_, fun x => hisSome ▸ hflat.once x,
    fun {i rg' off' data'} hi ho hdata => ?_⟩
  · rw [Function.update_apply] at hi
    split_ifs at hi with hir
    · obtain rfl := Option.some.inj hi
      have hlive := hflat.live hrg
      exact hir ▸ hlive
    · exact hflat.live hi
  · rw [Function.update_apply] at hi
    split_ifs at hi with hir
    · subst hir
      obtain rfl := Option.some.inj hi
      have hdata' : Function.update rg.bytes off (some data) off' = some data' := hdata
      have ho' : off' < rg.size := ho
      by_cases hsame : off' = off
      · subst hsame
        rw [Function.update_self] at hdata' ⊢
        exact Option.some.inj hdata'
      · rw [Function.update_of_ne hsame] at hdata'
        rw [Function.update_of_ne fun heq => hsame ?_]
        · exact hflat.bytes hrg ho' hdata'
        · have haddr := (h.phys_inj hp hp (hflat.byte_lt hp hrg ho') hlt heq).2
          omega
    · rw [Function.update_of_ne fun heq => hir ?_]
      · exact hflat.bytes hi ho hdata
      · exact hflat.region_unique hi hrg ho hoff
          (h.phys_inj hp hp (hflat.byte_lt hp hi ho) hlt heq).2

theorem FlatInv.readsBack (h : FlatInv s) : ReadsBack s := by
  intro p source offset rg data hrg hoff hdata
  obtain ⟨pages, fr, hp, hflat⟩ := h.proc p
  exact ⟨_, by rw [libread_live h hp hflat hrg hoff, hflat.bytes hrg hoff hdata]⟩

end Cells

/-! ### What one call keeps -/

variable [DecidableEq ι]

theorem FlatInv.put {s : FlatSys ι} (h : FlatInv s) {p : ι} {proc : Pcb} {pages : ℕ}
    {fr : List VmRg} {flat : ℕ → Option FlatRg} (hkept : Kept s.mem p proc pages fr)
    (hswapped : NoSwapped (s.mem.put p proc)) (hrandom : (proc.dev .mram).rdmflg = true)
    (hflat : FlatProc proc.mm flat (proc.dev .mram).storage pages fr)
    (hothers : ∀ q ≠ p, ∀ pages' fr', HeapInv s.mem q pages' fr' → ∀ y < 256 * pages',
      (proc.dev .mram).storage ((s.mem.mm q).phys y) =
        (s.mem.dev .mram).storage ((s.mem.mm q).phys y)) :
    FlatInv ⟨s.mem.put p proc, Function.update s.flat p flat⟩ := by
  refine ⟨hkept.frames, hswapped, hrandom, fun q => ?_⟩
  change ∃ pages fr, HeapInv (s.mem.put p proc) q pages fr ∧ FlatProc ((s.mem.put p proc).mm q)
    (Function.update s.flat p flat q) (proc.dev .mram).storage pages fr
  by_cases hqp : q = p
  · subst hqp
    rw [MemSys.put_mm_self, Function.update_self]
    exact ⟨pages, fr, hkept.heap, hflat⟩
  · obtain ⟨pages', fr', hq, hflatq⟩ := h.proc q
    refine ⟨pages', fr', hq.put_other hqp hkept, ?_⟩
    rw [MemSys.put_mm_other _ _ hqp, Function.update_of_ne hqp]
    refine ⟨hflatq.live, hflatq.once, fun hi hoff hdata => ?_⟩
    rw [hothers q hqp pages' fr' hq _ (hflatq.byte_lt hq hi hoff)]
    exact hflatq.bytes hi hoff hdata

theorem noSwapped_relabel {s : MemSys ι} {p : ι} {proc proc' : Pcb} (h : NoSwapped (s.put p proc))
    (hpgd : proc'.mm.pgd = proc.mm.pgd) : NoSwapped (s.put p proc') := by
  intro q n
  have hq := h q n
  by_cases hqp : q = p
  · subst hqp
    rw [s.put_mm_self] at hq ⊢
    rwa [hpgd]
  · rw [s.put_mm_other _ hqp] at hq ⊢
    exact hq

section Call
variable {s : FlatSys ι} {p : ι} {pages : ℕ} {fr : List VmRg}

/-- A growth adds bytes to the free regions and moves no byte of a live one. -/
theorem ready_flat (h : FlatInv s) (hp : HeapInv s.mem p pages fr)
    (hflat : FlatProc (s.mem.mm p) (s.flat p) (s.mem.dev .mram).storage pages fr) {size : ℤ}
    {mid : Pcb} {pages' : ℕ} {fr' : List VmRg}
    (hready : Ready (s.mem.pcb p) pages fr size mid pages' fr') :
    NoSwapped (s.mem.put p mid) ∧ (mid.dev .mram).storage = (s.mem.dev .mram).storage ∧
      (mid.dev .mram).rdmflg = true ∧
      FlatProc mid.mm (s.flat p) (mid.dev .mram).storage pages' fr' := by
  have hkeeps : NoSwapped (s.mem.put p mid) ∧
      (mid.dev .mram).storage = (s.mem.dev .mram).storage ∧ (mid.dev .mram).rdmflg = true ∧
      ∀ n < pages, mid.mm.pgd n = (s.mem.mm p).pgd n := by
    cases hready with
    | fits =>
      rw [MemSys.put_pcb]
      exact ⟨h.swapped, rfl, h.random, fun _ _ => rfl⟩
    | grown =>
      refine ⟨noSwapped_growTo h.swapped hp.proc, rfl, h.random, fun n hn => ?_⟩
      rw [growTo_pgd hp.proc, mapFrames_below _ _ hn]
  obtain ⟨hswapped, hstorage, hrandom, hpgd⟩ := hkeeps
  have hsym : mid.mm.symrgtbl = (s.mem.mm p).symrgtbl := hready.symrgtbl
  refine ⟨hswapped, hstorage, hrandom, fun hi => hsym ▸ hflat.live hi, fun x => ?_,
    fun {i rg off data} hi hoff hdata => ?_⟩
  · have honce := hflat.once x
    have hcut := cover_cut (Nat.zero_le (256 * pages)) (Nat.mul_le_mul_left 256 hready.pages_le) x
    have hnew := hready.cover_eq x
    simp only [heapCover, hsym] at honce ⊢
    omega
  · have hlt := hflat.byte_lt hp hi hoff
    rw [hsym, hstorage, Mm.phys, hpgd _ (by omega)]
    exact hflat.bytes hi hoff hdata

/-- A region is carved out whose bytes were never written. -/
theorem FlatProc.place {mid : Pcb} {flat : ℕ → Option FlatRg}
    (h : FlatProc mid.mm flat (mid.dev .mram).storage pages fr) (hbound : 256 * pages < 2147483648)
    (hin : ∀ rg ∈ fr, RgIn (256 * pages) rg) {size regIndex : BitVec 32}
    (hid : regIndex.toNat < 30) {rgnode : VmRg} {rest : List VmRg}
    (hfit : takeFit size.toInt fr = some (rgnode, rest)) :
    FlatProc (mid.place (256 * pages) rest regIndex.toInt rgnode).mm
      (flatAfter flat (.alloc size regIndex)) (mid.dev .mram).storage pages rest := by
  obtain ⟨hlow, hhigh⟩ := bitVec_toInt_range size
  obtain ⟨hpos, hend, -, -⟩ := takeFit_in hbound hlow hhigh hin hfit
  have hreg : regIndex.toInt.toNat = regIndex.toNat := by
    rw [BitVec.toInt_eq_toNat_of_lt (by omega), Int.toNat_natCast]
  have hnat : size.toInt.toNat = size.toNat := by
    rw [BitVec.toInt_eq_toNat_cond] at hpos ⊢
    split_ifs at hpos ⊢ <;> omega
  refine ⟨fun {i rg} hi => ?_, fun x => ?_, fun {i rg off data} hi hoff hdata => ?_⟩
  · simp only [Pcb.place, hreg]
    rw [flatAfter, Function.update_apply] at hi
    split_ifs at hi with hir
    · obtain rfl := Option.some.inj hi
      rw [hir, Function.update_self]
      exact ⟨hid, hnat ▸ hend⟩
    · rw [Function.update_of_ne hir]
      exact h.live hi
  · have hisSome : (fun i => (flatAfter flat (.alloc size regIndex) i).isSome) =
        Function.update (fun i => (flat i).isSome) regIndex.toNat true := by
      funext i
      exact Function.apply_update (fun _ => Option.isSome) flat regIndex.toNat _ i
    have hplace := heapCover_place hbound hlow hhigh hin hfit (fun i => (flat i).isSome)
      mid.mm.symrgtbl hid x
    simp only [Pcb.place, hreg, hisSome]
    exact (Nat.le_add_right _ _).trans (hplace.le.trans (h.once x))
  · rw [flatAfter, Function.update_apply] at hi
    split_ifs at hi with hir
    · obtain rfl := Option.some.inj hi
      simp at hdata
    · have hbyte := h.bytes hi hoff hdata
      simp only [Pcb.place, hreg, Function.update_of_ne hir]
      exact hbyte

theorem alloc_flat (h : FlatInv s) (hp : HeapInv s.mem p pages fr)
    (hflat : FlatProc (s.mem.mm p) (s.flat p) (s.mem.dev .mram).storage pages fr)
    {size regIndex : BitVec 32} (hid : regIndex.toNat < 30)
    (hserved : takeFit size.toInt fr = none → Served s.mem.dev size.toInt) {rc : ℤ} {proc : Pcb}
    (hstep : AllocStep (s.mem.pcb p) pages fr regIndex.toInt size.toInt rc proc) :
    FlatInv ⟨s.mem.put p proc,
      if rc = 0 then Function.update s.flat p (flatAfter (s.flat p) (.alloc size regIndex))
      else s.flat⟩ := by
  obtain ⟨hlow, hhigh⟩ := bitVec_toInt_range size
  cases hstep with
  | placed hready _ _ hfit =>
    have hkept := placed_kept hserved hready h.frames hp hlow hhigh regIndex.toInt hfit
    obtain ⟨hswapped, hstorage, hrandom, hmid⟩ := ready_flat h hp hflat hready
    rw [if_pos rfl]
    exact h.put hkept (noSwapped_relabel hswapped rfl) hrandom
      (hmid.place hkept.heap.bound (hready.free_in hp.free_in) hid hfit)
      fun q _ _ _ _ y _ => congrFun hstorage _
  | refused hready _ =>
    have hkept := refused_kept hserved hready h.frames hp
    obtain ⟨hswapped, hstorage, hrandom, hmid⟩ := ready_flat h hp hflat hready
    have hput := h.put hkept (noSwapped_relabel hswapped rfl) hrandom
      ⟨hmid.live, hmid.once, hmid.bytes⟩ fun q _ _ _ _ y _ => congrFun hstorage _
    rw [Function.update_eq_self] at hput
    rwa [if_neg (by norm_num)]

theorem free_flat (h : FlatInv s) (hp : HeapInv s.mem p pages fr)
    (hflat : FlatProc (s.mem.mm p) (s.flat p) (s.mem.dev .mram).storage pages fr)
    {regIndex : BitVec 32} (hok : FlatOk s (p, .free regIndex)) :
    ∃ rc proc, libfree (s.mem.pcb p) regIndex = some (rc, proc) ∧
      FlatInv ⟨s.mem.put p proc,
        if rc = 0 then Function.update s.flat p (flatAfter (s.flat p) (.free regIndex))
        else s.flat⟩ := by
  rw [libfree_eq hp]
  by_cases hid : regIndex.toNat < 30 ∧ ((s.mem.mm p).symrgtbl regIndex.toNat).rgStart <
      ((s.mem.mm p).symrgtbl regIndex.toNat).rgEnd
  · rw [if_pos hid]
    refine ⟨_, _, rfl, ?_⟩
    rw [if_pos rfl]
    have hlive : (s.flat p regIndex.toNat).isSome = true := by
      rw [Option.isSome_iff_ne_none]
      exact fun hnone => absurd (hok hnone hid.1) (not_le.mpr hid.2)
    have hisSome : (fun i => (flatAfter (s.flat p) (.free regIndex) i).isSome) =
        Function.update (fun i => (s.flat p i).isSome) regIndex.toNat false := by
      funext i
      exact Function.apply_update (fun _ => Option.isSome) (s.flat p) regIndex.toNat _ i
    have hold : ∀ {i rg}, flatAfter (s.flat p) (.free regIndex) i = some rg →
        s.flat p i = some rg := by
      intro i rg hi
      rw [flatAfter, Function.update_apply] at hi
      split_ifs at hi
      exact hi
    have hswapped : NoSwapped (s.mem.put p (s.mem.pcb p)) := by
      rw [MemSys.put_pcb]
      exact h.swapped
    refine h.put (freed_kept h.frames hp hid.1) (noSwapped_relabel hswapped rfl) h.random
      ⟨fun hi => hflat.live (hold hi), fun x => ?_,
        fun hi hoff hdata => hflat.bytes (hold hi) hoff hdata⟩ fun q _ _ _ _ y _ => rfl
    rw [hisSome]
    exact (heapCover_free (fun i => (s.flat p i).isSome) _ hid.1 hlive fr x).le.trans (hflat.once x)
  · rw [if_neg hid]
    refine ⟨_, _, rfl, ?_⟩
    rw [MemSys.put_pcb, if_neg (by norm_num)]
    exact h

theorem write_flat (h : FlatInv s) (hp : HeapInv s.mem p pages fr)
    (hflat : FlatProc (s.mem.mm p) (s.flat p) (s.mem.dev .mram).storage pages fr) (data : Byte)
    {destination offset : BitVec 32} (hin : InLive s p destination offset) :
    ∃ proc, libwrite (s.mem.pcb p) data destination offset = some (0, proc) ∧
      FlatInv ⟨s.mem.put p proc, Function.update s.flat p
        (flatAfter (s.flat p) (.write data destination offset))⟩ := by
  obtain ⟨rg, hrg, hoff⟩ := hin
  obtain ⟨hid, hdst, hofs, hhit⟩ := live_hit h hp hflat hrg hoff
  have hheap : HeapIs (s.mem.pcb p).mm (256 * pages) fr := hp.proc.heap
  have hlt := hflat.byte_lt hp hrg hoff
  have hcells := store_flat h hp hflat data hrg hoff
  have hwrite : write (s.mem.pcb p) 0 destination.toNat offset.toNat data =
      some (0, (s.mem.pcb p).store ((s.mem.mm p).phys
        (((s.mem.mm p).symrgtbl destination.toNat).rgStart + offset.toNat)) data) :=
    hhit.write_eq hheap hid rfl data
  generalize hcell : (s.mem.mm p).phys (((s.mem.mm p).symrgtbl destination.toNat).rgStart +
    offset.toNat) = cell at hcells hwrite
  have hkept : Kept s.mem p ((s.mem.pcb p).store cell data) pages fr :=
    access_kept h.frames hp rfl ((s.mem.pcb p).store_shape cell data)
  have hswapped : NoSwapped (s.mem.put p (s.mem.pcb p)) := by
    rw [MemSys.put_pcb]
    exact h.swapped
  refine ⟨(s.mem.pcb p).store cell data, by rw [libwrite, hdst, hofs, hwrite], ?_⟩
  rw [flatAfter, hrg, Option.map_some]
  refine h.put hkept (noSwapped_relabel hswapped rfl) ?_ ?_ fun q hqp pages' fr' hq y hy => ?_
  · rw [Pcb.store_mram]
    exact h.random
  · rw [Pcb.store_mram]
    exact hcells
  · -- the cell belongs to `p`
    rw [Pcb.store_mram]
    refine Function.update_of_ne (fun heq => hqp ?_) _ _
    exact (h.phys_inj hq hp hy hlt (heq.trans hcell.symm)).1

end Call

/-! ### Runs -/

theorem flatStep_some {s : FlatSys ι} (h : FlatInv s) {label : ι × MemOp} (hok : FlatOk s label) :
    ∃ t, flatStep s label = some t ∧ FlatInv t := by
  obtain ⟨p, op⟩ := label
  obtain ⟨pages, fr, hp, hflat⟩ := h.proc p
  have hheap : HeapIs (s.mem.pcb p).mm (256 * pages) fr := hp.proc.heap
  cases op with
  | alloc size regIndex =>
    obtain ⟨hid, hserved⟩ := hok
    have hserved' : takeFit size.toInt fr = none → Served s.mem.dev size.toInt :=
      fun hfit => hserved ((getFreeVmrgArea_none hp.proc.heap).mpr hfit)
    have hgrowth := fun hfit => ((hserved' hfit).growthServed h.frames hp.proc).2
    have hreg : regIndex.toInt = regIndex.toNat := BitVec.toInt_eq_toNat_of_lt (by omega)
    obtain ⟨rc, addr, proc, hcall, -⟩ := alloc_returns hheap hgrowth
      (show 0 ≤ regIndex.toInt by omega) (by omega) (bitVec_toInt_range size).2
    have hinv := alloc_flat h hp hflat hid hserved' (alloc_step hheap hgrowth hcall)
    exact ⟨_, by simp only [flatStep, memCall, liballoc, hcall, Option.map_some], hinv⟩
  | free regIndex =>
    obtain ⟨rc, proc, hcall, hinv⟩ := free_flat h hp hflat hok
    exact ⟨_, by simp only [flatStep, memCall, hcall, Option.map_some], hinv⟩
  | read source offset =>
    obtain ⟨rg, hrg, hoff⟩ := id hok
    refine ⟨s, ?_, h⟩
    simp only [flatStep, memCall, libread_live h hp hflat hrg hoff, Option.map_some, if_true,
      MemSys.put_pcb, flatAfter, Function.update_eq_self]
  | write data destination offset =>
    obtain ⟨proc, hcall, hinv⟩ := write_flat h hp hflat data hok
    refine ⟨_, ?_, hinv⟩
    simp only [flatStep, memCall, hcall, Option.map_some, if_true]
  | memmap regs => exact hok.elim

def flatSystem (ramSize swapSize : ℕ) : System (FlatSys ι) (ι × MemOp) :=
  .ofStep (.start ramSize swapSize) flatStep

/-- In every run whose calls meet the conditions, `libread` answers the byte last
written, and the next call that meets them is defined. -/
theorem memory_reads_back {ramSize swapSize : ℕ} {s : FlatSys ι}
    (h : Reachable (flatSystem ramSize swapSize) FlatOk s) :
    ReadsBack s ∧ ∀ label, FlatOk s label → flatStep s label ≠ none := by
  have hinv : FlatInv s := by
    refine Reachable.invariant FlatInv ?_ ?_ h
    · rintro s0 rfl
      exact flatInv_start ramSize swapSize
    · intro s1 label t hs hok hnext
      obtain ⟨t', ht', hinv⟩ := flatStep_some hs hok
      obtain rfl := Option.some.inj ((show flatStep s1 label = some t from hnext).symm.trans ht')
      exact hinv
  refine ⟨hinv.readsBack, fun label hok hnone => ?_⟩
  obtain ⟨t, ht, -⟩ := flatStep_some hinv hok
  simp [hnone] at ht

/-- Two processes write to the same region and offset numbers. -/
theorem memory_reads_back_two_processes :
    ∃ s : FlatSys Bool, ((s.flat false 0).bind fun rg => rg.bytes 5) = some 7 ∧
      ((s.flat true 0).bind fun rg => rg.bytes 5) = some 9 ∧ ReadsBack s ∧
      ∀ label, FlatOk s label → flatStep s label ≠ none := by
  obtain ⟨s, hs, hbytes⟩ := exists_reachable_of_runAll flatStep FlatOk
    (FlatSys.start 1024 1024 : FlatSys Bool)
    [(false, .alloc 300 0), (true, .alloc 300 0), (false, .write 7 0 5), (true, .write 9 0 5)]
    (fun s => decide (((s.flat false 0).bind fun rg => rg.bytes 5) = some 7) &&
      decide (((s.flat true 0).bind fun rg => rg.bytes 5) = some 9)) (by decide +kernel)
  obtain ⟨hfalse, htrue⟩ := Bool.and_eq_true_iff.mp hbytes
  exact ⟨s, of_decide_eq_true hfalse, of_decide_eq_true htrue, memory_reads_back hs⟩

/-! ### More pages than frames -/

/-- The pages of the live regions. -/
def livePages (flat : ℕ → Option FlatRg) : ℕ :=
  ∑ i ∈ Finset.range 30, (flat i).elim 0 fun rg => (rg.size + 255) / 256

/-- A program that stays within `frames` pages, its live regions and its ids. -/
def Proper (frames : ℕ) (s : FlatSys Unit) (label : Unit × MemOp) : Prop :=
  match label.2 with
  | .alloc size regIndex => regIndex.toNat < 30 ∧ s.flat () regIndex.toNat = none ∧
      livePages (s.flat ()) + (size.toNat + 255) / 256 ≤ frames
  | .free regIndex => s.flat () regIndex.toNat ≠ none
  | .read source offset => InLive s () source offset
  | .write _ destination offset => InLive s () destination offset
  | .memmap _ => False

instance (frames : ℕ) (s : FlatSys Unit) : (label : Unit × MemOp) → Decidable (Proper frames s label)
  | (_, .alloc ..) => inferInstanceAs (Decidable (_ ∧ _ ∧ _))
  | (_, .free ..) => inferInstanceAs (Decidable (¬_))
  | (_, .read source offset) => inferInstanceAs (Decidable (InLive s () source offset))
  | (_, .write _ destination offset) => inferInstanceAs (Decidable (InLive s () destination offset))
  | (_, .memmap _) => inferInstanceAs (Decidable False)

/-- Three pages over two RAM and four swap frames: the write to region 2 evicts the
page of region 1, and the read of region 1 finds another page's byte. -/
theorem evicted_page_reads_wrong :
    ∃ s : FlatSys Unit, Reachable (flatSystem 512 1024) (Proper (2 + 4)) s ∧ ¬ReadsBack s := by
  obtain ⟨s, hs, hbytes⟩ := exists_reachable_of_runAll flatStep (Proper (2 + 4))
    (FlatSys.start 512 1024 : FlatSys Unit)
    [((), .alloc 256 0), ((), .alloc 256 1), ((), .alloc 256 2), ((), .write 7 1 0),
      ((), .write 9 2 0)]
    (fun s : FlatSys Unit => (s.flat () 1).any (fun rg : FlatRg =>
      decide (0 < rg.size) && decide (rg.bytes 0 = some 7)) &&
      decide (((libread (s.mem.pcb ()) 1 0).bind fun q => q.2.1) = some 0)) (by decide +kernel)
  obtain ⟨hflat, hread⟩ := Bool.and_eq_true_iff.mp hbytes
  obtain ⟨rg, hrg, hbyte⟩ := (Option.any_eq_true _ _).mp hflat
  obtain ⟨hsize, hdata⟩ := Bool.and_eq_true_iff.mp hbyte
  refine ⟨s, hs, fun hback => ?_⟩
  obtain ⟨proc, hcall⟩ := hback () 1 0 rg 7 hrg (of_decide_eq_true hsize) (of_decide_eq_true hdata)
  rw [hcall] at hread
  have hseven : some ((7 : Byte).signExtend 32) = some 0 := of_decide_eq_true hread
  exact absurd hseven (by decide)

end OsSim.Mem
