import OsSim.Mem.Flat
import OsSim.Mem.Partition
import OsSim.Mem.Private

/-!
# A process and its arrays

A process that stays inside its regions and inside a quota of pages can forget its
heap: under every id it has an array whose bytes are unknown until they are
written and change by its own writes only. `Arrays` is that view, and the quota
can be checked on a program without running it on a heap: every allocation counts
with its size rounded up to pages, also where the heap finds a free region.
-/

namespace OsSim.Mem
open OsSim.Base

/-! ### The arrays -/

/-- The pages a process may still ask for, and its arrays. -/
structure Arrays where
  room : ℕ
  rgs : ℕ → Option FlatRg

def Arrays.fresh (quota : ℕ) : Arrays := ⟨quota, fun _ => none⟩

/-- What a process knows of an answer: that there is none, that the call succeeded, or
the byte it was given, if it was written before. -/
inductive Reply where
  | noCall
  | done
  | byte (known : Option Byte)

def Reply.Allows : Reply → Option MemRet → Prop
  | .noCall, answer => answer = none
  | .done, answer => answer = some ⟨0, none⟩
  | .byte known, answer =>
    ∃ data, answer = some ⟨0, some (data.signExtend 32)⟩ ∧ ∀ b ∈ known, data = b

/-- The array of an access inside it. -/
def Arrays.inside (a : Arrays) (rgid offset : BitVec 32) : Option FlatRg :=
  (a.rgs rgid.toNat).filter fun rg => decide (offset.toNat < rg.size)

/-- One call, undefined outside the arrays and outside the quota. -/
def Arrays.call (a : Arrays) (op : MemOp) : Option (Reply × Arrays) :=
  match op with
  | .alloc size regIndex =>
    if regIndex.toNat < 30 ∧ 0 < size.toNat ∧ sizePages size ≤ a.room then
      some (.done, ⟨a.room - sizePages size, flatAfter a.rgs op⟩)
    else none
  | .free regIndex => (a.rgs regIndex.toNat).map fun _ => (.done, ⟨a.room, flatAfter a.rgs op⟩)
  | .read source offset =>
    (a.inside source offset).map fun rg => (.byte (rg.bytes offset.toNat), a)
  | .write _ destination offset =>
    (a.inside destination offset).map fun _ => (.done, ⟨a.room, flatAfter a.rgs op⟩)
  | .memmap _ => none

theorem Arrays.inside_eq {a : Arrays} {rgid offset : BitVec 32} {rg : FlatRg}
    (h : a.inside rgid offset = some rg) :
    a.rgs rgid.toNat = some rg ∧ offset.toNat < rg.size := by
  obtain ⟨hrg, hin⟩ := Option.filter_eq_some_iff.mp h
  exact ⟨hrg, of_decide_eq_true hin⟩

/-! ### The arrays in a heap -/

/-- The arrays are regions of the heap that have no byte in common with each other or
with a free region, and the heap has the bytes that were written to them. -/
structure HoldsArrays (quota : ℕ) (h : Heap) (a : Arrays) : Prop where
  room : h.pages + a.room ≤ quota
  free_in : ∀ rg ∈ h.free, RgIn (256 * h.pages) rg
  live : ∀ {i rg}, a.rgs i = some rg → i < 30 ∧ 0 < rg.size ∧ RgIn (256 * h.pages) (h.sym i) ∧
    (h.sym i).rgEnd = (h.sym i).rgStart + rg.size
  once : ∀ x, heapCover (fun i => (a.rgs i).isSome) h.sym h.free x ≤
    cover VmRg.Has [⟨0, 256 * h.pages⟩] x
  bytes : ∀ {i rg off data}, a.rgs i = some rg → off < rg.size → rg.bytes off = some data →
    h.bytes ((h.sym i).rgStart + off) = data

theorem holdsArrays_fresh (quota : ℕ) : HoldsArrays quota .fresh (.fresh quota) where
  room := (Nat.zero_add quota).le
  free_in rg hrg := by
    obtain rfl := List.mem_singleton.mp hrg
    exact ⟨le_rfl, le_rfl⟩
  live hi := by simp [Arrays.fresh] at hi
  once x := by simp [heapCover, liveRgs, Heap.fresh, Arrays.fresh]
  bytes hi := by simp [Arrays.fresh] at hi

section Calls
variable {quota : ℕ} {h : Heap} {a : Arrays}

theorem HoldsArrays.byte_lt (ha : HoldsArrays quota h a) {i off : ℕ} {rg : FlatRg}
    (hi : a.rgs i = some rg) (hoff : off < rg.size) : (h.sym i).rgStart + off < 256 * h.pages := by
  obtain ⟨-, -, hin, hend⟩ := ha.live hi
  have hle := hin.2
  omega

/-- A byte of one array is no byte of another one. -/
theorem HoldsArrays.array_unique (ha : HoldsArrays quota h a) {i j off off' : ℕ}
    {rg rg' : FlatRg} (hi : a.rgs i = some rg) (hj : a.rgs j = some rg') (hoff : off < rg.size)
    (hoff' : off' < rg'.size) (heq : (h.sym i).rgStart + off = (h.sym j).rgStart + off') : i = j := by
  have hhas : ∀ {k o : ℕ} {r : FlatRg}, a.rgs k = some r → o < r.size →
      0 < cover VmRg.Has (liveRgs (fun i => (a.rgs i).isSome) h.sym k) ((h.sym k).rgStart + o) := by
    intro k o r hk ho
    have hend := (ha.live hk).2.2.2
    exact (cover_pos _).mpr ⟨h.sym k, by simp [liveRgs, hk], Nat.le_add_right .., by omega⟩
  have honce := ha.once ((h.sym i).rgStart + off)
  have hone : cover VmRg.Has [⟨0, 256 * h.pages⟩] ((h.sym i).rgStart + off) ≤ 1 := by
    rw [cover_cons, cover_nil]
    split_ifs <;> omega
  refine eq_of_sum_le_one ((Nat.le_add_right _ _).trans (honce.trans hone)) (ha.live hi).1
    (ha.live hj).1 (hhas hi hoff) ?_
  rw [heq]
  exact hhas hj hoff'

/-! ### Allocation -/

/-- A growth within the quota enlists a region that is long enough. -/
theorem HoldsArrays.grow (ha : HoldsArrays quota h a) {size : BitVec 32}
    (hroom : sizePages size ≤ a.room) : HoldsArrays quota
      { h with
        pages := h.pages + sizePages size
        free := ⟨256 * h.pages, 256 * (h.pages + sizePages size)⟩ :: h.free }
      ⟨a.room - sizePages size, a.rgs⟩ := by
  have hle : 256 * h.pages ≤ 256 * (h.pages + sizePages size) := by omega
  have hquota := ha.room
  constructor
  · dsimp only
    omega
  · intro rg hrg
    rcases List.mem_cons.mp hrg with rfl | hrg
    · exact ⟨hle, le_rfl⟩
    · exact (ha.free_in rg hrg).mono hle
  · intro i rg hi
    obtain ⟨hid, hpos, hin, hend⟩ := ha.live hi
    exact ⟨hid, hpos, hin.mono hle, hend⟩
  · intro x
    have honce := ha.once x
    have hcut := cover_cut (Nat.zero_le (256 * h.pages)) hle x
    simp only [heapCover, cover_cons, cover_nil] at honce hcut ⊢
    omega
  · intro i rg off data hi hoff hdata
    exact ha.bytes hi hoff hdata

theorem takeFit_grown {size : BitVec 32} {pages : ℕ} (free : List VmRg) (hpos : 0 < size.toNat)
    (hsmall : pages + sizePages size ≤ 8192) :
    (takeFit size.toInt (⟨256 * pages, 256 * (pages + sizePages size)⟩ :: free)).isSome = true := by
  rw [sizePages] at hsmall ⊢
  have hint : size.toInt = size.toNat := BitVec.toInt_eq_toNat_of_lt (by omega)
  have hin : RgIn (256 * (pages + (size.toNat + 255) / 256))
      ⟨256 * pages, 256 * (pages + (size.toNat + 255) / 256)⟩ :=
    ⟨Nat.mul_le_mul_left _ (Nat.le_add_right ..), le_rfl⟩
  have hlen := hin.len_eq (by omega)
  dsimp only at hlen
  rw [takeFit_head free, Option.isSome_some]
  rw [hint, toULong_natCast (by omega), hlen]
  omega

/-- The heap finds a free region, or the quota has the pages for a new one. -/
theorem HoldsArrays.findRoom (hq : quota ≤ 8192) (ha : HoldsArrays quota h a) {size : BitVec 32}
    (hpos : 0 < size.toNat) (hroom : sizePages size ≤ a.room) :
    ∃ heap1 rgnode rest, h.room size.toInt = some heap1 ∧
      takeFit size.toInt heap1.free = some (rgnode, rest) ∧
      HoldsArrays quota heap1 ⟨a.room - sizePages size, a.rgs⟩ := by
  have hquota := ha.room
  cases hfit : takeFit size.toInt h.free with
  | some r =>
    refine ⟨h, r.1, r.2, ?_, hfit, ?_⟩
    · rw [Heap.room, hfit]
      rfl
    · have hless : h.pages + (a.room - sizePages size) ≤ quota := by omega
      exact ⟨hless, ha.free_in, ha.live, ha.once, ha.bytes⟩
  | none =>
    have hsize : size.toNat ≤ 1073741824 := by
      rw [sizePages] at hroom
      omega
    obtain ⟨-, haligned, hpages⟩ := sizePages_eq hsize
    have hnew := takeFit_grown h.free hpos (by omega : h.pages + sizePages size ≤ 8192)
    obtain ⟨r, hr⟩ := Option.isSome_iff_exists.mp hnew
    refine ⟨_, r.1, r.2, ?_, hr, ha.grow hroom⟩
    rw [Heap.room, hfit, if_neg (by simp), if_pos haligned, hpages]

/-- A new array has no known byte; what was under its id before is given up. -/
theorem HoldsArrays.place (hq : quota ≤ 8192) (ha : HoldsArrays quota h a)
    {size regIndex : BitVec 32} (hid : regIndex.toNat < 30) (hpos : 0 < size.toNat) {rgnode : VmRg}
    {rest : List VmRg} (hfit : takeFit size.toInt h.free = some (rgnode, rest)) :
    HoldsArrays quota
      { h with free := rest, sym := Function.update h.sym regIndex.toNat rgnode }
      ⟨a.room, flatAfter a.rgs (.alloc size regIndex)⟩ := by
  have hquota := ha.room
  have hbound : 256 * h.pages < 2147483648 := by omega
  obtain ⟨hlow, hhigh⟩ := bitVec_toInt_range size
  obtain ⟨hnonneg, hend, hin, hrest⟩ := takeFit_in hbound hlow hhigh ha.free_in hfit
  have hnat : size.toInt.toNat = size.toNat := by
    rw [BitVec.toInt_eq_toNat_cond] at hnonneg ⊢
    split_ifs at hnonneg ⊢ <;> omega
  constructor
  · exact hquota
  · exact hrest
  · intro i rg hi
    dsimp only at hi ⊢
    rw [flatAfter, Function.update_apply] at hi
    split_ifs at hi with hir
    · obtain rfl := Option.some.inj hi
      rw [hir, Function.update_self]
      exact ⟨hid, hpos, hin, hnat ▸ hend⟩
    · rw [Function.update_of_ne hir]
      exact ha.live hi
  · intro x
    have hisSome : (fun i => (flatAfter a.rgs (.alloc size regIndex) i).isSome) =
        Function.update (fun i => (a.rgs i).isSome) regIndex.toNat true := by
      funext i
      exact Function.apply_update (fun _ => Option.isSome) a.rgs regIndex.toNat _ i
    have hplace := heapCover_place hbound hlow hhigh ha.free_in hfit
      (fun i => (a.rgs i).isSome) h.sym hid x
    rw [hisSome]
    exact (Nat.le_add_right _ _).trans (hplace.le.trans (ha.once x))
  · intro i rg off data hi hoff hdata
    dsimp only at hi ⊢
    rw [flatAfter, Function.update_apply] at hi
    split_ifs at hi with hir
    · obtain rfl := Option.some.inj hi
      simp at hdata
    · rw [Function.update_of_ne hir]
      exact ha.bytes hi hoff hdata

/-! ### The other calls -/

theorem HoldsArrays.drop (ha : HoldsArrays quota h a) {regIndex : BitVec 32} {rg : FlatRg}
    (hrg : a.rgs regIndex.toNat = some rg) :
    HoldsArrays quota { h with free := h.sym regIndex.toNat :: h.free }
      ⟨a.room, flatAfter a.rgs (.free regIndex)⟩ := by
  obtain ⟨hid, -, hin, -⟩ := ha.live hrg
  have hold : ∀ {i rg'}, flatAfter a.rgs (.free regIndex) i = some rg' → a.rgs i = some rg' := by
    intro i rg' hi
    rw [flatAfter, Function.update_apply] at hi
    split_ifs at hi
    exact hi
  constructor
  · exact ha.room
  · intro r hr
    rcases List.mem_cons.mp hr with rfl | hr
    · exact hin
    · exact ha.free_in r hr
  · intro i rg' hi
    exact ha.live (hold hi)
  · intro x
    have hisSome : (fun i => (flatAfter a.rgs (.free regIndex) i).isSome) =
        Function.update (fun i => (a.rgs i).isSome) regIndex.toNat false := by
      funext i
      exact Function.apply_update (fun _ => Option.isSome) a.rgs regIndex.toNat _ i
    have hmoved := heapCover_free (fun i => (a.rgs i).isSome) h.sym hid
      (show (a.rgs regIndex.toNat).isSome = true by rw [hrg]; rfl) h.free x
    rw [hisSome]
    exact hmoved.le.trans (ha.once x)
  · intro i rg' off data hi hoff hdata
    exact ha.bytes (hold hi) hoff hdata

/-- An access inside an array is an access inside the heap. -/
theorem HoldsArrays.access (hq : quota ≤ 8192) (ha : HoldsArrays quota h a)
    {rgid offset : BitVec 32} {rg : FlatRg} (hin : a.inside rgid offset = some rg)
    (f : ℕ → MemRet × Heap) :
    h.access rgid offset f = some (f ((h.sym rgid.toNat).rgStart + offset.toNat)) := by
  obtain ⟨hrg, hoff⟩ := Arrays.inside_eq hin
  have hid := (ha.live hrg).1
  have hlt := ha.byte_lt hrg hoff
  have hquota := ha.room
  have hint : offset.toInt = offset.toNat := BitVec.toInt_eq_toNat_of_lt (by omega)
  rw [Heap.access, if_neg (by omega), if_neg (by omega), Heap.addr, if_pos (by omega), hint,
    Option.map_some]
  congr 2

theorem HoldsArrays.store (ha : HoldsArrays quota h a) (data : Byte) {destination offset : BitVec 32}
    {rg : FlatRg} (hin : a.inside destination offset = some rg) :
    HoldsArrays quota (h.store ((h.sym destination.toNat).rgStart + offset.toNat) data)
      ⟨a.room, flatAfter a.rgs (.write data destination offset)⟩ := by
  obtain ⟨hrg, hoff⟩ := Arrays.inside_eq hin
  have hafter : flatAfter a.rgs (.write data destination offset) =
      Function.update a.rgs destination.toNat (some (rg.set offset.toNat data)) := by
    rw [flatAfter, hrg, Option.map_some]
  have hisSome : (fun i => (Function.update a.rgs destination.toNat
      (some (rg.set offset.toNat data)) i).isSome) = fun i => (a.rgs i).isSome := by
    funext i
    rw [Function.update_apply]
    split_ifs with hir
    · rw [hir, hrg]
      rfl
    · rfl
  rw [hafter]
  constructor
  · exact ha.room
  · exact ha.free_in
  · intro i rg' hi
    dsimp only at hi
    rw [Function.update_apply] at hi
    split_ifs at hi with hir
    · obtain rfl := Option.some.inj hi
      have hlive := ha.live hrg
      exact hir ▸ hlive
    · exact ha.live hi
  · intro x
    rw [hisSome]
    exact ha.once x
  · intro i rg' off data' hi ho hdata
    dsimp only [Heap.store] at hi ⊢
    rw [Function.update_apply] at hi
    split_ifs at hi with hir
    · subst hir
      obtain rfl := Option.some.inj hi
      have hdata' : Function.update rg.bytes offset.toNat (some data) off = some data' := hdata
      by_cases hsame : off = offset.toNat
      · subst hsame
        rw [Function.update_self] at hdata' ⊢
        exact Option.some.inj hdata'
      · rw [Function.update_of_ne hsame] at hdata'
        rw [Function.update_of_ne (by omega)]
        exact ha.bytes hrg ho hdata'
    · rw [Function.update_of_ne fun heq => hir (ha.array_unique hi hrg ho hoff heq)]
      exact ha.bytes hi ho hdata

/-- A call that is defined on the arrays is defined on the heap, and answered as the
process expects. -/
theorem HoldsArrays.call (hq : quota ≤ 8192) (ha : HoldsArrays quota h a) {op : MemOp}
    {reply : Reply} {a' : Arrays} (hcall : a.call op = some (reply, a')) :
    ∃ ret h', h.call op = some (ret, h') ∧ reply.Allows (some ret) ∧ HoldsArrays quota h' a' := by
  cases op with
  | alloc size regIndex =>
    rw [Arrays.call] at hcall
    split_ifs at hcall with hok
    obtain ⟨hid, hpos, hroom⟩ := hok
    obtain ⟨rfl, rfl⟩ := Prod.mk.inj (Option.some.inj hcall)
    obtain ⟨heap1, rgnode, rest, hfound, hfit, ha1⟩ := ha.findRoom hq hpos hroom
    refine ⟨⟨0, none⟩, _, ?_, rfl, ha1.place hq hid hpos hfit⟩
    rw [Heap.call, if_pos hid, hfound, Option.map_some, Heap.place, hfit]
  | free regIndex =>
    obtain ⟨rg, hrg, heq⟩ := Option.map_eq_some_iff.mp hcall
    obtain ⟨rfl, rfl⟩ := Prod.mk.inj heq
    obtain ⟨hid, hpos, -, hend⟩ := ha.live hrg
    refine ⟨⟨0, none⟩, _, ?_, rfl, ha.drop hrg⟩
    rw [Heap.call, if_pos ⟨hid, by omega⟩]
  | read source offset =>
    obtain ⟨rg, hin, heq⟩ := Option.map_eq_some_iff.mp hcall
    obtain ⟨rfl, rfl⟩ := Prod.mk.inj heq
    obtain ⟨hrg, hoff⟩ := Arrays.inside_eq hin
    refine ⟨_, h, ha.access hq hin _, ⟨_, rfl, fun b hb => ?_⟩, ha⟩
    exact ha.bytes hrg hoff hb
  | write data destination offset =>
    obtain ⟨rg, hin, heq⟩ := Option.map_eq_some_iff.mp hcall
    obtain ⟨rfl, rfl⟩ := Prod.mk.inj heq
    exact ⟨⟨0, none⟩, _, ha.access hq hin _, rfl, ha.store data hin⟩
  | memmap regs => simp [Arrays.call] at hcall

end Calls

end OsSim.Mem
