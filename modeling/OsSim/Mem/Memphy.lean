import OsSim.Mem.Pte

/-!
# Physical memory devices (mm-memphy.c)

A device is its storage, the access mode and the list of free frames. An access
outside `[0, maxsz)` is undefined behaviour and has no result (`none`). A read
that fails leaves its variable indeterminate; then no byte is returned.
-/

namespace OsSim.Mem
open OsSim.Base

abbrev Byte := BitVec 8

/-- `struct memphy_struct` (`os-mm.h:72-84`); `used_fp_list` is never used. -/
structure MemphyStruct where
  storage : ℕ → Byte
  maxsz : ℤ
  rdmflg : Bool
  cursor : ℤ
  freeFpList : List ℕ

/-- A `memphy_struct` in zero-filled memory. -/
def MemphyStruct.zero : MemphyStruct := ⟨fun _ => 0, 0, false, 0, []⟩

/-- `addr` is an index of `storage`. -/
def MemphyStruct.InStorage (mp : MemphyStruct) (addr : ℤ) : Prop := 0 ≤ addr ∧ addr < mp.maxsz

instance (mp : MemphyStruct) (addr : ℤ) : Decidable (mp.InStorage addr) :=
  inferInstanceAs (Decidable (_ ∧ _))

/-- `MEMPHY_mv_csr` (`mm-memphy.c:17-30`). -/
def memphyMvCsr (mp : MemphyStruct) (offset : ℤ) : MemphyStruct :=
  { mp with cursor := (fun c => (c + 1) % mp.maxsz)^[(min offset mp.maxsz).toNat] 0 }

def storageRead (mp : MemphyStruct) (addr : ℤ) : Option (ℤ × Option Byte × MemphyStruct) :=
  if mp.InStorage addr then some (0, some (mp.storage addr.toNat), mp) else none

def storageWrite (mp : MemphyStruct) (addr : ℤ) (data : Byte) : Option (ℤ × MemphyStruct) :=
  if mp.InStorage addr then
    some (0, { mp with storage := Function.update mp.storage addr.toNat data })
  else none

/-- `MEMPHY_seq_read` (`mm-memphy.c:38-50`): the return code, the byte if any,
and the device. -/
def memphySeqRead (mp : MemphyStruct) (addr : ℤ) : Option (ℤ × Option Byte × MemphyStruct) :=
  if mp.rdmflg = false then some (-1, none, mp) else storageRead (memphyMvCsr mp addr) addr

/-- `MEMPHY_read` (`mm-memphy.c:58-69`). -/
def memphyRead (mp : MemphyStruct) (addr : ℤ) : Option (ℤ × Option Byte × MemphyStruct) :=
  if mp.rdmflg then storageRead mp addr else memphySeqRead mp addr

/-- `MEMPHY_seq_write` (`mm-memphy.c:77-89`). -/
def memphySeqWrite (mp : MemphyStruct) (addr : ℤ) (data : Byte) : Option (ℤ × MemphyStruct) :=
  if mp.rdmflg = false then some (-1, mp) else storageWrite (memphyMvCsr mp addr) addr data

/-- `MEMPHY_write` (`mm-memphy.c:97-108`). -/
def memphyWrite (mp : MemphyStruct) (addr : ℤ) (data : Byte) : Option (ℤ × MemphyStruct) :=
  if mp.rdmflg then storageWrite mp addr data else memphySeqWrite mp addr data

theorem memphyRead_eq {mp : MemphyStruct} (h : mp.rdmflg = true) (addr : ℤ) : memphyRead mp addr =
    if mp.InStorage addr then some (0, some (mp.storage addr.toNat), mp) else none := by
  rw [memphyRead, if_pos h, storageRead]

theorem memphyWrite_eq {mp : MemphyStruct} (h : mp.rdmflg = true) (addr : ℤ) (data : Byte) :
    memphyWrite mp addr data = if mp.InStorage addr then
      some (0, { mp with storage := Function.update mp.storage addr.toNat data }) else none := by
  rw [memphyWrite, if_pos h, storageWrite]

/-- `MEMPHY_format` (`mm-memphy.c:114-140`). `tail` is what the uninitialised
`fp_next` of the first node points to; it stays when there is one frame. -/
def memphyFormat (tail : List ℕ) (mp : MemphyStruct) (pagesz : ℤ) : ℤ × MemphyStruct :=
  let numfp := mp.maxsz.tdiv pagesz
  if numfp ≤ 0 then (-1, mp)
  else (0, { mp with freeFpList := if numfp = 1 then 0 :: tail else List.range numfp.toNat })

/-- `MEMPHY_get_freefp` (`mm-memphy.c:142-158`): no frame is the return code -1. -/
def memphyGetFreefp (mp : MemphyStruct) : Option (ℕ × MemphyStruct) :=
  match mp.freeFpList with
  | [] => none
  | fpn :: rest => some (fpn, { mp with freeFpList := rest })

/-- `MEMPHY_put_freefp` (`mm-memphy.c:177-188`). -/
def memphyPutFreefp (mp : MemphyStruct) (fpn : ℕ) : MemphyStruct :=
  { mp with freeFpList := fpn :: mp.freeFpList }

/-- `init_memphy` (`mm-memphy.c:193-207`) on a struct with contents `old`. -/
def initMemphy (tail : List ℕ) (old : MemphyStruct) (maxSize randomflg : ℤ) :
    Option MemphyStruct :=
  if maxSize < 0 then none
  else
    let mp := (memphyFormat tail { old with storage := fun _ => 0, maxsz := maxSize } 256).2
    some { mp with rdmflg := randomflg != 0, cursor := if randomflg != 0 then mp.cursor else 0 }

/-- `init_memphy(mp, max_size, 1)` in zero-filled memory, as `main` calls it. -/
def ramDevice (maxSize : ℕ) : MemphyStruct where
  storage _ := 0
  maxsz := maxSize
  rdmflg := true
  cursor := 0
  freeFpList := List.range (maxSize / pagingPagesz)

theorem initMemphy_zero (maxSize : ℕ) :
    initMemphy [] .zero maxSize 1 = some (ramDevice maxSize) := by
  have hdiv : (maxSize : ℤ).tdiv 256 = (maxSize / 256 : ℕ) := by
    rw [Int.tdiv_eq_ediv_of_nonneg (by omega)]
    rfl
  simp only [initMemphy, memphyFormat, hdiv, ramDevice, MemphyStruct.zero]
  rw [if_neg (by omega)]
  by_cases h0 : maxSize / 256 = 0
  · simp [h0]
  · by_cases h1 : maxSize / 256 = 1
    · simp [h1]
    · have hpos : ¬((maxSize / 256 : ℕ) : ℤ) ≤ 0 := by omega
      have hone : ¬((maxSize / 256 : ℕ) : ℤ) = 1 := by omega
      simp only [if_neg hpos, if_neg hone, Int.toNat_natCast]
      rfl

/-- From two frames on, the uninitialised node does not matter. -/
theorem initMemphy_free {tail : List ℕ} {old mp : MemphyStruct} {maxSize : ℕ} {randomflg : ℤ}
    (h2 : 2 ≤ maxSize / 256) (h : initMemphy tail old maxSize randomflg = some mp) :
    mp.maxsz = maxSize ∧ mp.freeFpList = List.range (maxSize / 256) := by
  have hdiv : (maxSize : ℤ).tdiv 256 = (maxSize / 256 : ℕ) := by
    rw [Int.tdiv_eq_ediv_of_nonneg (by omega)]
    rfl
  have hpos : ¬((maxSize / 256 : ℕ) : ℤ) ≤ 0 := by omega
  have hone : ¬((maxSize / 256 : ℕ) : ℤ) = 1 := by omega
  simp only [initMemphy, memphyFormat, hdiv, if_neg hpos, if_neg hone, Int.toNat_natCast] at h
  rw [if_neg (by omega)] at h
  obtain rfl := Option.some.inj h
  exact ⟨rfl, rfl⟩

/-! ### The devices of a process -/

/-- `caller->mram` and `caller->active_mswp`. -/
inductive Device where
  | mram
  | activeMswp
  deriving DecidableEq

abbrev Devices := Device → MemphyStruct

/-- One cell of `__swap_cp_page`. -/
def swapCpCell (src : Device) (srcfpn : ℤ) (dst : Device) (dstfpn : ℤ) (dev : Devices)
    (cellidx : ℕ) : Option Devices := do
  let (_, data, mpsrc) ← memphyRead (dev src) (toInt (srcfpn * pagingPagesz + cellidx))
  let dev := Function.update dev src mpsrc
  let data ← data
  let (_, mpdst) ← memphyWrite (dev dst) (toInt (dstfpn * pagingPagesz + cellidx)) data
  some (Function.update dev dst mpdst)

/-- `__swap_cp_page` (`mm.c:223-239`). -/
def swapCpPage (src : Device) (srcfpn : ℤ) (dst : Device) (dstfpn : ℤ) (dev : Devices) :
    Option Devices :=
  (List.range pagingPagesz).foldlM (swapCpCell src srcfpn dst dstfpn) dev

/-! ### What an access keeps -/

/-- All but the storage and the cursor. -/
structure SameShape (mp mp' : MemphyStruct) : Prop where
  maxsz : mp'.maxsz = mp.maxsz
  rdmflg : mp'.rdmflg = mp.rdmflg
  freeFpList : mp'.freeFpList = mp.freeFpList

theorem SameShape.refl (mp : MemphyStruct) : SameShape mp mp := ⟨rfl, rfl, rfl⟩

theorem SameShape.trans {a b c : MemphyStruct} (h : SameShape a b) (h' : SameShape b c) :
    SameShape a c :=
  ⟨h'.maxsz.trans h.maxsz, h'.rdmflg.trans h.rdmflg, h'.freeFpList.trans h.freeFpList⟩

theorem memphyRead_shape {mp mp' : MemphyStruct} {addr rc : ℤ} {data : Option Byte}
    (h : memphyRead mp addr = some (rc, data, mp')) : SameShape mp mp' := by
  simp only [memphyRead, memphySeqRead, storageRead] at h
  split_ifs at h <;>
    (simp only [Option.some.injEq, Prod.mk.injEq] at h; obtain ⟨-, -, rfl⟩ := h; exact ⟨rfl, rfl, rfl⟩)

theorem memphyWrite_shape {mp mp' : MemphyStruct} {addr rc : ℤ} {data : Byte}
    (h : memphyWrite mp addr data = some (rc, mp')) : SameShape mp mp' := by
  simp only [memphyWrite, memphySeqWrite, storageWrite] at h
  split_ifs at h <;>
    (simp only [Option.some.injEq, Prod.mk.injEq] at h; obtain ⟨-, rfl⟩ := h; exact ⟨rfl, rfl, rfl⟩)

theorem sameShape_update {dev : Devices} {d : Device} {mp : MemphyStruct}
    (h : SameShape (dev d) mp) (e : Device) : SameShape (dev e) (Function.update dev d mp e) := by
  by_cases hed : e = d
  · subst hed
    rwa [Function.update_self]
  · rw [Function.update_of_ne hed]
    exact .refl _

theorem swapCpCell_shape {src dst : Device} {srcfpn dstfpn : ℤ} {dev dev' : Devices} {cellidx : ℕ}
    (h : swapCpCell src srcfpn dst dstfpn dev cellidx = some dev') (e : Device) :
    SameShape (dev e) (dev' e) := by
  obtain ⟨⟨rc, data, mpsrc⟩, hread, h⟩ := Option.bind_eq_some_iff.mp h
  obtain ⟨byte, -, h⟩ := Option.bind_eq_some_iff.mp h
  obtain ⟨⟨rc', mpdst⟩, hwrite, h⟩ := Option.bind_eq_some_iff.mp h
  obtain rfl := Option.some.inj h
  exact (sameShape_update (memphyRead_shape hread) e).trans
    (sameShape_update (memphyWrite_shape hwrite) e)

theorem swapCpPage_shape {src dst : Device} {srcfpn dstfpn : ℤ} {dev dev' : Devices}
    (h : swapCpPage src srcfpn dst dstfpn dev = some dev') (e : Device) :
    SameShape (dev e) (dev' e) := by
  rw [swapCpPage] at h
  generalize List.range pagingPagesz = cells at h
  induction cells generalizing dev with
  | nil =>
    obtain rfl : dev = dev' := Option.some.inj h
    exact .refl _
  | cons cell rest ih =>
    rw [List.foldlM_cons] at h
    obtain ⟨mid, hcell, h⟩ := Option.bind_eq_some_iff.mp h
    exact (swapCpCell_shape hcell e).trans (ih h)

end OsSim.Mem
