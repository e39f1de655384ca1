import OsSim.Mem.Calls

/-!
# Accesses to resident pages (libmem.c:285-428)

`libread` and `libwrite` on an address whose page is present: nothing is fetched
or evicted, and the byte is the cell of `mram` the entry and the offset denote.
-/

namespace OsSim.Mem
open OsSim.Base

/-- The cell of `mram` that holds the byte at `x`, if its page is resident. -/
def Mm.phys (mm : Mm) (x : ℕ) : ℕ := pagingFpn (mm.pgd (x / 256)) * 256 + x % 256

/-- The page of `x` is present and its frame is in a random access `mram`. -/
structure Pcb.HitAt (proc : Pcb) (x : ℕ) : Prop where
  small : x < 4194304
  present : pagingPagePresent (proc.mm.pgd (x / 256)) = true
  random : (proc.dev .mram).rdmflg = true
  inside : (proc.mm.phys x : ℤ) < (proc.dev .mram).maxsz

/-- The cell of `mram` an address denotes, any `int`. -/
def Mm.cell (mm : Mm) (addr : ℤ) : ℕ := pagingFpn (mm.pgd (pagingPgn addr)) * 256 + pagingOffst addr

/-- The page of the address is present and its cell is in a random access `mram`. -/
structure Pcb.Hits (proc : Pcb) (addr : ℤ) : Prop where
  present : pagingPagePresent (proc.mm.pgd (pagingPgn addr)) = true
  random : (proc.dev .mram).rdmflg = true
  inside : (proc.mm.cell addr : ℤ) < (proc.dev .mram).maxsz

instance Pcb.Hits.decidable (proc : Pcb) (addr : ℤ) : Decidable (proc.Hits addr) :=
  decidable_of_iff (pagingPagePresent (proc.mm.pgd (pagingPgn addr)) = true ∧
      (proc.dev .mram).rdmflg = true ∧ (proc.mm.cell addr : ℤ) < (proc.dev .mram).maxsz)
    ⟨fun h => ⟨h.1, h.2.1, h.2.2⟩, fun h => ⟨h.present, h.random, h.inside⟩⟩

/-- The process after a byte of `mram` was set. -/
def Pcb.store (proc : Pcb) (a : ℕ) (value : Byte) : Pcb where
  mm := proc.mm
  dev := Function.update proc.dev .mram
    { proc.dev .mram with storage := Function.update (proc.dev .mram).storage a value }

theorem Pcb.store_mram (proc : Pcb) (a : ℕ) (value : Byte) :
    (proc.store a value).dev .mram =
      { proc.dev .mram with storage := Function.update (proc.dev .mram).storage a value } := by
  simp only [Pcb.store, Function.update_self]

theorem Pcb.store_shape (proc : Pcb) (a : ℕ) (value : Byte) (d : Device) :
    SameShape (proc.dev d) ((proc.store a value).dev d) := by
  have h : SameShape (proc.dev .mram) { proc.dev .mram with
      storage := Function.update (proc.dev .mram).storage a value } := ⟨rfl, rfl, rfl⟩
  exact sameShape_update h d

theorem memphyRead_random {mp : MemphyStruct} (h : mp.rdmflg = true) {a : ℕ}
    (ha : (a : ℤ) < mp.maxsz) : memphyRead mp a = some (0, some (mp.storage a), mp) := by
  have hin : mp.InStorage a := ⟨by omega, ha⟩
  rw [memphyRead, if_pos h, storageRead, if_pos hin, Int.toNat_natCast]

theorem memphyWrite_random {mp : MemphyStruct} (h : mp.rdmflg = true) {a : ℕ}
    (ha : (a : ℤ) < mp.maxsz) (data : Byte) : memphyWrite mp a data =
      some (0, { mp with storage := Function.update mp.storage a data }) := by
  have hin : mp.InStorage a := ⟨by omega, ha⟩
  rw [memphyWrite, if_pos h, storageWrite, if_pos hin, Int.toNat_natCast]

theorem Mm.phyaddr_eq (mm : Mm) (addr : ℤ) :
    toInt (pagingFpn (mm.pgd (pagingPgn addr)) * pagingPagesz + pagingOffst addr) = mm.cell addr ∧
      toInt (mm.cell addr) = mm.cell addr := by
  have hoff := pagingOffst_eq addr
  have hfpn := pagingFpn_lt (mm.pgd (pagingPgn addr))
  have hcell : ((mm.cell addr : ℕ) : ℤ) =
      pagingFpn (mm.pgd (pagingPgn addr)) * 256 + pagingOffst addr := by
    rw [Mm.cell]
    push_cast
    rfl
  have hsum : (pagingFpn (mm.pgd (pagingPgn addr)) * pagingPagesz + pagingOffst addr : ℤ) =
      mm.cell addr := by
    rw [hcell]
    rfl
  rw [hsum]
  exact ⟨toInt_of_range (by omega) (by omega), toInt_of_range (by omega) (by omega)⟩

theorem pagingPgn_lt (addr : ℤ) : pagingPgn addr < pagingMaxPgn := by
  have hpgn := pagingPgn_eq addr
  change pagingPgn addr < 16384
  omega

theorem byte_signExtend (b : Byte) : (b.signExtend 32).setWidth 8 = b := by
  revert b
  decide

/-! ### Present pages -/

section Present
variable {proc : Pcb} {addr : ℤ}

/-- On a present page only the device and the cell matter. -/
theorem pgGetval_present (hp : pagingPagePresent (proc.mm.pgd (pagingPgn addr)) = true) :
    pgGetval proc addr = (memphyRead (proc.dev .mram) (proc.mm.cell addr)).bind fun r =>
      r.2.1.map fun byte => (0, some byte,
        { proc with dev := Function.update proc.dev .mram r.2.2 }) := by
  simp only [pgGetval, pgGetpage_present (pagingPgn_lt addr) hp, Option.bind_eq_bind,
    Option.bind_some, ne_eq, not_true_eq_false, if_false, (proc.mm.phyaddr_eq addr).1,
    sysMemmap_ioRead, bitVec_toInt_ofInt, (proc.mm.phyaddr_eq addr).2]
  cases memphyRead (proc.dev .mram) (proc.mm.cell addr) with
  | none => rfl
  | some r =>
    obtain ⟨rc, value, mram⟩ := r
    cases value with
    | none => rfl
    | some byte =>
      simp only [Option.bind_some, Option.map_some, lt_irrefl, if_false, byte_signExtend]

theorem pgSetval_present (hp : pagingPagePresent (proc.mm.pgd (pagingPgn addr)) = true)
    (value : Byte) : pgSetval proc addr value =
      (memphyWrite (proc.dev .mram) (proc.mm.cell addr) value).bind fun r =>
        (memphyWrite r.2 (proc.mm.cell addr) value).map fun r =>
          (0, { proc with dev := Function.update proc.dev .mram r.2 }) := by
  simp only [pgSetval, pgGetpage_present (pagingPgn_lt addr) hp, Option.bind_eq_bind,
    Option.bind_some, ne_eq, not_true_eq_false, if_false, (proc.mm.phyaddr_eq addr).1,
    sysMemmap_ioWrite, bitVec_toInt_ofInt, (proc.mm.phyaddr_eq addr).2, byte_signExtend]
  cases memphyWrite (proc.dev .mram) (proc.mm.cell addr) value with
  | none => rfl
  | some r =>
    simp only [Option.bind_some, lt_irrefl, if_false, Function.update_self, Function.update_idem]
    cases memphyWrite r.2 (proc.mm.cell addr) value with
    | none => rfl
    | some r => rfl

end Present

namespace Pcb.Hits
variable {proc : Pcb} {addr : ℤ}

theorem getval (h : proc.Hits addr) : pgGetval proc addr =
    some (0, some ((proc.dev .mram).storage (proc.mm.cell addr)), proc) := by
  rw [pgGetval_present h.present, memphyRead_random h.random h.inside]
  simp only [Option.bind_some, Option.map_some, Function.update_eq_self]

theorem setval (h : proc.Hits addr) (value : Byte) :
    pgSetval proc addr value = some (0, proc.store (proc.mm.cell addr) value) := by
  rw [pgSetval_present h.present, memphyWrite_random h.random h.inside, Option.bind_some,
    @memphyWrite_random { proc.dev .mram with
      storage := Function.update (proc.dev .mram).storage (proc.mm.cell addr) value } h.random _
      h.inside]
  simp only [Option.map_some, Function.update_idem, Pcb.store]

end Pcb.Hits

/-! ### What a defined access says -/

section Found
variable {proc mid proc' : Pcb} {addr rc : ℤ}

theorem memphyRead_byte {mp mp' : MemphyStruct} {a : ℕ} {value : Byte}
    (h : memphyRead mp a = some (rc, some value, mp')) : mp.rdmflg = true ∧ (a : ℤ) < mp.maxsz := by
  cases hrandom : mp.rdmflg with
  | true =>
    rw [memphyRead, if_pos hrandom, storageRead] at h
    split_ifs at h with hin
    exact ⟨rfl, hin.2⟩
  | false => simp [memphyRead, memphySeqRead, hrandom] at h

theorem memphyWrite_inside {mp mp' : MemphyStruct} (hrandom : mp.rdmflg = true) {a : ℕ}
    {data : Byte} (h : memphyWrite mp a data = some (rc, mp')) : (a : ℤ) < mp.maxsz := by
  rw [memphyWrite, if_pos hrandom, storageWrite] at h
  split_ifs at h with hin
  exact hin.2

theorem hits_of_getval (hp : pagingPagePresent (proc.mm.pgd (pagingPgn addr)) = true)
    {data : Option Byte} (h : pgGetval proc addr = some (rc, data, proc')) : proc.Hits addr := by
  rw [pgGetval_present hp] at h
  obtain ⟨⟨rc', value, mram⟩, hread, hvalue⟩ := Option.bind_eq_some_iff.mp h
  obtain ⟨byte, rfl, -⟩ := Option.map_eq_some_iff.mp hvalue
  obtain ⟨hrandom, hinside⟩ := memphyRead_byte hread
  exact ⟨hp, hrandom, hinside⟩

theorem hits_of_setval (hp : pagingPagePresent (proc.mm.pgd (pagingPgn addr)) = true)
    (hrandom : (proc.dev .mram).rdmflg = true) {value : Byte}
    (h : pgSetval proc addr value = some (rc, proc')) : proc.Hits addr := by
  rw [pgSetval_present hp] at h
  obtain ⟨⟨rc', mram⟩, hwrite, -⟩ := Option.bind_eq_some_iff.mp h
  exact ⟨hp, hrandom, memphyWrite_inside hrandom hwrite⟩

/-- After a page fault the byte is written as if the page had been present. -/
theorem pgSetval_found {pgn : ℕ} (hpgn : pgn = pagingPgn addr) {fpn : Option ℕ}
    (h : pgGetpage proc pgn = some (rc, fpn, mid)) (value : Byte) :
    pgSetval proc addr value = pgSetval mid addr value := by
  subst hpgn
  obtain ⟨rfl, rfl, hstep⟩ := pgGetpage_step h
  simp only [pgSetval, h, pgGetpage_present (pagingPgn_lt addr) hstep.present]

/-- A byte that was written is in its cell, whatever was evicted for it. -/
theorem pgSetval_stored {value : Byte} (h : pgSetval proc addr value = some (rc, proc'))
    (hits : proc'.Hits addr) : (proc'.dev .mram).storage (proc'.mm.cell addr) = value := by
  obtain ⟨⟨rc1, fpn, mid⟩, hpage, -⟩ := Option.bind_eq_some_iff.mp h
  obtain ⟨-, -, hstep⟩ := pgGetpage_step hpage
  rw [pgSetval_found rfl hpage] at h
  have hmid := pgSetval_step h
  have hp := hstep.present
  have hrandom : (mid.dev .mram).rdmflg = true := by
    cases hmid with
    | hit _ _ hdev => exact (hdev .mram).rdmflg.symm.trans hits.random
    | fault _ _ _ _ hnot => simp [hp] at hnot
  have hstored := (hits_of_setval hp hrandom h).setval value
  obtain ⟨-, rfl⟩ := Prod.mk.inj (Option.some.inj (h.symm.trans hstored))
  have hmm : (mid.store (mid.mm.cell addr) value).mm = mid.mm := rfl
  rw [Pcb.store_mram, hmm]
  dsimp only
  rw [Function.update_self]

end Found

/-! ### Through a region -/

section Region
variable {proc : Pcb} {brk : ℕ} {fr : List VmRg} {rgid offset : ℤ}

theorem read_getval (hheap : HeapIs proc.mm brk fr) (h0 : 0 ≤ rgid) (h : rgid < 30) :
    read proc 0 rgid offset = (pgGetval proc (proc.accessAddr rgid offset)).map fun r =>
      (0, r.2.1, r.2.2) := by
  rw [read, getSymrgByid_eq proc.mm h0 h, getVmaByNum_heap hheap le_rfl, Pcb.accessAddr]
  -- reducing the match would otherwise unfold `pgGetval`
  generalize pgGetval proc = getval
  rw [Option.bind_eq_bind, Option.bind_some, Option.bind_eq_bind, Option.bind_some]
  dsimp only
  rw [Option.map_eq_bind]
  rfl

theorem write_setval (hheap : HeapIs proc.mm brk fr) (h0 : 0 ≤ rgid) (h : rgid < 30)
    (value : Byte) : write proc 0 rgid offset value =
      (pgSetval proc (proc.accessAddr rgid offset) value).map fun r => (0, r.2) := by
  rw [write, getSymrgByid_eq proc.mm h0 h, getVmaByNum_heap hheap le_rfl, Pcb.accessAddr]
  generalize pgSetval proc = setval
  rw [Option.bind_eq_bind, Option.bind_some, Option.bind_eq_bind, Option.bind_some]
  dsimp only
  rw [Option.map_eq_bind]
  rfl

theorem Pcb.Hits.read_eq (hheap : HeapIs proc.mm brk fr) (h0 : 0 ≤ rgid) (h30 : rgid < 30)
    (h : proc.Hits (proc.accessAddr rgid offset)) : read proc 0 rgid offset =
      some (0, some ((proc.dev .mram).storage (proc.mm.cell (proc.accessAddr rgid offset))), proc) := by
  rw [read_getval hheap h0 h30, h.getval]
  rfl

theorem Pcb.Hits.write_eq (hheap : HeapIs proc.mm brk fr) (h0 : 0 ≤ rgid) (h30 : rgid < 30)
    (h : proc.Hits (proc.accessAddr rgid offset)) (value : Byte) : write proc 0 rgid offset value =
      some (0, proc.store (proc.mm.cell (proc.accessAddr rgid offset)) value) := by
  rw [write_setval hheap h0 h30, h.setval]
  rfl

end Region

namespace Pcb.HitAt
variable {proc : Pcb} {x : ℕ}

theorem pgn_eq (h : proc.HitAt x) : pagingPgn (x : ℤ) = x / 256 := by
  have hpgn := pagingPgn_eq (x : ℤ)
  have hsmall := h.small
  omega

theorem cell_eq (h : proc.HitAt x) : proc.mm.cell x = proc.mm.phys x := by
  have hoff := pagingOffst_eq (x : ℤ)
  rw [Mm.cell, Mm.phys, h.pgn_eq]
  omega

theorem hits (h : proc.HitAt x) : proc.Hits (x : ℤ) where
  present := by rw [h.pgn_eq, h.present]
  random := h.random
  inside := by rw [h.cell_eq]; exact h.inside

section Region
variable {brk : ℕ} {fr : List VmRg} (hheap : HeapIs proc.mm brk fr) {r off : ℕ} (hr : r < 30)
  (hx : (proc.mm.symrgtbl r).rgStart + off = x)
include hx

theorem addr_eq (h : proc.HitAt x) : proc.accessAddr r off = x := by
  have hsmall := h.small
  have hsum : ((proc.mm.symrgtbl r).rgStart : ℤ) + off = x := by omega
  rw [accessAddr, Int.toNat_natCast, hsum, toULong_natCast (by omega),
    toInt_of_range (by omega) (by omega)]

include hheap hr

theorem read_eq (h : proc.HitAt x) : read proc 0 r off =
    some (0, some ((proc.dev .mram).storage (proc.mm.phys x)), proc) := by
  have haddr := h.addr_eq hx
  rw [(haddr ▸ h.hits : proc.Hits (proc.accessAddr r off)).read_eq hheap (by omega) (by omega),
    haddr, h.cell_eq]

theorem write_eq (h : proc.HitAt x) (value : Byte) :
    write proc 0 r off value = some (0, proc.store (proc.mm.phys x) value) := by
  have haddr := h.addr_eq hx
  rw [(haddr ▸ h.hits : proc.Hits (proc.accessAddr r off)).write_eq hheap (by omega) (by omega),
    haddr, h.cell_eq]

end Region

end Pcb.HitAt

end OsSim.Mem
