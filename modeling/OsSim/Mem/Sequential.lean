import OsSim.Mem.Memphy

/-!
# Sequential devices

A device without random access goes through `MEMPHY_seq_read` and
`MEMPHY_seq_write`. Both test the mode the wrong way round: they are reached on a
sequential device only, and turn exactly those down. So a sequential device answers
-1 to every access, where a random-access device of the same size reads or writes
the cell. Past the test (`seqAccess_step`) the cursor walk ends at the address, and
the cell is read and written as in a random-access device.
-/

namespace OsSim.Mem
open OsSim.Base

inductive Access where
  | read (addr : ℤ)
  | write (addr : ℤ) (data : Byte)

def Access.addr : Access → ℤ
  | .read addr => addr
  | .write addr _ => addr

/-- What an access shows: the return code, the byte read, the cursor after it. -/
structure Shown where
  rc : ℤ
  value : Option Byte
  cursor : ℤ

/-- An access through the given read and write functions. -/
def accessWith (read : MemphyStruct → ℤ → Option (ℤ × Option Byte × MemphyStruct))
    (write : MemphyStruct → ℤ → Byte → Option (ℤ × MemphyStruct)) (mp : MemphyStruct) :
    Access → Option (Shown × MemphyStruct)
  | .read addr => (read mp addr).map fun r => (⟨r.1, r.2.1, r.2.2.cursor⟩, r.2.2)
  | .write addr data => (write mp addr data).map fun r => (⟨r.1, none, r.2.cursor⟩, r.2)

def runWith (step : MemphyStruct → Access → Option (Shown × MemphyStruct)) :
    MemphyStruct → List Access → Option (List Shown × MemphyStruct)
  | mp, [] => some ([], mp)
  | mp, a :: rest => do
    let (shown, mp) ← step mp a
    let (others, mp) ← runWith step mp rest
    some (shown :: others, mp)

/-- Accesses by `MEMPHY_read` and `MEMPHY_write`. -/
def accesses : MemphyStruct → List Access → Option (List Shown × MemphyStruct) :=
  runWith (accessWith memphyRead memphyWrite)

/-- The same codes and values, the same storage at the end, and in the first run the
cursor at the address after each access. -/
def AgreeOn (run run' : Option (List Shown × MemphyStruct)) (ops : List Access) : Prop :=
  ∃ shown mp shown' mp', run = some (shown, mp) ∧ run' = some (shown', mp') ∧
    shown.map Shown.rc = shown'.map Shown.rc ∧ shown.map Shown.value = shown'.map Shown.value ∧
    mp.storage = mp'.storage ∧ shown.map Shown.cursor = ops.map Access.addr

/-! ### The cursor -/

theorem iterate_succ_mod {m : ℤ} (n : ℕ) (h : n < m) : (fun c => (c + 1) % m)^[n] 0 = n := by
  induction n with
  | zero => rfl
  | succ n ih =>
    rw [Function.iterate_succ_apply', ih (by omega)]
    push_cast at h ⊢
    exact Int.emod_eq_of_lt (by omega) h

/-- The walk ends at the address. -/
theorem memphyMvCsr_inStorage {mp : MemphyStruct} {addr : ℤ} (h : mp.InStorage addr) :
    memphyMvCsr mp addr = { mp with cursor := addr } := by
  obtain ⟨h0, hlt⟩ := h
  have hwalk := iterate_succ_mod (m := mp.maxsz) addr.toNat (by omega)
  unfold memphyMvCsr
  rw [min_eq_left hlt.le, hwalk, Int.toNat_of_nonneg h0]

/-! ### The sequential functions past their test -/

/-- Two devices with the same cells, both past the test. -/
structure SameCells (mp mp' : MemphyStruct) : Prop where
  storage : mp.storage = mp'.storage
  maxsz : mp.maxsz = mp'.maxsz
  rdmflg : mp.rdmflg = true
  rdmflg' : mp'.rdmflg = true

theorem seqAccess_step {mp mp' : MemphyStruct} (h : SameCells mp mp') {a : Access}
    (hin : mp.InStorage a.addr) :
    ∃ shown next shown' next', accessWith memphySeqRead memphySeqWrite mp a = some (shown, next) ∧
      accessWith memphyRead memphyWrite mp' a = some (shown', next') ∧ SameCells next next' ∧
      next.maxsz = mp.maxsz ∧ shown.rc = 0 ∧ shown'.rc = 0 ∧ shown.value = shown'.value ∧
      shown.cursor = a.addr := by
  have hin' : mp'.InStorage a.addr := by
    rw [MemphyStruct.InStorage, ← h.maxsz]
    exact hin
  have htest : ¬mp.rdmflg = false := by simp [h.rdmflg]
  cases a with
  | read addr =>
    change mp.InStorage addr at hin
    change mp'.InStorage addr at hin'
    refine ⟨⟨0, some (mp.storage addr.toNat), addr⟩, { mp with cursor := addr },
      ⟨0, some (mp'.storage addr.toNat), mp'.cursor⟩, mp', ?_, ?_,
      ⟨h.storage, h.maxsz, h.rdmflg, h.rdmflg'⟩, rfl, rfl, rfl, by rw [h.storage], rfl⟩
    · dsimp only [accessWith, memphySeqRead, storageRead]
      rw [if_neg htest, memphyMvCsr_inStorage hin, if_pos]
      · rfl
      · exact hin
    · dsimp only [accessWith]
      rw [memphyRead_eq h.rdmflg', if_pos hin']
      rfl
  | write addr data =>
    change mp.InStorage addr at hin
    change mp'.InStorage addr at hin'
    refine ⟨⟨0, none, addr⟩, { mp with
        cursor := addr, storage := Function.update mp.storage addr.toNat data },
      ⟨0, none, mp'.cursor⟩,
      { mp' with storage := Function.update mp'.storage addr.toNat data }, ?_, ?_,
      ⟨by rw [h.storage], h.maxsz, h.rdmflg, h.rdmflg'⟩, rfl, rfl, rfl, rfl, rfl⟩
    · dsimp only [accessWith, memphySeqWrite, storageWrite]
      rw [if_neg htest, memphyMvCsr_inStorage hin, if_pos]
      · rfl
      · exact hin
    · dsimp only [accessWith]
      rw [memphyWrite_eq h.rdmflg', if_pos hin']
      rfl

/-! ### The devices of `init_memphy` -/

/-- What `init_memphy` leaves in the fields that the accesses use. -/
theorem initMemphy_fields {tail : List ℕ} {old mp : MemphyStruct} {maxSize randomflg : ℤ}
    (h : initMemphy tail old maxSize randomflg = some mp) :
    mp.storage = (fun _ => 0) ∧ mp.maxsz = maxSize ∧ mp.rdmflg = (randomflg != 0) := by
  unfold initMemphy at h
  by_cases hneg : maxSize < 0
  · rw [if_pos hneg] at h
    cases h
  rw [if_neg hneg] at h
  obtain rfl := Option.some.inj h
  unfold memphyFormat
  dsimp only
  split_ifs <;> exact ⟨rfl, rfl, rfl⟩

theorem initMemphy_some (tail : List ℕ) (old : MemphyStruct) {maxSize : ℤ} (h : 0 < maxSize)
    (randomflg : ℤ) : ∃ mp, initMemphy tail old maxSize randomflg = some mp := by
  unfold initMemphy
  rw [if_neg (not_lt.mpr h.le)]
  exact ⟨_, rfl⟩

/-- A sequential device turns every access down, -/
theorem access_refused {mp : MemphyStruct} (h : mp.rdmflg = false) (a : Access) :
    accessWith memphyRead memphyWrite mp a = some (⟨-1, none, mp.cursor⟩, mp) := by
  have hrandom : ¬mp.rdmflg = true := by simp [h]
  cases a with
  | read addr =>
    dsimp only [accessWith, memphyRead, memphySeqRead]
    rw [if_neg hrandom, if_pos h]
    rfl
  | write addr data =>
    dsimp only [accessWith, memphyWrite, memphySeqWrite]
    rw [if_neg hrandom, if_pos h]
    rfl

/-- and a random-access device none that is in the storage. -/
theorem access_random {mp : MemphyStruct} (h : mp.rdmflg = true) {a : Access}
    (hin : mp.InStorage a.addr) :
    ∃ shown next, accessWith memphyRead memphyWrite mp a = some (shown, next) ∧ shown.rc = 0 := by
  obtain ⟨_, _, shown, next, -, hrun, -, -, -, hrc, -⟩ := seqAccess_step ⟨rfl, rfl, h, h⟩ hin
  exact ⟨shown, next, hrun, hrc⟩

theorem runWith_head {step : MemphyStruct → Access → Option (Shown × MemphyStruct)}
    {mp last : MemphyStruct} {a : Access} {rest : List Access} {shown : List Shown}
    (h : runWith step mp (a :: rest) = some (shown, last)) :
    ∃ s next, step mp a = some (s, next) ∧ (shown.map Shown.rc).head? = some s.rc := by
  unfold runWith at h
  obtain ⟨first, hstep, h⟩ := Option.bind_eq_some_iff.mp h
  obtain ⟨others, -, h⟩ := Option.bind_eq_some_iff.mp h
  obtain ⟨rfl, -⟩ := Prod.mk.inj (Option.some.inj h)
  exact ⟨first.1, first.2, hstep, rfl⟩

/-- The two modes agree on the empty sequence of accesses, and on no other. -/
theorem sequential_agrees_iff {maxSize randomflg : ℤ} (hmax : 0 < maxSize) (hrandom : randomflg ≠ 0)
    (tail tail' : List ℕ) (old old' : MemphyStruct) (ops : List Access)
    (hin : ∀ a ∈ ops, 0 ≤ a.addr ∧ a.addr < maxSize) :
    ∃ mp mp', initMemphy tail old maxSize 0 = some mp ∧
      initMemphy tail' old' maxSize randomflg = some mp' ∧
      (AgreeOn (accesses mp ops) (accesses mp' ops) ops ↔ ops = []) := by
  obtain ⟨mp, hmp⟩ := initMemphy_some tail old hmax 0
  obtain ⟨mp', hmp'⟩ := initMemphy_some tail' old' hmax randomflg
  obtain ⟨hstorage, -, hseq⟩ := initMemphy_fields hmp
  obtain ⟨hstorage', hmax', hrnd⟩ := initMemphy_fields hmp'
  refine ⟨mp, mp', hmp, hmp', fun hagree => ?_, fun hnil => ?_⟩
  · cases ops with
    | nil => rfl
    | cons a rest =>
      obtain ⟨shown, last, shown', last', hrun, hrun', hrcs, -⟩ := hagree
      obtain ⟨s, next, hstep, hhead⟩ := runWith_head hrun
      obtain ⟨s', next', hstep', hhead'⟩ := runWith_head hrun'
      rw [access_refused hseq] at hstep
      obtain ⟨rfl, -⟩ := Prod.mk.inj (Option.some.inj hstep)
      have hzero : s'.rc = 0 := by
        have hstorage : mp'.InStorage a.addr := by
          rw [MemphyStruct.InStorage, hmax']
          exact hin a (List.mem_cons_self ..)
        obtain ⟨r, n, hr, hrc⟩ := access_random (by rw [hrnd]; simpa using hrandom) hstorage
        rw [hr] at hstep'
        obtain ⟨rfl, -⟩ := Prod.mk.inj (Option.some.inj hstep')
        exact hrc
      rw [hrcs, hhead', hzero] at hhead
      norm_num at hhead
  · subst hnil
    exact ⟨[], mp, [], mp', rfl, rfl, rfl, rfl, hstorage.trans hstorage'.symm, rfl⟩

/-- Devices of two frames agree before the first access, and not on a write that is
read back. -/
theorem sequential_agrees_only_none :
    (∃ mp mp', initMemphy [] .zero 512 0 = some mp ∧ initMemphy [] .zero 512 1 = some mp' ∧
      AgreeOn (accesses mp []) (accesses mp' []) []) ∧
    ∃ mp mp', initMemphy [] .zero 512 0 = some mp ∧ initMemphy [] .zero 512 1 = some mp' ∧
      ¬AgreeOn (accesses mp [.write 300 9, .read 300]) (accesses mp' [.write 300 9, .read 300])
        [.write 300 9, .read 300] := by
  constructor
  · obtain ⟨mp, mp', hmp, hmp', hiff⟩ := sequential_agrees_iff (by norm_num : (0 : ℤ) < 512)
      one_ne_zero [] [] .zero .zero [] (by simp)
    exact ⟨mp, mp', hmp, hmp', hiff.mpr rfl⟩
  · obtain ⟨mp, mp', hmp, hmp', hiff⟩ := sequential_agrees_iff (by norm_num : (0 : ℤ) < 512)
      one_ne_zero [] [] .zero .zero [.write 300 9, .read 300] (by simp [Access.addr])
    exact ⟨mp, mp', hmp, hmp', fun h => List.cons_ne_nil _ _ (hiff.mp h)⟩

/-- One read at address 0: -1 from the sequential device, 0 from the other. -/
theorem sequential_read_refused :
    ((initMemphy [] .zero 256 0).bind fun mp => (accesses mp [.read 0]).map fun r =>
        r.1.map Shown.rc) = some [-1] ∧
      ((initMemphy [] .zero 256 1).bind fun mp => (accesses mp [.read 0]).map fun r =>
        r.1.map Shown.rc) = some [0] ∧
      ¬∀ mp mp', initMemphy [] .zero 256 0 = some mp → initMemphy [] .zero 256 1 = some mp' →
        AgreeOn (accesses mp [.read 0]) (accesses mp' [.read 0]) [.read 0] := by
  have hseq : ((initMemphy [] .zero 256 0).bind fun mp => (accesses mp [.read 0]).map fun r =>
      r.1.map Shown.rc) = some [-1] := by decide +kernel
  have hrnd : ((initMemphy [] .zero 256 1).bind fun mp => (accesses mp [.read 0]).map fun r =>
      r.1.map Shown.rc) = some [0] := by decide +kernel
  refine ⟨hseq, hrnd, fun hall => ?_⟩
  obtain ⟨mp, hmp⟩ := initMemphy_some [] .zero (by norm_num : (0 : ℤ) < 256) 0
  obtain ⟨mp', hmp'⟩ := initMemphy_some [] .zero (by norm_num : (0 : ℤ) < 256) 1
  obtain ⟨shown, last, shown', last', hrun, hrun', hrcs, -⟩ := hall mp mp' hmp hmp'
  rw [hmp, Option.bind_some, hrun] at hseq
  rw [hmp', Option.bind_some, hrun'] at hrnd
  have hcodes := hseq.symm.trans ((congrArg some hrcs).trans hrnd)
  norm_num at hcodes

end OsSim.Mem
