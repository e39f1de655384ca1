import OsSim.Mem.Life
import OsSim.Os.Killall

/-!
# The name of a process on its way through user memory (sys_killall.c:10-48, 71-135)

A program writes the bytes of a name and a terminator into a region; system call 101
copies 99 bytes from the start of the region, whatever its length, and ends the name at
the first `NUL`. `input/proc/sc2` ends it with -1.
-/

namespace OsSim.Os
open OsSim.Base OsSim.Mem

variable {P : Type}

/-- The `libwrite`s of the bytes to consecutive offsets from `i` on. -/
def writesFrom (p : P) (rgid : BitVec 32) : ℕ → List Byte → List (P × MemOp)
  | _, [] => []
  | i, data :: rest =>
    (p, .write data rgid (BitVec.ofNat 32 i)) :: writesFrom p rgid (i + 1) rest

def regionOf (mem : MemSys P) (p : P) (rgid : BitVec 32) : VmRg := (mem.mm p).symrgtbl rgid.toNat

/-- Where `libread` and `libwrite` go for the offset. -/
def userAddr (mem : MemSys P) (p : P) (rgid : BitVec 32) (i : ℕ) : ℤ :=
  (mem.pcb p).accessAddr rgid.toInt i

/-- The byte of `mram` there. -/
def userCell (mem : MemSys P) (p : P) (rgid : BitVec 32) (i : ℕ) : Byte :=
  (mem.dev .mram).storage ((mem.mm p).cell (userAddr mem p rgid i))

section Reads
variable [DecidableEq P]

/-- The offsets the loop of `copy_from_user` calls `libread` with. -/
def copyReads (caller : P) (userSrc : BitVec 32) : List ℕ → MemSys P → List ℕ
  | [], _ => []
  | i :: rest, mem =>
    i :: match userByte mem caller userSrc i with
      | some (ret, mem) => if ret.rc ≠ 0 then [] else copyReads caller userSrc rest mem
      | none => []

/-- All offsets that are read for the name; the test of the address reads the first. -/
def nameReads (mem : MemSys P) (caller : P) (memrg : BitVec 32) : List ℕ :=
  0 :: match vaildUseraddr mem caller memrg 99 with
    | some (true, mem) => copyReads caller memrg (List.range 99) mem
    | _ => []

/-- The call decodes the name, reads the region only and changes no page table and no
byte. -/
def NameSurvives (mem : MemSys P) (p : P) (rgid : BitVec 32) (name : List Byte) : Prop :=
  ∃ mem', procName mem p rgid = some (some name, mem') ∧
    (∀ i ∈ nameReads mem p rgid, (regionOf mem p rgid).Has ((regionOf mem p rgid).rgStart + i)) ∧
    (∀ q, (mem'.mm q).pgd = (mem.mm q).pgd) ∧ ∀ d, (mem'.dev d).storage = (mem.dev d).storage

/-- The copy stays in the region and on present pages, and the bytes of the name are
still where they were written. -/
structure NameInPlace (mem : MemSys P) (p : P) (rgid : BitVec 32) (name : List Byte) : Prop where
  long : (regionOf mem p rgid).rgStart + 99 ≤ (regionOf mem p rgid).rgEnd
  present : ∀ i < 99, (mem.pcb p).Hits (userAddr mem p rgid i)
  bytes : (List.range name.length).map (userCell mem p rgid) = name

end Reads

/-! ### One byte -/

theorem ofNat_toInt {i : ℕ} (h : i < 2147483648) : (BitVec.ofNat 32 i).toInt = i := by
  have hnat : (BitVec.ofNat 32 i).toNat = i := by
    rw [BitVec.toNat_ofNat, Nat.mod_eq_of_lt (by omega)]
  rw [BitVec.toInt_eq_toNat_of_lt (by omega), hnat]

section Byte
variable [DecidableEq P] {mem mem' : MemSys P} {p : P} {rgid : BitVec 32} {i : ℕ}

theorem userByte_of_hits (harea : OneArea mem) (hid : rgid.toNat < 30) (hi : i < 2147483648)
    (h : (mem.pcb p).Hits (userAddr mem p rgid i)) : userByte mem p rgid i =
      some (⟨0, some ((userCell mem p rgid i).signExtend 32)⟩, mem) := by
  obtain ⟨brk, fr, hheap⟩ : ∃ brk fr, HeapIs (mem.pcb p).mm brk fr := harea p
  have hrgid : rgid.toInt = rgid.toNat := BitVec.toInt_eq_toNat_of_lt (by omega)
  have h0 : 0 ≤ rgid.toInt := by omega
  have h30 : rgid.toInt < 30 := by omega
  have hread := Pcb.Hits.read_eq hheap h0 h30 h
  rw [userByte, memCall, libread, ofNat_toInt hi, hread]
  simp only [Option.map_some, MemSys.put_pcb]
  rfl

theorem userByte_cases (hid : rgid.toNat < 30) (hi : i < 2147483648) (harea : OneArea mem)
    {ret : MemRet} (h : userByte mem p rgid i = some (ret, mem')) :
    ∃ rc data proc, pgGetval (mem.pcb p) (userAddr mem p rgid i) = some (rc, data, proc) ∧
      mem' = mem.put p proc := by
  obtain ⟨⟨ret', proc⟩, hcall, heq⟩ := Option.map_eq_some_iff.mp h
  obtain ⟨-, rfl⟩ := Prod.mk.inj heq
  obtain ⟨data, hread⟩ := read_of_memCall hcall
  obtain ⟨brk, fr, hheap⟩ : ∃ brk fr, HeapIs (mem.pcb p).mm brk fr := harea p
  have hrgid : rgid.toInt = rgid.toNat := BitVec.toInt_eq_toNat_of_lt (by omega)
  rw [ofNat_toInt hi, read_getval hheap (by omega) (by omega)] at hread
  obtain ⟨⟨rc, data1, mid⟩, hval, heq⟩ := Option.map_eq_some_iff.mp hread
  simp only [Prod.mk.injEq] at heq
  obtain ⟨-, -, rfl⟩ := heq
  exact ⟨rc, data1, mid, hval, rfl⟩

/-- A read leaves its page present. -/
theorem userByte_present (hid : rgid.toNat < 30) (hi : i < 2147483648) (harea : OneArea mem)
    {ret : MemRet} (h : userByte mem p rgid i = some (ret, mem')) :
    pagingPagePresent ((mem'.mm p).pgd (pagingPgn (userAddr mem p rgid i))) = true := by
  obtain ⟨rc, data, proc, hval, rfl⟩ := userByte_cases hid hi harea h
  rw [mem.put_mm_self]
  exact (pgGetval_step hval).present

theorem userByte_hits (hid : rgid.toNat < 30) (hi : i < 2147483648) (harea : OneArea mem)
    {ret : MemRet} (h : userByte mem p rgid i = some (ret, mem'))
    (hp : pagingPagePresent ((mem.mm p).pgd (pagingPgn (userAddr mem p rgid i))) = true) :
    (mem.pcb p).Hits (userAddr mem p rgid i) := by
  obtain ⟨rc, data, proc, hval, -⟩ := userByte_cases hid hi harea h
  exact hits_of_getval hp hval

end Byte

/-! ### The copy -/

section Copy
variable [DecidableEq P] {mem mem' : MemSys P} {p : P} {rgid : BitVec 32}

theorem copyLoop_of_hits (harea : OneArea mem) (hid : rgid.toNat < 30) {offsets : List ℕ}
    (hits : ∀ i ∈ offsets, i < 2147483648 ∧ (mem.pcb p).Hits (userAddr mem p rgid i)) :
    copyLoop p rgid offsets mem = some (some (offsets.map (userCell mem p rgid)), mem) ∧
      copyReads p rgid offsets mem = offsets := by
  induction offsets with
  | nil => exact ⟨rfl, rfl⟩
  | cons i rest ih =>
    obtain ⟨hi, hhit⟩ := hits i (List.mem_cons_self ..)
    obtain ⟨hcopy, hreads⟩ := ih fun j hj => hits j (List.mem_cons_of_mem _ hj)
    have hbyte := userByte_of_hits harea hid hi hhit
    constructor
    · rw [copyLoop, hbyte, Option.bind_eq_bind, Option.bind_some]
      dsimp only
      rw [if_neg (by norm_num), Option.bind_eq_bind, Option.bind_some, hcopy, byte_signExtend]
      rfl
    · rw [copyReads, hbyte]
      dsimp only
      rw [if_neg (by norm_num), hreads]

theorem present_keeps (n : ℕ) (m : MemSys P) (source offset : BitVec 32) (m' : MemSys P)
    (hn : pagingPagePresent ((m.mm p).pgd n) = true)
    (h : memStep m (p, .read source offset) = some m') :
    pagingPagePresent ((m'.mm p).pgd n) = true := by
  obtain ⟨⟨ret, proc⟩, hcall, rfl⟩ := Option.map_eq_some_iff.mp h
  rw [m.put_mm_self]
  cases memCall_step hcall with
  | read hstep =>
    cases hstep with
    | refused heq =>
      rw [heq]
      exact hn
    | page _ _ hpage => exact hpage.present_mono hn

/-- A copy that leaves the page table as it was found every page present. -/
theorem hits_of_copyLoop (hid : rgid.toNat < 30) {offsets : List ℕ}
    (hsmall : ∀ i ∈ offsets, i < 2147483648) (harea : OneArea mem) {dst : List Byte}
    (hcopy : copyLoop p rgid offsets mem = some (some dst, mem'))
    (hpgd : (mem'.mm p).pgd = (mem.mm p).pgd) :
    ∀ i ∈ offsets, (mem.pcb p).Hits (userAddr mem p rgid i) := by
  induction offsets generalizing dst with
  | nil => simp
  | cons i rest ih =>
    obtain ⟨⟨ret, mid⟩, hbyte, hcopy⟩ := Option.bind_eq_some_iff.mp hcopy
    have hi := hsmall i (List.mem_cons_self ..)
    dsimp only at hcopy
    have hrc : ¬ret.rc ≠ 0 := by
      intro hrc
      simp [if_pos hrc] at hcopy
    rw [if_neg hrc] at hcopy
    obtain ⟨data, -, hcopy⟩ := Option.bind_eq_some_iff.mp hcopy
    obtain ⟨⟨more, mem2⟩, hrest, heq⟩ := Option.bind_eq_some_iff.mp hcopy
    obtain ⟨hmore, rfl⟩ := Prod.mk.inj (Option.some.inj heq)
    obtain ⟨dst', rfl, -⟩ := Option.map_eq_some_iff.mp hmore
    -- the page is present from this read on, so it was before it
    have hmid := userByte_present hid hi harea hbyte
    have hlast := copyLoop_keeps (present_keeps _) hmid hrest
    rw [hpgd] at hlast
    have hhit := userByte_hits hid hi harea hbyte hlast
    rw [userByte_of_hits harea hid hi hhit, Option.some.injEq, Prod.mk.injEq] at hbyte
    obtain ⟨-, rfl⟩ := hbyte
    intro j hj
    cases hj with
    | head => exact hhit
    | tail _ hj => exact ih (fun k hk => hsmall k (List.mem_cons_of_mem _ hk)) hrest j hj

theorem vaildUseraddr_of_hits (harea : OneArea mem) (hid : rgid.toNat < 30)
    (h : (mem.pcb p).Hits (userAddr mem p rgid 0)) :
    vaildUseraddr mem p rgid 99 = some (true, mem) := by
  rw [vaildUseraddr, if_neg (by omega)]
  have hbyte := userByte_of_hits harea hid (by norm_num) h
  rw [hbyte]
  rfl

/-- On present pages the name is what the cells hold. -/
theorem procName_of_hits (harea : OneArea mem) (hid : rgid.toNat < 30)
    (hits : ∀ i < 99, (mem.pcb p).Hits (userAddr mem p rgid i)) :
    procName mem p rgid =
      some (some (((List.range 99).map (userCell mem p rgid)).takeWhile (· ≠ 0)), mem) ∧
      nameReads mem p rgid = 0 :: List.range 99 := by
  have hvalid := vaildUseraddr_of_hits harea hid (hits 0 (by norm_num))
  obtain ⟨hcopy, hreads⟩ := @copyLoop_of_hits P _ mem p rgid harea hid (List.range 99)
    fun i hi => by
      have hlt := List.mem_range.mp hi
      exact ⟨by omega, hits i hlt⟩
  constructor
  · rw [procName, copyFromUser, hvalid, Option.bind_eq_bind, Option.bind_some]
    dsimp only
    rw [if_pos rfl, hcopy]
    rfl
  · rw [nameReads, hvalid]
    dsimp only
    rw [hreads]

theorem hits_of_procName (harea : OneArea mem) (hid : rgid.toNat < 30) {name : List Byte}
    (hname : procName mem p rgid = some (some name, mem'))
    (hpgd : (mem'.mm p).pgd = (mem.mm p).pgd) :
    ∀ i < 99, (mem.pcb p).Hits (userAddr mem p rgid i) := by
  obtain ⟨⟨bytes, mem1⟩, hfrom, heq⟩ := Option.map_eq_some_iff.mp hname
  obtain ⟨hbytes, rfl⟩ := Prod.mk.inj heq
  obtain ⟨dst, rfl, -⟩ := Option.map_eq_some_iff.mp hbytes
  obtain ⟨⟨valid, mid⟩, hvalid, hcopy⟩ := Option.bind_eq_some_iff.mp hfrom
  dsimp only at hcopy
  have htrue : valid = true := by
    by_contra hfalse
    simp [if_neg hfalse] at hcopy
  rw [if_pos htrue] at hcopy
  rw [vaildUseraddr, if_neg (by omega)] at hvalid
  obtain ⟨⟨ret, mid'⟩, hbyte, heq'⟩ := Option.map_eq_some_iff.mp hvalid
  obtain ⟨-, rfl⟩ := Prod.mk.inj heq'
  have hmid := userByte_present hid (by norm_num) harea (i := 0) hbyte
  have hlast := copyLoop_keeps (present_keeps _) hmid hcopy
  rw [hpgd] at hlast
  have hhit := userByte_hits hid (by norm_num) harea (i := 0) hbyte hlast
  have hsame := hbyte.symm.trans (userByte_of_hits harea hid (by norm_num) (i := 0) hhit)
  obtain ⟨-, rfl⟩ := Prod.mk.inj (Option.some.inj hsame)
  intro i hi
  exact hits_of_copyLoop hid (fun j hj => by have := List.mem_range.mp hj; omega) harea hcopy hpgd i
    (List.mem_range.mpr hi)

end Copy

/-- The bytes up to the first `NUL` are the name when the name is there and ends so. -/
theorem takeWhile_range {byte : ℕ → Byte} {count : ℕ} {name : List Byte}
    (hlen : name.length < count) (hzero : 0 ∉ name) :
    ((List.range count).map byte).takeWhile (· ≠ 0) = name ↔
      (List.range name.length).map byte = name ∧ byte name.length = 0 := by
  obtain ⟨more, hcount⟩ : ∃ more, count = name.length + (1 + more) := ⟨count - name.length - 1, by omega⟩
  have hsplit : (List.range count).map byte = (List.range name.length).map byte ++
      byte name.length :: (List.range more).map fun j => byte (name.length + (1 + j)) := by
    rw [hcount, List.range_add, List.map_append, Nat.add_comm 1, List.range_succ_eq_map]
    simp [Function.comp_def, Nat.add_comm]
  have hpass : ∀ b ∈ name, decide (b ≠ 0) = true := by
    intro b hb
    exact decide_eq_true fun hb0 => hzero (hb0 ▸ hb)
  constructor
  · intro htake
    have hfirst : (List.range name.length).map byte = name := by
      have hname : name <+: (List.range count).map byte := htake ▸ List.takeWhile_prefix _
      have hpre : (List.range name.length).map byte <+: (List.range count).map byte :=
        ⟨_, hsplit.symm⟩
      exact (List.prefix_of_prefix_length_le hpre hname (by simp)).eq_of_length (by simp)
    refine ⟨hfirst, ?_⟩
    by_contra hne
    rw [hsplit, hfirst, List.takeWhile_append_of_pos hpass,
      List.takeWhile_cons_of_pos (by simpa using hne)] at htake
    have hlength := congrArg List.length htake
    simp at hlength
  · rintro ⟨hfirst, hlast⟩
    rw [hsplit, hfirst, List.takeWhile_append_of_pos hpass,
      List.takeWhile_cons_of_neg (by simp [hlast]), List.append_nil]

/-! ### The writes -/

theorem writesFrom_append (p : P) (rgid : BitVec 32) (i : ℕ) (first rest : List Byte) :
    writesFrom p rgid i (first ++ rest) =
      writesFrom p rgid i first ++ writesFrom p rgid (i + first.length) rest := by
  induction first generalizing i with
  | nil => rfl
  | cons data first ih =>
    rw [List.cons_append, writesFrom, writesFrom, ih, List.length_cons, List.cons_append,
      Nat.add_assoc, Nat.add_comm 1]

/-- 99 consecutive bytes are in different cells, whatever frames their pages have. -/
theorem userAddr_cell_inj (mem : MemSys P) {i j : ℕ} (hi : i < 99) (hj : j < 99)
    (h : (mem.mm p).cell (userAddr mem p rgid i) = (mem.mm p).cell (userAddr mem p rgid j)) :
    i = j := by
  have haddr : ∀ k, (pagingOffst (userAddr mem p rgid k) : ℤ) =
      (((mem.mm p).symrgtbl rgid.toInt.toNat).rgStart + (k : ℤ)) % 256 := by
    intro k
    rw [pagingOffst_eq, userAddr, Pcb.accessAddr, toInt_emod, toULong_emod]
    rfl
  have hi' := haddr i
  have hj' := haddr j
  rw [Mm.cell, Mm.cell] at h
  omega

section Writes
variable [DecidableEq P] {s t : RegionSys P} {p : P} {rgid : BitVec 32}

theorem run_oneArea {labels : List (P × MemOp)} (hrun : Run regionSystem s labels t)
    (harea : OneArea s.mem) : OneArea t.mem :=
  hrun.invariant (fun s => OneArea s.mem)
    (fun _ _ _ hs hnext => memStep_oneArea hs (regionStep_mem hnext)) harea

theorem write_cases {i : ℕ} (harea : OneArea s.mem) (hid : rgid.toNat < 30)
    (hi : i < 2147483648) {data : Byte}
    (h : regionStep s (p, .write data rgid (BitVec.ofNat 32 i)) = some t) :
    ∃ rc proc, pgSetval (s.mem.pcb p) (userAddr s.mem p rgid i) data = some (rc, proc) ∧
      t.mem = s.mem.put p proc := by
  obtain ⟨⟨ret, proc⟩, hcall, rfl⟩ := Option.map_eq_some_iff.mp h
  have hlib := libwrite_of_memCall hcall
  obtain ⟨brk, fr, hheap⟩ : ∃ brk fr, HeapIs (s.mem.pcb p).mm brk fr := harea p
  have hrgid : rgid.toInt = rgid.toNat := BitVec.toInt_eq_toNat_of_lt (by omega)
  rw [libwrite, ofNat_toInt hi, write_setval hheap (by omega) (by omega)] at hlib
  obtain ⟨⟨rc', proc'⟩, hval, heq⟩ := Option.map_eq_some_iff.mp hlib
  obtain ⟨-, rfl⟩ := Prod.mk.inj heq
  exact ⟨rc', proc', hval, rfl⟩

/-- The byte just written is in its cell, even after a page fault. -/
theorem userCell_written {i : ℕ} (harea : OneArea s.mem) (hid : rgid.toNat < 30)
    (hi : i < 2147483648) {data : Byte}
    (h : regionStep s (p, .write data rgid (BitVec.ofNat 32 i)) = some t)
    (hits : (t.mem.pcb p).Hits (userAddr t.mem p rgid i)) : userCell t.mem p rgid i = data := by
  obtain ⟨rc, proc, hval, hput⟩ := write_cases harea hid hi h
  have hpcb : t.mem.pcb p = proc := by
    rw [hput, MemSys.put_pcb_self]
  have hsym : proc.mm.symrgtbl = (s.mem.pcb p).mm.symrgtbl := by
    cases pgSetval_step hval with
    | hit _ hmm => rw [hmm]
    | fault vic swpfpn older frames _ _ _ hmm =>
      rw [hmm]
      rfl
  have haddr : userAddr t.mem p rgid i = userAddr s.mem p rgid i := by
    rw [userAddr, userAddr, hpcb, Pcb.accessAddr, Pcb.accessAddr, hsym]
  have hcell : userCell t.mem p rgid i =
      ((t.mem.pcb p).dev .mram).storage ((t.mem.pcb p).mm.cell (userAddr t.mem p rgid i)) := rfl
  rw [hpcb, haddr] at hits hcell
  rw [hcell]
  exact pgSetval_stored hval hits

theorem write_hit {i : ℕ} (harea : OneArea s.mem) (hid : rgid.toNat < 30) (hi : i < 99)
    {data : Byte} (h : regionStep s (p, .write data rgid (BitVec.ofNat 32 i)) = some t)
    (hits : ∀ j < 99, (s.mem.pcb p).Hits (userAddr s.mem p rgid j)) :
    t.mem.mm p = s.mem.mm p ∧ (∀ j < 99, (t.mem.pcb p).Hits (userAddr t.mem p rgid j)) ∧
      userCell t.mem p rgid i = data ∧
      ∀ j < 99, j ≠ i → userCell t.mem p rgid j = userCell s.mem p rgid j := by
  obtain ⟨rc, proc, hval, hput⟩ := write_cases harea hid (by omega) h
  have hstore := (hits i hi).setval data
  obtain ⟨-, rfl⟩ := Prod.mk.inj (Option.some.inj (hval.symm.trans hstore))
  have hmm : t.mem.mm p = s.mem.mm p := by
    rw [hput, s.mem.put_mm_self]
    rfl
  have haddr : ∀ j, userAddr t.mem p rgid j = userAddr s.mem p rgid j := by
    intro j
    rw [userAddr, userAddr, MemSys.pcb, hmm]
    rfl
  have hdev : t.mem.dev .mram = { s.mem.dev .mram with
      storage := Function.update (s.mem.dev .mram).storage
        ((s.mem.mm p).cell (userAddr s.mem p rgid i)) data } := by
    rw [hput]
    exact Pcb.store_mram ..
  have hcell : ∀ j, userCell t.mem p rgid j = Function.update (s.mem.dev .mram).storage
      ((s.mem.mm p).cell (userAddr s.mem p rgid i)) data
      ((s.mem.mm p).cell (userAddr s.mem p rgid j)) := by
    intro j
    rw [userCell, hdev, hmm, haddr]
  refine ⟨hmm, fun j hj => ?_, ?_, fun j hj hne => ?_⟩
  · have hj' := hits j hj
    rw [haddr]
    refine ⟨?_, ?_, ?_⟩
    · rw [MemSys.pcb, hmm]
      exact hj'.present
    · change (t.mem.dev .mram).rdmflg = true
      rw [hdev]
      exact hj'.random
    · change (((t.mem.mm p).cell (userAddr s.mem p rgid j) : ℕ) : ℤ) < (t.mem.dev .mram).maxsz
      rw [hdev, hmm]
      exact hj'.inside
  · rw [hcell, Function.update_self]
  · rw [hcell, Function.update_of_ne fun heq => hne (userAddr_cell_inj s.mem hj hi heq)]
    rfl

/-- On present pages the bytes end up in their cells. -/
theorem run_writes_hits {i : ℕ} {bytes : List Byte}
    (hrun : Run regionSystem s (writesFrom p rgid i bytes) t) (harea : OneArea s.mem)
    (hid : rgid.toNat < 30) (hlen : i + bytes.length ≤ 99)
    (hits : ∀ j < 99, (s.mem.pcb p).Hits (userAddr s.mem p rgid j)) :
    t.mem.mm p = s.mem.mm p ∧ (∀ j < 99, (t.mem.pcb p).Hits (userAddr t.mem p rgid j)) ∧
      (∀ j < i, userCell t.mem p rgid j = userCell s.mem p rgid j) ∧
      (List.range bytes.length).map (fun j => userCell t.mem p rgid (i + j)) = bytes := by
  induction bytes generalizing i s with
  | nil =>
    cases hrun with
    | nil => exact ⟨rfl, hits, fun _ _ => rfl, rfl⟩
  | cons data rest ih =>
    rw [List.length_cons] at hlen
    cases hrun with
    | @cons _ m _ _ _ hnext hrest =>
      obtain ⟨hmm, hits', hnew, hold⟩ := write_hit harea hid (by omega) hnext hits
      have harea' := memStep_oneArea harea (regionStep_mem hnext)
      obtain ⟨hmm', hits'', hold', hbytes⟩ := ih hrest harea' (by omega) hits'
      refine ⟨hmm'.trans hmm, hits'', fun j hj => ?_, ?_⟩
      · rw [hold' j (by omega), hold j (by omega) (by omega)]
      · have hfirst : userCell t.mem p rgid (i + 0) = data := by
          rw [Nat.add_zero, hold' i (by omega), hnew]
        have hshift : ∀ j, ((fun j => userCell t.mem p rgid (i + j)) ∘ Nat.succ) j =
            userCell t.mem p rgid (i + 1 + j) := by
          intro j
          rw [Function.comp_apply, Nat.succ_eq_add_one, Nat.add_comm j, Nat.add_assoc]
        rw [List.length_cons, List.range_succ_eq_map, List.map_cons, List.map_map, hfirst,
          List.map_congr_left fun j _ => hshift j, hbytes]

end Writes

/-! ### The name -/

theorem nameSurvives_iff [DecidableEq P] {mem : MemSys P} {p : P} {rgid : BitVec 32}
    (harea : OneArea mem) (hid : rgid.toNat < 30) {name : List Byte} (hlen : name.length ≤ 98)
    (hzero : 0 ∉ name) : NameSurvives mem p rgid name ↔
      NameInPlace mem p rgid name ∧ userCell mem p rgid name.length = 0 := by
  constructor
  · rintro ⟨mem', hname, hreads, hpgd, -⟩
    have hits := hits_of_procName harea hid hname (hpgd p)
    obtain ⟨hcopy, hoffsets⟩ := procName_of_hits harea hid hits
    rw [hcopy] at hname
    obtain ⟨htake, -⟩ := Prod.mk.inj (Option.some.inj hname)
    obtain ⟨hbytes, hend⟩ := (takeWhile_range (by omega) hzero).mp (Option.some.inj htake)
    have hlast := hreads 98 (by
      rw [hoffsets]
      exact List.mem_cons_of_mem _ (List.mem_range.mpr (by norm_num)))
    exact ⟨⟨Nat.succ_le_of_lt hlast.2, hits, hbytes⟩, hend⟩
  · rintro ⟨⟨hlong, hits, hbytes⟩, hend⟩
    obtain ⟨hcopy, hoffsets⟩ := procName_of_hits harea hid hits
    rw [(takeWhile_range (by omega) hzero).mpr ⟨hbytes, hend⟩] at hcopy
    refine ⟨mem, hcopy, fun i hi => ?_, fun _ => rfl, fun _ => rfl⟩
    have hi99 : i < 99 := by
      rw [hoffsets] at hi
      rcases List.mem_cons.mp hi with rfl | hi
      · norm_num
      · exact List.mem_range.mp hi
    exact ⟨Nat.le_add_right _ _, by omega⟩

/-- After the writes the call decodes the name, without leaving the region and without
a page fault, exactly when it was ended by 0, the region has 99 bytes, their pages are
present and the bytes of the name are still in place; the last two hold when the pages
were present before the writes. -/
theorem process_name_survives_iff [DecidableEq P] {s t : RegionSys P}
    (h : Reachable regionSystem (fun _ _ => True) s) {p : P} {rgid : BitVec 32}
    (hlive : s.live p rgid.toNat ≠ none) {name : List Byte} (hlen : name.length ≤ 98)
    (hzero : 0 ∉ name) {terminator : Byte}
    (hrun : Run regionSystem s (writesFrom p rgid 0 (name ++ [terminator])) t) :
    (NameSurvives t.mem p rgid name ↔ NameInPlace t.mem p rgid name ∧ terminator = 0) ∧
    ((∀ i < 99, (s.mem.pcb p).Hits (userAddr s.mem p rgid i)) →
      (NameSurvives t.mem p rgid name ↔
        (regionOf s.mem p rgid).rgStart + 99 ≤ (regionOf s.mem p rgid).rgEnd ∧
          terminator = 0)) := by
  have hid := regionSystem_live h hlive
  have harea := regionSystem_oneArea h
  have harea' := run_oneArea hrun harea
  have hfirst : NameSurvives t.mem p rgid name ↔
      NameInPlace t.mem p rgid name ∧ terminator = 0 := by
    rw [nameSurvives_iff harea' hid hlen hzero]
    refine and_congr_right fun hplace => ?_
    rw [writesFrom_append, Nat.zero_add] at hrun
    obtain ⟨m, hfirst, hlast⟩ := hrun.split
    cases hlast with
    | cons hnext hnil =>
      cases hnil with
      | nil =>
        rw [userCell_written (run_oneArea hfirst harea) hid (by omega) hnext
          (hplace.present name.length (by omega))]
  refine ⟨hfirst, fun hits => ?_⟩
  obtain ⟨hmm, hits', -, hbytes⟩ := run_writes_hits hrun harea hid
    (by rw [List.length_append, List.length_singleton]; omega) hits
  have hregion : regionOf t.mem p rgid = regionOf s.mem p rgid := by
    rw [regionOf, regionOf, hmm]
  rw [hfirst, ← hregion]
  refine and_congr_left fun _ => ⟨fun hplace => hplace.long, fun hlong => ⟨hlong, hits', ?_⟩⟩
  rw [List.length_append, List.length_singleton, List.range_succ, List.map_append] at hbytes
  have hname := (List.append_inj hbytes (by simp)).1
  simpa only [Nat.zero_add] using hname

/-- The run of a lone process up to the writes, and the writes. -/
theorem exists_named (bytes : List Byte) (p : RegionSys Unit → RegionSys Unit → Bool)
    (h : (regionStep (loneProcess 512) ((), .alloc 100 1)).any (fun (s : RegionSys Unit) =>
      (runAll regionStep (fun _ _ => True) s (writesFrom () 1 0 bytes)).any (p s)) = true) :
    ∃ s t : RegionSys Unit, Reachable regionSystem (fun _ _ => True) s ∧
      Run regionSystem s (writesFrom () 1 0 bytes) t ∧ p s t = true := by
  obtain ⟨s, hs, ht⟩ := (Option.any_eq_true _ _).mp h
  obtain ⟨t, hrun, hp⟩ := (Option.any_eq_true _ _).mp ht
  exact ⟨s, t, .step (.init (loneProcess_init (by norm_num))) trivial hs,
    run_of_runAll regionStep (fun _ _ => True) (fun _ _ _ => id) _ hrun, hp⟩

theorem process_name_survives_p0 :
    ∃ s t : RegionSys Unit, s.live () 1 = some 100 ∧
      Run regionSystem s (writesFrom () 1 0 [80, 48, 0]) t ∧ NameSurvives t.mem () 1 [80, 48] := by
  obtain ⟨s, t, hs, hrun, hp⟩ := exists_named [80, 48, 0]
    (fun s _ => decide (s.live () 1 = some 100) &&
      (decide (∀ i : ℕ, i < 99 → (s.mem.pcb ()).Hits (userAddr s.mem () 1 i)) &&
      decide ((regionOf s.mem () 1).rgStart + 99 ≤ (regionOf s.mem () 1).rgEnd)))
    (by decide +kernel)
  simp only [Bool.and_eq_true, decide_eq_true_eq] at hp
  obtain ⟨hlive, hits, hlong⟩ := hp
  have hlive' : s.live () (1 : BitVec 32).toNat ≠ none := by
    change s.live () 1 ≠ none
    simp [hlive]
  have hiff := process_name_survives_iff hs hlive' (show ([80, 48] : List Byte).length ≤ 98 by decide)
    (by decide) hrun
  exact ⟨s, t, hlive, hrun, (hiff.2 hits).mpr ⟨hlong, rfl⟩⟩

/-- The program `sc2` ends its name with -1, and that byte becomes part of the name. -/
theorem sc2_name_does_not_survive :
    ∃ s t : RegionSys Unit, Reachable regionSystem (fun _ _ => True) s ∧ s.live () 1 = some 100 ∧
      Run regionSystem s (writesFrom () 1 0 [80, 48, -1]) t ∧
      (procName t.mem () 1).map Prod.fst = some (some [80, 48, -1]) ∧
      ¬NameSurvives t.mem () 1 [80, 48] := by
  obtain ⟨s, t, hs, hrun, hp⟩ := exists_named [80, 48, -1]
    (fun s t => decide (s.live () 1 = some 100) &&
      decide ((procName t.mem () 1).map Prod.fst = some (some [80, 48, -1])))
    (by decide +kernel)
  simp only [Bool.and_eq_true, decide_eq_true_eq] at hp
  obtain ⟨hlive, hname⟩ := hp
  refine ⟨s, t, hs, hlive, hrun, hname, ?_⟩
  rintro ⟨mem', hname', -⟩
  rw [hname', Option.map_some, Option.some.injEq, Option.some.injEq] at hname
  exact absurd hname (by decide)

end OsSim.Os
