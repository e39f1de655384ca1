import OsSim.Base.Locking
import OsSim.Os.Killall

/-!
# The mutexes (libmem.c, sched.c, sys_killall.c)

The functions of the memory library and of the scheduler with their `mmvm_lock` and
`queue_lock` operations, path by path. When a lock is granted the state it protects may
have been changed by the other threads, and an undefined operation may yield anything;
without other threads each function returns what it returns without the locks. The
queues that `__sys_killall` empties it does not lock.
-/

namespace OsSim.Os
open OsSim.Base OsSim.Sched OsSim.Mem

/-- `mmvm_lock` (`libmem.c:27`) and `queue_lock` (`sched.c:12`). -/
inductive Mutex where
  | mmvm
  | queue
  deriving DecidableEq

namespace Locked
open Locking

/-! ### libmem.c -/

/-- `enlist_vm_freerg_list` (`libmem.c:35-58`). -/
def enlistVmFreergList (mm : Mm) (rgElmt : VmRg) : Locking Mutex (ℤ × Mm) := do
  let mm ← acquire .mmvm mm
  let v ← ofOption mm.mmap.head?
  if rgElmt.rgEnd ≤ rgElmt.rgStart then
    release .mmvm
    pure (-1, mm)
  else
    let v := { v with vmFreergList := rgElmt :: v.vmFreergList }
    release .mmvm
    pure (0, { mm with mmap := v :: mm.mmap.tail })

/-- `get_free_vmrg_area` (`libmem.c:500-539`). -/
def getFreeVmrgArea (mm : Mm) (vmaid size : ℤ) : Locking Mutex (Option (VmRg × Mm)) := do
  let mm ← acquire .mmvm mm
  let ptr ← ofOption (getVmaByNum mm vmaid)
  let i ← ofOption ptr
  let curVma ← ofOption mm.mmap[i]?
  if curVma.vmFreergList = [] then
    release .mmvm
    pure none
  else
    match takeFit size curVma.vmFreergList with
    | none =>
      release .mmvm
      pure none
    | some (newrg, rest) =>
      release .mmvm
      pure (some (newrg, mm.setVma i { curVma with vmFreergList := rest }))

/-- `__alloc` (`libmem.c:74-145`). -/
def alloc (caller : Pcb) (vmaid rgid size : ℤ) : Locking Mutex (ℤ × Option ℤ × Pcb) := do
  match ← getFreeVmrgArea caller.mm vmaid size with
  | some (rgnode, mm) =>
    let caller ← acquire .mmvm { caller with mm := mm }
    let mm ← ofOption (setSymrg caller.mm rgid rgnode)
    release .mmvm
    pure (0, some (toInt rgnode.rgStart), { caller with mm := mm })
  | none =>
    let caller ← acquire .mmvm caller
    let ptr ← ofOption (getVmaByNum caller.mm vmaid)
    let i ← ofOption ptr
    let curVma ← ofOption caller.mm.mmap[i]?
    let oldSbrk := toInt curVma.sbrk
    let incSz := pagingPageAlignsz size
    release .mmvm
    let (rc, _, caller) ← ofOption (sysMemmap caller
      ⟨BitVec.ofInt 32 sysmemIncOp, BitVec.ofInt 32 vmaid, BitVec.ofInt 32 incSz⟩)
    if rc < -1 then pure (-1, none, caller)
    else
      let caller ← acquire .mmvm caller
      let cur ← ofOption caller.mm.mmap[i]?
      let rg := initVmRg oldSbrk (oldSbrk + incSz)
      let mm := caller.mm.setVma i { cur with vmFreergList := enlistVmRgNode cur.vmFreergList rg }
      release .mmvm
      match ← getFreeVmrgArea mm vmaid size with
      | none => pure (-1, none, { caller with mm := mm })
      | some (rgnode, mm) =>
        let caller ← acquire .mmvm { caller with mm := mm }
        let mm ← ofOption (setSymrg caller.mm rgid rgnode)
        release .mmvm
        pure (0, some (toInt rgnode.rgStart), { caller with mm := mm })

/-- `__free` (`libmem.c:147-181`). -/
def free (caller : Pcb) (rgid : ℤ) : Locking Mutex (ℤ × Pcb) := do
  let caller ← acquire .mmvm caller
  if rgid < 0 ∨ pagingMaxSymtblSz ≤ rgid then
    release .mmvm
    pure (-1, caller)
  else
    match ← ofOption (getSymrgByid caller.mm rgid) with
    | none =>
      release .mmvm
      pure (-1, caller)
    | some rgnode =>
      release .mmvm
      let (rc, mm) ← enlistVmFreergList caller.mm (initVmRg rgnode.rgStart rgnode.rgEnd)
      if rc ≠ 0 then pure (-1, caller) else pure (0, { caller with mm := mm })

/-- `liballoc` (`libmem.c:183-188`). -/
def liballoc (proc : Pcb) (size regIndex : BitVec 32) : Locking Mutex (ℤ × Pcb) := do
  let (rc, _, proc) ← alloc proc 0 regIndex.toInt size.toInt
  pure (rc, proc)

/-- `libfree` (`libmem.c:191-194`). -/
def libfree (proc : Pcb) (regIndex : BitVec 32) : Locking Mutex (ℤ × Pcb) :=
  free proc regIndex.toInt

/-- `find_victim_page` (`libmem.c:466-491`): no page is the return code -1. -/
def findVictimPage (mm : Mm) : Locking Mutex (Option (ℕ × Mm)) := do
  let mm ← acquire .mmvm mm
  match mm.fifoPgn.getLast? with
  | none =>
    release .mmvm
    pure none
  | some pgn =>
    release .mmvm
    pure (some (pgn, { mm with fifoPgn := mm.fifoPgn.dropLast }))

/-- `pg_getpage` (`libmem.c:196-283`). The return code of `find_victim_page` is not
looked at. System call 17 is made with the lock held, which none of its operations take. -/
def pgGetpage (caller : Pcb) (pgn : ℕ) : Locking Mutex (ℤ × Option ℕ × Pcb) := do
  let caller ← acquire .mmvm caller
  let pte ← ofOption (caller.mm.pte pgn)
  if pagingPagePresent pte then
    release .mmvm
    pure (0, some (pagingFpn pte), caller)
  else
    release .mmvm
    let victim ← findVictimPage caller.mm
    let (vicpgn, mm) ← ofOption victim
    let (swpfpn, mswp) ← ofOption (memphyGetFreefp (caller.dev .activeMswp))
    let caller ← acquire .mmvm (⟨mm, Function.update caller.dev .activeMswp mswp⟩ : Pcb)
    let vicpte ← ofOption (caller.mm.pte vicpgn)
    let vicfpn := pagingFpn vicpte
    let (rc, _, caller) ← ofOption (sysMemmap caller
      ⟨BitVec.ofInt 32 sysmemSwpOp, BitVec.ofNat 32 vicfpn, BitVec.ofNat 32 swpfpn⟩)
    if rc < 0 then
      release .mmvm
      pure (-1, none, caller)
    else
      let tgtfpn := pagingFpn pte
      let (rc, _, caller) ← ofOption (sysMemmap caller
        ⟨BitVec.ofInt 32 sysmemSwpOp, BitVec.ofNat 32 tgtfpn, BitVec.ofNat 32 vicfpn⟩)
      if rc < 0 then
        release .mmvm
        pure (-1, none, caller)
      else
        let mm := caller.mm.setPte vicpgn (pteSetSwap (caller.mm.pgd vicpgn) 0 swpfpn)
        let mm := mm.setPte pgn (pteSetFpn (mm.pgd pgn) vicfpn)
        let mm := { mm with fifoPgn := enlistPgnNode mm.fifoPgn pgn }
        release .mmvm
        pure (0, some (pagingFpn (mm.pgd pgn)), { caller with mm := mm })

/-- `pg_getval` (`libmem.c:292-316`). -/
def pgGetval (caller : Pcb) (addr : ℤ) : Locking Mutex (ℤ × Option Byte × Pcb) := do
  let (rc, fpn, caller) ← pgGetpage caller (pagingPgn addr)
  if rc ≠ 0 then pure (-1, none, caller)
  else
    let fpn ← ofOption fpn
    let phyaddr := toInt (fpn * pagingPagesz + pagingOffst addr)
    let (rc, regs, caller) ← ofOption (sysMemmap caller
      ⟨BitVec.ofInt 32 sysmemIoRead, BitVec.ofInt 32 phyaddr, 0⟩)
    if rc < 0 then pure (-1, none, caller) else pure (0, some (regs.a3.setWidth 8), caller)

/-- `pg_setval` (`libmem.c:324-350`). -/
def pgSetval (caller : Pcb) (addr : ℤ) (value : Byte) : Locking Mutex (ℤ × Pcb) := do
  let (rc, fpn, caller) ← pgGetpage caller (pagingPgn addr)
  if rc ≠ 0 then pure (-1, caller)
  else
    let fpn ← ofOption fpn
    let phyaddr := toInt (fpn * pagingPagesz + pagingOffst addr)
    let (rc, _, caller) ← ofOption (sysMemmap caller
      ⟨BitVec.ofInt 32 sysmemIoWrite, BitVec.ofInt 32 phyaddr, value.signExtend 32⟩)
    if rc < 0 then pure (-1, caller)
    else
      let (_, mram) ← ofOption (memphyWrite (caller.dev .mram) phyaddr value)
      pure (0, { caller with dev := Function.update caller.dev .mram mram })

/-- `__read` (`libmem.c:360-371`). -/
def read (caller : Pcb) (vmaid rgid offset : ℤ) : Locking Mutex (ℤ × Option Byte × Pcb) := do
  let currg ← ofOption (getSymrgByid caller.mm rgid)
  let curVma ← ofOption (getVmaByNum caller.mm vmaid)
  match currg, curVma with
  | some currg, some _ =>
    let (_, data, caller) ← pgGetval caller (toInt (toULong (currg.rgStart + offset)))
    pure (0, data, caller)
  | _, _ => pure (-1, none, caller)

/-- `libread` (`libmem.c:373-388`). -/
def libread (proc : Pcb) (source offset : BitVec 32) :
    Locking Mutex (ℤ × Option (BitVec 32) × Pcb) := do
  let (val, data, proc) ← read proc 0 source.toInt offset.toInt
  pure (val, data.map (BitVec.signExtend 32), proc)

/-- `__write` (`libmem.c:398-409`). -/
def write (caller : Pcb) (vmaid rgid offset : ℤ) (value : Byte) : Locking Mutex (ℤ × Pcb) := do
  let currg ← ofOption (getSymrgByid caller.mm rgid)
  let curVma ← ofOption (getVmaByNum caller.mm vmaid)
  match currg, curVma with
  | some currg, some _ =>
    let (_, caller) ← pgSetval caller (toInt (toULong (currg.rgStart + offset))) value
    pure (0, caller)
  | _, _ => pure (-1, caller)

/-- `libwrite` (`libmem.c:412-428`). -/
def libwrite (proc : Pcb) (data : Byte) (destination offset : BitVec 32) :
    Locking Mutex (ℤ × Pcb) :=
  write proc 0 destination.toInt offset.toInt data

/-! ### sched.c -/

section Sched
variable {P : Type}

/-- The loop of `queue_empty` (`sched.c:26-43`) over the levels to come. -/
def queueEmptyFrom (s : SchedState P) : List ℕ → Locking Mutex Bool
  | [] => do
    release .queue
    pure true
  | i :: rest =>
    if empty (s.mlqReadyQueue i) = false then do
      release .queue
      pure false
    else queueEmptyFrom s rest

def queueEmpty (s : SchedState P) : Locking Mutex Bool := do
  let s ← acquire .queue s
  queueEmptyFrom s (List.range maxPrio)

/-- The search of `get_mlq_proc` (`sched.c:93-110`) over the offsets to come. -/
def searchFrom (prio : P → ℕ) (s : SchedState P) :
    List ℕ → Locking Mutex (Option P × SchedState P)
  | [] => do
    let r := takeFrom prio s 0 (s.slot 0 - 1)
    release .queue
    pure r
  | offset :: rest =>
    let p := (s.currPrio + offset) % maxPrio
    if empty (s.mlqReadyQueue p) = false then do
      let r := takeFrom prio s p (s.slot p - 1)
      release .queue
      pure r
    else searchFrom prio s rest

/-- `get_mlq_proc` (`sched.c:73-111`). The queues may have changed between the test and
the second section. -/
def getMlqProc (prio : P → ℕ) (s : SchedState P) : Locking Mutex (Option P × SchedState P) := do
  let isEmpty ← queueEmpty s
  if isEmpty then pure (none, s)
  else
    let s ← acquire .queue s
    if 0 < s.currSlot ∧ empty (s.mlqReadyQueue s.currPrio) = false then
      let r := takeFrom prio s s.currPrio (s.currSlot - 1)
      release .queue
      pure r
    else searchFrom prio s (List.range' 1 (maxPrio - 1))

/-- `get_proc` (`sched.c:127-130`). -/
def getProc (prio : P → ℕ) (s : SchedState P) : Locking Mutex (Option P × SchedState P) :=
  getMlqProc prio s

/-- The common body of `put_mlq_proc` and `add_mlq_proc`. -/
def enqueueLevel (prio : P → ℕ) (s : SchedState P) (p : P) : Locking Mutex (SchedState P) := do
  let s ← acquire .queue s
  let s := Sched.enqueueLevel prio s p
  release .queue
  pure s

/-- `put_mlq_proc` (`sched.c:113-118`). -/
def putMlqProc (prio : P → ℕ) (s : SchedState P) (p : P) : Locking Mutex (SchedState P) :=
  enqueueLevel prio s p

/-- `add_mlq_proc` (`sched.c:120-125`). -/
def addMlqProc (prio : P → ℕ) (s : SchedState P) (p : P) : Locking Mutex (SchedState P) :=
  enqueueLevel prio s p

/-- `enqueue(&running_list, proc)` under the lock. -/
def enqueueRunning (s : SchedState P) (p : P) : Locking Mutex (SchedState P) := do
  let s ← acquire .queue s
  let s := { s with runningList := enqueue s.runningList p }
  release .queue
  pure s

/-- `put_proc` (`sched.c:132-141`). -/
def putProc (prio : P → ℕ) (s : SchedState P) (p : P) : Locking Mutex (SchedState P) := do
  let s ← enqueueRunning s p
  putMlqProc prio s p

/-- `add_proc` (`sched.c:143-152`). -/
def addProc (prio : P → ℕ) (s : SchedState P) (p : P) : Locking Mutex (SchedState P) := do
  let s ← enqueueRunning s p
  addMlqProc prio s p

end Sched

/-! ### sys_killall.c -/

section Killall
variable {P : Type} [DecidableEq P]

/-- `libread(proc, user_src, i, &data)` by the caller. -/
def userByte (mem : MemSys P) (caller : P) (userSrc : BitVec 32) (i : ℕ) :
    Locking Mutex (MemRet × MemSys P) := do
  let (rc, destination, proc) ← libread (mem.pcb caller) userSrc (BitVec.ofNat 32 i)
  pure (⟨rc, destination⟩, mem.put caller proc)

/-- `vaild_useraddr` (`sys_killall.c:10-27`). -/
def vaildUseraddr (mem : MemSys P) (caller : P) (addr : BitVec 32) (size : ℕ) :
    Locking Mutex (Bool × MemSys P) :=
  if size = 0 ∨ (addr.toNat + size) % 18446744073709551616 < addr.toNat then pure (false, mem)
  else do
    let (ret, mem) ← userByte mem caller addr 0
    pure (ret.rc == 0, mem)

/-- The loop of `copy_from_user` (`sys_killall.c:39-46`) over the offsets to come. -/
def copyLoop (caller : P) (userSrc : BitVec 32) :
    List ℕ → MemSys P → Locking Mutex (Option (List Byte) × MemSys P)
  | [], mem => pure (some [], mem)
  | i :: rest, mem => do
    let (ret, mem) ← userByte mem caller userSrc i
    if ret.rc ≠ 0 then pure (none, mem)
    else
      let data ← ofOption ret.destination
      let (dst, mem) ← copyLoop caller userSrc rest mem
      pure (dst.map fun dst => data.setWidth 8 :: dst, mem)

/-- `copy_from_user` (`sys_killall.c:29-48`). -/
def copyFromUser (mem : MemSys P) (caller : P) (userSrc : BitVec 32) (size : ℕ) :
    Locking Mutex (Option (List Byte) × MemSys P) := do
  let (valid, mem) ← vaildUseraddr mem caller userSrc size
  if valid then copyLoop caller userSrc (List.range size) mem else pure (none, mem)

/-- `libfree(proc, proc->regs[j])` for the registers that are not 0, of the list. -/
def freeRegsFrom (prog : P → Program) (proc : P) :
    List (Fin 10) → MemSys P → Locking Mutex (MemSys P)
  | [], mem => pure mem
  | j :: rest, mem => do
    if (prog proc).regs j ≠ 0 then
      let (_, pcb) ← libfree (mem.pcb proc) ((prog proc).regs j)
      freeRegsFrom prog proc rest (mem.put proc pcb)
    else freeRegsFrom prog proc rest mem

/-- The registers of each terminated process. -/
def freeTerminated (prog : P → Program) : List P → MemSys P → Locking Mutex (MemSys P)
  | [], mem => pure mem
  | proc :: rest, mem => do
    let mem ← freeRegsFrom prog proc (List.finRange 10) mem
    freeTerminated prog rest mem

/-- `__sys_killall` (`sys_killall.c:71-263`): its own code takes no lock. -/
def sysKillall (prio : P → ℕ) (prog : P → Program) (sched : SchedState P) (mem : MemSys P)
    (caller : P) (memrg : BitVec 32) : Locking Mutex (ℤ × SchedState P × MemSys P) := do
  let (bytes, mem) ← copyFromUser mem caller memrg 99
  match bytes.map fun bytes => bytes.takeWhile (· ≠ 0) with
  | none => pure (-1, sched, mem)
  | some name =>
    let (sched, terminated) := killSched prio (fun proc => (prog proc).storedPath = name) sched
    let mem ← freeTerminated prog terminated mem
    pure (terminated.length, sched, mem)

end Killall

/-! ### The results -/

theorem result_enlistVmFreergList (mm : Mm) (rgElmt : VmRg) :
    (enlistVmFreergList mm rgElmt).result = Mem.enlistVmFreergList mm rgElmt := by
  unfold enlistVmFreergList Mem.enlistVmFreergList
  cases hmmap : mm.mmap with
  | nil => simp [hmmap]
  | cons v rest =>
    simp only [result_bind, result_acquire, Option.bind_some, hmmap, List.head?_cons,
      result_ofOption]
    split <;> rfl

theorem result_getFreeVmrgArea (mm : Mm) (vmaid size : ℤ) :
    (getFreeVmrgArea mm vmaid size).result = Mem.getFreeVmrgArea mm vmaid size := by
  unfold getFreeVmrgArea Mem.getFreeVmrgArea
  simp only [result_bind, result_acquire, Option.bind_some, result_ofOption]
  refine congrArg _ (funext fun ptr => congrArg _ (funext fun i => congrArg _ (funext fun v => ?_)))
  cases hlist : v.vmFreergList with
  | nil => rfl
  | cons rg rest =>
    rw [if_neg (by simp)]
    cases takeFit size (rg :: rest) <;> rfl

theorem result_alloc (caller : Pcb) (vmaid rgid size : ℤ) :
    (alloc caller vmaid rgid size).result = Mem.alloc caller vmaid rgid size := by
  unfold alloc Mem.alloc
  simp only [result_bind, result_getFreeVmrgArea]
  refine congrArg _ (funext fun found => ?_)
  cases found with
  | some r => simp
  | none =>
    simp only [result_bind, result_acquire, Option.bind_some, result_ofOption, result_release]
    refine congrArg _ (funext fun ptr => congrArg _ (funext fun i => congrArg _ (funext fun v =>
      congrArg _ (funext fun r => ?_))))
    split
    · rfl
    · simp only [result_bind, result_acquire, Option.bind_some, result_ofOption, result_release,
        result_getFreeVmrgArea]
      refine congrArg _ (funext fun cur => congrArg _ (funext fun found => ?_))
      cases found with
      | none => rfl
      | some r => simp

theorem result_free (caller : Pcb) (rgid : ℤ) : (free caller rgid).result = Mem.free caller rgid := by
  unfold free Mem.free
  simp only [result_bind, result_acquire, Option.bind_some]
  split
  · rfl
  · simp only [result_bind, result_ofOption]
    refine congrArg _ (funext fun symrg => ?_)
    cases symrg with
    | none => rfl
    | some rgnode =>
      simp only [result_bind, result_release, Option.bind_some, result_enlistVmFreergList]
      refine congrArg _ (funext fun r => ?_)
      split <;> rfl

theorem result_findVictimPage (mm : Mm) :
    (findVictimPage mm).result = some (Mem.findVictimPage mm) := by
  unfold findVictimPage Mem.findVictimPage
  simp only [result_bind, result_acquire, Option.bind_some]
  cases mm.fifoPgn.getLast? <;> rfl

theorem result_pgGetpage (caller : Pcb) (pgn : ℕ) :
    (pgGetpage caller pgn).result = Mem.pgGetpage caller pgn := by
  unfold pgGetpage Mem.pgGetpage
  simp only [result_bind, result_acquire, Option.bind_some, result_ofOption]
  refine congrArg _ (funext fun pte => ?_)
  split
  · rfl
  · simp only [result_bind, result_acquire, Option.bind_some, result_ofOption, result_release,
      result_findVictimPage]
    refine congrArg _ (funext fun page => congrArg _ (funext fun frame => congrArg _
      (funext fun vicpte => congrArg _ (funext fun out => ?_))))
    split
    · rfl
    · simp only [result_bind, result_ofOption]
      refine congrArg _ (funext fun back => ?_)
      split <;> rfl

theorem result_pgGetval (caller : Pcb) (addr : ℤ) :
    (pgGetval caller addr).result = Mem.pgGetval caller addr := by
  unfold pgGetval Mem.pgGetval
  simp only [result_bind, result_pgGetpage]
  refine congrArg _ (funext fun page => ?_)
  split
  · rfl
  · simp only [result_bind, result_ofOption]
    refine congrArg _ (funext fun fpn => congrArg _ (funext fun r => ?_))
    split <;> rfl

theorem result_pgSetval (caller : Pcb) (addr : ℤ) (value : Byte) :
    (pgSetval caller addr value).result = Mem.pgSetval caller addr value := by
  unfold pgSetval Mem.pgSetval
  simp only [result_bind, result_pgGetpage]
  refine congrArg _ (funext fun page => ?_)
  split
  · rfl
  · simp only [result_bind, result_ofOption]
    refine congrArg _ (funext fun fpn => congrArg _ (funext fun r => ?_))
    split
    · rfl
    · simp

theorem result_read (caller : Pcb) (vmaid rgid offset : ℤ) :
    (read caller vmaid rgid offset).result = Mem.read caller vmaid rgid offset := by
  unfold read Mem.read
  simp only [result_bind, result_ofOption]
  refine congrArg _ (funext fun currg => congrArg _ (funext fun curVma => ?_))
  cases currg <;> cases curVma <;> simp [result_pgGetval]

theorem result_write (caller : Pcb) (vmaid rgid offset : ℤ) (value : Byte) :
    (write caller vmaid rgid offset value).result = Mem.write caller vmaid rgid offset value := by
  unfold write Mem.write
  simp only [result_bind, result_ofOption]
  refine congrArg _ (funext fun currg => congrArg _ (funext fun curVma => ?_))
  cases currg <;> cases curVma <;> simp [result_pgSetval]

theorem result_liballoc (proc : Pcb) (size regIndex : BitVec 32) :
    (liballoc proc size regIndex).result = Mem.liballoc proc size regIndex := by
  unfold liballoc Mem.liballoc
  rw [result_bind, result_alloc, Option.map_eq_bind]
  rfl

theorem result_libfree (proc : Pcb) (regIndex : BitVec 32) :
    (libfree proc regIndex).result = Mem.libfree proc regIndex := result_free proc _

theorem result_libread (proc : Pcb) (source offset : BitVec 32) :
    (libread proc source offset).result = Mem.libread proc source offset := by
  unfold libread Mem.libread
  rw [result_bind, result_read, Option.map_eq_bind]
  rfl

theorem result_libwrite (proc : Pcb) (data : Byte) (destination offset : BitVec 32) :
    (libwrite proc data destination offset).result = Mem.libwrite proc data destination offset :=
  result_write proc 0 _ _ data

section Sched
variable {P : Type} (prio : P → ℕ)

theorem result_queueEmptyFrom (s : SchedState P) (levels : List ℕ) :
    (queueEmptyFrom s levels).result = some (levels.all fun i => empty (s.mlqReadyQueue i)) := by
  induction levels with
  | nil => rfl
  | cons i rest ih =>
    unfold queueEmptyFrom
    cases hempty : empty (s.mlqReadyQueue i) with
    | false => simp [hempty]
    | true => simp [hempty, ih]

theorem result_queueEmpty (s : SchedState P) :
    (queueEmpty s).result = some (Sched.queueEmpty s) := result_queueEmptyFrom s _

theorem result_searchFrom (s : SchedState P) (offsets : List ℕ) :
    (searchFrom prio s offsets).result = some
      (match (offsets.map fun offset => (s.currPrio + offset) % maxPrio).find?
          fun p => !empty (s.mlqReadyQueue p) with
        | some p => takeFrom prio s p (s.slot p - 1)
        | none => takeFrom prio s 0 (s.slot 0 - 1)) := by
  induction offsets with
  | nil => rfl
  | cons offset rest ih =>
    unfold searchFrom
    cases hempty : empty (s.mlqReadyQueue ((s.currPrio + offset) % maxPrio)) with
    | false => simp [hempty]
    | true => simp [hempty, ih]

theorem result_getProc (s : SchedState P) :
    (getProc prio s).result = some (Sched.getProc prio s) := by
  unfold getProc getMlqProc Sched.getProc Sched.getMlqProc
  simp only [result_bind, result_queueEmpty, Option.bind_some]
  split
  · rfl
  · simp only [result_bind, result_acquire, Option.bind_some]
    split
    · rfl
    · exact result_searchFrom prio s _

theorem result_putProc (s : SchedState P) (p : P) :
    (putProc prio s p).result = some (Sched.putProc prio s p) := rfl

theorem result_addProc (s : SchedState P) (p : P) :
    (addProc prio s p).result = some (Sched.addProc prio s p) := rfl

end Sched

section Killall
variable {P : Type} [DecidableEq P]

theorem result_userByte (mem : MemSys P) (caller : P) (userSrc : BitVec 32) (i : ℕ) :
    (userByte mem caller userSrc i).result = Os.userByte mem caller userSrc i := by
  unfold userByte Os.userByte memCall
  rw [result_bind, result_libread, Option.map_map, Option.map_eq_bind]
  rfl

theorem result_vaildUseraddr (mem : MemSys P) (caller : P) (addr : BitVec 32) (size : ℕ) :
    (vaildUseraddr mem caller addr size).result = Os.vaildUseraddr mem caller addr size := by
  unfold vaildUseraddr Os.vaildUseraddr
  split
  · rfl
  · rw [result_bind, result_userByte, Option.map_eq_bind]
    rfl

theorem result_copyLoop (caller : P) (userSrc : BitVec 32) (offsets : List ℕ) (mem : MemSys P) :
    (copyLoop caller userSrc offsets mem).result = Os.copyLoop caller userSrc offsets mem := by
  induction offsets generalizing mem with
  | nil => rfl
  | cons i rest ih =>
    unfold copyLoop Os.copyLoop
    simp only [result_bind, result_userByte]
    refine congrArg _ (funext fun r => ?_)
    split
    · rfl
    · simp only [result_bind, result_ofOption, ih]
      rfl

theorem result_copyFromUser (mem : MemSys P) (caller : P) (userSrc : BitVec 32) (size : ℕ) :
    (copyFromUser mem caller userSrc size).result = Os.copyFromUser mem caller userSrc size := by
  unfold copyFromUser Os.copyFromUser
  simp only [result_bind, result_vaildUseraddr]
  refine congrArg _ (funext fun r => ?_)
  split
  · exact result_copyLoop caller userSrc _ _
  · rfl

theorem result_freeRegsFrom (prog : P → Program) (proc : P) (regs : List (Fin 10))
    (mem : MemSys P) : (freeRegsFrom prog proc regs mem).result =
      regs.foldlM (fun mem j => if (prog proc).regs j ≠ 0 then
        memStep mem (proc, .free ((prog proc).regs j)) else some mem) mem := by
  induction regs generalizing mem with
  | nil => rfl
  | cons j rest ih =>
    unfold freeRegsFrom
    rw [List.foldlM_cons]
    split
    · simp only [result_bind, result_libfree, ih]
      simp [memStep, memCall, Option.bind_map, Function.comp_def]
    · exact ih mem

theorem result_freeTerminated (prog : P → Program) (terminated : List P) (mem : MemSys P) :
    (freeTerminated prog terminated mem).result = terminated.foldlM (freeRegs prog) mem := by
  induction terminated generalizing mem with
  | nil => rfl
  | cons proc rest ih =>
    unfold freeTerminated
    rw [List.foldlM_cons, result_bind, result_freeRegsFrom]
    simp only [ih]
    rfl

theorem result_sysKillall (prio : P → ℕ) (prog : P → Program) (sched : SchedState P)
    (mem : MemSys P) (caller : P) (memrg : BitVec 32) :
    (sysKillall prio prog sched mem caller memrg).result =
      Os.sysKillall prio prog sched mem caller memrg := by
  unfold sysKillall Os.sysKillall procName
  rw [result_bind, result_copyFromUser]
  cases Os.copyFromUser mem caller memrg 99 with
  | none => rfl
  | some r =>
    simp only [Option.bind_some, Option.map_some, Option.bind_eq_bind]
    cases r.1.map fun bytes => bytes.takeWhile (· ≠ 0) with
    | none => rfl
    | some name =>
      dsimp only
      rw [result_bind, result_freeTerminated]
      rfl

end Killall

end Locked

end OsSim.Os
