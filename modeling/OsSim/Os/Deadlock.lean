import OsSim.Os.Locking

/-!
# No self-deadlock

Each function takes a mutex only while it is free and leaves the mutexes as it found
them, on every path: the calls inside a function happen between its sections or
with the lock dropped around them.
-/

namespace OsSim.Os
open OsSim.Base OsSim.Sched OsSim.Mem

namespace Locked
open Locking

section Held
variable {held : Mutex → Bool}

theorem leads_enlistVmFreergList (h : held .mmvm = false) (mm : Mm) (rgElmt : VmRg) :
    (enlistVmFreergList mm rgElmt).Leads held held := by
  unfold enlistVmFreergList
  refine (Leads.acquire h mm).bind fun mm => ?_
  refine (Leads.ofOption _ _).bind fun v => ?_
  split
  · exact Leads.leave h _
  · exact Leads.leave h _

theorem leads_getFreeVmrgArea (h : held .mmvm = false) (mm : Mm) (vmaid size : ℤ) :
    (getFreeVmrgArea mm vmaid size).Leads held held := by
  unfold getFreeVmrgArea
  refine (Leads.acquire h mm).bind fun mm => ?_
  refine (Leads.ofOption _ _).bind fun ptr => ?_
  refine (Leads.ofOption _ _).bind fun i => ?_
  refine (Leads.ofOption _ _).bind fun curVma => ?_
  split
  · exact Leads.leave h _
  · split
    · exact Leads.leave h _
    · exact Leads.leave h _

/-- The common end of both ways through `__alloc`. -/
theorem leads_setSymrg (h : held .mmvm = false) (caller : Pcb) (rgid : ℤ) (rgnode : VmRg) :
    (do
      let caller ← acquire .mmvm caller
      let mm ← ofOption (setSymrg caller.mm rgid rgnode)
      release .mmvm
      pure ((0 : ℤ), some (toInt rgnode.rgStart), { caller with mm := mm }) :
        Locking Mutex (ℤ × Option ℤ × Pcb)).Leads held held := by
  refine (Leads.acquire h caller).bind fun caller => ?_
  refine (Leads.ofOption _ _).bind fun mm => ?_
  exact Leads.leave h _

theorem leads_alloc (h : held .mmvm = false) (caller : Pcb) (vmaid rgid size : ℤ) :
    (alloc caller vmaid rgid size).Leads held held := by
  unfold alloc
  refine (leads_getFreeVmrgArea h _ vmaid size).bind fun found => ?_
  cases found with
  | some r => exact leads_setSymrg h _ rgid r.1
  | none =>
    refine (Leads.acquire h caller).bind fun caller => ?_
    refine (Leads.ofOption _ _).bind fun ptr => ?_
    refine (Leads.ofOption _ _).bind fun i => ?_
    refine (Leads.ofOption _ _).bind fun curVma => ?_
    refine (Leads.release h).bind fun _ => ?_
    refine (Leads.ofOption _ _).bind fun r => ?_
    dsimp only
    split
    · exact Leads.pure _ _
    · refine (Leads.acquire h r.2.2).bind fun caller => ?_
      refine (Leads.ofOption _ _).bind fun cur => ?_
      refine (Leads.release h).bind fun _ => ?_
      refine (leads_getFreeVmrgArea h _ vmaid size).bind fun found => ?_
      cases found with
      | none => exact Leads.pure _ _
      | some r => exact leads_setSymrg h _ rgid r.1

theorem leads_free (h : held .mmvm = false) (caller : Pcb) (rgid : ℤ) :
    (free caller rgid).Leads held held := by
  unfold free
  refine (Leads.acquire h caller).bind fun caller => ?_
  split
  · exact Leads.leave h _
  · refine (Leads.ofOption _ _).bind fun symrg => ?_
    cases symrg with
    | none => exact Leads.leave h _
    | some rgnode =>
      refine (Leads.release h).bind fun _ => ?_
      refine (leads_enlistVmFreergList h _ _).bind fun r => ?_
      dsimp only
      split
      · exact Leads.pure _ _
      · exact Leads.pure _ _

theorem leads_findVictimPage (h : held .mmvm = false) (mm : Mm) :
    (findVictimPage mm).Leads held held := by
  unfold findVictimPage
  refine (Leads.acquire h mm).bind fun mm => ?_
  split
  · exact Leads.leave h _
  · exact Leads.leave h _

/-- The lock is free whenever a function that takes it is called, and held across both
swaps. -/
theorem leads_pgGetpage (h : held .mmvm = false) (caller : Pcb) (pgn : ℕ) :
    (pgGetpage caller pgn).Leads held held := by
  unfold pgGetpage
  refine (Leads.acquire h caller).bind fun caller => ?_
  refine (Leads.ofOption _ _).bind fun pte => ?_
  split
  · exact Leads.leave h _
  · refine (Leads.release h).bind fun _ => ?_
    refine (leads_findVictimPage h caller.mm).bind fun victim => ?_
    refine (Leads.ofOption _ _).bind fun page => ?_
    refine (Leads.ofOption _ _).bind fun frame => ?_
    refine (Leads.acquire h _).bind fun caller => ?_
    refine (Leads.ofOption _ _).bind fun vicpte => ?_
    refine (Leads.ofOption _ _).bind fun out => ?_
    dsimp only
    split
    · exact Leads.leave h _
    · refine (Leads.ofOption _ _).bind fun back => ?_
      split
      · exact Leads.leave h _
      · exact Leads.leave h _

theorem leads_pgGetval (h : held .mmvm = false) (caller : Pcb) (addr : ℤ) :
    (pgGetval caller addr).Leads held held := by
  unfold pgGetval
  refine (leads_pgGetpage h caller _).bind fun page => ?_
  dsimp only
  split
  · exact Leads.pure _ _
  · refine (Leads.ofOption _ _).bind fun fpn => ?_
    refine (Leads.ofOption _ _).bind fun r => ?_
    split
    · exact Leads.pure _ _
    · exact Leads.pure _ _

theorem leads_pgSetval (h : held .mmvm = false) (caller : Pcb) (addr : ℤ) (value : Byte) :
    (pgSetval caller addr value).Leads held held := by
  unfold pgSetval
  refine (leads_pgGetpage h caller _).bind fun page => ?_
  dsimp only
  split
  · exact Leads.pure _ _
  · refine (Leads.ofOption _ _).bind fun fpn => ?_
    refine (Leads.ofOption _ _).bind fun r => ?_
    split
    · exact Leads.pure _ _
    · exact (Leads.ofOption _ _).bind fun w => Leads.pure _ _

theorem leads_read (h : held .mmvm = false) (caller : Pcb) (vmaid rgid offset : ℤ) :
    (read caller vmaid rgid offset).Leads held held := by
  unfold read
  refine (Leads.ofOption _ _).bind fun currg => ?_
  refine (Leads.ofOption _ _).bind fun curVma => ?_
  split
  · exact (leads_pgGetval h caller _).bind fun _ => Leads.pure _ _
  · exact Leads.pure _ _

theorem leads_write (h : held .mmvm = false) (caller : Pcb) (vmaid rgid offset : ℤ)
    (value : Byte) : (write caller vmaid rgid offset value).Leads held held := by
  unfold write
  refine (Leads.ofOption _ _).bind fun currg => ?_
  refine (Leads.ofOption _ _).bind fun curVma => ?_
  split
  · exact (leads_pgSetval h caller _ value).bind fun _ => Leads.pure _ _
  · exact Leads.pure _ _

theorem leads_liballoc (h : held .mmvm = false) (proc : Pcb) (size regIndex : BitVec 32) :
    (liballoc proc size regIndex).Leads held held :=
  (leads_alloc h proc 0 _ _).bind fun _ => Leads.pure _ _

theorem leads_libfree (h : held .mmvm = false) (proc : Pcb) (regIndex : BitVec 32) :
    (libfree proc regIndex).Leads held held := leads_free h proc _

theorem leads_libread (h : held .mmvm = false) (proc : Pcb) (source offset : BitVec 32) :
    (libread proc source offset).Leads held held :=
  (leads_read h proc 0 _ _).bind fun _ => Leads.pure _ _

theorem leads_libwrite (h : held .mmvm = false) (proc : Pcb) (data : Byte)
    (destination offset : BitVec 32) : (libwrite proc data destination offset).Leads held held :=
  leads_write h proc 0 _ _ data

section Sched
variable {P : Type} (prio : P → ℕ)

/-- Either return of the loop leaves the section. -/
theorem leads_queueEmptyFrom (h : held .queue = false) (s : SchedState P) (levels : List ℕ) :
    (queueEmptyFrom s levels).Leads (Function.update held .queue true) held := by
  induction levels with
  | nil => exact Leads.leave h _
  | cons i rest ih =>
    unfold queueEmptyFrom
    split
    · exact Leads.leave h _
    · exact ih

theorem leads_queueEmpty (h : held .queue = false) (s : SchedState P) :
    (queueEmpty s).Leads held held :=
  (Leads.acquire h s).bind fun s => leads_queueEmptyFrom h s _

theorem leads_searchFrom (h : held .queue = false) (s : SchedState P) (offsets : List ℕ) :
    (searchFrom prio s offsets).Leads (Function.update held .queue true) held := by
  induction offsets with
  | nil => exact Leads.leave h _
  | cons offset rest ih =>
    unfold searchFrom
    dsimp only
    split
    · exact Leads.leave h _
    · exact ih

theorem leads_getProc (h : held .queue = false) (s : SchedState P) :
    (getProc prio s).Leads held held := by
  unfold getProc getMlqProc
  refine (leads_queueEmpty h s).bind fun isEmpty => ?_
  split
  · exact Leads.pure _ _
  · refine (Leads.acquire h s).bind fun s => ?_
    split
    · exact Leads.leave h _
    · exact leads_searchFrom prio h s _

theorem leads_enqueueLevel (h : held .queue = false) (s : SchedState P) (p : P) :
    (enqueueLevel prio s p).Leads held held :=
  (Leads.acquire h s).bind fun _ => Leads.leave h _

theorem leads_enqueueRunning (h : held .queue = false) (s : SchedState P) (p : P) :
    (enqueueRunning s p).Leads held held :=
  (Leads.acquire h s).bind fun _ => Leads.leave h _

theorem leads_putProc (h : held .queue = false) (s : SchedState P) (p : P) :
    (putProc prio s p).Leads held held :=
  (leads_enqueueRunning h s p).bind fun s => leads_enqueueLevel prio h s p

theorem leads_addProc (h : held .queue = false) (s : SchedState P) (p : P) :
    (addProc prio s p).Leads held held :=
  (leads_enqueueRunning h s p).bind fun s => leads_enqueueLevel prio h s p

end Sched

section Killall
variable {P : Type} [DecidableEq P]

theorem leads_userByte (h : held .mmvm = false) (mem : MemSys P) (caller : P)
    (userSrc : BitVec 32) (i : ℕ) : (userByte mem caller userSrc i).Leads held held :=
  (leads_libread h _ _ _).bind fun _ => Leads.pure _ _

theorem leads_copyLoop (h : held .mmvm = false) (caller : P) (userSrc : BitVec 32)
    (offsets : List ℕ) (mem : MemSys P) :
    (copyLoop caller userSrc offsets mem).Leads held held := by
  induction offsets generalizing mem with
  | nil => exact Leads.pure _ _
  | cons i rest ih =>
    unfold copyLoop
    refine (leads_userByte h mem caller userSrc i).bind fun r => ?_
    dsimp only
    split
    · exact Leads.pure _ _
    · refine (Leads.ofOption _ _).bind fun data => ?_
      exact (ih r.2).bind fun _ => Leads.pure _ _

theorem leads_copyFromUser (h : held .mmvm = false) (mem : MemSys P) (caller : P)
    (userSrc : BitVec 32) (size : ℕ) :
    (copyFromUser mem caller userSrc size).Leads held held := by
  unfold copyFromUser
  have hvalid : (vaildUseraddr mem caller userSrc size).Leads held held := by
    unfold vaildUseraddr
    split
    · exact Leads.pure _ _
    · exact (leads_userByte h mem caller userSrc 0).bind fun _ => Leads.pure _ _
  refine hvalid.bind fun r => ?_
  dsimp only
  split
  · exact leads_copyLoop h caller userSrc _ r.2
  · exact Leads.pure _ _

theorem leads_freeRegsFrom (h : held .mmvm = false) (prog : P → Program) (proc : P)
    (regs : List (Fin 10)) (mem : MemSys P) :
    (freeRegsFrom prog proc regs mem).Leads held held := by
  induction regs generalizing mem with
  | nil => exact Leads.pure _ _
  | cons j rest ih =>
    unfold freeRegsFrom
    split
    · exact (leads_libfree h _ _).bind fun r => ih _
    · exact ih mem

theorem leads_freeTerminated (h : held .mmvm = false) (prog : P → Program)
    (terminated : List P) (mem : MemSys P) :
    (freeTerminated prog terminated mem).Leads held held := by
  induction terminated generalizing mem with
  | nil => exact Leads.pure _ _
  | cons proc rest ih => exact (leads_freeRegsFrom h prog proc _ mem).bind fun mem => ih mem

theorem leads_sysKillall (h : held .mmvm = false) (prio : P → ℕ) (prog : P → Program)
    (sched : SchedState P) (mem : MemSys P) (caller : P) (memrg : BitVec 32) :
    (sysKillall prio prog sched mem caller memrg).Leads held held := by
  unfold sysKillall
  refine (leads_copyFromUser h mem caller memrg 99).bind fun r => ?_
  dsimp only
  split
  · exact Leads.pure _ _
  · exact (leads_freeTerminated h prog _ r.2).bind fun _ => Leads.pure _ _

end Killall

end Held

end Locked

/-- No call locks a mutex it holds or unlocks one it does not hold, and it holds none when
it returns. -/
theorem calls_disciplined {P : Type} [DecidableEq P] (prio : P → ℕ) (prog : P → Program) :
    (∀ proc size regIndex, (Locked.liballoc proc size regIndex).Disciplined) ∧
    (∀ proc regIndex, (Locked.libfree proc regIndex).Disciplined) ∧
    (∀ proc source offset, (Locked.libread proc source offset).Disciplined) ∧
    (∀ proc data destination offset,
      (Locked.libwrite proc data destination offset).Disciplined) ∧
    (∀ sched mem caller memrg,
      (Locked.sysKillall prio prog sched mem caller memrg).Disciplined) ∧
    (∀ s, (Locked.getProc prio s).Disciplined) ∧
    (∀ s p, (Locked.putProc prio s p).Disciplined) ∧
    (∀ s p, (Locked.addProc prio s p).Disciplined) := by
  refine ⟨?_, ?_, ?_, ?_, ?_, ?_, ?_, ?_⟩
  · exact fun proc size regIndex => (Locked.leads_liballoc rfl proc size regIndex).disciplined
  · exact fun proc regIndex => (Locked.leads_libfree rfl proc regIndex).disciplined
  · exact fun proc source offset => (Locked.leads_libread rfl proc source offset).disciplined
  · exact fun proc data destination offset =>
      (Locked.leads_libwrite rfl proc data destination offset).disciplined
  · exact fun sched mem caller memrg =>
      (Locked.leads_sysKillall rfl prio prog sched mem caller memrg).disciplined
  · exact fun s => (Locked.leads_getProc prio rfl s).disciplined
  · exact fun s p => (Locked.leads_putProc prio rfl s p).disciplined
  · exact fun s p => (Locked.leads_addProc prio rfl s p).disciplined

end OsSim.Os
