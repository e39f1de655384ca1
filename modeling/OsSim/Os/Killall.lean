import OsSim.Mem.FailedGrowth
import OsSim.Sched.Usage

/-!
# System call 101 (sys_killall.c, loader.c:53)

`__sys_killall` copies a name out of a region of the caller, byte by byte
through `libread`, and empties `running_list` and every ready queue through a
temporary queue that gets only the processes whose `proc->path` is not the
name. The field holds what `load` stored, which is bounded by the size of a
pointer.
-/

namespace OsSim.Os
open OsSim.Base OsSim.Sched OsSim.Mem

variable {P : Type}

/-- What `load` and `ld_routine` provide of a process: the path it was loaded from
and its `regs`, which nothing in the paged build writes. -/
structure Program where
  path : List Byte
  regs : Fin 10 → BitVec 32

/-- `sizeof(path)` of the parameter of `load`, a pointer (`loader.c:35`). -/
abbrev sizeofPath : ℕ := 8

/-- `snprintf(buf, size, "%s", s)`: at most `size - 1` characters. -/
def snprintf (size : ℕ) (s : List Byte) : List Byte := s.take (size - 1)

/-- `proc->path` (`loader.c:53`). -/
def Program.storedPath (prog : Program) : List Byte := snprintf (2 * sizeofPath + 1) prog.path

/-! ### The name -/

section Name
variable [DecidableEq P]

/-- `libread(proc, user_src, i, &data)` by the caller. -/
def userByte (mem : MemSys P) (caller : P) (userSrc : BitVec 32) (i : ℕ) :
    Option (MemRet × MemSys P) :=
  (memCall (mem.pcb caller) (.read userSrc (BitVec.ofNat 32 i))).map fun (ret, proc) =>
    (ret, mem.put caller proc)

/-- `vaild_useraddr` (`sys_killall.c:10-27`). The sum is taken in `size_t`. -/
def vaildUseraddr (mem : MemSys P) (caller : P) (addr : BitVec 32) (size : ℕ) :
    Option (Bool × MemSys P) :=
  if size = 0 ∨ (addr.toNat + size) % 18446744073709551616 < addr.toNat then some (false, mem)
  else (userByte mem caller addr 0).map fun (ret, mem) => (ret.rc == 0, mem)

/-- The loop of `copy_from_user` (`sys_killall.c:39-46`) over the offsets to come:
the bytes, none if a read failed. -/
def copyLoop (caller : P) (userSrc : BitVec 32) :
    List ℕ → MemSys P → Option (Option (List Byte) × MemSys P)
  | [], mem => some (some [], mem)
  | i :: rest, mem => do
    let (ret, mem) ← userByte mem caller userSrc i
    if ret.rc ≠ 0 then some (none, mem)
    else
      let data ← ret.destination
      let (dst, mem) ← copyLoop caller userSrc rest mem
      some (dst.map fun dst => data.setWidth 8 :: dst, mem)

/-- `copy_from_user` (`sys_killall.c:29-48`). -/
def copyFromUser (mem : MemSys P) (caller : P) (userSrc : BitVec 32) (size : ℕ) :
    Option (Option (List Byte) × MemSys P) := do
  let (valid, mem) ← vaildUseraddr mem caller userSrc size
  if valid then copyLoop caller userSrc (List.range size) mem else some (none, mem)

/-- `proc_name`: the 99 bytes of the region up to the first `NUL`. -/
def procName (mem : MemSys P) (caller : P) (memrg : BitVec 32) :
    Option (Option (List Byte) × MemSys P) :=
  (copyFromUser mem caller memrg 99).map fun (bytes, mem) =>
    (bytes.map fun bytes => bytes.takeWhile (· ≠ 0), mem)

end Name

/-! ### The queues -/

/-- The first loop on a queue (`sys_killall.c:145-175`, `187-211`): what is left of
the queue, the temporary queue and the processes it terminates. -/
def killLoop (prio : P → ℕ) (named : P → Bool) :
    ℕ → QueueT P → QueueT P → QueueT P × QueueT P × List P
  | 0, q, temp => (q, temp, [])
  | n + 1, q, temp =>
    match dequeue prio q with
    | (none, q) => (q, temp, [])
    | (some proc, q) =>
      if named proc then
        let r := killLoop prio named n q temp
        (r.1, r.2.1, proc :: r.2.2)
      else killLoop prio named n q (enqueue temp proc)

/-- The second loop: the temporary queue back into the queue. -/
def moveLoop (prio : P → ℕ) : ℕ → QueueT P → QueueT P → QueueT P
  | 0, _, q => q
  | n + 1, temp, q =>
    match dequeue prio temp with
    | (none, _) => q
    | (some proc, temp) => moveLoop prio n temp (enqueue q proc)

/-- Both loops on one queue, each run as often as its queue is long. -/
def killQueue (prio : P → ℕ) (named : P → Bool) (q : QueueT P) : QueueT P × List P :=
  let (q, temp, terminated) := killLoop prio named q.size q .new
  (moveLoop prio temp.size temp q, terminated)

/-- `running_list` and then the ready queues by level. -/
def killSched (prio : P → ℕ) (named : P → Bool) (s : SchedState P) : SchedState P × List P :=
  ({ s with
      runningList := (killQueue prio named s.runningList).1
      mlqReadyQueue := fun pr =>
        if pr < maxPrio then (killQueue prio named (s.mlqReadyQueue pr)).1
        else s.mlqReadyQueue pr },
    (killQueue prio named s.runningList).2 ++
      (List.range maxPrio).flatMap fun pr => (killQueue prio named (s.mlqReadyQueue pr)).2)

/-- `libfree(proc, proc->regs[j])` for the registers that are not 0. -/
def freeRegs [DecidableEq P] (prog : P → Program) (mem : MemSys P) (proc : P) :
    Option (MemSys P) :=
  (List.finRange 10).foldlM (fun mem j =>
    if (prog proc).regs j ≠ 0 then memStep mem (proc, .free ((prog proc).regs j)) else some mem) mem

/-- `__sys_killall` (`sys_killall.c:71-263`), in one step. The processes in the queues are
taken to be live: their `path` and `regs` are read. What the loops free does not change
what they dequeue, so the registers are freed after them, in the same order. -/
def sysKillall [DecidableEq P] (prio : P → ℕ) (prog : P → Program) (sched : SchedState P)
    (mem : MemSys P) (caller : P) (memrg : BitVec 32) :
    Option (ℤ × SchedState P × MemSys P) := do
  let (name, mem) ← procName mem caller memrg
  match name with
  | none => some (-1, sched, mem)
  | some name =>
    let (sched, terminated) := killSched prio (fun proc => (prog proc).storedPath = name) sched
    let mem ← terminated.foldlM (freeRegs prog) mem
    some (terminated.length, sched, mem)

/-! ### What the loops leave -/

section Queues
variable (prio : P → ℕ) (named : P → Bool)

theorem dequeue_succ {n : ℕ} {q : QueueT P} (hn : n + 1 = q.toList.length) :
    ∃ proc rest, dequeue prio q = (some proc, rest) ∧ q.toList.Perm (proc :: rest.toList) ∧
      n = rest.toList.length := by
  have hne : q.toList ≠ [] := List.ne_nil_of_length_pos (by omega)
  obtain ⟨before, proc, after, hq, hproc, hrest, -⟩ := dequeue_spec prio q hne
  have hperm : q.toList.Perm (proc :: (dequeue prio q).2.toList) := by
    rw [hq, hrest]
    exact List.perm_middle
  have hlen := hperm.length_eq
  rw [List.length_cons] at hlen
  exact ⟨proc, (dequeue prio q).2, Prod.ext hproc rfl, hperm, by omega⟩

theorem toList_enqueue_room {q : QueueT P} (h : q.toList.length < maxQueueSize) (proc : P) :
    (enqueue q proc).toList = q.toList ++ [proc] := by
  rw [toList_enqueue, if_neg h.ne]

/-- The first loop sorts the queue into the temporary queue and the terminated
processes. -/
theorem killLoop_perm (n : ℕ) {q temp : QueueT P} (hn : n = q.toList.length)
    (hroom : temp.toList.length + n ≤ maxQueueSize) :
    (killLoop prio named n q temp).1.toList = [] ∧
      (killLoop prio named n q temp).2.1.toList.Perm
        (temp.toList ++ q.toList.filter fun proc => !named proc) ∧
      (killLoop prio named n q temp).2.2.Perm (q.toList.filter named) := by
  induction n generalizing q temp with
  | zero =>
    have hnil := List.length_eq_zero_iff.mp hn.symm
    simp [killLoop, hnil]
  | succ n ih =>
    obtain ⟨proc, rest, hdeq, hperm, hlen⟩ := dequeue_succ prio hn
    rw [killLoop, hdeq]
    dsimp only
    by_cases hp : named proc = true
    · obtain ⟨hq, htemp, hterm⟩ := @ih rest temp hlen (by omega)
      rw [if_pos hp]
      refine ⟨hq, htemp.trans (.append_left _ ?_), (hterm.cons proc).trans ?_⟩
      · exact ((hperm.filter _).trans (by simp [hp])).symm
      · exact ((hperm.filter _).trans (by simp [hp])).symm
    · have henq := toList_enqueue_room (q := temp) (by omega) proc
      obtain ⟨hq, htemp, hterm⟩ := @ih rest (enqueue temp proc) hlen (by
        rw [henq, List.length_append, List.length_singleton]
        omega)
      rw [if_neg hp]
      refine ⟨hq, htemp.trans ?_, hterm.trans ?_⟩
      · rw [henq, List.append_assoc]
        exact .append_left _ ((hperm.filter _).trans (by simp [hp])).symm
      · exact ((hperm.filter _).trans (by simp [hp])).symm

theorem moveLoop_perm (n : ℕ) {temp q : QueueT P} (hn : n = temp.toList.length)
    (hroom : q.toList.length + n ≤ maxQueueSize) :
    (moveLoop prio n temp q).toList.Perm (q.toList ++ temp.toList) := by
  induction n generalizing temp q with
  | zero =>
    have hnil := List.length_eq_zero_iff.mp hn.symm
    simp [moveLoop, hnil]
  | succ n ih =>
    obtain ⟨proc, rest, hdeq, hperm, hlen⟩ := dequeue_succ prio hn
    have henq := toList_enqueue_room (q := q) (by omega) proc
    rw [moveLoop, hdeq]
    dsimp only
    have hmove := @ih rest (enqueue q proc) hlen (by
      rw [henq, List.length_append, List.length_singleton]
      omega)
    rw [henq, List.append_assoc] at hmove
    exact hmove.trans (.append_left _ hperm.symm)

theorem killQueue_perm (q : QueueT P) :
    (killQueue prio named q).1.toList.Perm (q.toList.filter fun proc => !named proc) ∧
      (killQueue prio named q).2.Perm (q.toList.filter named) := by
  have hsize : q.size = q.toList.length := q.length_toList.symm
  have hle : q.toList.length ≤ maxQueueSize := hsize ▸ q.size_le
  obtain ⟨hempty, htemp, hterm⟩ := @killLoop_perm _ prio named q.size q .new hsize (by
    rw [QueueT.toList_new, List.length_nil, hsize]
    omega)
  refine ⟨?_, hterm⟩
  unfold killQueue
  dsimp only
  have hmove := @moveLoop_perm _ prio _ (killLoop prio named q.size q .new).2.1
    (killLoop prio named q.size q .new).1 (QueueT.length_toList _).symm (by
      rw [hempty, List.length_nil, Nat.zero_add]
      exact QueueT.size_le _)
  rw [hempty, List.nil_append] at hmove
  rw [QueueT.toList_new, List.nil_append] at htemp
  exact hmove.trans htemp

theorem count_killQueue [DecidableEq P] (q : QueueT P) (proc : P) :
    (killQueue prio named q).1.toList.count proc = if named proc then 0 else q.toList.count proc := by
  rw [(killQueue_perm prio named q).1.count_eq]
  by_cases hp : named proc = true
  · rw [if_pos hp]
    exact List.count_eq_zero.mpr fun hmem => by simp [hp] at hmem
  · rw [if_neg hp]
    exact List.count_filter (by simpa using hp)

end Queues

/-! ### The memory -/

section Memory
variable [DecidableEq P] {mem mem' : MemSys P}

theorem memStep_userByte {caller : P} {userSrc : BitVec 32} {i : ℕ} {ret : MemRet}
    (hbyte : userByte mem caller userSrc i = some (ret, mem')) :
    memStep mem (caller, .read userSrc (BitVec.ofNat 32 i)) = some mem' := by
  obtain ⟨⟨ret', proc⟩, hcall, heq⟩ := Option.map_eq_some_iff.mp hbyte
  obtain ⟨-, rfl⟩ := Prod.mk.inj heq
  exact Option.map_eq_some_iff.mpr ⟨(ret', proc), hcall, rfl⟩

section Reads
variable {caller : P} {userSrc : BitVec 32} {I : List ℕ → MemSys P → Prop}
  (hI : ∀ i rest m m', I (i :: rest) m →
    memStep m (caller, .read userSrc (BitVec.ofNat 32 i)) = some m' → I rest m')
include hI

/-- `I rest m` holds while the offsets `rest` are still to be read; the loop may stop early. -/
theorem copyLoop_reads {offsets : List ℕ} {dst : Option (List Byte)} (h : I offsets mem)
    (hcopy : copyLoop caller userSrc offsets mem = some (dst, mem')) : ∃ rest, I rest mem' := by
  induction offsets generalizing mem dst with
  | nil =>
    obtain ⟨-, rfl⟩ := Prod.mk.inj (Option.some.inj hcopy)
    exact ⟨[], h⟩
  | cons i rest ih =>
    obtain ⟨⟨ret, mid⟩, hbyte, hcopy⟩ := Option.bind_eq_some_iff.mp hcopy
    have hmid := hI i rest _ _ h (memStep_userByte hbyte)
    dsimp only at hcopy
    split_ifs at hcopy with hrc
    · obtain ⟨-, rfl⟩ := Prod.mk.inj (Option.some.inj hcopy)
      exact ⟨rest, hmid⟩
    · obtain ⟨data, -, hcopy⟩ := Option.bind_eq_some_iff.mp hcopy
      obtain ⟨⟨more, mem2⟩, hrest, heq⟩ := Option.bind_eq_some_iff.mp hcopy
      obtain ⟨-, rfl⟩ := Prod.mk.inj (Option.some.inj heq)
      exact ih hmid hrest

/-- The reads of a name: offset 0 for the address, then the bytes. -/
theorem procName_reads (h : I (0 :: List.range 99) mem) {name : Option (List Byte)}
    (hname : procName mem caller userSrc = some (name, mem')) : ∃ rest, I rest mem' := by
  obtain ⟨⟨bytes, mem1⟩, hcopy, heq⟩ := Option.map_eq_some_iff.mp hname
  obtain ⟨-, rfl⟩ := Prod.mk.inj heq
  obtain ⟨⟨valid, mid⟩, hvalid, hcopy⟩ := Option.bind_eq_some_iff.mp hcopy
  unfold vaildUseraddr at hvalid
  split at hvalid
  · obtain ⟨rfl, rfl⟩ := Prod.mk.inj (Option.some.inj hvalid)
    obtain ⟨-, rfl⟩ := Prod.mk.inj (Option.some.inj hcopy)
    exact ⟨_, h⟩
  · obtain ⟨⟨ret, first⟩, hbyte, heq⟩ := Option.map_eq_some_iff.mp hvalid
    obtain ⟨-, rfl⟩ := Prod.mk.inj heq
    have hfirst := hI _ _ _ _ h (memStep_userByte hbyte)
    dsimp only at hcopy
    split_ifs at hcopy
    · exact copyLoop_reads hI hfirst hcopy
    · obtain ⟨-, rfl⟩ := Prod.mk.inj (Option.some.inj hcopy)
      exact ⟨_, hfirst⟩

end Reads

/-! What every read of the caller keeps, the copy of a name keeps. -/

section Keeps
variable {caller : P} {I : MemSys P → Prop}
  (hI : ∀ m source offset m', I m → memStep m (caller, .read source offset) = some m' → I m')
include hI

theorem copyLoop_keeps {userSrc : BitVec 32} {offsets : List ℕ} {dst : Option (List Byte)}
    (h : I mem)
    (hcopy : copyLoop caller userSrc offsets mem = some (dst, mem')) : I mem' := by
  obtain ⟨-, hlast⟩ := copyLoop_reads (I := fun _ m => I m)
    (fun _ _ m m' => hI m _ _ m') h hcopy
  exact hlast

theorem procName_keeps (h : I mem) {memrg : BitVec 32} {name : Option (List Byte)}
    (hname : procName mem caller memrg = some (name, mem')) : I mem' := by
  obtain ⟨-, hlast⟩ := procName_reads (I := fun _ m => I m)
    (fun _ _ m m' => hI m _ _ m') h hname
  exact hlast

end Keeps

theorem memStep_free (h : OneArea mem) (proc : P) (regIndex : BitVec 32) :
    ∃ mem', memStep mem (proc, .free regIndex) = some mem' ∧ OneArea mem' := by
  obtain ⟨brk, fr, hheap⟩ : ∃ brk fr, HeapIs (mem.pcb proc).mm brk fr := h proc
  have hcall : ∃ r, libfree (mem.pcb proc) regIndex = some r := by
    obtain heq | heq := free_cases hheap regIndex.toInt
    · exact ⟨_, heq⟩
    · exact ⟨_, heq⟩
  obtain ⟨⟨rc, proc'⟩, hfree⟩ := hcall
  have hnext : memStep mem (proc, .free regIndex) = some (mem.put proc proc') := by
    simp [memStep, memCall, hfree]
  exact ⟨_, hnext, memStep_oneArea h hnext⟩

theorem freeRegs_defined (prog : P → Program) (h : OneArea mem) (proc : P) :
    ∃ mem', freeRegs prog mem proc = some mem' ∧ OneArea mem' := by
  apply exists_foldlM _ _ h
  intro m j hm
  split_ifs
  · exact memStep_free hm proc _
  · exact ⟨m, rfl, hm⟩

/-- After the name is decoded the call returns, whatever is queued. -/
theorem sysKillall_of_name (prio : P → ℕ) (prog : P → Program) (sched : SchedState P)
    (h : OneArea mem) {caller : P} {memrg : BitVec 32} {name : List Byte} {mem1 : MemSys P}
    (hname : procName mem caller memrg = some (some name, mem1))
    {killed : SchedState P × List P}
    (hkilled : killSched prio (fun proc => (prog proc).storedPath = name) sched = killed) :
    ∃ mem', killed.2.foldlM (freeRegs prog) mem1 = some mem' ∧
      sysKillall prio prog sched mem caller memrg =
        some ((killed.2.length : ℤ), killed.1, mem') := by
  have hmem1 : OneArea mem1 := procName_keeps (fun _ _ _ _ => memStep_oneArea) h hname
  obtain ⟨mem', hfree, -⟩ := exists_foldlM (fun m proc hm => freeRegs_defined prog hm proc)
    killed.2 hmem1
  refine ⟨mem', hfree, ?_⟩
  rw [sysKillall, hname]
  dsimp only [Option.bind_eq_bind, Option.bind_some]
  rw [hkilled, hfree]
  rfl

theorem sysKillall_cases {prio : P → ℕ} {prog : P → Program} {sched sched' : SchedState P}
    {caller : P} {memrg : BitVec 32} {rc : ℤ}
    (h : sysKillall prio prog sched mem caller memrg = some (rc, sched', mem')) :
    (procName mem caller memrg = some (none, mem') ∧ sched' = sched) ∨
    ∃ name mem1, procName mem caller memrg = some (some name, mem1) ∧
      sched' = (killSched prio (fun proc => (prog proc).storedPath = name) sched).1 ∧
      (killSched prio (fun proc => (prog proc).storedPath = name) sched).2.foldlM
        (freeRegs prog) mem1 = some mem' := by
  obtain ⟨⟨name, mem1⟩, hname, h⟩ := Option.bind_eq_some_iff.mp h
  cases name with
  | none =>
    have heq : (-1, sched, mem1) = (rc, sched', mem') := Option.some.inj h
    simp only [Prod.mk.injEq] at heq
    obtain ⟨-, rfl, rfl⟩ := heq
    exact Or.inl ⟨hname, rfl⟩
  | some name =>
    obtain ⟨mem2, hfree, h⟩ := Option.bind_eq_some_iff.mp h
    have heq := Option.some.inj h
    simp only [Prod.mk.injEq] at heq
    obtain ⟨-, rfl, rfl⟩ := heq
    exact Or.inr ⟨name, mem1, hname, rfl, hfree⟩

end Memory

/-! ### Selection by path -/

/-- Gone from every queue are the processes loaded from the path, and no other. -/
def KillsExactly [DecidableEq P] (prog : P → Program) (name : List Byte) (s t : SchedState P) :
    Prop :=
  ∀ proc, (t.runningList.toList.count proc =
      if (prog proc).path = name then 0 else s.runningList.toList.count proc) ∧
    ∀ pr < maxPrio, (level t pr).count proc =
      if (prog proc).path = name then 0 else (level s pr).count proc

/-- `running_list` or a ready queue has the process. -/
def Queued (s : SchedState P) (proc : P) : Prop :=
  proc ∈ s.runningList.toList ∨ ∃ pr < maxPrio, proc ∈ level s pr

/-- No queued process has a path too long for `proc->path` that the name could be
taken for. -/
def PathsFit (prog : P → Program) (name : List Byte) (s : SchedState P) : Prop :=
  ∀ proc, Queued s proc → 16 < (prog proc).path.length →
    (prog proc).path ≠ name ∧ (prog proc).path.take 16 ≠ name

theorem storedPath_short {prog : Program} (h : prog.path.length ≤ 16) :
    prog.storedPath = prog.path := List.take_of_length_le h

theorem storedPath_long {prog : Program} (h : 16 < prog.path.length) :
    prog.storedPath = prog.path.take 16 ∧ prog.storedPath ≠ prog.path := by
  have hstored : prog.storedPath = prog.path.take 16 := rfl
  refine ⟨hstored, fun heq => ?_⟩
  have hlen := congrArg List.length (hstored ▸ heq : prog.path.take 16 = prog.path)
  rw [List.length_take] at hlen
  omega

section Select
variable [DecidableEq P] (prio : P → ℕ) (prog : P → Program) (name : List Byte) (s : SchedState P)

theorem count_killSched (proc : P) (named : P → Bool) :
    ((killSched prio named s).1.runningList.toList.count proc =
      if named proc then 0 else s.runningList.toList.count proc) ∧
    ∀ pr < maxPrio, (level (killSched prio named s).1 pr).count proc =
      if named proc then 0 else (level s pr).count proc := by
  refine ⟨count_killQueue prio named _ proc, fun pr hpr => ?_⟩
  have hlevel : level (killSched prio named s).1 pr =
      (killQueue prio named (s.mlqReadyQueue pr)).1.toList := by
    simp only [level, killSched, if_pos hpr]
  rw [hlevel, count_killQueue]
  rfl

/-- The queues lose exactly the processes loaded from the name when no queued
path is cut. -/
theorem killsExactly_iff : KillsExactly prog name s
      (killSched prio (fun proc => (prog proc).storedPath = name) s).1 ↔
    PathsFit prog name s := by
  have hcount := fun proc => count_killSched prio s proc fun proc => (prog proc).storedPath = name
  constructor
  · intro h proc hqueued hlong
    obtain ⟨hstored, hcut⟩ := storedPath_long hlong
    -- what the code keeps of the process against what the path says it keeps
    have hsame : (prog proc).path = name ↔ (prog proc).storedPath = name := by
      rcases hqueued with hmem | ⟨pr, hpr, hmem⟩
      · have hpos := List.count_pos_iff.mpr hmem
        have heq := (h proc).1.symm.trans (hcount proc).1
        split_ifs at heq <;> simp_all
      · have hpos := List.count_pos_iff.mpr hmem
        have heq := ((h proc).2 pr hpr).symm.trans ((hcount proc).2 pr hpr)
        split_ifs at heq <;> simp_all
    rw [← hstored]
    constructor
    · intro hpath
      exact hcut ((hsame.mp hpath).trans hpath.symm)
    · intro hname
      exact hcut (hname.trans (hsame.mpr hname).symm)
  · intro hfit proc
    have hsame : Queued s proc → ((prog proc).storedPath = name ↔ (prog proc).path = name) := by
      intro hqueued
      by_cases hlong : 16 < (prog proc).path.length
      · obtain ⟨hpath, htake⟩ := hfit proc hqueued hlong
        rw [(storedPath_long hlong).1]
        exact iff_of_false htake hpath
      · rw [storedPath_short (not_lt.mp hlong)]
    constructor
    · rw [(hcount proc).1]
      by_cases hmem : proc ∈ s.runningList.toList
      · simp [hsame (Or.inl hmem)]
      · simp [List.count_eq_zero.mpr hmem]
    · intro pr hpr
      rw [(hcount proc).2 pr hpr]
      by_cases hmem : proc ∈ level s pr
      · simp [hsame (Or.inr ⟨pr, hpr, hmem⟩)]
      · simp [List.count_eq_zero.mpr hmem]

end Select

/-- Whatever live processes are queued and whatever the memory holds, a call whose region
decodes to `name` terminates exactly the processes loaded from it when `PathsFit`. -/
theorem killall_selects_by_path_iff [DecidableEq P] {mem mem1 : MemSys P}
    (hmem : Reachable anySystem (fun _ _ => True) mem) (prio : P → ℕ) (prog : P → Program)
    (sched : SchedState P) {caller : P} {memrg : BitVec 32} {name : List Byte}
    (hname : procName mem caller memrg = some (some name, mem1)) :
    ∃ rc sched' mem', sysKillall prio prog sched mem caller memrg = some (rc, sched', mem') ∧
      (KillsExactly prog name sched sched' ↔ PathsFit prog name sched) := by
  obtain ⟨mem', -, hcall⟩ := sysKillall_of_name prio prog sched (anySystem_heapIs hmem) hname rfl
  exact ⟨_, _, mem', hcall, killsExactly_iff prio prog name sched⟩

/-- The bytes of a string of ASCII characters. -/
def ascii (s : String) : List Byte := s.toList.map fun c => BitVec.ofNat 8 c.toNat

/-- Process 0 calls `killall`, process 1 was loaded from `path` and waits. -/
def twoPrograms (path : String) (proc : ℕ) : Program :=
  ⟨if proc = 1 then ascii path else ascii "input/proc/sc2", fun _ => 0⟩

def oneQueued : SchedState ℕ := addProc (fun _ => 0) initScheduler 1

/-- The program of process 0 before its system call: `name` in region 1. -/
def writesName (name : String) : List (ℕ × MemOp) :=
  (0, .alloc 100 1) :: (ascii name).zipIdx.map fun (data, i) => (0, .write data 1 (BitVec.ofNat 32 i))

theorem killall_selects_short_path :
    ∃ (mem mem1 : MemSys ℕ) (rc : ℤ) (sched' : SchedState ℕ) (mem' : MemSys ℕ),
      procName mem 0 1 = some (some (ascii "input/proc/s1"), mem1) ∧
      sysKillall (fun _ => 0) (twoPrograms "input/proc/s1") oneQueued mem 0 1 =
        some (rc, sched', mem') ∧
      (KillsExactly (twoPrograms "input/proc/s1") (ascii "input/proc/s1") oneQueued sched' ↔
        PathsFit (twoPrograms "input/proc/s1") (ascii "input/proc/s1") oneQueued) := by
  obtain ⟨mem, hmem, hp⟩ := exists_reachable_of_runAll memStep (fun _ _ => True)
    (MemSys.start 1024 1024) (writesName "input/proc/s1")
    (fun mem => decide ((procName mem 0 1).map Prod.fst = some (some (ascii "input/proc/s1"))))
    (by decide +kernel)
  obtain ⟨⟨name, mem1⟩, hname, heq⟩ := Option.map_eq_some_iff.mp (of_decide_eq_true hp)
  obtain rfl : name = some (ascii "input/proc/s1") := heq
  obtain ⟨rc, sched', mem', hcall, hiff⟩ := killall_selects_by_path_iff (MemReachable.any hmem)
    (fun _ => 0) (twoPrograms "input/proc/s1") oneQueued hname
  exact ⟨mem, mem1, rc, sched', mem', hname, hcall, hiff⟩

/-- A path of 17 characters is stored without the last one, so the process is not
found under its own path. -/
theorem killall_misses_long_path :
    ∃ mem : MemSys ℕ, MemReachable 1024 1024 (fun _ _ => True) mem ∧
      (procName mem 0 1).map Prod.fst = some (some (ascii "input/proc/editor")) ∧
      ∃ sched' mem', sysKillall (fun _ => 0) (twoPrograms "input/proc/editor") oneQueued mem 0 1 =
        some (0, sched', mem') ∧
      ¬KillsExactly (twoPrograms "input/proc/editor") (ascii "input/proc/editor") oneQueued sched' := by
  obtain ⟨mem, hmem, hp⟩ := exists_reachable_of_runAll memStep (fun _ _ => True)
    (MemSys.start 1024 1024) (writesName "input/proc/editor")
    (fun mem =>
      decide ((procName mem 0 1).map Prod.fst = some (some (ascii "input/proc/editor"))) &&
      (sysKillall (fun _ => 0) (twoPrograms "input/proc/editor") oneQueued mem 0 1).any
        fun (r : ℤ × SchedState ℕ × MemSys ℕ) =>
          decide (r.1 = 0 ∧ r.2.1.runningList.toList.count 1 = 1))
    (by decide +kernel)
  simp only [Bool.and_eq_true, decide_eq_true_eq, Option.any_eq_true] at hp
  obtain ⟨hname, ⟨rc, sched', mem'⟩, hcall, hrc, hleft⟩ := hp
  dsimp only at hrc hleft
  rw [hrc] at hcall
  refine ⟨mem, hmem, hname, sched', mem', hcall, fun hkills => ?_⟩
  have hpath : (twoPrograms "input/proc/editor" 1).path = ascii "input/proc/editor" := rfl
  have hgone := (hkills 1).1
  rw [if_pos hpath, hleft] at hgone
  exact absurd hgone one_ne_zero

end OsSim.Os
