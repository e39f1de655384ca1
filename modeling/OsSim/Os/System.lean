import OsSim.Os.Timer
import OsSim.Sched.Usage

/-!
# The simulation (os.c, cpu.c)

The loader, the CPU loops and the timer as one transition system. Each step is
one call of `get_proc`, `put_proc` or `add_proc`, one test of a shared variable,
one instruction, or one lock-protected section of the timer; the threads
interleave in any order. A process is the index of its line in the
configuration; `proc->pc` and `free(proc)` are kept per process.

What an instruction does to memory is a parameter (`Effects.memory`), so the
results about scheduling hold whatever the memory subsystem does. Only system
call 101 reaches the scheduler from an instruction (`Effects.killall`).
-/

namespace OsSim.Os
open OsSim.Base OsSim.Sched

/-- `enum ins_opcode_t` (`common.h:27-35`). -/
inductive Opcode where
  | calc
  | alloc
  | free
  | read
  | write
  | syscall
  deriving DecidableEq

/-- `struct inst_t` (`common.h:38-45`). -/
structure Inst where
  opcode : Opcode
  arg0 : BitVec 32 := 0
  arg1 : BitVec 32 := 0
  arg2 : BitVec 32 := 0
  arg3 : BitVec 32 := 0
  deriving DecidableEq

/-- System call 101, `killall` (`syscalltbl.lst:3`). -/
def Inst.isKillall (ins : Inst) : Bool := ins.opcode == .syscall && ins.arg0 == 101

/-- What `read_config` and `load` provide (`os.c:163-218`). -/
structure Config where
  timeSlot : ℤ
  numCpus : ℕ
  numProcesses : ℕ
  startTime : ℕ → ℕ
  prio : ℕ → ℕ
  text : ℕ → List Inst

/-- The effects of instructions outside the scheduler loop, on a memory `σ`. -/
structure Effects (σ : Type) where
  memory : ℕ → Inst → σ → σ
  killall : ℕ → Inst → SchedState ℕ → σ → SchedState ℕ × σ

/-- The devices attached to the timer (`os.c:241-246`). -/
inductive Dev where
  | cpu (id : ℕ)
  | ld
  deriving DecidableEq

/-- `dev_list`: `attach_event` inserts at the head (`timer.c:109-115`). -/
def devList (cfg : Config) : List Dev :=
  .ld :: (List.range cfg.numCpus).reverse.map .cpu

/-- The places of `cpu_routine`: the head of the loop (`os.c:60`), between
`put_proc` and `get_proc` (`os.c:87`), the second test (`os.c:91`), `next_slot`,
and `detach_event` (`os.c:116`). -/
inductive CpuPc where
  | top
  | afterPut
  | recheck
  | slot
  | leave
  deriving DecidableEq

/-- The locals of one `cpu_routine`. -/
structure Cpu where
  pc : CpuPc
  proc : Option ℕ
  timeLeft : ℤ

/-- The places of `ld_routine`: the outer test (`os.c:132`), the test of
`current_time` (`os.c:138`), `add_proc` (`os.c:151`), the two `next_slot` calls
(`os.c:140`, `os.c:154`), `done = 1` and `detach_event`. -/
inductive LdPc where
  | outer
  | wait
  | add
  | slotWait
  | slotOuter
  | setDone
  | leave
  deriving DecidableEq

structure OsState (σ : Type) where
  sched : SchedState ℕ
  timer : TimerState Dev
  done : Bool
  ld : LdPc
  /-- The local `i` of `ld_routine`: processes `0 .. i - 1` have been added. -/
  next : ℕ
  cpus : ℕ → Cpu
  pcOf : ℕ → ℕ
  freed : ℕ → Bool
  mem : σ

variable {σ : Type}

def Config.size (cfg : Config) (i : ℕ) : ℕ := (cfg.text i).length

/-- The state when `main` has created the threads (`os.c:220-287`). -/
def OsState.start (cfg : Config) (mem : σ) : OsState σ where
  sched := initScheduler
  timer := .start (devList cfg)
  done := false
  ld := .outer
  next := 0
  cpus _ := ⟨.top, none, 0⟩
  pcOf _ := 0
  freed _ := false
  mem := mem

def OsState.setCpu (s : OsState σ) (c : ℕ) (cpu : Cpu) : OsState σ :=
  { s with cpus := Function.update s.cpus c cpu }

/-- `run` (`cpu.c:61-112`). An instruction is one step, although a library call gives
`mmvm_lock` back on its way and `__sys_killall` takes no `queue_lock`, so that the steps
of another CPU could come between. -/
def run (cfg : Config) (eff : Effects σ) (s : OsState σ) (i : ℕ) : OsState σ :=
  match (cfg.text i)[s.pcOf i]? with
  | none => s
  | some ins =>
    let pcs := Function.update s.pcOf i (s.pcOf i + 1)
    if ins.isKillall then
      let r := eff.killall i ins s.sched s.mem
      { s with pcOf := pcs, sched := r.1, mem := r.2 }
    else { s with pcOf := pcs, mem := eff.memory i ins s.mem }

/-- `proc = get_proc()` by CPU `c`, which then stands at `pc`. -/
def fetch (cfg : Config) (s : OsState σ) (c : ℕ) (pc : Option ℕ → CpuPc) (timeLeft : ℤ) :
    OsState σ :=
  let r := getProc cfg.prio s.sched
  { s with sched := r.2 }.setCpu c ⟨pc r.1, r.1, timeLeft⟩

/-- One step of `cpu_routine` (`os.c:51-118`) between two `next_slot` calls. -/
def cpuActive (cfg : Config) (eff : Effects σ) (s : OsState σ) (c : ℕ) : Option (OsState σ) :=
  let cpu := s.cpus c
  match cpu.pc, cpu.proc with
  | .top, none =>
    some (fetch cfg s c (fun r => if r.isNone then .slot else .recheck) cpu.timeLeft)
  | .top, some i =>
    if s.pcOf i = cfg.size i then
      some (fetch cfg { s with freed := Function.update s.freed i true } c (fun _ => .recheck) 0)
    else if cpu.timeLeft = 0 then
      some ({ s with sched := putProc cfg.prio s.sched i }.setCpu c { cpu with pc := .afterPut })
    else some (s.setCpu c { cpu with pc := .recheck })
  | .afterPut, _ => some (fetch cfg s c (fun _ => .recheck) cpu.timeLeft)
  | .recheck, none => some (s.setCpu c { cpu with pc := if s.done then .leave else .slot })
  | .recheck, some i =>
    let timeLeft := if cpu.timeLeft = 0 then cfg.timeSlot else cpu.timeLeft
    some ((run cfg eff s i).setCpu c ⟨.slot, some i, timeLeft - 1⟩)
  | .slot, _ =>
    (Os.setDone s.timer (.cpu c)).map fun t => { s with timer := t }.setCpu c { cpu with pc := .top }
  | .leave, _ => (detachEvent s.timer (.cpu c)).map fun t => { s with timer := t }

/-- One step of `cpu_routine`, which may be waiting in `next_slot`. -/
def cpuRoutine (cfg : Config) (eff : Effects σ) (s : OsState σ) (c : ℕ) : Option (OsState σ) :=
  match s.timer.ctl (.cpu c) with
  | .run => cpuActive cfg eff s c
  | .blocked => (wake s.timer (.cpu c)).map fun t => { s with timer := t }
  | .gone => none

/-- One step of `ld_routine` (`os.c:120-161`) between two `next_slot` calls. -/
def ldActive (cfg : Config) (s : OsState σ) : Option (OsState σ) :=
  match s.ld with
  | .outer => some { s with ld := if s.next < cfg.numProcesses then .wait else .setDone }
  | .wait => some { s with ld := if s.timer.time < cfg.startTime s.next then .slotWait else .add }
  | .add =>
    some { s with sched := addProc cfg.prio s.sched s.next, next := s.next + 1, ld := .slotOuter }
  | .slotWait => (Os.setDone s.timer .ld).map fun t => { s with timer := t, ld := .wait }
  | .slotOuter => (Os.setDone s.timer .ld).map fun t => { s with timer := t, ld := .outer }
  | .setDone => some { s with done := true, ld := .leave }
  | .leave => (detachEvent s.timer .ld).map fun t => { s with timer := t }

def ldRoutine (cfg : Config) (s : OsState σ) : Option (OsState σ) :=
  match s.timer.ctl .ld with
  | .run => ldActive cfg s
  | .blocked => (wake s.timer .ld).map fun t => { s with timer := t }
  | .gone => none

inductive Thread where
  | timer
  | ld
  | cpu (c : ℕ)

/-- One step of one thread. -/
def osStep (cfg : Config) (eff : Effects σ) (s : OsState σ) : Thread → Option (OsState σ)
  | .timer => (timerRoutine (devList cfg) s.timer).map fun t => { s with timer := t }
  | .ld => ldRoutine cfg s
  | .cpu c => if c < cfg.numCpus then cpuRoutine cfg eff s c else none

/-- The next step of CPU `c` is a call of `get_proc`. -/
def callsGet (cfg : Config) (s : OsState σ) (c : ℕ) : Bool :=
  s.timer.ctl (.cpu c) == .run &&
    match (s.cpus c).pc, (s.cpus c).proc with
    | .top, none => true
    | .top, some i => s.pcOf i == cfg.size i
    | .afterPut, _ => true
    | _, _ => false

/-- The loader has set `done` and every CPU has detached its event. A CPU that has left
its loop and not yet called `detach_event` is not counted. -/
def AllLeft (cfg : Config) (s : OsState σ) : Prop :=
  s.done = true ∧ ∀ c < cfg.numCpus, s.timer.ctl (.cpu c) = .gone

end OsSim.Os
