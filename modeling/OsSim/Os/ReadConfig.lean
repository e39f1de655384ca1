import OsSim.Base.Tokens
import OsSim.Os.Loader

/-!
# Reading the configuration (os.c:163-239)

`main` finds the configuration under `input/`, `read_config` takes it apart with
`fscanf`, and every path it makes names a program under `input/proc/` that
`ld_routine` hands to `load`. The start times and priorities are in memory from
`malloc`; the other variables are static and start as 0. What the simulation runs is
what was written on the disk, however the configuration is laid out.
-/

namespace OsSim.Os
open OsSim.Base OsSim.Sched OsSim.Mem

/-! ### The code -/

/-- `"input/"` (`os.c:230`). -/
def inputDir : List Char := ['i', 'n', 'p', 'u', 't', '/']

/-- `"input/proc/"` (`os.c:206`). -/
def procDir : List Char := ['i', 'n', 'p', 'u', 't', '/', 'p', 'r', 'o', 'c', '/']

/-- A string as `fopen` gets it. -/
def cBytes (s : List Char) : List Byte := s.map fun c => BitVec.ofNat 8 c.toNat

/-- `%lu`: what it assigns, if a number is there. -/
def scanULong (s : List Char) : Outcome (Option (BitVec 64) × List Char) :=
  match scanInteger s with
  | .stop rest => .ok (none, rest)
  | .got x rest =>
    if -18446744073709551616 < x ∧ x < 18446744073709551616 then
      .ok (some (BitVec.ofInt 64 x), rest)
    else .undefined

/-- An entry of the three arrays of `ld_processes`. -/
structure ProcEntry where
  path : List Char
  startTime : BitVec 64
  prio : BitVec 64

/-- One round of the last loop (`os.c:202-217`): `prio` is what `malloc` left, and `proc`
is a new buffer of 100 bytes. -/
def readProc (prio : BitVec 64) (s : List Char) : Outcome (ProcEntry × List Char) := do
  let (start, rest) ← scanULong s
  -- without a number nothing is put into `proc` either, which is read all the same
  let start ← Outcome.ofOption start
  match scanWord (skipSpace rest) with
  | .stop _ => .undefined
  | .got proc rest =>
    if 100 ≤ proc.length then .undefined
    else
      let (given, rest) ← scanULong (skipSpace rest)
      if 100 ≤ procDir.length + (cString proc).length then .undefined
      else
        .ok (⟨procDir ++ cString proc, start, given.getD prio⟩,
          if given.isSome then skipSpace rest else rest)

/-- The rounds to come, from `i` on. -/
def readProcs (prio : ℕ → BitVec 64) (i : ℕ) : ℕ → List Char → Outcome (List ProcEntry)
  | 0, _ => .ok []
  | n + 1, s => do
    let (entry, rest) ← readProc (prio i) s
    let entries ← readProcs prio (i + 1) n rest
    .ok (entry :: entries)

/-- `fscanf(file, "%d", &(memswpsz[sit]))`, as often as there are swap devices to come. -/
def readSizes : ℕ → List Char → Option (List (BitVec 32) × List Char)
  | 0, s => some ([], s)
  | n + 1, s => do
    let (size, rest) ← scanf [.int] s
    let (sizes, rest) ← readSizes n rest
    some (size.getD 0 0 :: sizes, rest)

/-- `PAGING_MAX_MMSWP` (`os-mm.h`). -/
abbrev pagingMaxMmswp : ℕ := 4

/-- The static variables of `os.c` and `ld_processes`. -/
structure OsVars where
  timeSlot : BitVec 32
  numCpus : BitVec 32
  numProcesses : BitVec 32
  memramsz : BitVec 32
  memswpsz : List (BitVec 32)
  processes : List ProcEntry

/-- `read_config` (`os.c:163-218`) on the text of the file. -/
def readConfig (prio : ℕ → BitVec 64) (file : List Char) : Outcome OsVars := do
  let (head, rest) ← Outcome.ofOption (scanf [.int, .space, .int, .space, .int, .space] file)
  let (ram, rest) ← Outcome.ofOption (scanf [.int, .space] rest)
  let (swp, rest) ← Outcome.ofOption (readSizes pagingMaxMmswp rest)
  let processes ← readProcs prio 0 (head.getD 2 0).toInt.toNat (skipSpace rest)
  .ok { timeSlot := head.getD 0 0
        numCpus := head.getD 1 0
        numProcesses := head.getD 2 0
        memramsz := ram.getD 0 0
        memswpsz := swp
        processes := processes }

/-- The calls of `load` that `ld_routine` makes (`os.c:133-136`), one after the other. -/
def loadAll (fopen : List Byte → Option (List Char)) (mem : ℕ → Malloced) :
    ℕ → BitVec 32 → List ProcEntry → Outcome (List LoadedPcb)
  | _, _, [] => .ok []
  | i, availPid, e :: es => do
    let (proc, availPid) ← load availPid fopen (cBytes e.path) (mem i)
    let procs ← loadAll fopen mem (i + 1) availPid es
    .ok (proc :: procs)

structure Booted where
  vars : OsVars
  procs : List LoadedPcb

/-- `main` up to the threads (`os.c:220-233`), and the programs they will load. -/
def boot (fopen : List Byte → Option (List Char)) (prio : ℕ → BitVec 64) (mem : ℕ → Malloced)
    (argv1 : List Char) : Outcome Booted :=
  if 100 ≤ inputDir.length + argv1.length then .undefined
  else
    match fopen (cBytes (inputDir ++ argv1)) with
    | none => .exit
    | some file => do
      let vars ← readConfig prio file
      let procs ← loadAll fopen mem 0 1 vars.processes
      .ok ⟨vars, procs⟩

/-- What the threads run with. `proc->prio` has 32 bits (`common.h:93`). -/
def Booted.config (b : Booted) : Config where
  timeSlot := b.vars.timeSlot.toInt
  numCpus := b.vars.numCpus.toInt.toNat
  numProcesses := b.vars.numProcesses.toInt.toNat
  startTime i := (b.vars.processes[i]?).elim 0 fun e => e.startTime.toNat
  prio i := (b.vars.processes[i]?).elim 0 fun e => (e.prio.setWidth 32).toNat
  text i := (b.procs[i]?).elim [] LoadedPcb.code

/-! ### What is on the disk -/

/-- A process of a configuration and the file of its program. The path has to fit
into its buffer. -/
structure Job where
  start : BitVec 64
  name : List Char
  prio : BitVec 64
  isName : IsToken name
  noNul : ∀ c ∈ name, c.toNat ≠ 0
  short : name.length ≤ 88
  last : Bool
  priority : BitVec 32
  lines : List Line
  fits : lines.length < 4294967296
  complete : ∀ l ∈ lines, l.Complete

structure Setup where
  timeSlot : BitVec 32
  numCpus : BitVec 32
  memramsz : BitVec 32
  memswpsz : List (BitVec 32)
  jobs : List Job
  swaps : memswpsz.length = pagingMaxMmswp
  few : jobs.length < 2147483648

def Job.tokens (j : Job) : List (List Char) :=
  [printInt j.start.toNat, j.name, printInt j.prio.toNat]

/-- The configuration file, word by word. -/
def Setup.tokens (st : Setup) : List (List Char) :=
  [st.timeSlot.toInt, st.numCpus.toInt, st.jobs.length].map printInt ++
    ([st.memramsz.toInt].map printInt ++
      (st.memswpsz.map (fun b => printInt b.toInt) ++ st.jobs.flatMap Job.tokens))

/-- The configuration, in any layout, and the programs it names. -/
structure OnDisk (fopen : List Byte → Option (List Char)) (argv1 : List Char) (st : Setup) :
    Prop where
  config : ∃ file, fopen (cBytes (inputDir ++ argv1)) = some file ∧ words file = st.tokens
  programs : ∀ j ∈ st.jobs,
    fopen (cBytes (procDir ++ j.name)) = some (programText j.last j.priority j.lines)

/-- What `load` makes of the program of a job. -/
structure IsLoaded (pid : BitVec 32) (j : Job) (proc : LoadedPcb) : Prop where
  pid : proc.pid = pid
  priority : proc.priority = j.priority
  start : proc.pc = 0
  code : proc.code.map Inst.taken = j.lines.map fun l => l.meaning.taken

/-- The simulation runs with the numbers of the configuration; process `i` has the
start time and the priority of its line and the instructions of its program, which
make the calls that were written. -/
structure Runs (st : Setup) (b : Booted) : Prop where
  timeSlot : b.config.timeSlot = st.timeSlot.toInt
  numCpus : b.config.numCpus = st.numCpus.toInt.toNat
  memramsz : b.vars.memramsz = st.memramsz
  memswpsz : b.vars.memswpsz = st.memswpsz
  numProcesses : b.config.numProcesses = st.jobs.length
  startTime : ∀ i j, st.jobs[i]? = some j → b.config.startTime i = j.start.toNat
  prio : ∀ i j, st.jobs[i]? = some j → b.config.prio i = j.prio.toNat % 4294967296
  text : ∀ i j, st.jobs[i]? = some j →
    (b.config.text i).map Inst.taken = j.lines.map fun l => l.meaning.taken
  memOps : ∀ i j, st.jobs[i]? = some j →
    (b.config.text i).map memOp = j.lines.map fun l => memOp l.meaning
  killalls : ∀ i j, st.jobs[i]? = some j →
    (b.config.text i).map Inst.isKillall = j.lines.map fun l => l.meaning.isKillall
  procs : ∀ i j, st.jobs[i]? = some j →
    ∃ proc, b.procs[i]? = some proc ∧ IsLoaded (BitVec.ofNat 32 (i + 1)) j proc

/-! ### The loops -/

theorem scanULong_spaced {n : BitVec 64} {tokens : List (List Char)} {s : List Char}
    (h : Spaced (printInt n.toNat :: tokens) s) :
    ∃ rest, scanULong s = .ok (some n, rest) ∧ Spaced tokens rest := by
  obtain ⟨rest, hscan, hspaced⟩ := h.scanInteger
  have hlt := n.isLt
  refine ⟨rest, ?_, hspaced⟩
  rw [scanULong, hscan]
  dsimp only
  rw [if_pos (by omega), BitVec.ofInt_natCast, BitVec.ofNat_toNat, BitVec.setWidth_eq]

def Job.entry (j : Job) : ProcEntry := ⟨procDir ++ j.name, j.start, j.prio⟩

theorem readProc_job {j : Job} {tokens : List (List Char)} {s : List Char} (prio : BitVec 64)
    (h : Spaced (j.tokens ++ tokens) s) :
    ∃ rest, readProc prio s = .ok (j.entry, rest) ∧ Spaced tokens rest := by
  obtain ⟨rest1, hstart, h1⟩ := scanULong_spaced h
  obtain ⟨rest2, hname, h2⟩ := h1.skipSpace.scanWord
  obtain ⟨rest3, hprio, h3⟩ := scanULong_spaced h2.skipSpace
  have hlen := j.short
  have hstring : cString j.name = j.name := cString_of_ne j.noNul
  have hdir : procDir.length = 11 := rfl
  refine ⟨skipSpace rest3, ?_, h3.skipSpace⟩
  simp only [readProc, hstart, Outcome.ok_bind, Outcome.ofOption_some, hname, hprio, hstring]
  rw [if_neg (by omega), if_neg (by omega)]
  rfl

theorem readProcs_jobs (prio : ℕ → BitVec 64) {jobs : List Job} (i : ℕ) {s : List Char}
    (h : Spaced (jobs.flatMap Job.tokens) s) :
    readProcs prio i jobs.length s = .ok (jobs.map Job.entry) := by
  induction jobs generalizing i s with
  | nil => rfl
  | cons j jobs ih =>
    rw [List.flatMap_cons] at h
    obtain ⟨rest, hproc, hrest⟩ := readProc_job (prio i) h
    rw [List.length_cons, readProcs, hproc, Outcome.ok_bind]
    simp only [ih (i + 1) hrest, Outcome.ok_bind, List.map_cons]

theorem readSizes_spaced {sizes : List (BitVec 32)} {tokens : List (List Char)} {s : List Char}
    (h : Spaced (sizes.map (fun b => printInt b.toInt) ++ tokens) s) :
    ∃ rest, readSizes sizes.length s = some (sizes, rest) ∧ Spaced tokens rest := by
  induction sizes generalizing s with
  | nil => exact ⟨s, rfl, h⟩
  | cons b sizes ih =>
    have hfits : Accepts [.int] [b.toInt] := ⟨⟨b.le_toInt, b.toInt_lt⟩, rfl⟩
    obtain ⟨rest1, hscan, h1⟩ := Spaced.scanf hfits h
    obtain ⟨rest2, hsizes, h2⟩ := ih h1
    refine ⟨rest2, ?_, h2⟩
    simp only [List.length_cons, readSizes, hscan, Option.bind_eq_bind, Option.bind_some, hsizes,
      List.map_cons, List.getD_cons_zero, BitVec.ofInt_toInt]

/-- The variables of the configuration. -/
def Setup.vars (st : Setup) : OsVars where
  timeSlot := st.timeSlot
  numCpus := st.numCpus
  numProcesses := BitVec.ofNat 32 st.jobs.length
  memramsz := st.memramsz
  memswpsz := st.memswpsz
  processes := st.jobs.map Job.entry

theorem Setup.count_eq (st : Setup) : st.vars.numProcesses.toInt = st.jobs.length := by
  have hfew := st.few
  have hnat : st.vars.numProcesses.toNat = st.jobs.length := by
    change (BitVec.ofNat 32 st.jobs.length).toNat = _
    rw [BitVec.toNat_ofNat]
    omega
  rw [BitVec.toInt_eq_toNat_of_lt (by omega), hnat]

/-- `read_config` sees the tokens only. -/
theorem readConfig_spaced (prio : ℕ → BitVec 64) {st : Setup} {file : List Char}
    (h : Spaced st.tokens file) :
    readConfig prio file = .ok st.vars := by
  have hfew := st.few
  have hcount : (BitVec.ofNat 32 st.jobs.length).toInt = st.jobs.length := st.count_eq
  have hhead : Accepts [.int, .space, .int, .space, .int, .space]
      [st.timeSlot.toInt, st.numCpus.toInt, st.jobs.length] :=
    ⟨⟨st.timeSlot.le_toInt, st.timeSlot.toInt_lt⟩, ⟨st.numCpus.le_toInt, st.numCpus.toInt_lt⟩,
      ⟨by omega, by omega⟩, rfl⟩
  have hram : Accepts [.int, .space] [st.memramsz.toInt] :=
    ⟨⟨st.memramsz.le_toInt, st.memramsz.toInt_lt⟩, rfl⟩
  obtain ⟨rest1, hscan1, h1⟩ := Spaced.scanf hhead h
  obtain ⟨rest2, hscan2, h2⟩ := Spaced.scanf hram h1
  obtain ⟨rest3, hscan3, h3⟩ := readSizes_spaced h2
  rw [st.swaps] at hscan3
  simp only [readConfig, hscan1, hscan2, hscan3, Outcome.ofOption_some, Outcome.ok_bind,
    List.map_cons, List.map_nil, List.getD_cons_zero, List.getD_cons_succ, BitVec.ofInt_toInt,
    BitVec.ofInt_natCast, hcount, Int.toNat_natCast, readProcs_jobs prio 0 h3.skipSpace]
  rfl

theorem load_job {fopen : List Byte → Option (List Char)} (mem : Malloced) (availPid : BitVec 32)
    {j : Job}
    (hdisk : fopen (cBytes (procDir ++ j.name)) = some (programText j.last j.priority j.lines)) :
    ∃ proc, load availPid fopen (cBytes j.entry.path) mem = .ok (proc, availPid + 1) ∧
      IsLoaded availPid j proc := by
  have hload := load_programText availPid mem hdisk
  rw [if_pos j.fits] at hload
  refine ⟨_, hload, rfl, rfl, rfl, ?_⟩
  rw [taken_lines_iff]
  intro r hr
  exact (complete_iff r.1).mp (j.complete r.1 (List.fst_mem_of_mem_zipIdx hr)) _

/-- Every program is loaded, with the next process id. -/
theorem loadAll_jobs {fopen : List Byte → Option (List Char)} (mem : ℕ → Malloced) {jobs : List Job}
    (i : ℕ) (availPid : BitVec 32) (hdisk : ∀ j ∈ jobs,
      fopen (cBytes (procDir ++ j.name)) = some (programText j.last j.priority j.lines)) :
    ∃ procs, loadAll fopen mem i availPid (jobs.map Job.entry) = .ok procs ∧
      ∀ k j, jobs[k]? = some j → ∃ proc, procs[k]? = some proc ∧
        IsLoaded (availPid + BitVec.ofNat 32 k) j proc := by
  induction jobs generalizing i availPid with
  | nil => exact ⟨[], rfl, by simp⟩
  | cons j jobs ih =>
    obtain ⟨proc, hload, hproc⟩ := load_job (mem i) availPid (hdisk j (List.mem_cons_self ..))
    obtain ⟨procs, hrest, hprocs⟩ := ih (i + 1) (availPid + 1) fun k hk =>
      hdisk k (List.mem_cons_of_mem _ hk)
    refine ⟨proc :: procs, ?_, fun k j' hk => ?_⟩
    · simp only [List.map_cons, loadAll, hload, hrest, Outcome.ok_bind]
    · cases k with
      | zero =>
        obtain rfl : j = j' := by simpa using hk
        exact ⟨proc, rfl, by simpa using hproc⟩
      | succ k =>
        obtain ⟨proc', hget, hloaded⟩ := hprocs k j' (by simpa using hk)
        refine ⟨proc', by simpa using hget, ?_⟩
        rw [BitVec.ofNat_add, BitVec.add_comm (BitVec.ofNat 32 k), ← BitVec.add_assoc]
        exact hloaded

/-- Whatever memory `malloc` returns and however the configuration is laid out, the
simulation runs what is on the disk. -/
theorem boot_runs {fopen : List Byte → Option (List Char)} {argv1 : List Char} {st : Setup}
    (h : OnDisk fopen argv1 st) (hlen : argv1.length ≤ 93) (prio : ℕ → BitVec 64)
    (mem : ℕ → Malloced) : ∃ b, boot fopen prio mem argv1 = .ok b ∧ Runs st b := by
  obtain ⟨file, hopen, hwords⟩ := h.config
  have hspaced : Spaced st.tokens file := hwords ▸ spaced_words file
  obtain ⟨procs, hload, hprocs⟩ := loadAll_jobs mem 0 1 h.programs
  have hdir : inputDir.length = 6 := rfl
  have hentry : ∀ {i : ℕ} {j : Job}, st.jobs[i]? = some j → st.vars.processes[i]? = some j.entry := by
    intro i j hj
    rw [Setup.vars, List.getElem?_map, hj, Option.map_some]
  have hloaded : ∀ i j, st.jobs[i]? = some j →
      ∃ proc, procs[i]? = some proc ∧ IsLoaded (BitVec.ofNat 32 (i + 1)) j proc := by
    intro i j hj
    rw [Nat.add_comm, BitVec.ofNat_add]
    exact hprocs i j hj
  have htext : ∀ i j, st.jobs[i]? = some j →
      ((⟨st.vars, procs⟩ : Booted).config.text i).map Inst.taken =
        j.lines.map fun l => l.meaning.taken := by
    intro i j hj
    obtain ⟨proc, hget, hproc⟩ := hloaded i j hj
    simp only [Booted.config, hget]
    exact hproc.code
  refine ⟨⟨st.vars, procs⟩, ?_, ?_⟩
  · have hload' : loadAll fopen mem 0 1 st.vars.processes = .ok procs := hload
    rw [boot, if_neg (by omega), hopen]
    simp only [readConfig_spaced prio hspaced, hload', Outcome.ok_bind]
  · constructor
    · rfl
    · rfl
    · rfl
    · rfl
    · simp only [Booted.config, st.count_eq, Int.toNat_natCast]
    · intro i j hj
      simp only [Booted.config, hentry hj]
      rfl
    · intro i j hj
      simp only [Booted.config, hentry hj, Option.elim_some, BitVec.toNat_setWidth]
      rfl
    · exact htext
    · intro i j hj
      exact map_of_taken (fun _ _ => memOp_of_taken) (htext i j hj)
    · intro i j hj
      exact map_of_taken (fun _ _ => isKillall_of_taken) (htext i j hj)
    · exact hloaded

/-! ### `input/sched_0` -/

/-- A process that only calculates. -/
def calcJob (start : BitVec 64) (name : List Char) (prio : BitVec 64) (priority : BitVec 32) (n : ℕ)
    (h : n < 4294967296 ∧ IsToken name ∧ (∀ c ∈ name, c.toNat ≠ 0) ∧ name.length ≤ 88) : Job where
  start := start
  name := name
  prio := prio
  isName := h.2.1
  noNul := h.2.2.1
  short := h.2.2.2
  last := true
  priority := priority
  lines := List.replicate n .calc
  fits := by rw [List.length_replicate]; exact h.1
  complete l hl := by
    obtain rfl := List.eq_of_mem_replicate hl
    exact trivial

/-- `input/sched_0` with `input/proc/s0` and `input/proc/s1`. -/
def sched0 : Setup where
  timeSlot := 2
  numCpus := 1
  memramsz := 2048
  memswpsz := [16777216, 0, 0, 0]
  jobs := [calcJob 0 ['s', '0'] 4 12 15 (by simp [isSpace, isToken_iff]),
    calcJob 4 ['s', '1'] 0 20 7 (by simp [isSpace, isToken_iff])]
  swaps := rfl
  few := by simp

def sched0Name : List Char := ['s', 'c', 'h', 'e', 'd', '_', '0']

def sched0File : List Char := "2 1 2\n2048 16777216 0 0 0\n0 s0 4\n4 s1 0\n".toList

/-- The files that `sched_0` needs. -/
def sched0Disk (path : List Byte) : Option (List Char) :=
  if path = cBytes (inputDir ++ sched0Name) then some sched0File
  else (sched0.jobs.find? fun j => path = cBytes (procDir ++ j.name)).map fun j =>
    programText j.last j.priority j.lines

theorem boot_runs_sched0 :
    ∃ b, boot sched0Disk (fun _ => 0) (fun _ => ⟨0, 0, fun _ => ⟨.calc, 0, 0, 0, 0⟩⟩) sched0Name =
      .ok b ∧ Runs sched0 b := by
  refine boot_runs ⟨⟨sched0File, rfl, by decide +kernel⟩, fun j hj => ?_⟩ (by decide) _ _
  simp only [sched0, List.mem_cons, List.not_mem_nil, or_false] at hj
  rcases hj with rfl | rfl <;> rfl

end OsSim.Os
