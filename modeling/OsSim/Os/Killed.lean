import OsSim.Os.Killall
import OsSim.Os.Slices

/-!
# Processes that system call 101 has named

The simulation with `__sys_killall` in place, whatever the memory subsystem
does with the bytes. `KillLog` keeps the processes that some call has named:
those that `load` had returned by then, the caller apart, with the name as
`proc->path`. A call takes them out of the ready queues only. `Out` is what
makes that enough: no ready queue has the process, none will get it from the
loader, and a CPU that holds it is about to report it finished.
-/

namespace OsSim.Os
open OsSim.Base OsSim.Sched OsSim.Mem

variable {σ : Type}

/-- What instructions do to the memory; `name` is the name in the region of a
system call 101, none if it cannot be copied, and `killed` the memory after it. -/
structure UserMemory (σ : Type) where
  memory : ℕ → Inst → σ → σ
  name : ℕ → Inst → σ → Option (List Byte)
  killed : ℕ → Inst → SchedState ℕ → σ → σ

/-- `proc->path` is the name. -/
def named (prog : ℕ → Program) (name : List Byte) (j : ℕ) : Bool := (prog j).storedPath = name

/-- `__sys_killall` on the queues, and everything else of the instructions. -/
def killEffects (cfg : Config) (prog : ℕ → Program) (user : UserMemory σ) : Effects σ where
  memory := user.memory
  killall i ins sched mem :=
    (match user.name i ins mem with
      | none => sched
      | some name => (killSched cfg.prio (named prog name) sched).1,
    user.killed i ins sched mem)

/-- The process whose system call 101 the next step of the thread executes, and the
name it has. -/
def killsNow (cfg : Config) (user : UserMemory σ) (s : OsState σ) (th : Thread) :
    Option (ℕ × List Byte) := do
  let i ← runsNow s th
  let ins ← (cfg.text i)[s.pcOf i]?
  if ins.isKillall then (user.name i ins s.mem).map fun name => (i, name) else none

/-- `load` has returned the process: it was added, or the loader waits for its
start time (`os.c:134-151`). -/
def Loaded (cfg : Config) (s : OsState σ) (j : ℕ) : Prop :=
  j < s.next ∨ j = s.next ∧ j < cfg.numProcesses ∧ (s.ld = .wait ∨ s.ld = .slotWait ∨ s.ld = .add)

instance (cfg : Config) (s : OsState σ) (j : ℕ) : Decidable (Loaded cfg s j) :=
  inferInstanceAs (Decidable (_ ∨ _))

/-- The processes that a call of process `i` with the name has to terminate. -/
def ToKill (cfg : Config) (prog : ℕ → Program) (s : OsState σ) (i : ℕ) (name : List Byte)
    (j : ℕ) : Prop :=
  j ≠ i ∧ Loaded cfg s j ∧ named prog name j = true

instance (cfg : Config) (prog : ℕ → Program) (s : OsState σ) (i : ℕ) (name : List Byte) (j : ℕ) :
    Decidable (ToKill cfg prog s i name j) := inferInstanceAs (Decidable (_ ∧ _))

structure KillLog (σ : Type) where
  os : OsState σ
  dead : ℕ → Bool

def KillLog.start (cfg : Config) (mem : σ) : KillLog σ := ⟨.start cfg mem, fun _ => false⟩

def killStep (cfg : Config) (prog : ℕ → Program) (user : UserMemory σ) (l : KillLog σ)
    (th : Thread) : Option (KillLog σ) :=
  (osStep cfg (killEffects cfg prog user) l.os th).map fun t =>
    { os := t
      dead :=
        match killsNow cfg user l.os th with
        | some (i, name) => fun j => l.dead j || decide (ToKill cfg prog l.os i name j)
        | none => l.dead }

/-- The process that the next step of the thread takes from `get_proc`. -/
def dispatchesNow (cfg : Config) (s : OsState σ) : Thread → Option ℕ
  | .cpu c => if callsGet cfg s c then (getProc cfg.prio s.sched).1 else none
  | _ => none

/-- The process that executes an instruction in the next step of the thread. -/
def executesNow (cfg : Config) (s : OsState σ) (th : Thread) : Option ℕ :=
  (runsNow s th).filter fun i => s.pcOf i < cfg.size i

/-- No possible step dispatches a dead process or executes an instruction of one. -/
def StaysDead (cfg : Config) (prog : ℕ → Program) (user : UserMemory σ) (l : KillLog σ) : Prop :=
  ∀ j, l.dead j = true → ∀ th t, killStep cfg prog user l th = some t →
    dispatchesNow cfg l.os th ≠ some j ∧ executesNow cfg l.os th ≠ some j

instance (s : OsState σ) (c i : ℕ) : Decidable (Holds s c i) :=
  inferInstanceAs (Decidable (_ ∧ _))

/-- The processes to terminate have all been added, and no CPU holds one except to
report it finished; `running_list` has no freed process, whose path the call
would read. -/
def FindsAll (cfg : Config) (prog : ℕ → Program) (s : OsState σ) (i : ℕ) (name : List Byte) :
    Prop :=
  (∀ j ∈ s.sched.runningList.toList, s.freed j = false) ∧
    ∀ j < s.next + 1, ToKill cfg prog s i name j →
      j < s.next ∧ ∀ c < cfg.numCpus, Holds s c j → s.pcOf j = cfg.size j

instance (cfg : Config) (prog : ℕ → Program) (s : OsState σ) (i : ℕ) (name : List Byte) :
    Decidable (FindsAll cfg prog s i name) := inferInstanceAs (Decidable (_ ∧ _))

def KillFindsAll (cfg : Config) (prog : ℕ → Program) (user : UserMemory σ) (l : KillLog σ)
    (th : Thread) : Prop :=
  ∀ r ∈ killsNow cfg user l.os th, FindsAll cfg prog l.os r.1 r.2

instance (cfg : Config) (prog : ℕ → Program) (user : UserMemory σ) (l : KillLog σ) (th : Thread) :
    Decidable (KillFindsAll cfg prog user l th) :=
  inferInstanceAs (Decidable (∀ r ∈ killsNow cfg user l.os th, _))

/-! ### What the call leaves in the queues -/

theorem waiting_killSched (prio : ℕ → ℕ) (named : ℕ → Bool) (s : SchedState ℕ) (j : ℕ) :
    waiting (killSched prio named s).1 j = if named j then 0 else waiting s j := by
  have hlevel := (count_killSched prio s j named).2
  unfold waiting
  rw [Finset.sum_congr rfl fun pr hpr => hlevel pr (Finset.mem_range.mp hpr)]
  split_ifs
  · exact Finset.sum_const_zero
  · rfl

theorem schedInv_killSched {prio : ℕ → ℕ} (named : ℕ → Bool) {s : SchedState ℕ}
    (h : SchedInv prio s) : SchedInv prio (killSched prio named s).1 := by
  refine ⟨fun pr hpr j hj => ?_, h.curr_lt, h.slot_nonneg, h.slot_le, h.slot_eq⟩
  have hcount := (count_killSched prio s j named).2 pr hpr
  have hpos := List.count_pos_iff.mpr hj
  apply h.uniform pr hpr j
  apply List.count_pos_iff.mp
  split_ifs at hcount
  · omega
  · omega

theorem onlyRemoves_killEffects (cfg : Config) (prog : ℕ → Program) (user : UserMemory σ) :
    OnlyRemoves cfg (killEffects cfg prog user) := by
  intro i hi ins hins hkill sched mem hs
  dsimp only [killEffects]
  cases user.name i ins mem with
  | none => exact ⟨hs, fun j => le_rfl⟩
  | some name =>
    refine ⟨schedInv_killSched _ hs, fun j => ?_⟩
    rw [waiting_killSched]
    split_ifs
    · exact Nat.zero_le _
    · exact le_rfl

theorem waiting_run_kill {cfg : Config} {prog : ℕ → Program} {user : UserMemory σ} {s : OsState σ}
    {i : ℕ} {ins : Inst} (hins : (cfg.text i)[s.pcOf i]? = some ins) (hkill : ins.isKillall = true)
    {name : List Byte} (hname : user.name i ins s.mem = some name) {j : ℕ}
    (hj : named prog name j = true) :
    waiting (run cfg (killEffects cfg prog user) s i).sched j = 0 := by
  have hsched : (run cfg (killEffects cfg prog user) s i).sched =
      (killSched cfg.prio (named prog name) s.sched).1 := by
    simp [run, hins, hkill, killEffects, hname]
  rw [hsched, waiting_killSched, if_pos hj]

/-! ### Dead processes -/

section Step
variable {cfg : Config} {eff : Effects σ} {s t : OsState σ} {c j : ℕ} {th : Thread}

/-- Nothing can put the process on a CPU or move its program counter. -/
structure Out (cfg : Config) (s : OsState σ) (j : ℕ) : Prop where
  added : j < s.next
  not_waiting : waiting s.sched j = 0
  spent : ∀ c < cfg.numCpus, Holds s c j → s.pcOf j = cfg.size j

theorem Out.not_fetched (hs : SchedInv cfg.prio s.sched) (h : Out cfg s j) :
    (getProc cfg.prio s.sched).1 ≠ some j := by
  intro hget
  have hwait := waiting_getProc hs j
  rw [hget, Option.toList_some, List.count_singleton_self, h.not_waiting] at hwait
  omega

theorem out_fetch (hs : SchedInv cfg.prio s.sched) (h : Out cfg s j) (freed : ℕ → Bool)
    {pc : Option ℕ → CpuPc} (hpc : ∀ r, pc r ≠ .afterPut) (timeLeft : ℤ) :
    Out cfg (fetch cfg { s with freed := freed } c pc timeLeft) j := by
  have hnot := h.not_fetched hs
  have hwait := waiting_getProc hs j
  refine ⟨h.added, ?_, fun e he hh => ?_⟩
  · change waiting (getProc cfg.prio s.sched).2 j = 0
    have := h.not_waiting
    omega
  · rw [holds_fetch hpc] at hh
    split_ifs at hh
    · exact absurd hh hnot
    · exact h.spent e he hh

theorem Out.frame (h : Out cfg s j) (hnext : s.next ≤ t.next)
    (hwait : waiting t.sched j ≤ waiting s.sched j)
    (hpcs : s.pcOf j = cfg.size j → t.pcOf j = cfg.size j)
    (hholds : ∀ c, Holds t c j → Holds s c j) : Out cfg t j where
  added := h.added.trans_le hnext
  not_waiting := Nat.le_zero.mp (h.not_waiting ▸ hwait)
  spent c hc hh := hpcs (h.spent c hc (hholds c hh))

theorem Out.same (h : Out cfg s j) (hnext : t.next = s.next) (hsched : t.sched = s.sched)
    (hpcs : t.pcOf = s.pcOf) (hholds : ∀ c i, Holds t c i ↔ Holds s c i) : Out cfg t j :=
  h.frame hnext.ge (hsched ▸ le_rfl) (fun hj => hpcs ▸ hj) fun c => (hholds c j).mp

theorem out_cpu (hkill : OnlyRemoves cfg eff) (hex : Exclusive cfg s)
    (hle : s.next ≤ cfg.numProcesses) (hc : c < cfg.numCpus) (h : Out cfg s j)
    (hmove : CpuMove cfg eff s c t) : Out cfg t j := by
  cases hmove with
  | idle hsched hnext hfreed hpcs hholds => exact h.same hnext hsched hpcs hholds
  | fetch pc timeLeft hpc hfree ht =>
    rw [ht]
    exact out_fetch hex.sched h s.freed hpc timeLeft
  | finish i hheld hfin ht =>
    rw [ht]
    exact out_fetch hex.sched h _ (fun _ => by simp) 0
  | put i hheld hfin ht =>
    -- a dead process the CPU holds is finished, and that branch was taken before
    have hji : j ≠ i := by
      rintro rfl
      exact hfin (h.spent c hc hheld)
    rw [ht]
    refine h.frame le_rfl (waiting_putProc_other cfg.prio s.sched hji) id fun e hh => ?_
    exact ((holds_put rfl e j).mp hh).2
  | exec i cpu hheld ht hholds =>
    have hi : i < s.next := hex.loaded i (Or.inr (Or.inl ⟨c, hheld⟩))
    obtain ⟨pcs, sched, mem, hr, hinv, hwait, hpcs⟩ :=
      run_removes hkill hex.sched (hi.trans_le hle)
    rw [hr] at ht
    subst ht
    exact h.frame le_rfl (hwait j) (hpcs j) fun e => (hholds e j).mp

theorem out_step (hkill : OnlyRemoves cfg eff) (hctl : Control cfg s) (hex : Exclusive cfg s)
    (h : Out cfg s j) (hstep : OsStep cfg eff s th t) : Out cfg t j := by
  cases hstep with
  | timer => exact h.same rfl rfl rfl fun _ _ => Iff.rfl
  | cpu hc hcpu => exact out_cpu hkill hex hctl.next_le hc h (cpuStep_move hcpu)
  | ld hld =>
    cases hld with
    | add hrun hat =>
      have hwait := waiting_putProc_other cfg.prio s.sched h.added.ne
      exact h.frame (Nat.le_succ _) hwait id fun _ => id
    | _ => exact h.same rfl rfl rfl fun _ _ => Iff.rfl

/-- A call that finds all of its processes leaves them dead. -/
theorem out_killed {prog : ℕ → Program} {user : UserMemory σ} (hctl : Control cfg s)
    (hex : Exclusive cfg s) (hstep : OsStep cfg (killEffects cfg prog user) s th t) {i : ℕ}
    {name : List Byte} (hnow : killsNow cfg user s th = some (i, name))
    (hall : FindsAll cfg prog s i name) (hj : ToKill cfg prog s i name j) : Out cfg t j := by
  obtain ⟨i', hruns, hnow⟩ := Option.bind_eq_some_iff.mp hnow
  obtain ⟨ins, hins, hnow⟩ := Option.bind_eq_some_iff.mp hnow
  split_ifs at hnow with hkill
  obtain ⟨name', hname, heq⟩ := Option.map_eq_some_iff.mp hnow
  obtain ⟨rfl, rfl⟩ := Prod.mk.inj heq
  have hlt : j < s.next + 1 := by
    rcases hj.2.1 with hlt | ⟨rfl, -⟩
    · omega
    · omega
  obtain ⟨hadded, hspent⟩ := hall.2 j hlt hj
  cases hstep with
  | timer => exact absurd hruns (by simp [runsNow])
  | ld => exact absurd hruns (by simp [runsNow])
  | @cpu c _ hc hcpu =>
    simp only [runsNow] at hruns
    split_ifs at hruns with hat
    cases hcpu with
    | wake hb => simp [hb] at hat
    | fetchIdle hrun hpc => simp [hpc] at hat
    | fetchFinish hrun hpc => simp [hpc] at hat
    | put hrun hpc => simp [hpc] at hat
    | keep hrun hpc => simp [hpc] at hat
    | fetchPut hrun hpc => simp [hpc] at hat
    | exit hrun hpc hproc => simp [hproc] at hruns
    | skip hrun hpc hproc => simp [hproc] at hruns
    | slot hrun hpc => simp [hpc] at hat
    | detach hrun hpc => simp [hpc] at hat
    | @exec k timeLeft hrun hpc hproc =>
      obtain rfl : k = i' := Option.some.inj (hproc.symm.trans hruns)
      have hi : k < s.next := hex.loaded k (Or.inr (Or.inl ⟨c, hproc, by simp [hpc]⟩))
      have hzero := waiting_run_kill hins hkill hname hj.2.2
      obtain ⟨pcs, sched, mem, hr, -, -, hpcs⟩ :=
        run_removes (onlyRemoves_killEffects cfg prog user) hex.sched
          (hi.trans_le hctl.next_le)
      rw [hr] at hzero ⊢
      refine ⟨hadded, hzero, fun e he hh => hpcs j ?_⟩
      exact hspent e he ((holds_setCpu _ (fun k => by simp [Holds, hproc, hpc]) e j).mp hh)

theorem lt_numCpus_of_step (h : osStep cfg eff s (.cpu c) = some t) : c < cfg.numCpus := by
  by_contra hc
  rw [osStep, if_neg hc] at h
  exact absurd h (by simp)

theorem Out.not_dispatched (hs : SchedInv cfg.prio s.sched) (h : Out cfg s j) (th : Thread) :
    dispatchesNow cfg s th ≠ some j := by
  cases th with
  | timer => simp [dispatchesNow]
  | ld => simp [dispatchesNow]
  | cpu c =>
    unfold dispatchesNow
    dsimp only
    split_ifs
    · exact h.not_fetched hs
    · simp

theorem Out.not_executed (h : Out cfg s j) (hstep : osStep cfg eff s th = some t) :
    executesNow cfg s th ≠ some j := by
  intro hexec
  obtain ⟨hruns, hlt⟩ := Option.filter_eq_some_iff.mp hexec
  cases th with
  | timer => simp [runsNow] at hruns
  | ld => simp [runsNow] at hruns
  | cpu c =>
    simp only [runsNow] at hruns
    split_ifs at hruns with hat
    have hspent := h.spent c (lt_numCpus_of_step hstep) ⟨hruns, by simp [hat.2]⟩
    simp [hspent] at hlt

end Step

/-! ### Whole runs -/

def KillReachable (cfg : Config) (prog : ℕ → Program) (user : UserMemory σ) (mem : σ)
    (ok : KillLog σ → Thread → Prop) : KillLog σ → Prop :=
  Reachable (System.ofStep (KillLog.start cfg mem) (killStep cfg prog user)) ok

structure KillInv (cfg : Config) (l : KillLog σ) : Prop where
  control : Control cfg l.os
  exclusive : Exclusive cfg l.os
  out : ∀ j, l.dead j = true → Out cfg l.os j

theorem killInv_start (cfg : Config) (mem : σ) : KillInv cfg (KillLog.start cfg mem) where
  control := control_start cfg mem
  exclusive := exclusive_start cfg mem
  out _ h := absurd h Bool.false_ne_true

theorem killInv_step {cfg : Config} {prog : ℕ → Program} {user : UserMemory σ} {l m : KillLog σ}
    {th : Thread} (h : KillInv cfg l) (hok : KillFindsAll cfg prog user l th)
    (hnext : killStep cfg prog user l th = some m) : KillInv cfg m := by
  obtain ⟨t, ht, rfl⟩ := Option.map_eq_some_iff.mp hnext
  have hstep := osStep_step ht
  have hkill := onlyRemoves_killEffects cfg prog user
  refine ⟨control_step h.control hstep, exclusive_step hkill h.control h.exclusive hstep,
    fun j hj => ?_⟩
  have hold : l.dead j = true → Out cfg t j := fun hdead =>
    out_step hkill h.control h.exclusive (h.out j hdead) hstep
  dsimp only at hj ⊢
  cases hnow : killsNow cfg user l.os th with
  | none =>
    rw [hnow] at hj
    exact hold hj
  | some r =>
    obtain ⟨i, name⟩ := r
    rw [hnow] at hj
    rcases Bool.or_eq_true _ _ ▸ hj with hdead | hnew
    · exact hold hdead
    · exact out_killed h.control h.exclusive hstep hnow (hok _ hnow) (of_decide_eq_true hnew)

/-- Whatever the interleaving, the programs and the memory: when every system call
101 so far found all of its processes, no process that one of them had to
terminate is dispatched or executes an instruction any more. -/
theorem killed_stays_dead {cfg : Config} {prog : ℕ → Program} {user : UserMemory σ} {mem : σ}
    {l : KillLog σ} (h : KillReachable cfg prog user mem (KillFindsAll cfg prog user) l) :
    StaysDead cfg prog user l := by
  have hinv : KillInv cfg l := by
    apply Reachable.invariant (KillInv cfg) _ _ h
    · intro l0 h0
      obtain rfl : l0 = KillLog.start cfg mem := h0
      exact killInv_start cfg mem
    · intro l1 th m hl hok hnext
      exact killInv_step hl hok hnext
  intro j hj th t hnext
  obtain ⟨os, hos, -⟩ := Option.map_eq_some_iff.mp hnext
  have hout := hinv.out j hj
  exact ⟨hout.not_dispatched hinv.exclusive.sched th, hout.not_executed hos⟩

/-- Process 0 computes once and calls `killall`; process 1 was loaded from
`input/proc/s1` and computes twice. -/
def Config.killer (numCpus : ℕ) : Config where
  timeSlot := 5
  numCpus := numCpus
  numProcesses := 2
  startTime _ := 0
  prio _ := 0
  text i := if i = 0 then [⟨.calc, 0, 0, 0, 0⟩, ⟨.syscall, 101, 1, 0, 0⟩]
    else [⟨.calc, 0, 0, 0, 0⟩, ⟨.calc, 0, 0, 0, 0⟩]

/-- Region 1 of the caller holds the path. -/
def holdsPath : UserMemory Unit :=
  ⟨fun _ _ => id, fun _ _ _ => some (ascii "input/proc/s1"), fun _ _ _ => id⟩

/-- Process 0 computes in the first slot and the loader adds process 1 in the
second; `rest` is what happens between that and the call by CPU 0. -/
def killAfter (numCpus : ℕ) (rest : List Thread) : List Thread :=
  List.replicate 4 .ld ++ List.replicate 3 (.cpu 0) ++
    (List.range' 1 (numCpus - 1)).flatMap (fun c => List.replicate 2 (.cpu c)) ++
    List.replicate (2 * (numCpus + 1) + 2) .timer ++ List.replicate 4 .ld ++ rest ++
    List.replicate 3 (.cpu 0)

/-- On one CPU process 1 waits in its ready queue when it is named. -/
theorem killed_stays_dead_waiting :
    ∃ l : KillLog Unit, l.dead 1 = true ∧
      StaysDead (.killer 1) (twoPrograms "input/proc/s1") holdsPath l := by
  obtain ⟨l, hl, hp⟩ := exists_reachable_of_runAll
    (killStep (.killer 1) (twoPrograms "input/proc/s1") holdsPath)
    (KillFindsAll (.killer 1) (twoPrograms "input/proc/s1") holdsPath)
    (KillLog.start (.killer 1) ()) (killAfter 1 []) (fun l => l.dead 1) (by decide +kernel)
  exact ⟨l, hp, killed_stays_dead hl⟩

/-- CPU 1 has just taken process 1 from its queue when CPU 0 executes the call, and
runs it next. -/
theorem held_process_survives_killall :
    ∃ l : KillLog Unit, KillReachable (.killer 2) (twoPrograms "input/proc/s1") holdsPath ()
        (fun _ _ => True) l ∧ l.dead 1 = true ∧
      ¬StaysDead (.killer 2) (twoPrograms "input/proc/s1") holdsPath l := by
  obtain ⟨l, hl, hp⟩ := exists_reachable_of_runAll
    (killStep (.killer 2) (twoPrograms "input/proc/s1") holdsPath) (fun _ _ => True)
    (KillLog.start (.killer 2) ()) (killAfter 2 (List.replicate 2 (.cpu 1)))
    (fun l => decide (l.dead 1 = true ∧ executesNow (.killer 2) l.os (.cpu 1) = some 1 ∧
      (killStep (.killer 2) (twoPrograms "input/proc/s1") holdsPath l (.cpu 1)).isSome = true))
    (by decide +kernel)
  obtain ⟨hdead, hexec, hnext⟩ := of_decide_eq_true hp
  refine ⟨l, hl, hdead, fun hstays => ?_⟩
  obtain ⟨m, hm⟩ := Option.isSome_iff_exists.mp hnext
  exact (hstays 1 hdead (.cpu 1) m hm).2 hexec

end OsSim.Os
