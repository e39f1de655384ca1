import OsSim.Os.Holding
import OsSim.Os.Progress

/-!
# Programs run in order, in bounded slices

The simulation with a log: the instructions of each process that `run` has
executed, the processes reported finished with their program counter at that
moment, and for each CPU the calls of `run` since its last `get_proc`. The
log only looks at the steps. `SliceInv` follows `time_left` through the
branches of the loop: it is 0 whenever the CPU has no process, so the next one
always starts a whole slice.
-/

namespace OsSim.Os
open OsSim.Base OsSim.Sched

variable {σ : Type}

/-- The process on which the next step of the thread calls `run`. -/
def runsNow (s : OsState σ) : Thread → Option ℕ
  | .cpu c =>
    if s.timer.ctl (.cpu c) = .run ∧ (s.cpus c).pc = .recheck then (s.cpus c).proc else none
  | _ => none

/-- The process that the next step of the thread reports finished (`os.c:72-80`). -/
def finishesNow (cfg : Config) (s : OsState σ) : Thread → Option ℕ
  | .cpu c =>
    if s.timer.ctl (.cpu c) = .run ∧ (s.cpus c).pc = .top then
      (s.cpus c).proc.filter fun i => s.pcOf i = cfg.size i
    else none
  | _ => none

structure RunLog (σ : Type) where
  os : OsState σ
  executed : ℕ → List Inst
  reported : List (ℕ × ℕ)
  slice : ℕ → ℕ

def RunLog.start (cfg : Config) (mem : σ) : RunLog σ := ⟨.start cfg mem, fun _ => [], [], fun _ => 0⟩

/-- The slice of CPU `c` after its step, if it was `n` calls long before. -/
def sliceAfter (cfg : Config) (s : OsState σ) (c n : ℕ) : ℕ :=
  if callsGet cfg s c then 0 else if (runsNow s (.cpu c)).isSome then n + 1 else n

def logStep (cfg : Config) (eff : Effects σ) (l : RunLog σ) (th : Thread) : Option (RunLog σ) :=
  (osStep cfg eff l.os th).map fun t =>
    { os := t
      executed :=
        match runsNow l.os th with
        | some i =>
          Function.update l.executed i (l.executed i ++ (cfg.text i)[l.os.pcOf i]?.toList)
        | none => l.executed
      reported :=
        match finishesNow cfg l.os th with
        | some i => (i, l.os.pcOf i) :: l.reported
        | none => l.reported
      slice :=
        match th with
        | .cpu c => Function.update l.slice c (sliceAfter cfg l.os c (l.slice c))
        | _ => l.slice }

/-- Reachable by any interleaving. -/
def LogReachable (cfg : Config) (eff : Effects σ) (mem : σ) (l : RunLog σ) : Prop :=
  Reachable (System.ofStep (RunLog.start cfg mem) (logStep cfg eff)) (fun _ _ => True) l

/-! ### The program counters -/

theorem run_pcOf (cfg : Config) (eff : Effects σ) (s : OsState σ) (i : ℕ) :
    (run cfg eff s i).pcOf =
      if s.pcOf i < cfg.size i then Function.update s.pcOf i (s.pcOf i + 1) else s.pcOf := by
  unfold run
  split
  · rename_i hins
    have hge : ¬s.pcOf i < cfg.size i := not_lt.mpr (List.getElem?_eq_none_iff.mp hins)
    rw [if_neg hge]
  · rename_i ins hins
    have hlt : s.pcOf i < cfg.size i := (List.getElem?_eq_some_iff.mp hins).1
    rw [if_pos hlt]
    split_ifs <;> rfl

theorem pcOf_osStep {cfg : Config} {eff : Effects σ} {s t : OsState σ} {th : Thread}
    (h : OsStep cfg eff s th t) :
    match runsNow s th with
    | some i => t.pcOf = (run cfg eff s i).pcOf
    | none => t.pcOf = s.pcOf := by
  cases h with
  | timer => rfl
  | ld hld => cases hld <;> rfl
  | cpu hc hcpu =>
    cases hcpu with
    | wake hb hw => simp [runsNow, hb]
    | fetchIdle hrun hpc hproc => simp [runsNow, hpc, fetch, OsState.setCpu]
    | fetchFinish hrun hpc hproc hfin => simp [runsNow, hpc, fetch, OsState.setCpu]
    | put hrun hpc hproc hfin hleft => simp [runsNow, hpc, OsState.setCpu]
    | keep hrun hpc hproc hfin => simp [runsNow, hpc, OsState.setCpu]
    | fetchPut hrun hpc => simp [runsNow, hpc, fetch, OsState.setCpu]
    | exit hrun hpc hproc hdone => simp [runsNow, hproc, OsState.setCpu]
    | skip hrun hpc hproc hdone => simp [runsNow, hproc, OsState.setCpu]
    | exec timeLeft hrun hpc hproc => simp [runsNow, hrun, hpc, hproc, OsState.setCpu]
    | slot hrun hpc hset => simp [runsNow, hpc, OsState.setCpu]
    | detach hrun hpc hd => simp [runsNow, hpc]

/-! ### The time of a slice -/

/-- `time_left` of a CPU whose slice is `n` calls long. -/
structure SliceInv (cfg : Config) (cpu : Cpu) (n : ℕ) : Prop where
  idle : cpu.proc = none → cpu.timeLeft = 0
  spent : cpu.pc = .afterPut → cpu.timeLeft = 0
  fresh : cpu.proc ≠ none → cpu.pc = .recheck → cpu.timeLeft = 0 → n = 0
  rest : cpu.proc ≠ none → cpu.pc ≠ .afterPut → (cpu.pc = .recheck → cpu.timeLeft ≠ 0) →
    0 ≤ cpu.timeLeft ∧ n + cpu.timeLeft = cfg.timeSlot

theorem sliceInv_fetched (cfg : Config) {pc : CpuPc} {r : Option ℕ}
    (hpc : r ≠ none → pc = .recheck) : SliceInv cfg ⟨pc, r, 0⟩ 0 where
  idle _ := rfl
  spent _ := rfl
  fresh _ _ _ := rfl
  rest hr _ h := absurd rfl (h (hpc hr))

theorem sliceInv_run {cfg : Config} (hslot : 1 ≤ cfg.timeSlot) {i n : ℕ} {timeLeft : ℤ}
    (h : SliceInv cfg ⟨.recheck, some i, timeLeft⟩ n) :
    SliceInv cfg ⟨.slot, some i, (if timeLeft = 0 then cfg.timeSlot else timeLeft) - 1⟩
      (n + 1) where
  idle hr := by simp at hr
  spent hpc := by simp at hpc
  fresh _ hpc := by simp at hpc
  rest _ _ _ := by
    dsimp only
    by_cases h0 : timeLeft = 0
    · have hn : n = 0 := h.fresh (by simp) rfl h0
      rw [if_pos h0]
      omega
    · have hrest := h.rest (by simp) (by simp) fun _ => h0
      dsimp only at hrest
      rw [if_neg h0]
      omega

theorem sliceInv_cpuActive {cfg : Config} {eff : Effects σ} (hslot : 1 ≤ cfg.timeSlot)
    {s t : OsState σ} {c n : ℕ} (hrun : s.timer.ctl (.cpu c) = .run)
    (h : SliceInv cfg (s.cpus c) n) (hstep : cpuActive cfg eff s c = some t) :
    SliceInv cfg (t.cpus c) (sliceAfter cfg s c n) := by
  rcases hcpu : s.cpus c with ⟨pc, proc, timeLeft⟩
  simp only [cpuActive, hcpu] at hstep
  rw [hcpu] at h
  cases pc with
  | top =>
    cases proc with
    | none =>
      obtain rfl := Option.some.inj hstep
      obtain rfl : timeLeft = 0 := h.idle rfl
      rw [show sliceAfter cfg s c n = 0 by simp [sliceAfter, callsGet, hrun, hcpu]]
      simp only [fetch, setCpu_self]
      apply sliceInv_fetched
      intro hr
      simp [Option.isNone_iff_eq_none, hr]
    | some i =>
      by_cases hfin : s.pcOf i = cfg.size i
      · simp only [if_pos hfin] at hstep
        obtain rfl := Option.some.inj hstep
        rw [show sliceAfter cfg s c n = 0 by simp [sliceAfter, callsGet, hrun, hcpu, hfin]]
        simp only [fetch, setCpu_self]
        exact sliceInv_fetched cfg fun _ => rfl
      · simp only [if_neg hfin] at hstep
        have hrest := h.rest (by simp) (by simp) (by simp)
        rw [show sliceAfter cfg s c n = n by simp [sliceAfter, callsGet, runsNow, hcpu, hfin]]
        by_cases hleft : timeLeft = 0
        · rw [if_pos hleft] at hstep
          obtain rfl := Option.some.inj hstep
          rw [setCpu_self]
          exact ⟨by simp, fun _ => hleft, by simp, by simp⟩
        · rw [if_neg hleft] at hstep
          obtain rfl := Option.some.inj hstep
          rw [setCpu_self]
          exact ⟨by simp, by simp, fun _ _ h0 => absurd h0 hleft, fun _ _ _ => hrest⟩
  | afterPut =>
    obtain rfl := Option.some.inj hstep
    obtain rfl : timeLeft = 0 := h.spent rfl
    rw [show sliceAfter cfg s c n = 0 by simp [sliceAfter, callsGet, hrun, hcpu]]
    simp only [fetch, setCpu_self]
    exact sliceInv_fetched cfg fun _ => rfl
  | recheck =>
    cases proc with
    | none =>
      obtain rfl := Option.some.inj hstep
      rw [setCpu_self]
      have hidle := h.idle rfl
      exact ⟨fun _ => hidle, fun _ => hidle, by simp, by simp⟩
    | some i =>
      obtain rfl := Option.some.inj hstep
      rw [show sliceAfter cfg s c n = n + 1 by simp [sliceAfter, callsGet, runsNow, hrun, hcpu],
        setCpu_self]
      exact sliceInv_run hslot h
  | slot =>
    obtain ⟨tm, -, rfl⟩ := Option.map_eq_some_iff.mp hstep
    rw [show sliceAfter cfg s c n = n by simp [sliceAfter, callsGet, runsNow, hcpu], setCpu_self]
    exact ⟨h.idle, by simp, by simp, fun hp _ _ => h.rest hp (by simp) (by simp)⟩
  | leave =>
    obtain ⟨tm, -, rfl⟩ := Option.map_eq_some_iff.mp hstep
    rw [show sliceAfter cfg s c n = n by simp [sliceAfter, callsGet, runsNow, hcpu], hcpu]
    exact h

theorem sliceInv_cpu {cfg : Config} {eff : Effects σ} (hslot : 1 ≤ cfg.timeSlot)
    {s t : OsState σ} {c n : ℕ} (h : SliceInv cfg (s.cpus c) n)
    (hstep : cpuRoutine cfg eff s c = some t) :
    SliceInv cfg (t.cpus c) (sliceAfter cfg s c n) := by
  unfold cpuRoutine at hstep
  split at hstep
  · rename_i hrun
    exact sliceInv_cpuActive hslot hrun h hstep
  · rename_i hb
    obtain ⟨tm, -, rfl⟩ := Option.map_eq_some_iff.mp hstep
    rw [show sliceAfter cfg s c n = n by simp [sliceAfter, callsGet, runsNow, hb]]
    exact h
  · exact absurd hstep (by simp)

/-! ### Whole runs -/

/-- What a run keeps in order. -/
structure RunsInOrder (cfg : Config) (l : RunLog σ) : Prop where
  one_holder : ∀ c e i, Holds l.os c i → Holds l.os e i → c = e
  in_order : ∀ i, l.executed i = (cfg.text i).take (l.os.pcOf i)
  pc_le : ∀ i, l.os.pcOf i ≤ cfg.size i
  reported : ∀ i pc, (i, pc) ∈ l.reported → pc = cfg.size i
  freed : ∀ i, l.os.freed i = true → l.os.pcOf i = cfg.size i
  slice_le : ∀ c i, Holds l.os c i → (l.slice c : ℤ) ≤ cfg.timeSlot

structure LogInv (cfg : Config) (l : RunLog σ) : Prop where
  control : Control cfg l.os
  exclusive : Exclusive cfg l.os
  in_order : ∀ i, l.executed i = (cfg.text i).take (l.os.pcOf i)
  pc_le : ∀ i, l.os.pcOf i ≤ cfg.size i
  reported : ∀ i pc, (i, pc) ∈ l.reported → pc = cfg.size i
  slice : ∀ c, SliceInv cfg (l.os.cpus c) (l.slice c)

theorem logInv_start (cfg : Config) (mem : σ) : LogInv cfg (RunLog.start cfg mem) where
  control := control_start cfg mem
  exclusive := exclusive_start cfg mem
  in_order i := rfl
  pc_le i := Nat.zero_le _
  reported i pc h := by simp [RunLog.start] at h
  slice c := ⟨fun _ => rfl, fun _ => rfl, fun h => absurd rfl h, fun h => absurd rfl h⟩

theorem finishesNow_size {cfg : Config} {s : OsState σ} {th : Thread} {i : ℕ}
    (h : finishesNow cfg s th = some i) : s.pcOf i = cfg.size i := by
  cases th with
  | cpu c =>
    simp only [finishesNow] at h
    split_ifs at h
    simpa using (Option.filter_eq_some_iff.mp h).2
  | timer => simp [finishesNow] at h
  | ld => simp [finishesNow] at h

theorem executed_step {cfg : Config} {eff : Effects σ} {l : RunLog σ} {t : OsState σ} {th : Thread}
    (h : ∀ i, l.executed i = (cfg.text i).take (l.os.pcOf i))
    (hle : ∀ i, l.os.pcOf i ≤ cfg.size i) (hstep : OsStep cfg eff l.os th t) (j : ℕ) :
    (match runsNow l.os th with
      | some i =>
        Function.update l.executed i (l.executed i ++ (cfg.text i)[l.os.pcOf i]?.toList)
      | none => l.executed) j = (cfg.text j).take (t.pcOf j) ∧ t.pcOf j ≤ cfg.size j := by
  have hpcs := pcOf_osStep hstep
  cases hr : runsNow l.os th with
  | none =>
    rw [hr] at hpcs
    dsimp only at hpcs ⊢
    rw [hpcs]
    exact ⟨h j, hle j⟩
  | some i =>
    rw [hr] at hpcs
    dsimp only at hpcs ⊢
    rw [hpcs, run_pcOf]
    by_cases hji : j = i
    · subst hji
      rw [Function.update_self, h j]
      by_cases hlt : l.os.pcOf j < cfg.size j
      · rw [if_pos hlt, Function.update_self, List.take_add_one]
        exact ⟨rfl, hlt⟩
      · have hnone : (cfg.text j)[l.os.pcOf j]? = none := List.getElem?_eq_none (not_lt.mp hlt)
        rw [if_neg hlt, hnone, Option.toList_none, List.append_nil]
        exact ⟨rfl, hle j⟩
    · rw [Function.update_of_ne hji, h j]
      split_ifs
      · rw [Function.update_of_ne hji]
        exact ⟨rfl, hle j⟩
      · exact ⟨rfl, hle j⟩

theorem logInv_step {cfg : Config} {eff : Effects σ} (hkill : OnlyRemoves cfg eff)
    (hslot : 1 ≤ cfg.timeSlot) {l m : RunLog σ} {th : Thread} (h : LogInv cfg l)
    (hnext : logStep cfg eff l th = some m) : LogInv cfg m := by
  obtain ⟨t, ht, rfl⟩ := Option.map_eq_some_iff.mp hnext
  have hstep := osStep_step ht
  have hexec := executed_step h.in_order h.pc_le hstep
  refine ⟨control_step h.control hstep, exclusive_step hkill h.control h.exclusive hstep,
    fun j => (hexec j).1, fun j => (hexec j).2, fun i pc hmem => ?_, fun e => ?_⟩
  · dsimp only at hmem
    cases hf : finishesNow cfg l.os th with
    | none =>
      rw [hf] at hmem
      exact h.reported i pc hmem
    | some j =>
      rw [hf] at hmem
      rcases List.mem_cons.mp hmem with heq | hold
      · obtain ⟨rfl, rfl⟩ := Prod.mk.inj heq
        exact finishesNow_size hf
      · exact h.reported i pc hold
  · cases hstep with
    | timer => exact h.slice e
    | ld hld => cases hld <;> exact h.slice e
    | @cpu c _ hc hcpu =>
      dsimp only
      by_cases hec : e = c
      · subst hec
        rw [Function.update_self]
        simp only [osStep, if_pos hc] at ht
        exact sliceInv_cpu hslot (h.slice e) ht
      · rw [Function.update_of_ne hec, (cpu_alone hcpu).cpus e fun heq => hec (Dev.cpu.inj heq)]
        exact h.slice e

theorem LogReachable.inv {cfg : Config} {eff : Effects σ} (hkill : OnlyRemoves cfg eff)
    (hslot : 1 ≤ cfg.timeSlot) {mem : σ} {l : RunLog σ} (h : LogReachable cfg eff mem l) :
    LogInv cfg l := by
  apply Reachable.invariant (LogInv cfg) _ _ h
  · intro l0 h0
    obtain rfl : l0 = RunLog.start cfg mem := h0
    exact logInv_start cfg mem
  · intro l1 th m hl _ hnext
    exact logInv_step hkill hslot hl hnext

/-- Whatever the interleaving, the programs, their priorities and the memory:
no process is on two CPUs, the instructions executed are a prefix of the
program, a process is reported finished and freed at the end of its program, and a CPU
calls `run` at most `time_slot` times before it gives the process back. -/
theorem programs_run_in_order {cfg : Config} (hslot : 1 ≤ cfg.timeSlot)
    (hno : ∀ i < cfg.numProcesses, ∀ ins ∈ cfg.text i, ins.isKillall = false)
    (eff : Effects σ) (mem : σ) {l : RunLog σ} (h : LogReachable cfg eff mem l) :
    RunsInOrder cfg l := by
  have hinv := h.inv (onlyRemoves_of_no_killall eff hno) hslot
  refine ⟨hinv.exclusive.one_holder, hinv.in_order, hinv.pc_le, hinv.reported,
    hinv.exclusive.freed_size, fun c i hh => ?_⟩
  have hcpu := hinv.slice c
  have hproc : (l.os.cpus c).proc ≠ none := by simp [hh.1]
  by_cases hfresh : (l.os.cpus c).pc = .recheck ∧ (l.os.cpus c).timeLeft = 0
  · rw [hcpu.fresh hproc hfresh.1 hfresh.2]
    omega
  · have hrest := hcpu.rest hproc hh.2 fun hpc h0 => hfresh ⟨hpc, h0⟩
    omega

/-- Two instructions and a slice of one call: after the first slot the process
has executed one of them and is still on the CPU. -/
theorem programs_run_in_order_first_slot :
    ∃ l : RunLog Unit, l.executed 0 = [⟨.calc, 0, 0, 0, 0⟩] ∧ Holds l.os 0 0 ∧ l.slice 0 = 1 ∧
      RunsInOrder (.single 0 2) l := by
  obtain ⟨l, hl, hp⟩ := exists_reachable_of_runAll (logStep (.single 0 2) noEffects)
    (fun _ _ => True) (RunLog.start (.single 0 2) ()) firstSlot
    (fun l => decide (l.executed 0 = [⟨.calc, 0, 0, 0, 0⟩] ∧
      ((l.os.cpus 0).proc = some 0 ∧ (l.os.cpus 0).pc ≠ .afterPut) ∧ l.slice 0 = 1))
    (by decide +kernel)
  obtain ⟨hexec, hheld, hslice⟩ := of_decide_eq_true hp
  refine ⟨l, hexec, hheld, hslice, programs_run_in_order le_rfl ?_ noEffects () hl⟩
  exact (single_valid (by decide) 2).no_killall

end OsSim.Os
