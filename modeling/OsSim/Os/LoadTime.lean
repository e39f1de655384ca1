import OsSim.Os.Progress

/-!
# When the loader adds the processes (os.c:120-161)

The loader waits for the start time of a process and spends one slot after every
`add_proc`, so process `i` is added in slot `max (startTime j + (i - j))` over
`j ≤ i`: not before its own start time, and not in the slot of the one before.
The slot does not depend on how the threads interleave, on the CPUs or on what
the programs do.
-/

namespace OsSim.Os
open OsSim.Base OsSim.Sched

variable {σ : Type} {cfg : Config} {eff : Effects σ} {s t : OsState σ}

/-- The slot in which process `i` is added. -/
def loadTime (cfg : Config) (i : ℕ) : ℕ :=
  (Finset.range (i + 1)).sup fun j => cfg.startTime j + (i - j)

/-- The slot in which the loader turns to process `i`, or to `done = 1` after the last one. -/
def turnTime (cfg : Config) : ℕ → ℕ
  | 0 => 0
  | i + 1 => loadTime cfg i + 1

theorem loadTime_eq_max (cfg : Config) (i : ℕ) :
    loadTime cfg i = max (cfg.startTime i) (turnTime cfg i) := by
  cases i with
  | zero => simp [loadTime, turnTime]
  | succ i =>
    have hshift : (Finset.range (i + 1)).sup (fun j => cfg.startTime j + (i + 1 - j)) =
        loadTime cfg i + 1 := by
      apply le_antisymm
      · apply Finset.sup_le
        intro j hj
        have hle : cfg.startTime j + (i - j) ≤ loadTime cfg i :=
          Finset.le_sup (f := fun j => cfg.startTime j + (i - j)) hj
        have := Finset.mem_range.mp hj
        omega
      · obtain ⟨j, hj, hmax⟩ := Finset.exists_mem_eq_sup (Finset.range (i + 1))
          Finset.nonempty_range_add_one fun j => cfg.startTime j + (i - j)
        have hle := Finset.le_sup (f := fun j => cfg.startTime j + (i + 1 - j)) hj
        have := Finset.mem_range.mp hj
        rw [loadTime, hmax]
        omega
    rw [loadTime, Finset.range_add_one, Finset.sup_insert, hshift, turnTime]
    simp

theorem turnTime_le_loadTime (cfg : Config) (i : ℕ) : turnTime cfg i ≤ loadTime cfg i := by
  rw [loadTime_eq_max]
  exact le_max_right _ _

theorem turnTime_mono (cfg : Config) : Monotone (turnTime cfg) := by
  apply monotone_nat_of_le_succ
  intro i
  exact (turnTime_le_loadTime cfg i).trans (Nat.le_succ _)

theorem loadTime_lt_turnTime (cfg : Config) {i j : ℕ} (h : i < j) : loadTime cfg i < turnTime cfg j :=
  turnTime_mono cfg (Nat.succ_le_of_lt h)

/-! ### The slots of the loader -/

/-- The slots the loader has finished, at each of its places. -/
def LoadPhase (cfg : Config) (ld : LdPc) (next slots : ℕ) : Prop :=
  match ld with
  | .outer | .setDone | .leave => slots = turnTime cfg next
  | .wait => turnTime cfg next ≤ slots ∧ slots ≤ loadTime cfg next
  | .slotWait => turnTime cfg next ≤ slots ∧ slots < loadTime cfg next
  | .add => slots = loadTime cfg next
  | .slotOuter => slots + 1 = turnTime cfg next

structure LoadsOnTime (cfg : Config) (s : OsState σ) : Prop where
  phase : LoadPhase cfg s.ld s.next (s.timer.cnt .ld)
  leave_done : s.ld = .leave → s.done = true
  gone_le : s.timer.ctl .ld = .gone → s.timer.cnt .ld ≤ s.timer.time

theorem loadsOnTime_start (cfg : Config) (mem : σ) : LoadsOnTime cfg (OsState.start cfg mem) where
  phase := rfl
  leave_done h := by simp [OsState.start] at h
  gone_le h := by simp [OsState.start, TimerState.start] at h

theorem timerRoutine_time {D : Type} [DecidableEq D] {devs : List D} {tm tm' : TimerState D}
    (h : timerRoutine devs tm = some tm') : tm.time ≤ tm'.time := by
  unfold timerRoutine at h
  split at h
  · split_ifs at h
    all_goals obtain rfl := Option.some.inj h; exact le_rfl
  · obtain rfl := Option.some.inj h; exact Nat.le_succ _
  · obtain rfl := Option.some.inj h; exact le_rfl
  · obtain rfl := Option.some.inj h; exact le_rfl
  · exact absurd h (by simp)

theorem wake_time {D : Type} [DecidableEq D] {tm tm' : TimerState D} {d : D}
    (h : wake tm d = some tm') : tm'.time = tm.time := by
  unfold wake at h
  split_ifs at h
  obtain rfl := Option.some.inj h
  rfl

theorem setDone_time {D : Type} [DecidableEq D] {tm tm' : TimerState D} {d : D}
    (h : setDone tm d = some tm') : tm'.time = tm.time := by
  unfold setDone at h
  split_ifs at h
  obtain rfl := Option.some.inj h
  rfl

theorem detachEvent_time {D : Type} [DecidableEq D] {tm tm' : TimerState D} {d : D}
    (h : detachEvent tm d = some tm') : tm'.time = tm.time := by
  unfold detachEvent at h
  split_ifs at h
  obtain rfl := Option.some.inj h
  rfl

theorem cpuStep_time {c : ℕ} (h : CpuStep cfg eff s c t) : t.timer.time = s.timer.time := by
  cases h with
  | wake hb hw => exact wake_time hw
  | exec timeLeft hrun hpc hproc =>
    obtain ⟨pcs, sched, mem, hr⟩ := run_frame cfg eff s _
    rw [hr]
    rfl
  | slot hrun hpc hset => exact setDone_time hset
  | detach hrun hpc hd => exact detachEvent_time hd
  | _ => rfl

theorem ldStep_time (h : LdStep cfg s t) : t.timer.time = s.timer.time := by
  cases h with
  | wake hb hw => exact wake_time hw
  | slotWait hrun hld hset => exact setDone_time hset
  | slotOuter hrun hld hset => exact setDone_time hset
  | detach hrun hld hd => exact detachEvent_time hd
  | _ => rfl

/-- A step after which the loader stands where it stood. -/
structure LeavesLoader (s t : OsState σ) : Prop where
  ld : t.ld = s.ld
  next : t.next = s.next
  done : t.done = s.done
  gone : t.timer.ctl .ld = .gone → s.timer.ctl .ld = .gone
  cnt : t.timer.cnt .ld = s.timer.cnt .ld
  time : s.timer.time ≤ t.timer.time

theorem leavesLoader_cpu {c : ℕ} (h : CpuStep cfg eff s c t) : LeavesLoader s t := by
  have hctl : t.timer.ctl .ld = .gone → s.timer.ctl .ld = .gone := fun hg =>
    (cpu_alone h).ctl .ld (by simp) ▸ hg
  cases h with
  | wake hb hw =>
    exact ⟨rfl, rfl, rfl, hctl, congrFun (wake_ctl hw).2.1 _, (wake_time hw).ge⟩
  | @exec i timeLeft hrun hpc hproc =>
    obtain ⟨pcs, sched, mem, hr⟩ := run_frame cfg eff s i
    rw [hr]
    exact ⟨rfl, rfl, rfl, id, rfl, le_rfl⟩
  | @slot tm hrun hpc hset =>
    have hcnt : tm.cnt .ld = s.timer.cnt .ld := by
      rw [(setDone_ctl hset).2, Function.update_of_ne (by simp)]
    exact ⟨rfl, rfl, rfl, hctl, hcnt, (setDone_time hset).ge⟩
  | detach hrun hpc hd =>
    exact ⟨rfl, rfl, rfl, hctl, congrFun (detachEvent_ctl hd).2 _, (detachEvent_time hd).ge⟩
  | _ => exact ⟨rfl, rfl, rfl, id, rfl, le_rfl⟩

theorem leavesLoader_timer {tm : TimerState Dev}
    (h : timerRoutine (devList cfg) s.timer = some tm) : LeavesLoader s { s with timer := tm } :=
  ⟨rfl, rfl, rfl, fun hg => congrFun (timerRoutine_ctl h).1 Dev.ld ▸ hg,
    congrFun (timerRoutine_ctl h).2 _, timerRoutine_time h⟩

theorem LoadsOnTime.frame (h : LoadsOnTime cfg s) (hst : LeavesLoader s t) : LoadsOnTime cfg t where
  phase := by
    rw [hst.ld, hst.next, hst.cnt]
    exact h.phase
  leave_done hl := by
    rw [hst.done]
    exact h.leave_done (hst.ld ▸ hl)
  gone_le hg := by
    rw [hst.cnt]
    exact (h.gone_le (hst.gone hg)).trans hst.time

/-- The loader has counted as many slots as the timer whenever it runs. -/
theorem Control.ld_slots (hctl : Control cfg s) (hrun : s.timer.ctl .ld = .run) :
    s.timer.cnt .ld = s.timer.time :=
  hctl.timer.barrier (mem_devList_ld cfg) (by simp [hrun]) (hctl.timer.run_open _ hrun)

/-- The test of `current_time` (`os.c:138`). -/
theorem ldRoutine_wait (hrun : s.timer.ctl .ld = .run) (hld : s.ld = .wait) :
    ldRoutine cfg s =
      some { s with ld := if s.timer.time < cfg.startTime s.next then .slotWait else .add } := by
  simp [ldRoutine, hrun, ldActive, hld]

theorem loadsOnTime_wait (hctl : Control cfg s) (h : LoadsOnTime cfg s)
    (hrun : s.timer.ctl .ld = .run) (hld : s.ld = .wait) :
    LoadsOnTime cfg
      { s with ld := if s.timer.time < cfg.startTime s.next then .slotWait else .add } := by
  have hphase := h.phase
  rw [hld, LoadPhase] at hphase
  have hslots := hctl.ld_slots hrun
  have hmax := loadTime_eq_max cfg s.next
  refine ⟨?_, fun hl => ?_, h.gone_le⟩
  · by_cases hearly : s.timer.time < cfg.startTime s.next
    · simp only [if_pos hearly, LoadPhase]
      omega
    · simp only [if_neg hearly, LoadPhase]
      omega
  · dsimp only at hl
    split_ifs at hl

theorem loadsOnTime_ld (hctl : Control cfg s) (h : LoadsOnTime cfg s)
    (hstep : ldRoutine cfg s = some t) : LoadsOnTime cfg t := by
  have hphase := h.phase
  cases ldRoutine_step hstep with
  | wake hb hw =>
    refine h.frame ⟨rfl, rfl, rfl, fun hg => ?_, congrFun (wake_ctl hw).2.1 _, (wake_time hw).ge⟩
    simp [(wake_ctl hw).1] at hg
  | next hrun hld hlt =>
    rw [hld, LoadPhase] at hphase
    exact ⟨⟨hphase.ge, hphase.trans_le (turnTime_le_loadTime cfg _)⟩, by simp, h.gone_le⟩
  | all hrun hld hge =>
    rw [hld] at hphase
    exact ⟨hphase, by simp, h.gone_le⟩
  | early hrun hld =>
    rw [ldRoutine_wait hrun hld] at hstep
    exact Option.some.inj hstep ▸ loadsOnTime_wait hctl h hrun hld
  | start hrun hld =>
    rw [ldRoutine_wait hrun hld] at hstep
    exact Option.some.inj hstep ▸ loadsOnTime_wait hctl h hrun hld
  | add hrun hld =>
    rw [hld, LoadPhase] at hphase
    exact ⟨congrArg (· + 1) hphase, by simp, h.gone_le⟩
  | @slotWait tm hrun hld hset =>
    obtain ⟨hc, hcnt⟩ := setDone_ctl hset
    rw [hld, LoadPhase] at hphase
    refine ⟨?_, by simp, by simp [hc]⟩
    simp only [LoadPhase, hcnt, Function.update_self]
    omega
  | @slotOuter tm hrun hld hset =>
    obtain ⟨hc, hcnt⟩ := setDone_ctl hset
    rw [hld, LoadPhase] at hphase
    refine ⟨?_, by simp, by simp [hc]⟩
    simp only [LoadPhase, hcnt, Function.update_self]
    exact hphase
  | setDone hrun hld =>
    rw [hld] at hphase
    exact ⟨hphase, fun _ => rfl, h.gone_le⟩
  | @detach tm hrun hld hd =>
    obtain ⟨-, hcnt⟩ := detachEvent_ctl hd
    refine ⟨?_, h.leave_done, fun _ => ?_⟩
    · simp only [hcnt]
      exact hphase
    · simp only [hcnt, detachEvent_time hd]
      exact (hctl.ld_slots hrun).le

theorem loadsOnTime_step {th : Thread} (hctl : Control cfg s) (h : LoadsOnTime cfg s)
    (hnext : osStep cfg eff s th = some t) : LoadsOnTime cfg t := by
  cases th with
  | ld => exact loadsOnTime_ld hctl h hnext
  | timer =>
    cases osStep_step hnext with
    | timer htm => exact h.frame (leavesLoader_timer htm)
  | cpu c =>
    cases osStep_step hnext with
    | cpu hc hcpu => exact h.frame (leavesLoader_cpu hcpu)

theorem loadsOnTime_reachable {mem : σ} {ok : OsState σ → Thread → Prop}
    (h : OsReachable cfg eff mem ok s) : Control cfg s ∧ LoadsOnTime cfg s := by
  apply Reachable.invariant (fun s => Control cfg s ∧ LoadsOnTime cfg s) _ _ h
  · intro s0 h0
    obtain rfl : s0 = OsState.start cfg mem := h0
    exact ⟨control_start cfg mem, loadsOnTime_start cfg mem⟩
  · intro s1 th t hs _ hnext
    exact ⟨control_step hs.1 (osStep_step hnext), loadsOnTime_step hs.1 hs.2 hnext⟩

/-! ### Every interleaving -/

/-- What the time of a state says of the loader: short of the current slot, it
tells which processes have been added and whether `done` is set. -/
structure LoadedByTime (cfg : Config) (s : OsState σ) : Prop where
  not_before : ∀ i < s.next, loadTime cfg i ≤ s.timer.time
  not_after : ∀ i < cfg.numProcesses, loadTime cfg i < s.timer.time → i < s.next
  done_not_before : s.done = true → turnTime cfg cfg.numProcesses ≤ s.timer.time
  done_not_after : turnTime cfg cfg.numProcesses < s.timer.time → s.done = true

theorem LoadsOnTime.not_before (hctl : Control cfg s) (h : LoadsOnTime cfg s) {i : ℕ}
    (hi : i < s.next) : loadTime cfg i ≤ s.timer.time := by
  have hturn := loadTime_lt_turnTime cfg hi
  have hphase := h.phase
  have hslots : s.timer.cnt .ld ≤ s.timer.time + 1 := by
    by_cases hg : s.timer.ctl .ld = .gone
    · exact (h.gone_le hg).trans (Nat.le_succ _)
    · exact (hctl.timer.cnt_bounds (mem_devList_ld cfg) hg).2
  cases hld : s.ld with
  | slotOuter =>
    -- the slot of the process just added is not over
    have hrun : s.timer.ctl .ld = .run := by
      cases hc : s.timer.ctl .ld with
      | run => rfl
      | blocked => simpa [hld] using hctl.ld_blocked hc
      | gone => simpa [hld] using hctl.ld_gone hc
    rw [hld, LoadPhase] at hphase
    have := hctl.ld_slots hrun
    omega
  | _ =>
    rw [hld, LoadPhase] at hphase
    have := turnTime_le_loadTime cfg s.next
    omega

theorem Control.time_le_slots (hctl : Control cfg s) (hleave : s.ld ≠ .leave) :
    s.timer.time ≤ s.timer.cnt .ld :=
  (hctl.timer.cnt_bounds (mem_devList_ld cfg) fun hg => hleave (hctl.ld_gone hg)).1

theorem LoadsOnTime.time_le_load (hctl : Control cfg s) (h : LoadsOnTime cfg s)
    (hleave : s.ld ≠ .leave) : s.timer.time ≤ loadTime cfg s.next := by
  have hphase := h.phase
  have hslots := hctl.time_le_slots hleave
  have hturn := turnTime_le_loadTime cfg s.next
  cases hld : s.ld with
  | leave => exact absurd hld hleave
  | _ =>
    rw [hld, LoadPhase] at hphase
    omega

theorem LoadsOnTime.time_le_last (hctl : Control cfg s) (h : LoadsOnTime cfg s)
    (hleave : s.ld ≠ .leave) : s.timer.time ≤ turnTime cfg cfg.numProcesses := by
  by_cases hbefore : s.ld = .wait ∨ s.ld = .slotWait ∨ s.ld = .add
  · exact (h.time_le_load hctl hleave).trans (loadTime_lt_turnTime cfg (hctl.next_lt hbefore)).le
  · have hphase := h.phase
    have hslots := hctl.time_le_slots hleave
    have hturn : s.timer.time ≤ turnTime cfg s.next := by
      cases hld : s.ld with
      | leave => exact absurd hld hleave
      | wait => exact absurd (Or.inl hld) hbefore
      | slotWait => exact absurd (Or.inr (Or.inl hld)) hbefore
      | add => exact absurd (Or.inr (Or.inr hld)) hbefore
      | _ =>
        rw [hld, LoadPhase] at hphase
        omega
    exact hturn.trans (turnTime_mono cfg hctl.next_le)

theorem LoadsOnTime.loadedByTime (hctl : Control cfg s) (h : LoadsOnTime cfg s) :
    LoadedByTime cfg s where
  not_before i hi := h.not_before hctl hi
  not_after i hi hlt := by
    by_contra hnext
    have hle : loadTime cfg s.next ≤ loadTime cfg i := by
      rcases (not_lt.mp hnext).eq_or_lt with heq | hlt
      · rw [heq]
      · exact (loadTime_lt_turnTime cfg hlt).le.trans (turnTime_le_loadTime cfg i)
    have hleave : s.ld ≠ .leave := fun hl => by
      have := hctl.next_all (Or.inr hl)
      omega
    have := h.time_le_load hctl hleave
    omega
  done_not_before hd := by
    have hld := hctl.done_leave hd
    have hphase := h.phase
    rw [hld, LoadPhase, hctl.next_all (Or.inr hld)] at hphase
    rw [← hphase]
    cases hc : s.timer.ctl .ld with
    | run => exact (hctl.ld_slots hc).le
    | blocked => simpa [hld] using hctl.ld_blocked hc
    | gone => exact h.gone_le hc
  done_not_after hlt := by
    apply h.leave_done
    by_contra hleave
    have hle := h.time_le_last hctl hleave
    omega

/-- Whatever the threads' interleaving, the number of CPUs, the programs and their
effects: process `i` is added in slot `loadTime i`, and `done` is set in the slot
after the last one. -/
theorem loads_on_time (cfg : Config) (eff : Effects σ) (mem : σ) {s : OsState σ}
    (h : OsReachable cfg eff mem (fun _ _ => True) s) : LoadedByTime cfg s :=
  (loadsOnTime_reachable h).2.loadedByTime (loadsOnTime_reachable h).1

/-- Two processes, the second with the earlier start time. -/
def Config.staggered (numCpus : ℕ) : Config where
  timeSlot := 1
  numCpus := numCpus
  numProcesses := 2
  startTime i := 2 - i
  prio _ := 0
  text _ := [⟨.calc, 0, 0, 0, 0⟩]

theorem staggered_valid (numCpus : ℕ) (h : 1 ≤ numCpus) : (Config.staggered numCpus).Valid where
  cpus_pos := h
  slot_pos := le_rfl
  prio_lt i _ := by simp [Config.staggered, maxPrio]
  few q := List.countP_le_length.trans (by simp [Config.staggered, maxQueueSize])
  no_killall i _ ins hins := by
    simp [Config.staggered] at hins
    simp [hins, Inst.isKillall]

example : loadTime (.staggered 1) 0 = 2 ∧ loadTime (.staggered 1) 1 = 3 := by decide

/-- In slot 3 the loader has added both. -/
theorem loads_on_time_staggered :
    ∃ s : OsState Unit, s.timer.time = 3 ∧ s.next = 2 ∧ LoadedByTime (.staggered 1) s := by
  have hreach := reachable_tryAll (osStep (.staggered 1) noEffects) (OsState.start (.staggered 1) ())
    (List.replicate 24 [.ld, .cpu 0, .timer]).flatten (.init rfl)
  exact ⟨_, by decide +kernel, by decide +kernel, loads_on_time (.staggered 1) noEffects () hreach⟩

end OsSim.Os
