import OsSim.Os.System

/-!
# Control invariants of the simulation

Where the threads can be. `CpuStep` and `LdStep` are the inversion lemmas of
the two loops: everything one step can do. `Control` is what they keep of the
control points.
-/

namespace OsSim.Os
open OsSim.Base OsSim.Sched

variable {σ : Type}

/-- The configurations the results are about. -/
structure Config.Valid (cfg : Config) : Prop where
  cpus_pos : 1 ≤ cfg.numCpus
  slot_pos : 1 ≤ cfg.timeSlot
  prio_lt : ∀ i < cfg.numProcesses, cfg.prio i < maxPrio
  few : ∀ q, (List.range cfg.numProcesses).countP (fun i => cfg.prio i = q) ≤ maxQueueSize
  no_killall : ∀ i < cfg.numProcesses, ∀ ins ∈ cfg.text i, ins.isKillall = false

theorem mem_devList_cpu {cfg : Config} {c : ℕ} (h : c < cfg.numCpus) : Dev.cpu c ∈ devList cfg := by
  simp [devList, h]

theorem mem_devList_ld (cfg : Config) : Dev.ld ∈ devList cfg := by simp [devList]

theorem nodup_devList (cfg : Config) : (devList cfg).Nodup := by
  refine List.nodup_cons.mpr ⟨by simp, List.Nodup.map (fun a b h => by simpa using h) ?_⟩
  exact List.nodup_reverse.mpr List.nodup_range

/-! ### Inversion of the steps -/

/-- Everything one step of CPU `c` can do. -/
inductive CpuStep (cfg : Config) (eff : Effects σ) (s : OsState σ) (c : ℕ) : OsState σ → Prop where
  | wake {t} : s.timer.ctl (.cpu c) = .blocked → wake s.timer (.cpu c) = some t →
      CpuStep cfg eff s c { s with timer := t }
  | fetchIdle : s.timer.ctl (.cpu c) = .run → (s.cpus c).pc = .top → (s.cpus c).proc = none →
      CpuStep cfg eff s c
        (fetch cfg s c (fun r => if r.isNone then .slot else .recheck) (s.cpus c).timeLeft)
  | fetchFinish {i} : s.timer.ctl (.cpu c) = .run → (s.cpus c).pc = .top →
      (s.cpus c).proc = some i → s.pcOf i = cfg.size i →
      CpuStep cfg eff s c
        (fetch cfg { s with freed := Function.update s.freed i true } c (fun _ => .recheck) 0)
  | put {i} : s.timer.ctl (.cpu c) = .run → (s.cpus c).pc = .top → (s.cpus c).proc = some i →
      s.pcOf i ≠ cfg.size i → (s.cpus c).timeLeft = 0 →
      CpuStep cfg eff s c
        ({ s with sched := putProc cfg.prio s.sched i }.setCpu c { s.cpus c with pc := .afterPut })
  | keep {i} : s.timer.ctl (.cpu c) = .run → (s.cpus c).pc = .top → (s.cpus c).proc = some i →
      s.pcOf i ≠ cfg.size i → (s.cpus c).timeLeft ≠ 0 →
      CpuStep cfg eff s c (s.setCpu c { s.cpus c with pc := .recheck })
  | fetchPut : s.timer.ctl (.cpu c) = .run → (s.cpus c).pc = .afterPut →
      CpuStep cfg eff s c (fetch cfg s c (fun _ => .recheck) (s.cpus c).timeLeft)
  | exit : s.timer.ctl (.cpu c) = .run → (s.cpus c).pc = .recheck → (s.cpus c).proc = none →
      s.done = true → CpuStep cfg eff s c (s.setCpu c { s.cpus c with pc := .leave })
  | skip : s.timer.ctl (.cpu c) = .run → (s.cpus c).pc = .recheck → (s.cpus c).proc = none →
      s.done = false → CpuStep cfg eff s c (s.setCpu c { s.cpus c with pc := .slot })
  | exec {i} (timeLeft : ℤ) : s.timer.ctl (.cpu c) = .run → (s.cpus c).pc = .recheck →
      (s.cpus c).proc = some i →
      CpuStep cfg eff s c ((run cfg eff s i).setCpu c ⟨.slot, some i, timeLeft⟩)
  | slot {t} : s.timer.ctl (.cpu c) = .run → (s.cpus c).pc = .slot →
      setDone s.timer (.cpu c) = some t →
      CpuStep cfg eff s c ({ s with timer := t }.setCpu c { s.cpus c with pc := .top })
  | detach {t} : s.timer.ctl (.cpu c) = .run → (s.cpus c).pc = .leave →
      detachEvent s.timer (.cpu c) = some t → CpuStep cfg eff s c { s with timer := t }

theorem cpuRoutine_step {cfg : Config} {eff : Effects σ} {s t : OsState σ} {c : ℕ}
    (h : cpuRoutine cfg eff s c = some t) : CpuStep cfg eff s c t := by
  rw [cpuRoutine] at h
  split at h
  · rename_i hctl
    simp only [cpuActive] at h
    split at h
    · rename_i hpc hproc
      exact Option.some.inj h ▸ .fetchIdle hctl hpc hproc
    · rename_i i hpc hproc
      by_cases hfin : s.pcOf i = cfg.size i
      · rw [if_pos hfin] at h
        exact Option.some.inj h ▸ .fetchFinish hctl hpc hproc hfin
      · rw [if_neg hfin] at h
        by_cases hleft : (s.cpus c).timeLeft = 0
        · rw [if_pos hleft] at h
          exact Option.some.inj h ▸ .put hctl hpc hproc hfin hleft
        · rw [if_neg hleft] at h
          exact Option.some.inj h ▸ .keep hctl hpc hproc hfin hleft
    · rename_i hpc
      exact Option.some.inj h ▸ .fetchPut hctl hpc
    · rename_i hpc hproc
      rcases hdone : s.done with - | -
      · simp only [hdone, Bool.false_eq_true, if_false] at h
        exact Option.some.inj h ▸ .skip hctl hpc hproc hdone
      · simp only [hdone, if_true] at h
        exact Option.some.inj h ▸ .exit hctl hpc hproc hdone
    · rename_i i hpc hproc
      exact Option.some.inj h ▸ .exec _ hctl hpc hproc
    · rename_i hpc
      obtain ⟨tm, htm, rfl⟩ := Option.map_eq_some_iff.mp h
      exact .slot hctl hpc htm
    · rename_i hpc
      obtain ⟨tm, htm, rfl⟩ := Option.map_eq_some_iff.mp h
      exact .detach hctl hpc htm
  · rename_i hctl
    obtain ⟨tm, htm, rfl⟩ := Option.map_eq_some_iff.mp h
    exact .wake hctl htm
  · exact absurd h (by simp)

/-- Everything one step of the loader can do. -/
inductive LdStep (cfg : Config) (s : OsState σ) : OsState σ → Prop where
  | wake {t} : s.timer.ctl .ld = .blocked → wake s.timer .ld = some t →
      LdStep cfg s { s with timer := t }
  | next : s.timer.ctl .ld = .run → s.ld = .outer → s.next < cfg.numProcesses →
      LdStep cfg s { s with ld := .wait }
  | all : s.timer.ctl .ld = .run → s.ld = .outer → cfg.numProcesses ≤ s.next →
      LdStep cfg s { s with ld := .setDone }
  | early : s.timer.ctl .ld = .run → s.ld = .wait → LdStep cfg s { s with ld := .slotWait }
  | start : s.timer.ctl .ld = .run → s.ld = .wait → LdStep cfg s { s with ld := .add }
  | add : s.timer.ctl .ld = .run → s.ld = .add →
      LdStep cfg s { s with
        sched := addProc cfg.prio s.sched s.next, next := s.next + 1, ld := .slotOuter }
  | slotWait {t} : s.timer.ctl .ld = .run → s.ld = .slotWait → setDone s.timer .ld = some t →
      LdStep cfg s { s with timer := t, ld := .wait }
  | slotOuter {t} : s.timer.ctl .ld = .run → s.ld = .slotOuter → setDone s.timer .ld = some t →
      LdStep cfg s { s with timer := t, ld := .outer }
  | setDone : s.timer.ctl .ld = .run → s.ld = .setDone →
      LdStep cfg s { s with done := true, ld := .leave }
  | detach {t} : s.timer.ctl .ld = .run → s.ld = .leave → detachEvent s.timer .ld = some t →
      LdStep cfg s { s with timer := t }

theorem ldRoutine_step {cfg : Config} {s t : OsState σ} (h : ldRoutine cfg s = some t) :
    LdStep cfg s t := by
  rw [ldRoutine] at h
  split at h
  · rename_i hctl
    simp only [ldActive] at h
    split at h
    · rename_i hld
      by_cases hi : s.next < cfg.numProcesses
      · rw [if_pos hi] at h
        exact Option.some.inj h ▸ .next hctl hld hi
      · rw [if_neg hi] at h
        exact Option.some.inj h ▸ .all hctl hld (not_lt.mp hi)
    · rename_i hld
      by_cases ht : s.timer.time < cfg.startTime s.next
      · rw [if_pos ht] at h
        exact Option.some.inj h ▸ .early hctl hld
      · rw [if_neg ht] at h
        exact Option.some.inj h ▸ .start hctl hld
    · rename_i hld
      exact Option.some.inj h ▸ .add hctl hld
    · rename_i hld
      obtain ⟨tm, htm, rfl⟩ := Option.map_eq_some_iff.mp h
      exact .slotWait hctl hld htm
    · rename_i hld
      obtain ⟨tm, htm, rfl⟩ := Option.map_eq_some_iff.mp h
      exact .slotOuter hctl hld htm
    · rename_i hld
      exact Option.some.inj h ▸ .setDone hctl hld
    · rename_i hld
      obtain ⟨tm, htm, rfl⟩ := Option.map_eq_some_iff.mp h
      exact .detach hctl hld htm
  · rename_i hctl
    obtain ⟨tm, htm, rfl⟩ := Option.map_eq_some_iff.mp h
    exact .wake hctl htm
  · exact absurd h (by simp)

/-! ### Where the threads are -/

structure Control (cfg : Config) (s : OsState σ) : Prop where
  timer : TimerInv (devList cfg) s.timer
  gone_leave : ∀ c < cfg.numCpus, s.timer.ctl (.cpu c) = .gone → (s.cpus c).pc = .leave
  blocked_top : ∀ c < cfg.numCpus, s.timer.ctl (.cpu c) = .blocked → (s.cpus c).pc = .top
  leave_done : ∀ c < cfg.numCpus, (s.cpus c).pc = .leave →
    (s.cpus c).proc = none ∧ s.done = true
  done_leave : s.done = true → s.ld = .leave
  ld_gone : s.timer.ctl .ld = .gone → s.ld = .leave
  ld_blocked : s.timer.ctl .ld = .blocked → s.ld = .wait ∨ s.ld = .outer
  next_lt : s.ld = .wait ∨ s.ld = .slotWait ∨ s.ld = .add → s.next < cfg.numProcesses
  next_le : s.next ≤ cfg.numProcesses
  next_all : s.ld = .setDone ∨ s.ld = .leave → s.next = cfg.numProcesses

theorem control_start (cfg : Config) (mem : σ) : Control cfg (OsState.start cfg mem) where
  timer := timerInv_start _
  gone_leave c _ h := by simp [OsState.start, TimerState.start] at h
  blocked_top c _ _ := rfl
  leave_done c _ h := by simp [OsState.start] at h
  done_leave h := by simp [OsState.start] at h
  ld_gone h := by simp [OsState.start, TimerState.start] at h
  ld_blocked h := by simp [OsState.start, TimerState.start] at h
  next_lt h := by simp [OsState.start] at h
  next_le := Nat.zero_le _
  next_all h := by simp [OsState.start] at h

theorem Control.of_cpu {cfg : Config} {s t : OsState σ} {c : ℕ} (h : Control cfg s)
    (hrun : s.timer.ctl (.cpu c) = .run) (htimer : t.timer = s.timer) (hdone : t.done = s.done)
    (hld : t.ld = s.ld) (hnext : t.next = s.next) (hother : ∀ e, e ≠ c → t.cpus e = s.cpus e)
    (hleave : (t.cpus c).pc = .leave → (t.cpus c).proc = none ∧ s.done = true) :
    Control cfg t where
  timer := htimer ▸ h.timer
  gone_leave e he hg := by
    rw [htimer] at hg
    have hec : e ≠ c := by rintro rfl; simp [hrun] at hg
    rw [hother e hec]
    exact h.gone_leave e he hg
  blocked_top e he hb := by
    rw [htimer] at hb
    have hec : e ≠ c := by rintro rfl; simp [hrun] at hb
    rw [hother e hec]
    exact h.blocked_top e he hb
  leave_done e he hl := by
    rw [hdone]
    by_cases hec : e = c
    · subst hec
      exact hleave hl
    · rw [hother e hec] at hl ⊢
      exact h.leave_done e he hl
  done_leave hd := by rw [hld]; exact h.done_leave (hdone ▸ hd)
  ld_gone hg := by rw [hld]; exact h.ld_gone (htimer ▸ hg)
  ld_blocked hb := by rw [hld]; exact h.ld_blocked (htimer ▸ hb)
  next_lt hn := by rw [hnext]; exact h.next_lt (hld ▸ hn)
  next_le := hnext ▸ h.next_le
  next_all hn := by rw [hnext]; exact h.next_all (hld ▸ hn)

/-- A step of the timer alone, of the loader, or of a CPU with the timer: what
it must respect when the CPUs' locals stay, `c` apart. -/
theorem Control.of_timer {cfg : Config} {s : OsState σ} (h : Control cfg s) {tm : TimerState Dev}
    (htm : TimerInv (devList cfg) tm)
    (hcpu : ∀ c, tm.ctl (.cpu c) = .run ∨ tm.ctl (.cpu c) = s.timer.ctl (.cpu c) ∨
      tm.ctl (.cpu c) = .gone ∧ (s.cpus c).pc = .leave)
    (hld : tm.ctl .ld = .run ∨ tm.ctl .ld = s.timer.ctl .ld ∨
      tm.ctl .ld = .gone ∧ s.ld = .leave) : Control cfg { s with timer := tm } where
  timer := htm
  gone_leave c hc hg := by
    rcases hcpu c with h1 | h1 | ⟨-, h1⟩
    · simp [h1] at hg
    · exact h.gone_leave c hc (h1 ▸ hg)
    · exact h1
  blocked_top c hc hb := by
    rcases hcpu c with h1 | h1 | ⟨h1, -⟩
    · simp [h1] at hb
    · exact h.blocked_top c hc (h1 ▸ hb)
    · simp [h1] at hb
  leave_done := h.leave_done
  done_leave := h.done_leave
  ld_gone hg := by
    rcases hld with h1 | h1 | ⟨-, h1⟩
    · simp [h1] at hg
    · exact h.ld_gone (h1 ▸ hg)
    · exact h1
  ld_blocked hb := by
    rcases hld with h1 | h1 | ⟨h1, -⟩
    · simp [h1] at hb
    · exact h.ld_blocked (h1 ▸ hb)
    · simp [h1] at hb
  next_lt := h.next_lt
  next_le := h.next_le
  next_all := h.next_all

theorem wake_ctl {D : Type} [DecidableEq D] {s t : TimerState D} {d : D} (h : wake s d = some t) :
    t.ctl = Function.update s.ctl d .run ∧ t.cnt = s.cnt ∧ s.ctl d = .blocked ∧ s.done d = false := by
  rw [wake] at h
  split_ifs at h with hw
  obtain rfl := Option.some.inj h
  exact ⟨rfl, rfl, hw⟩

theorem detachEvent_ctl {D : Type} [DecidableEq D] {s t : TimerState D} {d : D}
    (h : detachEvent s d = some t) : t.ctl = Function.update s.ctl d .gone ∧ t.cnt = s.cnt := by
  rw [detachEvent] at h
  split_ifs at h
  obtain rfl := Option.some.inj h
  exact ⟨rfl, rfl⟩

theorem setDone_ctl {D : Type} [DecidableEq D] {s t : TimerState D} {d : D}
    (h : setDone s d = some t) : t.ctl = Function.update s.ctl d .blocked ∧
      t.cnt = Function.update s.cnt d (s.cnt d + 1) := by
  rw [setDone] at h
  split_ifs at h
  obtain rfl := Option.some.inj h
  exact ⟨rfl, rfl⟩

theorem timerRoutine_ctl {D : Type} [DecidableEq D] {devs : List D} {s t : TimerState D}
    (h : timerRoutine devs s = some t) : t.ctl = s.ctl ∧ t.cnt = s.cnt := by
  rw [timerRoutine] at h
  split at h
  · split_ifs at h
    all_goals obtain rfl := Option.some.inj h; exact ⟨rfl, rfl⟩
  · obtain rfl := Option.some.inj h; exact ⟨rfl, rfl⟩
  · obtain rfl := Option.some.inj h; exact ⟨rfl, rfl⟩
  · obtain rfl := Option.some.inj h; exact ⟨rfl, rfl⟩
  · exact absurd h (by simp)

theorem setCpu_other (s : OsState σ) {c e : ℕ} (cpu : Cpu) (h : e ≠ c) :
    (s.setCpu c cpu).cpus e = s.cpus e := Function.update_of_ne h _ _

theorem setCpu_self (s : OsState σ) (c : ℕ) (cpu : Cpu) : (s.setCpu c cpu).cpus c = cpu :=
  Function.update_self ..

/-- `run` touches the program counter of `i`, memory, and through `killall` the
scheduler. -/
theorem run_frame (cfg : Config) (eff : Effects σ) (s : OsState σ) (i : ℕ) :
    ∃ pcs sched mem, run cfg eff s i = { s with pcOf := pcs, sched := sched, mem := mem } := by
  rw [run]
  split
  · exact ⟨s.pcOf, s.sched, s.mem, rfl⟩
  · split_ifs
    · exact ⟨_, _, _, rfl⟩
    · exact ⟨_, s.sched, _, rfl⟩

theorem control_cpu {cfg : Config} {eff : Effects σ} {s t : OsState σ} {c : ℕ}
    (h : Control cfg s) (hstep : CpuStep cfg eff s c t) : Control cfg t := by
  cases hstep with
  | wake hb hw =>
    obtain ⟨hctl, -⟩ := wake_ctl hw
    refine h.of_timer (timerInv_wake h.timer hw) (fun e => ?_) (by simp [hctl])
    by_cases hec : e = c <;> simp [hctl, hec]
  | fetchIdle hrun hpc hproc =>
    refine h.of_cpu hrun rfl rfl rfl rfl (fun e he => setCpu_other _ _ he) fun hl => ?_
    simp only [fetch, setCpu_self] at hl
    split_ifs at hl
  | fetchFinish hrun hpc hproc hfin =>
    refine h.of_cpu hrun rfl rfl rfl rfl (fun e he => setCpu_other _ _ he) fun hl => ?_
    simp [fetch, setCpu_self] at hl
  | put hrun hpc hproc hfin hleft =>
    refine h.of_cpu hrun rfl rfl rfl rfl (fun e he => setCpu_other _ _ he) fun hl => ?_
    simp [setCpu_self] at hl
  | keep hrun hpc hproc hfin =>
    refine h.of_cpu hrun rfl rfl rfl rfl (fun e he => setCpu_other _ _ he) fun hl => ?_
    simp [setCpu_self] at hl
  | fetchPut hrun hpc =>
    refine h.of_cpu hrun rfl rfl rfl rfl (fun e he => setCpu_other _ _ he) fun hl => ?_
    simp [fetch, setCpu_self] at hl
  | exit hrun hpc hproc hdone =>
    refine h.of_cpu hrun rfl rfl rfl rfl (fun e he => setCpu_other _ _ he) fun hl => ?_
    rw [setCpu_self]
    exact ⟨hproc, hdone⟩
  | skip hrun hpc hproc hdone =>
    refine h.of_cpu hrun rfl rfl rfl rfl (fun e he => setCpu_other _ _ he) fun hl => ?_
    simp [setCpu_self] at hl
  | @exec i timeLeft hrun hpc hproc =>
    obtain ⟨pcs, sched, mem, hr⟩ := run_frame cfg eff s i
    rw [hr]
    refine h.of_cpu hrun rfl rfl rfl rfl (fun e he => setCpu_other _ _ he) fun hl => ?_
    simp [setCpu_self] at hl
  | @slot tm hrun hpc hset =>
    obtain ⟨hctl, -⟩ := setDone_ctl hset
    have hmid : Control cfg (s.setCpu c { s.cpus c with pc := .top }) :=
      h.of_cpu hrun rfl rfl rfl rfl (fun e he => setCpu_other _ _ he) fun hl => by
        simp [setCpu_self] at hl
    refine { hmid with
      timer := timerInv_setDone h.timer hset
      gone_leave := fun e he hg => ?_
      blocked_top := fun e he hb => ?_
      ld_gone := fun hg => h.ld_gone (by simpa [OsState.setCpu, hctl] using hg)
      ld_blocked := fun hb => h.ld_blocked (by simpa [OsState.setCpu, hctl] using hb) }
    · by_cases hec : e = c
      · subst hec
        simp [OsState.setCpu, hctl] at hg
      · exact hmid.gone_leave e he (by simpa [OsState.setCpu, hctl, hec] using hg)
    · by_cases hec : e = c
      · subst hec
        simp [OsState.setCpu]
      · exact hmid.blocked_top e he (by simpa [OsState.setCpu, hctl, hec] using hb)
  | detach hrun hpc hd =>
    obtain ⟨hctl, -⟩ := detachEvent_ctl hd
    refine h.of_timer (timerInv_detachEvent h.timer hd) (fun e => ?_) (by simp [hctl])
    by_cases hec : e = c
    · subst hec
      exact Or.inr (Or.inr ⟨by simp [hctl], hpc⟩)
    · simp [hctl, hec]

theorem Control.of_ld {cfg : Config} {s t : OsState σ} (h : Control cfg s)
    (hrun : s.timer.ctl .ld = .run) (htimer : t.timer = s.timer) (hcpus : t.cpus = s.cpus)
    (hdone : s.done = true → t.done = true) (hleave : t.done = true → t.ld = .leave)
    (hlt : t.ld = .wait ∨ t.ld = .slotWait ∨ t.ld = .add → t.next < cfg.numProcesses)
    (hle : t.next ≤ cfg.numProcesses)
    (hall : t.ld = .setDone ∨ t.ld = .leave → t.next = cfg.numProcesses) : Control cfg t where
  timer := htimer ▸ h.timer
  gone_leave c hc hg := by rw [hcpus]; exact h.gone_leave c hc (htimer ▸ hg)
  blocked_top c hc hb := by rw [hcpus]; exact h.blocked_top c hc (htimer ▸ hb)
  leave_done c hc hl := by
    rw [hcpus] at hl ⊢
    exact ⟨(h.leave_done c hc hl).1, hdone (h.leave_done c hc hl).2⟩
  done_leave := hleave
  ld_gone hg := by simp [htimer, hrun] at hg
  ld_blocked hb := by simp [htimer, hrun] at hb
  next_lt := hlt
  next_le := hle
  next_all := hall

/-- The loader sets its flag in `next_slot` and waits. -/
theorem Control.of_ld_setDone {cfg : Config} {s : OsState σ} (h : Control cfg s)
    {tm : TimerState Dev} (hset : setDone s.timer .ld = some tm)
    (hld : s.ld = .wait ∨ s.ld = .outer) : Control cfg { s with timer := tm } := by
  obtain ⟨hctl, -⟩ := setDone_ctl hset
  exact { h with
    timer := timerInv_setDone h.timer hset
    gone_leave := fun c hc hg => h.gone_leave c hc (by simpa [hctl] using hg)
    blocked_top := fun c hc hb => h.blocked_top c hc (by simpa [hctl] using hb)
    ld_gone := fun hg => by simp [hctl] at hg
    ld_blocked := fun _ => hld }

theorem control_ld {cfg : Config} {s t : OsState σ} (h : Control cfg s) (hstep : LdStep cfg s t) :
    Control cfg t := by
  -- a loader that is not at `leave` has not set `done`
  have hopen : ∀ l, s.ld = l → l ≠ .leave → s.done ≠ true := fun l hl hne hd =>
    hne (hl ▸ h.done_leave hd)
  cases hstep with
  | wake hb hw =>
    obtain ⟨hctl, -⟩ := wake_ctl hw
    exact h.of_timer (timerInv_wake h.timer hw) (fun e => by simp [hctl]) (by simp [hctl])
  | next hrun hld hlt =>
    refine h.of_ld hrun rfl rfl id ?_ (fun _ => hlt) h.next_le (by simp)
    exact fun hd => absurd hd (hopen _ hld (by simp))
  | all hrun hld hge =>
    refine h.of_ld hrun rfl rfl id ?_ (by simp) h.next_le (fun _ => le_antisymm h.next_le hge)
    exact fun hd => absurd hd (hopen _ hld (by simp))
  | early hrun hld =>
    refine h.of_ld hrun rfl rfl id ?_ (fun _ => h.next_lt (Or.inl hld)) h.next_le (by simp)
    exact fun hd => absurd hd (hopen _ hld (by simp))
  | start hrun hld =>
    refine h.of_ld hrun rfl rfl id ?_ (fun _ => h.next_lt (Or.inl hld)) h.next_le (by simp)
    exact fun hd => absurd hd (hopen _ hld (by simp))
  | add hrun hld =>
    have hlt := h.next_lt (Or.inr (Or.inr hld))
    refine h.of_ld hrun rfl rfl id ?_ (by simp) hlt (by simp)
    exact fun hd => absurd hd (hopen _ hld (by simp))
  | slotWait hrun hld hset =>
    have hmid : Control cfg { s with ld := .wait } := by
      refine h.of_ld hrun rfl rfl id ?_ (fun _ => h.next_lt (Or.inr (Or.inl hld))) h.next_le
        (by simp)
      exact fun hd => absurd hd (hopen _ hld (by simp))
    exact hmid.of_ld_setDone hset (Or.inl rfl)
  | slotOuter hrun hld hset =>
    have hmid : Control cfg { s with ld := .outer } := by
      refine h.of_ld hrun rfl rfl id ?_ (by simp) h.next_le (by simp)
      exact fun hd => absurd hd (hopen _ hld (by simp))
    exact hmid.of_ld_setDone hset (Or.inr rfl)
  | setDone hrun hld =>
    exact h.of_ld hrun rfl rfl (fun _ => rfl) (fun _ => rfl) (by simp) h.next_le
      (fun _ => h.next_all (Or.inl hld))
  | detach hrun hld hd =>
    obtain ⟨hctl, -⟩ := detachEvent_ctl hd
    exact h.of_timer (timerInv_detachEvent h.timer hd) (fun e => by simp [hctl])
      (Or.inr (Or.inr ⟨by simp [hctl], hld⟩))

/-- Everything one step of the simulation can do. -/
inductive OsStep (cfg : Config) (eff : Effects σ) (s : OsState σ) : Thread → OsState σ → Prop where
  | timer {t} : timerRoutine (devList cfg) s.timer = some t →
      OsStep cfg eff s .timer { s with timer := t }
  | ld {t} : LdStep cfg s t → OsStep cfg eff s .ld t
  | cpu {c t} : c < cfg.numCpus → CpuStep cfg eff s c t → OsStep cfg eff s (.cpu c) t

theorem osStep_step {cfg : Config} {eff : Effects σ} {s t : OsState σ} {th : Thread}
    (h : osStep cfg eff s th = some t) : OsStep cfg eff s th t := by
  cases th with
  | timer =>
    obtain ⟨tm, htm, rfl⟩ := Option.map_eq_some_iff.mp h
    exact .timer htm
  | ld => exact .ld (ldRoutine_step h)
  | cpu c =>
    simp only [osStep] at h
    split_ifs at h with hc
    exact .cpu hc (cpuRoutine_step h)

theorem control_step {cfg : Config} {eff : Effects σ} {s t : OsState σ} {th : Thread}
    (h : Control cfg s) (hstep : OsStep cfg eff s th t) : Control cfg t := by
  cases hstep with
  | timer htm =>
    obtain ⟨hctl, -⟩ := timerRoutine_ctl htm
    exact h.of_timer (timerInv_timerRoutine (nodup_devList cfg) h.timer htm)
      (fun c => by simp [hctl]) (by simp [hctl])
  | ld hld => exact control_ld h hld
  | cpu hc hcpu => exact control_cpu h hcpu

end OsSim.Os
