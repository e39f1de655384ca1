import OsSim.Os.Timetable

/-!
# No CPU is spare while a process waits

A CPU for which `get_proc` found nothing sits out the rest of the slot, and a CPU
that puts a process back fetches one at once. So from the moment one is spare, no
more processes wait than there are CPUs between `put_proc` and `get_proc`, unless
the loader adds one in this very slot. When the slot is over, whoever has not run
in it is therefore not waiting: every CPU was busy.
-/

namespace OsSim.Os
open OsSim.Base OsSim.Sched

variable {σ : Type} {cfg : Config} {eff : Effects σ} {s t : OsState σ} {c i : ℕ} {th : Thread}

/-- CPU `c` has found no process for the current slot, or has left. -/
def Spare (s : OsState σ) (c : ℕ) : Prop :=
  (s.cpus c).proc = none ∧
    (DoneSlot s c ∨ (s.cpus c).pc = .recheck ∨ (s.cpus c).pc = .leave)

/-- The processes in the ready queues. -/
def queued (cfg : Config) (s : OsState σ) : ℕ :=
  ∑ i ∈ Finset.range cfg.numProcesses, waiting s.sched i

/-- The CPUs between `put_proc` and `get_proc`. -/
def putting (cfg : Config) (s : OsState σ) : ℕ :=
  ∑ c ∈ Finset.range cfg.numCpus, if (s.cpus c).pc = .afterPut then 1 else 0

/-- The loader adds a process in slot `n`. -/
def LoadSlot (cfg : Config) (n : ℕ) : Prop := ∃ i < cfg.numProcesses, loadTime cfg i = n

def Drained (cfg : Config) (s : OsState σ) : Prop :=
  (∃ c < cfg.numCpus, Spare s c) → ¬LoadSlot cfg s.timer.time → queued cfg s ≤ putting cfg s

theorem drained_start (cfg : Config) (mem : σ) : Drained cfg (OsState.start cfg mem) := by
  intro _ _
  have hzero : queued cfg (OsState.start cfg mem) = 0 := by
    apply Finset.sum_eq_zero
    intro i _
    exact waiting_initScheduler i
  rw [hzero]
  exact Nat.zero_le _

/-! ### The two numbers -/

theorem sum_count_singleton (n p : ℕ) :
    ∑ i ∈ Finset.range n, [p].count i = if p < n then 1 else 0 := by
  simp [List.count_singleton]

/-- `get_proc` takes the process it answers out of the queues. -/
theorem queued_fetch (hs : SchedInv cfg.prio s.sched) (pc : Option ℕ → CpuPc) (timeLeft : ℤ) :
    queued cfg (fetch cfg s c pc timeLeft) + ∑ i ∈ Finset.range cfg.numProcesses,
      (getProc cfg.prio s.sched).1.toList.count i = queued cfg s := by
  rw [queued, queued, ← Finset.sum_add_distrib]
  exact Finset.sum_congr rfl fun i _ => waiting_getProc hs i

theorem queued_put (hsched : t.sched = putProc cfg.prio s.sched i) :
    queued cfg t ≤ queued cfg s + 1 := by
  have hle : ∀ j ∈ Finset.range cfg.numProcesses,
      waiting t.sched j ≤ waiting s.sched j + [i].count j := fun j _ => by
    rw [hsched]
    exact waiting_putProc_le cfg.prio s.sched i j
  calc queued cfg t
      ≤ ∑ j ∈ Finset.range cfg.numProcesses, (waiting s.sched j + [i].count j) :=
        Finset.sum_le_sum hle
    _ = queued cfg s + if i < cfg.numProcesses then 1 else 0 := by
        rw [Finset.sum_add_distrib, sum_count_singleton, queued]
    _ ≤ queued cfg s + 1 := by split_ifs <;> omega

theorem putting_cpu {cpu : Cpu} (hc : c < cfg.numCpus)
    (hcpus : t.cpus = Function.update s.cpus c cpu) :
    putting cfg t + (if (s.cpus c).pc = .afterPut then 1 else 0) =
      putting cfg s + if cpu.pc = .afterPut then 1 else 0 := by
  rw [putting, hcpus]
  exact sum_update (fun cpu : Cpu => if cpu.pc = .afterPut then 1 else 0) s.cpus cpu hc

/-! ### One step -/

theorem spare_cpu {cpu : Cpu} {e : ℕ} (hcpus : t.cpus = Function.update s.cpus c cpu)
    (htimer : t.timer = s.timer) (hproc : cpu.proc ≠ none) (h : Spare t e) : Spare s e := by
  have hec : e ≠ c := fun hec => by
    subst hec
    rw [Spare, hcpus, Function.update_self] at h
    exact hproc h.1
  rw [Spare, DoneSlot, hcpus, htimer, Function.update_of_ne hec] at h
  exact h

/-- A step that makes no CPU spare and lets the queues grow no more than the CPUs
that will look into them. -/
theorem Drained.frame (h : Drained cfg s) (htime : t.timer.time = s.timer.time)
    (hspare : ∀ e, Spare t e → Spare s e)
    (hle : queued cfg s ≤ putting cfg s → queued cfg t ≤ putting cfg t) : Drained cfg t := by
  intro hidle hload
  obtain ⟨e, he, hsp⟩ := hidle
  exact hle (h ⟨e, he, hspare e hsp⟩ (htime ▸ hload))

theorem drained_fetch (hs : SchedInv cfg.prio s.sched) (hspent : ¬QuotaSpentAlone s.sched)
    (hall : ∀ p, (getProc cfg.prio s.sched).1 = some p → p < cfg.numProcesses)
    (hc : c < cfg.numCpus) {pc : Option ℕ → CpuPc} (timeLeft : ℤ)
    (hpc : ∀ r, pc r ≠ .afterPut) (h : Drained cfg s) :
    Drained cfg (fetch cfg s c pc timeLeft) := by
  have hqueued := queued_fetch (c := c) hs pc timeLeft
  cases hr : (getProc cfg.prio s.sched).1 with
  | none =>
    have hstep := getProc_step cfg.prio s.sched hs
    rw [hr] at hstep
    intro _ _
    cases hstep.none_cases hs with
    | inl hempty =>
      have hzero : queued cfg s = 0 := by
        apply Finset.sum_eq_zero
        intro i _
        apply Finset.sum_eq_zero
        intro l hl
        rw [hempty.1 l (Finset.mem_range.mp hl), List.count_nil]
      omega
    | inr hq => exact absurd hq.1 hspent
  | some p =>
    rw [hr, Option.toList_some, sum_count_singleton, if_pos (hall p hr)] at hqueued
    have hput := putting_cpu (s := s) (t := fetch cfg s c pc timeLeft) hc rfl
    rw [if_neg (hpc _)] at hput
    have hspare : ∀ e, Spare (fetch cfg s c pc timeLeft) e → Spare s e := fun e he =>
      spare_cpu (s := s) (t := fetch cfg s c pc timeLeft) rfl rfl (by simp [hr]) he
    refine h.frame (t := fetch cfg s c pc timeLeft) rfl hspare fun hle => ?_
    split_ifs at hput <;> omega

theorem Exclusive.answer_lt (hex : Exclusive cfg s) (hctl : Control cfg s) {p : ℕ}
    (h : (getProc cfg.prio s.sched).1 = some p) : p < cfg.numProcesses := by
  have hget := waiting_getProc hex.sched p
  rw [h, Option.toList_some, List.count_singleton_self] at hget
  exact (hex.loaded p (Or.inl (by omega))).trans_le hctl.next_le

theorem drained_put (h : Drained cfg s) (hc : c < cfg.numCpus) (hpc : (s.cpus c).pc = .top)
    {cpu : Cpu} (hafter : cpu.pc = .afterPut)
    (hsame : cpu.proc = some i) :
    Drained cfg ({ s with sched := putProc cfg.prio s.sched i }.setCpu c cpu) := by
  have hput := putting_cpu (s := s)
    (t := { s with sched := putProc cfg.prio s.sched i }.setCpu c cpu) hc rfl
  rw [hpc, if_neg (by simp), if_pos hafter] at hput
  have hqueued : queued cfg ({ s with sched := putProc cfg.prio s.sched i }.setCpu c cpu) ≤
      queued cfg s + 1 := queued_put rfl
  have hspare : ∀ e, Spare ({ s with sched := putProc cfg.prio s.sched i }.setCpu c cpu) e →
      Spare s e := fun e he =>
    spare_cpu (s := s) (t := { s with sched := putProc cfg.prio s.sched i }.setCpu c cpu) rfl rfl
      (by simp [hsame]) he
  refine h.frame (t := { s with sched := putProc cfg.prio s.sched i }.setCpu c cpu) rfl hspare
    fun hle => ?_
  omega

/-- A CPU that moves on its own and was spare if it is. -/
theorem Drained.move (h : Drained cfg s) (hc : c < cfg.numCpus) {cpu : Cpu}
    (hcpus : t.cpus = Function.update s.cpus c cpu) (hsched : t.sched = s.sched)
    (htime : t.timer.time = s.timer.time) (hbefore : (s.cpus c).pc ≠ .afterPut)
    (hafter : cpu.pc ≠ .afterPut) (hother : ∀ e ≠ c, Spare t e → Spare s e)
    (hself : Spare t c → Spare s c) : Drained cfg t := by
  have hput := putting_cpu hc hcpus
  rw [if_neg hbefore, if_neg hafter] at hput
  have hqueued : queued cfg t = queued cfg s := by rw [queued, queued, hsched]
  apply h.frame htime
  · intro e he
    by_cases hec : e = c
    · exact hec ▸ hself (hec ▸ he)
    · exact hother e hec he
  · omega

theorem spare_other (hstep : OsStep cfg eff s th t) (htime : t.timer.time = s.timer.time) {e : ℕ}
    (hth : th ≠ .cpu e) (h : Spare t e) : Spare s e := by
  obtain ⟨hcpu, hctl⟩ := hstep.other hth
  rw [Spare, DoneSlot, hcpu, hctl, cnt_other hstep hth, htime] at h
  exact h

theorem drained_cpu (hv : cfg.Valid) (hctl : Control cfg s) (hex : Exclusive cfg s)
    (hc : c < cfg.numCpus) (hok : GetsServed cfg s (.cpu c)) (hstep : CpuStep cfg eff s c t)
    (h : Drained cfg s) : Drained cfg t := by
  have hall : ∀ p, (getProc cfg.prio s.sched).1 = some p → p < cfg.numProcesses :=
    fun p hp => hex.answer_lt hctl hp
  have hother : t.timer.time = s.timer.time → ∀ e ≠ c, Spare t e → Spare s e :=
    fun htime e hec he =>
      spare_other (.cpu hc hstep) htime (fun heq => hec (Thread.cpu.inj heq).symm) he
  have hbusy : (t.cpus c).proc ≠ none → Spare t c → Spare s c :=
    fun hproc hsp => absurd hsp.1 hproc
  cases hstep with
  | wake hb hw =>
    have htop := hctl.blocked_top c hc hb
    have hcpus : s.cpus = Function.update s.cpus c (s.cpus c) := by simp
    refine h.move hc hcpus rfl (wake_time hw) (by simp [htop]) (by simp [htop])
      (hother (wake_time hw)) fun hsp => ?_
    have hrun := congrFun (wake_ctl hw).1 (.cpu c)
    rw [Function.update_self] at hrun
    rcases hsp.2 with hd | hpc | hpc
    · exact absurd hd (not_doneSlot_of_run hrun (by simp [htop]))
    · simp [htop] at hpc
    · simp [htop] at hpc
  | fetchIdle hrun hpc hproc =>
    exact drained_fetch hex.sched (hok (by simp [callsGet, hrun, hpc, hproc])) hall hc _
      (fun r => by split_ifs <;> simp) h
  | fetchFinish hrun hpc hproc hfin =>
    exact drained_fetch (s := { s with freed := Function.update s.freed _ true }) hex.sched
      (hok (by simp [callsGet, hrun, hpc, hproc, hfin])) hall hc _ (fun r => by simp) h
  | fetchPut hrun hpc =>
    exact drained_fetch hex.sched (hok (by simp [callsGet, hrun, hpc])) hall hc _
      (fun r => by simp) h
  | put hrun hpc hproc hfin hleft => exact drained_put h hc hpc rfl hproc
  | keep hrun hpc hproc hfin hleft =>
    refine h.move hc rfl rfl rfl (by simp [hpc]) (by simp) (hother rfl) (hbusy ?_)
    simp [setCpu_self, hproc]
  | exit hrun hpc hproc hdone =>
    exact h.move hc rfl rfl rfl (by simp [hpc]) (by simp) (hother rfl) fun _ =>
      ⟨hproc, Or.inr (Or.inl hpc)⟩
  | skip hrun hpc hproc hdone =>
    exact h.move hc rfl rfl rfl (by simp [hpc]) (by simp) (hother rfl) fun _ =>
      ⟨hproc, Or.inr (Or.inl hpc)⟩
  | @exec i timeLeft hrun hpc hproc =>
    have hi : i < cfg.numProcesses :=
      (hex.loaded i (Or.inr (Or.inl ⟨c, hproc, by simp [hpc]⟩))).trans_le hctl.next_le
    obtain ⟨pcs, mem, hr, -⟩ := run_plain hv eff s hi
    rw [hr] at hother hbusy ⊢
    refine h.move hc rfl rfl rfl (by simp [hpc]) (by simp) (hother rfl) (hbusy ?_)
    simp [setCpu_self]
  | slot hrun hpc hset =>
    refine h.move hc rfl rfl (setDone_time hset) (by simp [hpc]) (by simp)
      (hother (setDone_time hset)) fun hsp => ⟨?_, Or.inl (Or.inl ⟨hrun, hpc⟩)⟩
    simpa [setCpu_self] using hsp.1
  | detach hrun hpc hd =>
    have hcpus : s.cpus = Function.update s.cpus c (s.cpus c) := by simp
    exact h.move hc hcpus rfl (detachEvent_time hd) (by simp [hpc]) (by simp [hpc])
      (hother (detachEvent_time hd)) fun hsp => ⟨hsp.1, Or.inr (Or.inr hpc)⟩

/-! ### The end of a slot -/

/-- When the timer has passed every device, all are done with the slot or gone. -/
theorem Control.slot_over (hctl : Control cfg s) {fsh event : ℕ}
    (hpc : s.timer.pc = .collect [] fsh event) {d : Dev} (hd : d ∈ devList cfg) :
    s.timer.ctl d = .gone ∨
      s.timer.ctl d = .blocked ∧ s.timer.cnt d = s.timer.time + 1 := by
  have hphase := hctl.timer.phase
  rw [PhaseOk, hpc] at hphase
  obtain ⟨seen, hdevs, -, -, hseen, hall⟩ := hphase
  rw [List.append_nil] at hdevs
  cases hc : s.timer.ctl d with
  | gone => exact Or.inl rfl
  | run =>
    have hopen := hctl.timer.run_open d hc
    simpa [hc, hopen] using hseen d (hdevs ▸ hd)
  | blocked =>
    have hdone : s.timer.done d = true := by simpa [hc] using hseen d (hdevs ▸ hd)
    have hcnt := hall d hd (by simp [hc])
    rw [hdone, if_pos rfl] at hcnt
    exact Or.inr ⟨rfl, hcnt⟩

theorem timerRoutine_tick {D : Type} [DecidableEq D] {devs : List D} {tm tm' : TimerState D}
    (h : timerRoutine devs tm = some tm') : tm'.time = tm.time ∨
      tm'.time = tm.time + 1 ∧ ∃ fsh event, tm.pc = .collect [] fsh event := by
  unfold timerRoutine at h
  split at h
  · split_ifs at h
    all_goals obtain rfl := Option.some.inj h; exact Or.inl rfl
  · rename_i fsh event hpc
    obtain rfl := Option.some.inj h
    exact Or.inr ⟨rfl, fsh, event, hpc⟩
  · obtain rfl := Option.some.inj h; exact Or.inl rfl
  · obtain rfl := Option.some.inj h; exact Or.inl rfl
  · exact absurd h (by simp)

theorem not_loadSlot_of_done (hctl : Control cfg s) (hload : LoadsOnTime cfg s)
    (hdone : s.done = true) : ¬LoadSlot cfg s.timer.time := by
  intro hslot
  obtain ⟨i, hi, heq⟩ := hslot
  have hlast := (hload.loadedByTime hctl).done_not_before hdone
  have hlt := loadTime_lt_turnTime cfg hi
  omega

/-- In the new slot only those CPUs are spare that have left. -/
theorem spare_tick (hctl : Control cfg s) {tm : TimerState Dev} {fsh event : ℕ}
    (htm : timerRoutine (devList cfg) s.timer = some tm) (htime : tm.time = s.timer.time + 1)
    (hpc : s.timer.pc = .collect [] fsh event) (hc : c < cfg.numCpus)
    (h : Spare { s with timer := tm } c) : s.timer.ctl (.cpu c) = .gone := by
  obtain ⟨htc, htcnt⟩ := timerRoutine_ctl htm
  cases hctl.slot_over hpc (mem_devList_cpu hc) with
  | inl hg => exact hg
  | inr hb =>
    have htop := hctl.blocked_top c hc hb.1
    rw [Spare, DoneSlot, htc, htcnt] at h
    simp [hb.1, hb.2, htime, htop] at h

theorem drained_timer (hctl : Control cfg s) (hload : LoadsOnTime cfg s) {tm : TimerState Dev}
    (htm : timerRoutine (devList cfg) s.timer = some tm)
    (hspare : tm.time = s.timer.time → ∀ e, Spare { s with timer := tm } e → Spare s e)
    (h : Drained cfg s) : Drained cfg { s with timer := tm } := by
  cases timerRoutine_tick htm with
  | inl htime => exact h.frame htime (hspare htime) id
  | inr htick =>
    obtain ⟨htime, fsh, event, hpc⟩ := htick
    intro hidle _
    obtain ⟨c, hc, hsp⟩ := hidle
    have hleave := hctl.gone_leave c hc (spare_tick hctl htm htime hpc hc hsp)
    obtain ⟨hproc, hdone⟩ := hctl.leave_done c hc hleave
    exact h ⟨c, hc, hproc, Or.inr (Or.inr hleave)⟩ (not_loadSlot_of_done hctl hload hdone)

theorem drained_ld (hctl : Control cfg s) (hload : LoadsOnTime cfg s) (hstep : LdStep cfg s t)
    (hspare : t.timer.time = s.timer.time → ∀ e, Spare t e → Spare s e)
    (h : Drained cfg s) : Drained cfg t := by
  cases hstep with
  | add hrun hld =>
    intro _ hno
    have hphase := hload.phase
    rw [hld, LoadPhase, hctl.ld_slots hrun] at hphase
    exact absurd ⟨s.next, hctl.next_lt (Or.inr (Or.inr hld)), hphase.symm⟩ hno
  | wake hb hw => exact h.frame (wake_time hw) (hspare (wake_time hw)) id
  | slotWait hrun hld hset => exact h.frame (setDone_time hset) (hspare (setDone_time hset)) id
  | slotOuter hrun hld hset => exact h.frame (setDone_time hset) (hspare (setDone_time hset)) id
  | detach hrun hld hd => exact h.frame (detachEvent_time hd) (hspare (detachEvent_time hd)) id
  | _ => exact h.frame rfl (hspare rfl) id

theorem drained_step (hv : cfg.Valid) (hctl : Control cfg s) (hex : Exclusive cfg s)
    (hload : LoadsOnTime cfg s) (hok : GetsServed cfg s th) (hstep : OsStep cfg eff s th t)
    (h : Drained cfg s) : Drained cfg t := by
  have hspare : ∀ e, th ≠ .cpu e → t.timer.time = s.timer.time → Spare t e → Spare s e :=
    fun e hth htime => spare_other hstep htime hth
  cases hstep with
  | timer htm =>
    exact drained_timer hctl hload htm (fun htime e => hspare e (by simp) htime) h
  | ld hld => exact drained_ld hctl hload hld (fun htime e => hspare e (by simp) htime) h
  | cpu hc hcpu => exact drained_cpu hv hctl hex hc hok hcpu h

end OsSim.Os
