import OsSim.Os.Barrier
import OsSim.Os.Finish

/-!
# No thread is locked out

A CPU that waits in `next_slot` is let go again: the timer and the other
devices, each given its turn, take it to the next slot. The measure is the
timer's way to the device (`timerWay`) and, while the timer waits for another
device, that device's way to its own `next_slot` or `detach_event` (`slotWay`).
-/

namespace OsSim.Os
open OsSim.Base OsSim.Sched

variable {σ : Type}

def osSystem (cfg : Config) (eff : Effects σ) (mem : σ) : System (OsState σ) Thread :=
  System.ofStep (OsState.start cfg mem) (osStep cfg eff)

/-- The thread of a device. -/
def Dev.thread : Dev → Thread
  | .cpu c => .cpu c
  | .ld => .ld

/-- Steps of a running CPU until it sets `done` or detaches. -/
def cpuWay : CpuPc → ℕ
  | .top => 4
  | .afterPut => 3
  | .recheck => 2
  | .slot => 1
  | .leave => 1

/-- Steps of the running loader until it sets `done` or detaches. -/
def ldWay : LdPc → ℕ
  | .outer => 4
  | .wait => 3
  | .add => 2
  | .slotWait => 1
  | .slotOuter => 1
  | .setDone => 2
  | .leave => 1

def pcWay (s : OsState σ) : Dev → ℕ
  | .cpu c => cpuWay (s.cpus c).pc
  | .ld => ldWay s.ld

def slotWay (s : OsState σ) (d : Dev) : ℕ :=
  if s.timer.done d then 0
  else
    match s.timer.ctl d with
    | .gone => 0
    | .blocked => 5
    | .run => pcWay s d

/-- Steps of the timer until it has cleared `done` of a waiting device. -/
def timerWay (devs : List Dev) (tm : TimerState Dev) (d : Dev) : ℕ :=
  match tm.pc with
  | .collect rest _ _ => rest.length + devs.length + 1
  | .release rest _ _ => if d ∈ rest then rest.length else rest.length + 2 * devs.length + 2
  | .stopped => 0

/-- The way of all threads together to a waiting device. -/
def way (cfg : Config) (d : Dev) (s : OsState σ) : ℕ :=
  if s.timer.done d then
    6 * timerWay (devList cfg) s.timer d + s.timer.head?.elim 0 (slotWay s)
  else 0

theorem pcWay_le (s : OsState σ) (d : Dev) : pcWay s d ≤ 4 := by
  cases d with
  | cpu c => simp only [pcWay]; cases (s.cpus c).pc <;> decide
  | ld => simp only [pcWay]; cases s.ld <;> decide

theorem slotWay_le (s : OsState σ) (d : Dev) : slotWay s d ≤ 5 := by
  have hle := pcWay_le s d
  unfold slotWay
  split_ifs
  · omega
  · split <;> omega

theorem slotWay_run {s : OsState σ} {d : Dev} (hctl : s.timer.ctl d = .run)
    (hopen : s.timer.done d = false) : slotWay s d = pcWay s d := by
  simp [slotWay, hctl, hopen]

theorem slotWay_done {s : OsState σ} {d : Dev} (hdone : s.timer.done d = true) :
    slotWay s d = 0 := if_pos hdone

theorem timerWay_lt {devs : List Dev} {tm tm' : TimerState Dev} {d : Dev} (h : TimerInv devs tm)
    (hd : d ∈ devs) (hctl : tm.ctl d ≠ .gone) (hstep : timerRoutine devs tm = some tm')
    (hdone : tm'.done d = true) : timerWay devs tm' d < timerWay devs tm d := by
  have hlen : 0 < devs.length := List.length_pos_of_mem hd
  unfold timerRoutine at hstep
  split at hstep
  · rename_i e rest fsh event hpc
    by_cases hready : (tm.done e || tm.fsh e) = true
    · rw [if_pos hready] at hstep
      obtain rfl := Option.some.inj hstep
      simp only [timerWay, hpc, List.length_cons]
      omega
    · rw [if_neg hready] at hstep
      exact absurd hstep (by simp)
  · rename_i hpc
    obtain rfl := Option.some.inj hstep
    simp only [timerWay, hpc, if_pos hd, List.length_nil]
    omega
  · rename_i e rest fsh event hpc
    obtain rfl := Option.some.inj hstep
    have hde : d ≠ e := by
      rintro rfl
      simp at hdone
    simp only [timerWay, hpc, List.mem_cons, hde, false_or, List.length_cons]
    split_ifs <;> omega
  · rename_i fsh event hpc
    obtain rfl := Option.some.inj hstep
    have hphase := h.phase
    rw [PhaseOk, hpc] at hphase
    obtain ⟨-, -, hgone, -, -⟩ := hphase
    have hne : fsh ≠ event := fun heq => hctl (hgone heq d hd)
    simp only [timerWay, hpc, if_neg hne, List.not_mem_nil, if_false, List.length_nil]
    omega
  · exact absurd hstep (by simp)

theorem timerWay_pos {devs : List Dev} {tm : TimerState Dev} {d : Dev} (h : tm.pc ≠ .stopped) :
    0 < timerWay devs tm d := by
  cases hpc : tm.pc with
  | collect rest fsh event => simp [timerWay, hpc]
  | release rest fsh event =>
    simp only [timerWay, hpc]
    split_ifs with hmem
    · exact List.length_pos_of_mem hmem
    · omega
  | stopped => exact absurd hpc h

theorem way_timer {cfg : Config} {s : OsState σ} {tm : TimerState Dev} {d : Dev}
    (h : TimerInv (devList cfg) s.timer) (hd : d ∈ devList cfg) (hctl : s.timer.ctl d ≠ .gone)
    (hstep : timerRoutine (devList cfg) s.timer = some tm) (hset : s.timer.done d = true) :
    way cfg d { s with timer := tm } < way cfg d s := by
  have hpos : 0 < timerWay (devList cfg) s.timer d := by
    apply timerWay_pos
    intro hstop
    simp [timerRoutine, hstop] at hstep
  simp only [way, if_pos hset]
  split_ifs with hdone
  · have hlt := timerWay_lt h hd hctl hstep hdone
    have hhead : tm.head?.elim 0 (slotWay { s with timer := tm }) ≤ 5 := by
      cases tm.head? with
      | none => exact Nat.zero_le _
      | some e => exact slotWay_le _ e
    omega
  · omega

/-- What a step of device `d` leaves to the other devices. -/
structure StepsAlone (s t : OsState σ) (d : Dev) : Prop where
  pc : t.timer.pc = s.timer.pc
  ctl : ∀ e ≠ d, t.timer.ctl e = s.timer.ctl e
  done : ∀ e ≠ d, t.timer.done e = s.timer.done e
  cpus : ∀ c, Dev.cpu c ≠ d → t.cpus c = s.cpus c

theorem stepsAlone_of_timer {s t : OsState σ} {d : Dev} (htimer : t.timer = s.timer)
    (hcpus : ∀ c, Dev.cpu c ≠ d → t.cpus c = s.cpus c) : StepsAlone s t d :=
  ⟨htimer ▸ rfl, fun _ _ => htimer ▸ rfl, fun _ _ => htimer ▸ rfl, hcpus⟩

theorem wake_alone {D : Type} [DecidableEq D] {s t : TimerState D} {d : D}
    (h : wake s d = some t) : t.pc = s.pc ∧ t.done = s.done ∧ ∀ e ≠ d, t.ctl e = s.ctl e := by
  unfold wake at h
  split_ifs at h
  obtain rfl := Option.some.inj h
  exact ⟨rfl, rfl, fun e he => Function.update_of_ne he _ _⟩

theorem setDone_alone {D : Type} [DecidableEq D] {s t : TimerState D} {d : D}
    (h : setDone s d = some t) : t.pc = s.pc ∧ t.done d = true ∧
      (∀ e ≠ d, t.done e = s.done e) ∧ ∀ e ≠ d, t.ctl e = s.ctl e := by
  unfold setDone at h
  split_ifs at h
  obtain rfl := Option.some.inj h
  exact ⟨rfl, Function.update_self .., fun e he => Function.update_of_ne he _ _,
    fun e he => Function.update_of_ne he _ _⟩

theorem detach_alone {D : Type} [DecidableEq D] {s t : TimerState D} {d : D}
    (h : detachEvent s d = some t) : t.pc = s.pc ∧ t.done = s.done ∧ t.ctl d = .gone ∧
      ∀ e ≠ d, t.ctl e = s.ctl e := by
  unfold detachEvent at h
  split_ifs at h
  obtain rfl := Option.some.inj h
  exact ⟨rfl, rfl, Function.update_self .., fun e he => Function.update_of_ne he _ _⟩

theorem cpu_alone {cfg : Config} {eff : Effects σ} {s t : OsState σ} {c : ℕ}
    (h : CpuStep cfg eff s c t) : StepsAlone s t (.cpu c) := by
  have hother : ∀ (m : OsState σ) (cpu : Cpu) (e : ℕ), Dev.cpu e ≠ .cpu c →
      (m.setCpu c cpu).cpus e = m.cpus e := fun m cpu e he => setCpu_other m cpu fun hec => he (hec ▸ rfl)
  cases h with
  | wake hb hw =>
    obtain ⟨hpc, hdone, hctl⟩ := wake_alone hw
    exact ⟨hpc, hctl, fun e _ => congrFun hdone e, fun _ _ => rfl⟩
  | slot hrun hpc hset =>
    obtain ⟨htpc, -, hdone, hctl⟩ := setDone_alone hset
    exact ⟨htpc, hctl, hdone, hother _ _⟩
  | detach hrun hpc hd =>
    obtain ⟨htpc, hdone, -, hctl⟩ := detach_alone hd
    exact ⟨htpc, hctl, fun e _ => congrFun hdone e, fun _ _ => rfl⟩
  | @exec i timeLeft hrun hpc hproc =>
    obtain ⟨pcs, sched, mem, hr⟩ := run_frame cfg eff s i
    rw [hr]
    exact stepsAlone_of_timer rfl (hother _ _)
  | _ => exact stepsAlone_of_timer rfl (hother _ _)

theorem ld_alone {cfg : Config} {s t : OsState σ} (h : LdStep cfg s t) : StepsAlone s t .ld := by
  cases h with
  | wake hb hw =>
    obtain ⟨hpc, hdone, hctl⟩ := wake_alone hw
    exact ⟨hpc, hctl, fun e _ => congrFun hdone e, fun _ _ => rfl⟩
  | slotWait hrun hld hset =>
    obtain ⟨htpc, -, hdone, hctl⟩ := setDone_alone hset
    exact ⟨htpc, hctl, hdone, fun _ _ => rfl⟩
  | slotOuter hrun hld hset =>
    obtain ⟨htpc, -, hdone, hctl⟩ := setDone_alone hset
    exact ⟨htpc, hctl, hdone, fun _ _ => rfl⟩
  | detach hrun hld hd =>
    obtain ⟨htpc, hdone, -, hctl⟩ := detach_alone hd
    exact ⟨htpc, hctl, fun e _ => congrFun hdone e, fun _ _ => rfl⟩
  | _ => exact stepsAlone_of_timer rfl fun _ _ => rfl

theorem OsStep.other {cfg : Config} {eff : Effects σ} {s t : OsState σ} {th : Thread}
    (h : OsStep cfg eff s th t) {c : ℕ} (hth : th ≠ .cpu c) :
    t.cpus c = s.cpus c ∧ t.timer.ctl (.cpu c) = s.timer.ctl (.cpu c) := by
  cases h with
  | timer htm => exact ⟨rfl, congrFun (timerRoutine_ctl htm).1 _⟩
  | ld hld => exact ⟨(ld_alone hld).cpus c (by simp), (ld_alone hld).ctl _ (by simp)⟩
  | @cpu e _ he hcpu =>
    have hec : Dev.cpu c ≠ .cpu e := fun heq => hth (congrArg Thread.cpu (Dev.cpu.inj heq).symm)
    exact ⟨(cpu_alone hcpu).cpus c hec, (cpu_alone hcpu).ctl _ hec⟩

/-! ### The ways get shorter -/

theorem way_device {cfg : Config} {s t : OsState σ} {d e : Dev} (h : StepsAlone s t e)
    (hde : d ≠ e) (hset : s.timer.done d = true) (hhead : s.timer.head? = some e)
    (hless : slotWay t e < slotWay s e) : way cfg d t < way cfg d s := by
  have hway : timerWay (devList cfg) t.timer d = timerWay (devList cfg) s.timer d := by
    simp only [timerWay, h.pc]
  have hhead' : t.timer.head? = some e := by
    rw [← hhead]
    simp only [TimerState.head?, h.pc]
  have hset' : t.timer.done d = true := by rw [h.done d hde, hset]
  simp only [way, if_pos hset, if_pos hset', hway, hhead, hhead', Option.elim_some]
  omega

theorem slotWay_lt {s t : OsState σ} {d : Dev} (hrun : s.timer.ctl d = .run)
    (hopen : s.timer.done d = false) (htimer : t.timer = s.timer) (hway : pcWay t d < pcWay s d) :
    slotWay t d < slotWay s d := by
  rw [slotWay_run hrun hopen, slotWay_run (htimer ▸ hrun) (htimer ▸ hopen)]
  exact hway

theorem slotWay_wake {s : OsState σ} {tm : TimerState Dev} {d : Dev}
    (hopen : s.timer.done d = false) (hb : s.timer.ctl d = .blocked)
    (hw : wake s.timer d = some tm) : slotWay { s with timer := tm } d < slotWay s d := by
  obtain ⟨-, hdone, -⟩ := wake_alone hw
  have hrun : tm.ctl d = .run := by rw [(wake_ctl hw).1, Function.update_self]
  have hle := pcWay_le { s with timer := tm } d
  rw [slotWay_run hrun (hdone ▸ hopen)]
  simp only [slotWay, hopen, hb]
  exact Nat.lt_succ_of_le hle

theorem cpu_way {cfg : Config} {eff : Effects σ} {s t : OsState σ} {c : ℕ}
    (hopen : s.timer.done (.cpu c) = false) (h : CpuStep cfg eff s c t) :
    slotWay t (.cpu c) < slotWay s (.cpu c) := by
  cases h with
  | wake hb hw => exact slotWay_wake hopen hb hw
  | fetchIdle hrun hpc hproc =>
    refine slotWay_lt hrun hopen rfl ?_
    simp only [pcWay, fetch, setCpu_self, hpc]
    split_ifs <;> decide
  | fetchFinish hrun hpc hproc hfin =>
    refine slotWay_lt hrun hopen rfl ?_
    simp only [pcWay, fetch, setCpu_self, hpc]
    decide
  | put hrun hpc hproc hfin hleft =>
    refine slotWay_lt hrun hopen rfl ?_
    simp only [pcWay, setCpu_self, hpc]
    decide
  | keep hrun hpc hproc hfin hleft =>
    refine slotWay_lt hrun hopen rfl ?_
    simp only [pcWay, setCpu_self, hpc]
    decide
  | fetchPut hrun hpc =>
    refine slotWay_lt hrun hopen rfl ?_
    simp only [pcWay, fetch, setCpu_self, hpc]
    decide
  | exit hrun hpc hproc hdone =>
    refine slotWay_lt hrun hopen rfl ?_
    simp only [pcWay, setCpu_self, hpc]
    decide
  | skip hrun hpc hproc hdone =>
    refine slotWay_lt hrun hopen rfl ?_
    simp only [pcWay, setCpu_self, hpc]
    decide
  | @exec i timeLeft hrun hpc hproc =>
    obtain ⟨pcs, sched, mem, hr⟩ := run_frame cfg eff s i
    rw [hr]
    refine slotWay_lt hrun hopen rfl ?_
    simp only [pcWay, setCpu_self, hpc]
    decide
  | slot hrun hpc hset =>
    obtain ⟨-, hself, -⟩ := setDone_alone hset
    rw [slotWay_done hself, slotWay_run hrun hopen, pcWay, hpc]
    decide
  | detach hrun hpc hd =>
    obtain ⟨-, -, hself, -⟩ := detach_alone hd
    rw [slotWay_run hrun hopen, pcWay, hpc]
    simp [slotWay, hself, cpuWay]

theorem ld_way {cfg : Config} {s t : OsState σ} (hopen : s.timer.done .ld = false)
    (h : LdStep cfg s t) : slotWay t .ld < slotWay s .ld := by
  cases h with
  | wake hb hw => exact slotWay_wake hopen hb hw
  | next hrun hld _ => exact slotWay_lt hrun hopen rfl (by simp [pcWay, hld, ldWay])
  | all hrun hld _ => exact slotWay_lt hrun hopen rfl (by simp [pcWay, hld, ldWay])
  | early hrun hld => exact slotWay_lt hrun hopen rfl (by simp [pcWay, hld, ldWay])
  | start hrun hld => exact slotWay_lt hrun hopen rfl (by simp [pcWay, hld, ldWay])
  | add hrun hld => exact slotWay_lt hrun hopen rfl (by simp [pcWay, hld, ldWay])
  | setDone hrun hld => exact slotWay_lt hrun hopen rfl (by simp [pcWay, hld, ldWay])
  | slotWait hrun hld hset =>
    obtain ⟨-, hself, -⟩ := setDone_alone hset
    rw [slotWay_done hself, slotWay_run hrun hopen, pcWay, hld]
    decide
  | slotOuter hrun hld hset =>
    obtain ⟨-, hself, -⟩ := setDone_alone hset
    rw [slotWay_done hself, slotWay_run hrun hopen, pcWay, hld]
    decide
  | detach hrun hld hd =>
    obtain ⟨-, -, hself, -⟩ := detach_alone hd
    rw [slotWay_run hrun hopen, pcWay, hld]
    simp [slotWay, hself, ldWay]

/-! ### Every device that has not left and not set `done` can step -/

theorem cpuRoutine_defined (cfg : Config) (eff : Effects σ) {s : OsState σ} {c : ℕ}
    (hctl : s.timer.ctl (.cpu c) ≠ .gone) (hopen : s.timer.done (.cpu c) = false) :
    ∃ t, cpuRoutine cfg eff s c = some t := by
  unfold cpuRoutine
  cases hc : s.timer.ctl (.cpu c) with
  | gone => exact absurd hc hctl
  | blocked => simp [wake, hc, hopen]
  | run =>
    dsimp only [cpuActive]
    split
    · exact ⟨_, rfl⟩
    · split_ifs
      · exact ⟨_, rfl⟩
      · exact ⟨_, rfl⟩
      · exact ⟨_, rfl⟩
    · exact ⟨_, rfl⟩
    · exact ⟨_, rfl⟩
    · exact ⟨_, rfl⟩
    · simp [setDone, hc]
    · simp [detachEvent, hc]

theorem ldRoutine_defined (cfg : Config) {s : OsState σ} (hctl : s.timer.ctl .ld ≠ .gone)
    (hopen : s.timer.done .ld = false) : ∃ t, ldRoutine cfg s = some t := by
  unfold ldRoutine
  cases hc : s.timer.ctl .ld with
  | gone => exact absurd hc hctl
  | blocked => simp [wake, hc, hopen]
  | run =>
    dsimp only [ldActive]
    split
    · exact ⟨_, rfl⟩
    · exact ⟨_, rfl⟩
    · exact ⟨_, rfl⟩
    · simp [setDone, hc]
    · simp [setDone, hc]
    · exact ⟨_, rfl⟩
    · simp [detachEvent, hc]

/-- A device the timer may be waiting for takes a step towards the next slot. -/
theorem device_step {cfg : Config} (eff : Effects σ) {s : OsState σ} {d : Dev}
    (hd : d ∈ devList cfg) (hctl : s.timer.ctl d ≠ .gone) (hopen : s.timer.done d = false) :
    ∃ t, osStep cfg eff s d.thread = some t ∧ StepsAlone s t d ∧ slotWay t d < slotWay s d := by
  cases d with
  | cpu c =>
    have hc : c < cfg.numCpus := by simpa [devList] using hd
    obtain ⟨t, ht⟩ := cpuRoutine_defined cfg eff hctl hopen
    have hstep := cpuRoutine_step ht
    exact ⟨t, by simp [osStep, Dev.thread, hc, ht], cpu_alone hstep, cpu_way hopen hstep⟩
  | ld =>
    obtain ⟨t, ht⟩ := ldRoutine_defined cfg hctl hopen
    have hstep := ldRoutine_step ht
    exact ⟨t, ht, ld_alone hstep, ld_way hopen hstep⟩

theorem let_go_step {cfg : Config} (eff : Effects σ) {m : OsState σ} (hm : Control cfg m) {c : ℕ}
    (hc : c < cfg.numCpus) (hgone : m.timer.ctl (.cpu c) ≠ .gone)
    (hset : m.timer.done (.cpu c) = true) :
    ∃ th t, th ≠ .cpu c ∧ osStep cfg eff m th = some t ∧ t.cpus c = m.cpus c ∧
      t.timer.ctl (.cpu c) ≠ .gone ∧ way cfg (.cpu c) t < way cfg (.cpu c) m := by
  have hd := mem_devList_cpu hc
  rcases timer_waits_for hm.timer with ⟨tm, htm⟩ | hstop | ⟨e, he, hhead, hectl, hopen⟩
  · have hnext : osStep cfg eff m .timer = some { m with timer := tm } := by simp [osStep, htm]
    have hkeep := (timerRoutine_ctl htm).1
    exact ⟨.timer, _, by simp, hnext, rfl, hkeep ▸ hgone, way_timer hm.timer hd hgone htm hset⟩
  · have hphase := hm.timer.phase
    rw [PhaseOk, hstop] at hphase
    exact absurd (hphase _ hd) hgone
  · have hec : Dev.cpu c ≠ e := by
      rintro rfl
      simp [hset] at hopen
    obtain ⟨t, ht, halone, hless⟩ := device_step eff he hectl hopen
    refine ⟨e.thread, t, ?_, ht, halone.cpus c hec, (halone.ctl _ hec).symm ▸ hgone,
      way_device halone hec hset hhead hless⟩
    cases e with
    | cpu e => exact fun heq => hec (congrArg Dev.cpu (Thread.cpu.inj heq)).symm
    | ld => exact fun heq => by simp [Dev.thread] at heq

/-- A CPU that has not left is let go from `next_slot` by the other threads. -/
theorem cpu_let_go {cfg : Config} (eff : Effects σ) {s : OsState σ} (mem : σ) (h : Control cfg s)
    {c : ℕ} (hc : c < cfg.numCpus) (hctl : s.timer.ctl (.cpu c) ≠ .gone) :
    ∃ labels t, Run (osSystem cfg eff mem) s labels t ∧ (∀ a ∈ labels, a ≠ .cpu c) ∧
      t.cpus c = s.cpus c ∧ ∃ u, osStep cfg eff t (.cpu c) = some u := by
  have hrun : ∃ labels t, Run (osSystem cfg eff mem) s labels t ∧ (∀ a ∈ labels, a ≠ .cpu c) ∧
      (Control cfg t ∧ t.cpus c = s.cpus c ∧ t.timer.ctl (.cpu c) ≠ .gone) ∧
      t.timer.done (.cpu c) = false := by
    apply exists_run_of_measure (way cfg (.cpu c)) _ ⟨h, rfl, hctl⟩
    intro m ⟨hm, hcpus, hgone⟩ hwaits
    obtain ⟨th, t, hth, hnext, hkeep, hctl', hless⟩ :=
      let_go_step eff hm hc hgone (by simpa using hwaits)
    exact ⟨th, t, hth, hnext, ⟨control_step hm (osStep_step hnext), hkeep.trans hcpus, hctl'⟩, hless⟩
  obtain ⟨labels, t, hsteps, hok, ⟨-, hcpus, hgone⟩, hopen⟩ := hrun
  obtain ⟨u, hu⟩ := cpuRoutine_defined cfg eff hgone hopen
  exact ⟨labels, t, hsteps, hok, hcpus, u, by simp [osStep, hc, hu]⟩

end OsSim.Os
