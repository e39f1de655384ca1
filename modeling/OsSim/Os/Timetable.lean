import OsSim.Base.Timetable
import OsSim.Os.LoadTime
import OsSim.Os.Slices

/-!
# The timetable of a run

The simulation with a record of its calls of `run`: which CPU ran which process in
which time slot. A CPU that has called `run` is done with the slot until the timer
wakes it, and keeps the process till then; so the timetable is feasible, also for
a process that goes from one CPU to another.
-/

namespace OsSim.Os
open OsSim.Base OsSim.Sched

variable {σ : Type} {cfg : Config} {eff : Effects σ} {s t : OsState σ} {c i : ℕ} {th : Thread}

structure Timed (σ : Type) where
  os : OsState σ
  table : List (Entry ℕ ℕ)

def Timed.start (cfg : Config) (mem : σ) : Timed σ := ⟨.start cfg mem, []⟩

/-- The call of `run` that is the next step of the thread. -/
def runEntry (s : OsState σ) : Thread → Option (Entry ℕ ℕ)
  | .cpu c => (runsNow s (.cpu c)).map fun i => ⟨s.timer.time, c, i⟩
  | _ => none

def timedStep (cfg : Config) (eff : Effects σ) (l : Timed σ) (th : Thread) : Option (Timed σ) :=
  (osStep cfg eff l.os th).map fun t => ⟨t, (runEntry l.os th).toList ++ l.table⟩

def TimedReachable (cfg : Config) (eff : Effects σ) (mem : σ) (ok : OsState σ → Thread → Prop)
    (l : Timed σ) : Prop :=
  Reachable (System.ofStep (Timed.start cfg mem) (timedStep cfg eff)) (fun l th => ok l.os th) l

theorem TimedReachable.os {mem : σ} {ok : OsState σ → Thread → Prop} {l : Timed σ}
    (h : TimedReachable cfg eff mem ok l) : OsReachable cfg eff mem ok l.os := by
  induction h with
  | init h0 =>
    obtain rfl := h0
    exact .init rfl
  | step _ hok hnext ih =>
    obtain ⟨t, ht, rfl⟩ := Option.map_eq_some_iff.mp hnext
    exact .step ih hok ht

/-- The record only watches. -/
theorem exists_timed {mem : σ} {ok : OsState σ → Thread → Prop}
    (h : OsReachable cfg eff mem ok s) : ∃ l, TimedReachable cfg eff mem ok l ∧ l.os = s := by
  induction h with
  | @init s h0 =>
    obtain rfl := h0
    exact ⟨.start cfg mem, .init rfl, rfl⟩
  | @step s t th _ hok hnext ih =>
    obtain ⟨l, hl, rfl⟩ := ih
    have hstep : timedStep cfg eff l th = some ⟨t, (runEntry l.os th).toList ++ l.table⟩ := by
      rw [timedStep, show osStep cfg eff l.os th = some t from hnext, Option.map_some]
    exact ⟨_, .step hl hok hstep, rfl⟩

/-! ### The slot of a CPU -/

/-- CPU `c` has done its part of the current slot and stands before or in `next_slot`. -/
def DoneSlot (s : OsState σ) (c : ℕ) : Prop :=
  s.timer.ctl (.cpu c) = .run ∧ (s.cpus c).pc = .slot ∨
    s.timer.ctl (.cpu c) = .blocked ∧ s.timer.cnt (.cpu c) = s.timer.time + 1

theorem DoneSlot.frame (h : DoneSlot s c) (hcpu : t.cpus c = s.cpus c)
    (hctl : t.timer.ctl (.cpu c) = s.timer.ctl (.cpu c))
    (hcnt : t.timer.cnt (.cpu c) = s.timer.cnt (.cpu c)) (htime : t.timer.time = s.timer.time) :
    DoneSlot t c := by
  rw [DoneSlot, hcpu, hctl, hcnt, htime]
  exact h

theorem not_doneSlot_of_run (hrun : s.timer.ctl (.cpu c) = .run) (hpc : (s.cpus c).pc ≠ .slot) :
    ¬DoneSlot s c := by
  intro h
  cases h with
  | inl h => exact hpc h.2
  | inr h => simp [hrun] at h

/-- The barrier: a CPU that is done with the slot is not woken in it. -/
theorem DoneSlot.not_woken (hctl : Control cfg s) (hc : c < cfg.numCpus) (h : DoneSlot s c) :
    wake s.timer (.cpu c) = none := by
  by_contra hne
  obtain ⟨tm, hw⟩ := Option.ne_none_iff_exists'.mp hne
  obtain ⟨-, -, hb, hopen⟩ := wake_ctl hw
  have hcnt := hctl.timer.barrier (mem_devList_cpu hc) (by simp [hb]) hopen
  cases h with
  | inl h => simp [hb] at h
  | inr h => omega

theorem doneSlot_cpu (hctl : Control cfg s) (hc : c < cfg.numCpus)
    (hstep : CpuStep cfg eff s c t) (h : DoneSlot s c) :
    DoneSlot t c ∧ ∀ i, Holds s c i → Holds t c i := by
  have hslot : s.timer.ctl (.cpu c) = .run → (s.cpus c).pc = .slot := fun hrun => by
    by_contra hpc
    exact not_doneSlot_of_run hrun hpc h
  cases hstep with
  | wake hb hw => simp [h.not_woken hctl hc] at hw
  | @slot tm hrun hpc hset =>
    obtain ⟨hctl', hcnt⟩ := setDone_ctl hset
    have hslots := hctl.timer.barrier (mem_devList_cpu hc) (by simp [hrun])
      (hctl.timer.run_open _ hrun)
    refine ⟨Or.inr ?_, fun i hi => ?_⟩
    · simp [OsState.setCpu, hctl', hcnt, setDone_time hset, hslots]
    · simpa [Holds, setCpu_self] using hi.1
  | fetchIdle hrun hpc => simp [hslot hrun] at hpc
  | fetchFinish hrun hpc => simp [hslot hrun] at hpc
  | put hrun hpc => simp [hslot hrun] at hpc
  | keep hrun hpc => simp [hslot hrun] at hpc
  | fetchPut hrun hpc => simp [hslot hrun] at hpc
  | exit hrun hpc => simp [hslot hrun] at hpc
  | skip hrun hpc => simp [hslot hrun] at hpc
  | exec timeLeft hrun hpc => simp [hslot hrun] at hpc
  | detach hrun hpc => simp [hslot hrun] at hpc

theorem cnt_other (hstep : OsStep cfg eff s th t) (hth : th ≠ .cpu c) :
    t.timer.cnt (.cpu c) = s.timer.cnt (.cpu c) := by
  cases hstep with
  | timer htm => exact congrFun (timerRoutine_ctl htm).2 _
  | ld hld =>
    cases hld with
    | wake hb hw => exact congrFun (wake_ctl hw).2.1 _
    | slotWait hrun hld hset =>
      simp only [(setDone_ctl hset).2]
      exact Function.update_of_ne (by simp) _ _
    | slotOuter hrun hld hset =>
      simp only [(setDone_ctl hset).2]
      exact Function.update_of_ne (by simp) _ _
    | detach hrun hld hd => exact congrFun (detachEvent_ctl hd).2 _
    | _ => rfl
  | @cpu e _ he hcpu =>
    have hec : Dev.cpu c ≠ .cpu e := fun heq => hth (congrArg Thread.cpu (Dev.cpu.inj heq).symm)
    cases hcpu with
    | wake hb hw => exact congrFun (wake_ctl hw).2.1 _
    | exec timeLeft hrun hpc hproc =>
      obtain ⟨pcs, sched, mem, hr⟩ := run_frame cfg eff s _
      rw [hr]
      rfl
    | @slot tm hrun hpc hset =>
      have hcnt : tm.cnt (.cpu c) = s.timer.cnt (.cpu c) := by
        rw [(setDone_ctl hset).2, Function.update_of_ne hec]
      exact hcnt
    | detach hrun hpc hd => exact congrFun (detachEvent_ctl hd).2 _
    | _ => rfl

/-- The current slot of a CPU that is done with it: it keeps standing there and
keeps its process until the time changes. -/
theorem doneSlot_step (hctl : Control cfg s) (hc : c < cfg.numCpus)
    (hstep : OsStep cfg eff s th t) (htime : t.timer.time = s.timer.time) (h : DoneSlot s c) :
    DoneSlot t c ∧ ∀ i, Holds s c i → Holds t c i := by
  by_cases hth : th = .cpu c
  · subst hth
    cases hstep with
    | cpu _ hcpu => exact doneSlot_cpu hctl hc hcpu h
  · obtain ⟨hcpu, hctl'⟩ := hstep.other hth
    refine ⟨h.frame hcpu hctl' (cnt_other hstep hth) htime, fun i hi => ?_⟩
    rw [Holds, hcpu]
    exact hi

/-! ### The time -/

theorem time_le_step (hstep : OsStep cfg eff s th t) : s.timer.time ≤ t.timer.time := by
  cases hstep with
  | timer htm => exact timerRoutine_time htm
  | ld hld => exact (ldStep_time hld).ge
  | cpu hc hcpu => exact (cpuStep_time hcpu).ge

theorem next_le_step (hstep : OsStep cfg eff s th t) : s.next ≤ t.next := by
  cases hstep with
  | timer => exact le_rfl
  | ld hld =>
    cases hld with
    | add hrun hld => exact Nat.le_succ _
    | _ => exact le_rfl
  | cpu hc hcpu => exact (leavesLoader_cpu hcpu).next.ge

/-- Everything about a step that calls `run`. -/
theorem runEntry_some {e : Entry ℕ ℕ} (h : runEntry s th = some e) :
    th = .cpu e.machine ∧ e.slot = s.timer.time ∧ s.timer.ctl (.cpu e.machine) = .run ∧
      (s.cpus e.machine).pc = .recheck ∧ Holds s e.machine e.job := by
  cases th with
  | timer => simp [runEntry] at h
  | ld => simp [runEntry] at h
  | cpu c =>
    obtain ⟨i, hi, rfl⟩ := Option.map_eq_some_iff.mp h
    rw [runsNow] at hi
    split_ifs at hi with hat
    exact ⟨rfl, rfl, hat.1, hat.2, hi, by simp [hat.2]⟩

/-- The step is that call, and the CPU then stands before `next_slot`. -/
theorem runEntry_step {e : Entry ℕ ℕ} (h : runEntry s th = some e)
    (hstep : OsStep cfg eff s th t) : e.machine < cfg.numCpus ∧ ∃ timeLeft,
      t = (run cfg eff s e.job).setCpu e.machine ⟨.slot, some e.job, timeLeft⟩ := by
  obtain ⟨rfl, -, hrun, hpc, hholds⟩ := runEntry_some h
  cases hstep with
  | cpu hc hcpu =>
    cases hcpu with
    | @exec i timeLeft hrun' hpc' hproc =>
      obtain rfl : e.job = i := Option.some.inj (hholds.1.symm.trans hproc)
      exact ⟨hc, timeLeft, rfl⟩
    | wake hb => simp [hrun] at hb
    | exit _ _ hproc => simp [hholds.1] at hproc
    | skip _ _ hproc => simp [hholds.1] at hproc
    | fetchIdle _ hpc' => simp [hpc] at hpc'
    | fetchFinish _ hpc' => simp [hpc] at hpc'
    | put _ hpc' => simp [hpc] at hpc'
    | keep _ hpc' => simp [hpc] at hpc'
    | fetchPut _ hpc' => simp [hpc] at hpc'
    | slot _ hpc' => simp [hpc] at hpc'
    | detach _ hpc' => simp [hpc] at hpc'

theorem doneSlot_run {e : Entry ℕ ℕ} (h : runEntry s th = some e)
    (hstep : OsStep cfg eff s th t) : DoneSlot t e.machine ∧ Holds t e.machine e.job := by
  obtain ⟨-, -, hrun, -, -⟩ := runEntry_some h
  obtain ⟨-, timeLeft, rfl⟩ := runEntry_step h hstep
  obtain ⟨pcs, sched, mem, hr⟩ := run_frame cfg eff s e.job
  rw [hr]
  exact ⟨Or.inl ⟨hrun, by rw [setCpu_self]⟩, by rw [setCpu_self], by simp [setCpu_self]⟩

/-! ### Feasible timetables -/

structure TimedInv (cfg : Config) (l : Timed σ) : Prop where
  feasible : Feasible l.table
  past : ∀ e ∈ l.table, e.slot ≤ l.os.timer.time
  cpu : ∀ e ∈ l.table, e.machine < cfg.numCpus
  loaded : ∀ e ∈ l.table, e.job < l.os.next ∧ loadTime cfg e.job ≤ e.slot
  current : ∀ e ∈ l.table, e.slot = l.os.timer.time →
    DoneSlot l.os e.machine ∧ Holds l.os e.machine e.job
  pc_le : ∀ i, l.os.pcOf i ≤ work l.table i

theorem timedInv_start (cfg : Config) (mem : σ) : TimedInv cfg (Timed.start cfg mem) where
  feasible := feasible_nil
  past := by simp [Timed.start]
  cpu := by simp [Timed.start]
  loaded := by simp [Timed.start]
  current := by simp [Timed.start]
  pc_le i := le_rfl

theorem pcOf_le_work {table : List (Entry ℕ ℕ)} (h : ∀ i, s.pcOf i ≤ work table i)
    (hstep : OsStep cfg eff s th t) (i : ℕ) :
    t.pcOf i ≤ work ((runEntry s th).toList ++ table) i := by
  have hpcs := pcOf_osStep hstep
  have hi := h i
  cases hr : runsNow s th with
  | none =>
    have hentry : runEntry s th = none := by
      cases th with
      | cpu c => rw [runEntry, hr, Option.map_none]
      | _ => rfl
    rw [hr] at hpcs
    dsimp only at hpcs
    rw [hpcs, hentry]
    exact hi
  | some j =>
    rw [hr] at hpcs
    dsimp only at hpcs
    cases th with
    | timer => simp [runsNow] at hr
    | ld => simp [runsNow] at hr
    | cpu c =>
      rw [hpcs, run_pcOf, runEntry, hr, Option.map_some, Option.toList_some, List.singleton_append,
        work_cons]
      by_cases hij : i = j
      · subst hij
        rw [if_pos rfl]
        split_ifs
        · rw [Function.update_self]
          exact Nat.succ_le_succ hi
        · omega
      · split_ifs <;> simp [Function.update_of_ne hij] <;> omega

/-- The old entries after a step. -/
theorem TimedInv.old {l : Timed σ} (hctl : Control cfg l.os) (h : TimedInv cfg l)
    (hstep : OsStep cfg eff l.os th t) {e : Entry ℕ ℕ} (he : e ∈ l.table) :
    e.slot ≤ t.timer.time ∧ e.job < t.next ∧
      (e.slot = t.timer.time → DoneSlot t e.machine ∧ Holds t e.machine e.job) := by
  have htime := time_le_step hstep
  have hpast := h.past e he
  refine ⟨hpast.trans htime, (h.loaded e he).1.trans_le (next_le_step hstep), fun hslot => ?_⟩
  have hsame : t.timer.time = l.os.timer.time := by omega
  obtain ⟨hdone, hholds⟩ := h.current e he (hslot.trans hsame)
  obtain ⟨hdone', hkeeps⟩ := doneSlot_step hctl (h.cpu e he) hstep hsame hdone
  exact ⟨hdone', hkeeps _ hholds⟩

/-- The new entry is in nobody's way: its CPU is not yet done with the slot, and who
is done with it holds another process. -/
theorem TimedInv.feasible_run {l : Timed σ} (hex : Exclusive cfg l.os) (h : TimedInv cfg l)
    {e : Entry ℕ ℕ} (he : runEntry l.os th = some e) : Feasible (e :: l.table) := by
  obtain ⟨-, hslot, hrun, hpc, hholds⟩ := runEntry_some he
  apply h.feasible.cons
  intro a ha hsame
  obtain ⟨hdone, hheld⟩ := h.current a ha (hsame.trans hslot)
  have hmachine : a.machine ≠ e.machine := fun heq =>
    not_doneSlot_of_run hrun (by simp [hpc]) (heq ▸ hdone)
  exact ⟨hmachine, fun heq => hmachine (hex.one_holder _ _ _ hheld (heq ▸ hholds))⟩

theorem timedInv_step {l m : Timed σ} (hctl : Control cfg l.os) (hex : Exclusive cfg l.os)
    (hload : LoadsOnTime cfg l.os) (h : TimedInv cfg l) (hnext : timedStep cfg eff l th = some m) :
    TimedInv cfg m := by
  obtain ⟨t, ht, rfl⟩ := Option.map_eq_some_iff.mp hnext
  have hstep := osStep_step ht
  have hpcs := pcOf_le_work h.pc_le hstep
  have hold := fun e (he : e ∈ l.table) => h.old hctl hstep he
  cases hentry : runEntry l.os th with
  | none =>
    rw [hentry] at hpcs
    exact ⟨h.feasible, fun e he => (hold e he).1, h.cpu,
      fun e he => ⟨(hold e he).2.1, (h.loaded e he).2⟩, fun e he => (hold e he).2.2, hpcs⟩
  | some a =>
    rw [hentry] at hpcs
    obtain ⟨-, hslot, -, -, hheld⟩ := runEntry_some hentry
    obtain ⟨hdone, hholds⟩ := doneSlot_run hentry hstep
    have hcpu : a.machine < cfg.numCpus := (runEntry_step hentry hstep).1
    have hjob : a.job < l.os.next := hex.loaded _ (Or.inr (Or.inl ⟨_, hheld⟩))
    have hjob' : a.job < t.next ∧ loadTime cfg a.job ≤ a.slot :=
      ⟨hjob.trans_le (next_le_step hstep), hslot ▸ hload.not_before hctl hjob⟩
    exact
      { feasible := h.feasible_run hex hentry
        past := List.forall_mem_cons.mpr
          ⟨hslot.le.trans (time_le_step hstep), fun e he => (hold e he).1⟩
        cpu := List.forall_mem_cons.mpr ⟨hcpu, h.cpu⟩
        loaded := List.forall_mem_cons.mpr
          ⟨hjob', fun e he => ⟨(hold e he).2.1, (h.loaded e he).2⟩⟩
        current := List.forall_mem_cons.mpr
          ⟨fun _ => ⟨hdone, hholds⟩, fun e he => (hold e he).2.2⟩
        pc_le := hpcs }

theorem timedInv_reachable (hkill : OnlyRemoves cfg eff) {mem : σ}
    {ok : OsState σ → Thread → Prop} {l : Timed σ} (h : TimedReachable cfg eff mem ok l) :
    TimedInv cfg l := by
  induction h with
  | init h0 =>
    obtain rfl := h0
    exact timedInv_start cfg mem
  | @step l m th hl hok hnext ih =>
    have hos := TimedReachable.os hl
    obtain ⟨hctl, hex⟩ := exclusive_reachable hkill hos
    exact timedInv_step hctl hex (loadsOnTime_reachable hos).2 ih hnext

/-- What the timetable of a run up to a state says of the programs. -/
structure Scheduled (cfg : Config) (l : Timed σ) : Prop where
  feasible : Feasible l.table
  in_time : ∀ e ∈ l.table, e.machine < cfg.numCpus ∧
    loadTime cfg e.job ≤ e.slot ∧ e.slot ≤ l.os.timer.time
  recorded : ∀ i, l.os.pcOf i ≤ work l.table i
  speed : ∀ i, l.os.pcOf i ≤ l.os.timer.time + 1 - loadTime cfg i
  throughput : ∑ i ∈ Finset.range cfg.numProcesses, l.os.pcOf i ≤
    cfg.numCpus * (l.os.timer.time + 1)

theorem TimedInv.speed {l : Timed σ} (h : TimedInv cfg l) (i : ℕ) :
    work l.table i ≤ l.os.timer.time + 1 - loadTime cfg i := by
  apply h.feasible.work_le
  intro e he hjob
  exact ⟨hjob ▸ (h.loaded e he).2, Nat.lt_succ_of_le (h.past e he)⟩

theorem TimedInv.throughput {l : Timed σ} (hctl : Control cfg l.os) (h : TimedInv cfg l) :
    ∑ i ∈ Finset.range cfg.numProcesses, work l.table i ≤
      cfg.numCpus * (l.os.timer.time + 1) := by
  have hjobs : ∀ e ∈ l.table, e.job ∈ Finset.range cfg.numProcesses := fun e he =>
    Finset.mem_range.mpr ((h.loaded e he).1.trans_le hctl.next_le)
  have hplaces : ∀ e ∈ l.table, e.machine ∈ Finset.range cfg.numCpus ∧
      e.slot < l.os.timer.time + 1 := fun e he =>
    ⟨Finset.mem_range.mpr (h.cpu e he), Nat.lt_succ_of_le (h.past e he)⟩
  rw [sum_work hjobs]
  simpa using h.feasible.length_le hplaces

/-- Whatever the interleaving and the effects, as long as system call 101 only
removes processes from the queues: no CPU calls `run` twice in a time slot, no
process is run twice in one, not even by two CPUs, and none in a slot before it is
added. So a process executes at most one instruction a slot from its load time on,
and all of them at most one for each CPU and slot. -/
theorem runs_scheduled (hkill : OnlyRemoves cfg eff) {mem : σ} {l : Timed σ}
    (h : TimedReachable cfg eff mem (fun _ _ => True) l) : Scheduled cfg l := by
  have hinv := timedInv_reachable hkill h
  obtain ⟨hctl, -⟩ := exclusive_reachable hkill h.os
  exact
    { feasible := hinv.feasible
      in_time := fun e he => ⟨hinv.cpu e he, (hinv.loaded e he).2, hinv.past e he⟩
      recorded := hinv.pc_le
      speed := fun i => (hinv.pc_le i).trans (hinv.speed i)
      throughput := (Finset.sum_le_sum fun i _ => hinv.pc_le i).trans (hinv.throughput hctl) }

/-- Two CPUs and two processes: in slot 3 both have been run, each by its own CPU. -/
theorem runs_scheduled_staggered :
    ∃ l : Timed Unit, l.table.length = 2 ∧ l.os.timer.time = 3 ∧
      Scheduled (.staggered 2) l := by
  have hreach : TimedReachable (.staggered 2) noEffects () (fun _ _ => True) _ :=
    reachable_tryAll (timedStep (.staggered 2) noEffects) (.start (.staggered 2) ())
      (List.replicate 29 [.ld, .cpu 0, .cpu 1, .timer]).flatten (.init rfl)
  refine ⟨_, ?_, ?_, runs_scheduled (onlyRemoves_of_no_killall noEffects ?_) hreach⟩
  · decide +kernel
  · decide +kernel
  · exact (staggered_valid 2 (by decide)).no_killall

end OsSim.Os
