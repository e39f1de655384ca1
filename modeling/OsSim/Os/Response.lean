import OsSim.Os.Drained

/-!
# A deadline for every process

In every completed slot after its load time an unfinished process has been run,
or every CPU was busy with others, or the loader added a process. With the work
that the others can be this bounds the slots a process needs: by `deadline` it
has finished, whatever the interleaving, as long as every call of `get_proc` that
finds a process waiting answers one.
-/

namespace OsSim.Os
open OsSim.Base OsSim.Sched

variable {σ : Type} {cfg : Config} {eff : Effects σ} {s t : OsState σ} {c i : ℕ} {th : Thread}

/-! ### The calls of `run` a program takes -/

/-- Process `i` has not been run since it was added, fetched or put back. -/
def Fresh (s : OsState σ) (i : ℕ) : Prop :=
  s.next ≤ i ∨ 0 < waiting s.sched i ∨ ∃ c, (s.cpus c).proc = some i ∧ (s.cpus c).pc = .recheck

theorem Fresh.of_ld (hstep : LdStep cfg s t) (h : Fresh t i) : Fresh s i := by
  cases hstep with
  | add hrun hld =>
    rcases h with hnext | hwait | hheld
    · exact Or.inl (Nat.le_of_succ_le hnext)
    · by_cases hi : i = s.next
      · exact Or.inl hi.ge
      · exact Or.inr (Or.inl (hwait.trans_le (waiting_putProc_other cfg.prio s.sched hi)))
    · exact Or.inr (Or.inr hheld)
  | _ => exact h

theorem Fresh.of_setCpu {cpu : Cpu} (h : Fresh (s.setCpu c cpu) i)
    (hcpu : cpu.proc = some i → cpu.pc = .recheck → Fresh s i) : Fresh s i := by
  rcases h with hnext | hwait | hheld
  · exact Or.inl hnext
  · exact Or.inr (Or.inl hwait)
  · obtain ⟨e, hproc, hpc⟩ := hheld
    by_cases hec : e = c
    · subst hec
      rw [setCpu_self] at hproc hpc
      exact hcpu hproc hpc
    · rw [setCpu_other s cpu hec] at hproc hpc
      exact Or.inr (Or.inr ⟨e, hproc, hpc⟩)

theorem Fresh.of_fetch (hs : SchedInv cfg.prio s.sched) {pc : Option ℕ → CpuPc} {timeLeft : ℤ}
    (h : Fresh (fetch cfg s c pc timeLeft) i) : Fresh s i := by
  have hget := waiting_getProc hs i
  have hmid : Fresh { s with sched := (getProc cfg.prio s.sched).2 } i → Fresh s i := by
    intro hm
    rcases hm with hnext | hwait | hheld
    · exact Or.inl hnext
    · refine Or.inr (Or.inl ?_)
      change 0 < waiting (getProc cfg.prio s.sched).2 i at hwait
      omega
    · exact Or.inr (Or.inr hheld)
  by_cases hr : (getProc cfg.prio s.sched).1 = some i
  · rw [hr, Option.toList_some, List.count_singleton_self] at hget
    exact Or.inr (Or.inl (by omega))
  · exact hmid (h.of_setCpu fun hproc _ => absurd hproc hr)

/-- Only an unfinished process is put back or kept. -/
theorem Fresh.of_cpu (hs : SchedInv cfg.prio s.sched) (hstep : CpuStep cfg eff s c t)
    (hidle : runEntry s (.cpu c) = none) (h : Fresh t i) :
    Fresh s i ∨ s.pcOf i ≠ cfg.size i := by
  cases hstep with
  | wake => exact Or.inl h
  | detach => exact Or.inl h
  | fetchIdle => exact Or.inl (h.of_fetch hs)
  | fetchFinish =>
    exact Or.inl (Fresh.of_fetch (s := { s with freed := Function.update s.freed _ true }) hs h)
  | fetchPut => exact Or.inl (h.of_fetch hs)
  | @put j hrun hpc hproc hfin hleft =>
    by_cases hij : i = j
    · exact Or.inr (hij ▸ hfin)
    · refine Or.inl ?_
      have hmid := Fresh.of_setCpu (s := { s with sched := putProc cfg.prio s.sched j }) h
        fun _ hre => absurd hre (by simp)
      rcases hmid with hnext | hwait | hheld
      · exact Or.inl hnext
      · exact Or.inr (Or.inl (hwait.trans_le (waiting_putProc_other cfg.prio s.sched hij)))
      · exact Or.inr (Or.inr hheld)
  | @keep j hrun hpc hproc hfin hleft =>
    by_cases hij : i = j
    · exact Or.inr (hij ▸ hfin)
    · exact Or.inl (h.of_setCpu fun hi _ => absurd (Option.some.inj (hi.symm.trans hproc)) hij)
  | exit => exact Or.inl (h.of_setCpu fun _ hre => absurd hre (by simp))
  | skip => exact Or.inl (h.of_setCpu fun _ hre => absurd hre (by simp))
  | exec timeLeft hrun hpc hproc => simp [runEntry, runsNow, hrun, hpc, hproc] at hidle
  | @slot tm hrun hpc hset =>
    exact Or.inl (Fresh.of_setCpu (s := { s with timer := tm }) h fun _ hre => absurd hre (by simp))

structure WorkInv (cfg : Config) (l : Timed σ) : Prop where
  pc_le : ∀ i, l.os.pcOf i ≤ cfg.size i
  work_le : ∀ i, work l.table i ≤ max 1 (cfg.size i)
  unfinished : ∀ i, l.os.pcOf i < cfg.size i → work l.table i = l.os.pcOf i
  fresh : ∀ i, Fresh l.os i → work l.table i < max 1 (cfg.size i)

theorem workInv_start (cfg : Config) (mem : σ) : WorkInv cfg (Timed.start cfg mem) where
  pc_le i := Nat.zero_le _
  work_le i := Nat.zero_le _
  unfinished i _ := rfl
  fresh i _ := by simp [Timed.start]

theorem WorkInv.of_unfinished {l : Timed σ} (h : WorkInv cfg l) (hi : l.os.pcOf i ≠ cfg.size i) :
    work l.table i < max 1 (cfg.size i) := by
  have hlt : l.os.pcOf i < cfg.size i := lt_of_le_of_ne (h.pc_le i) hi
  rw [h.unfinished i hlt]
  omega

theorem workInv_idle {l : Timed σ} (hex : Exclusive cfg l.os) (h : WorkInv cfg l)
    (hstep : OsStep cfg eff l.os th t) (hidle : runEntry l.os th = none) :
    WorkInv cfg ⟨t, l.table⟩ := by
  have hruns : runsNow l.os th = none := by
    cases th with
    | cpu c => simpa [runEntry] using hidle
    | _ => rfl
  have hpcs := pcOf_osStep hstep
  rw [hruns] at hpcs
  dsimp only at hpcs
  have hfresh : ∀ i, Fresh t i → Fresh l.os i ∨ l.os.pcOf i ≠ cfg.size i := fun i hi => by
    cases hstep with
    | timer => exact Or.inl hi
    | ld hld => exact Or.inl (hi.of_ld hld)
    | cpu hc hcpu => exact hi.of_cpu hex.sched hcpu hidle
  refine ⟨fun i => ?_, h.work_le, fun i hi => ?_, fun i hi => ?_⟩
  · rw [hpcs]
    exact h.pc_le i
  · rw [hpcs] at hi ⊢
    exact h.unfinished i hi
  · exact (hfresh i hi).elim (h.fresh i) h.of_unfinished

/-- A process that is run is fresh no more: its CPU holds it before `next_slot`. -/
theorem Fresh.of_run (hv : cfg.Valid) (hctl : Control cfg s) (hex : Exclusive cfg s)
    {e : Entry ℕ ℕ} (hstep : OsStep cfg eff s th t) (he : runEntry s th = some e)
    (h : Fresh t i) : i ≠ e.job ∧ Fresh s i := by
  obtain ⟨-, -, -, -, hholds⟩ := runEntry_some he
  have hloaded : e.job < s.next := hex.loaded _ (Or.inr (Or.inl ⟨_, hholds⟩))
  obtain ⟨-, timeLeft, rfl⟩ := runEntry_step he hstep
  obtain ⟨pcs, mem, hr, -⟩ := run_plain hv eff s (hloaded.trans_le hctl.next_le)
  rw [hr] at h
  have hold : Fresh s i :=
    Fresh.of_setCpu (s := { s with pcOf := pcs, mem := mem }) h fun _ hre => absurd hre (by simp)
  refine ⟨fun hie => ?_, hold⟩
  subst hie
  rcases h with hnext | hwait | ⟨d, hproc, hre⟩
  · exact absurd hnext (not_le.mpr hloaded)
  · change 0 < waiting s.sched e.job at hwait
    have := hex.held_alone _ _ hholds
    omega
  · by_cases hde : d = e.machine
    · rw [hde, setCpu_self] at hre
      exact absurd hre (by simp)
    · rw [setCpu_other _ _ hde] at hproc hre
      have hheld : Holds s d e.job := ⟨hproc, fun hput => by simp [hput] at hre⟩
      exact hde (hex.one_holder d e.machine e.job hheld hholds)

theorem workInv_run (hv : cfg.Valid) {l : Timed σ} (hctl : Control cfg l.os)
    (hex : Exclusive cfg l.os) (h : WorkInv cfg l) {e : Entry ℕ ℕ}
    (hstep : OsStep cfg eff l.os th t) (he : runEntry l.os th = some e) :
    WorkInv cfg ⟨t, e :: l.table⟩ := by
  obtain ⟨-, -, -, hpc, hholds⟩ := runEntry_some he
  have hown : work l.table e.job < max 1 (cfg.size e.job) :=
    h.fresh _ (Or.inr (Or.inr ⟨_, hholds.1, hpc⟩))
  have hpcs : t.pcOf = (run cfg eff l.os e.job).pcOf := by
    obtain ⟨-, timeLeft, rfl⟩ := runEntry_step he hstep
    rfl
  rw [run_pcOf] at hpcs
  have hother : ∀ i ≠ e.job, t.pcOf i = l.os.pcOf i ∧ work (e :: l.table) i = work l.table i := by
    intro i hie
    rw [work_cons, if_neg fun heq => hie heq.symm, hpcs]
    split_ifs
    · exact ⟨Function.update_of_ne hie _ _, rfl⟩
    · exact ⟨rfl, rfl⟩
  have hself : work (e :: l.table) e.job = work l.table e.job + 1 := by
    rw [work_cons, if_pos rfl]
  have hpc_self : t.pcOf e.job ≤ cfg.size e.job ∧
      (t.pcOf e.job < cfg.size e.job → work (e :: l.table) e.job = t.pcOf e.job) := by
    rw [hpcs, hself]
    by_cases hlt : l.os.pcOf e.job < cfg.size e.job
    · rw [if_pos hlt, Function.update_self, h.unfinished _ hlt]
      exact ⟨hlt, fun _ => rfl⟩
    · rw [if_neg hlt]
      exact ⟨h.pc_le _, fun hlt' => absurd hlt' hlt⟩
  refine ⟨fun i => ?_, fun i => ?_, fun i hi => ?_, fun i hi => ?_⟩
  · by_cases hie : i = e.job
    · exact hie ▸ hpc_self.1
    · exact (hother i hie).1 ▸ h.pc_le i
  · by_cases hie : i = e.job
    · rw [hie, hself]
      exact hown
    · exact (hother i hie).2 ▸ h.work_le i
  · by_cases hie : i = e.job
    · exact hie ▸ hpc_self.2 (hie ▸ hi)
    · rw [(hother i hie).1] at hi ⊢
      exact (hother i hie).2 ▸ h.unfinished i hi
  · obtain ⟨hie, hold⟩ := Fresh.of_run hv hctl hex hstep he hi
    exact (hother i hie).2 ▸ h.fresh i hold

/-! ### Who has run in the current slot -/

/-- A CPU that is done with the slot and holds a process has run it. -/
def HasRun (cfg : Config) (l : Timed σ) : Prop :=
  ∀ c < cfg.numCpus, ∀ i, DoneSlot l.os c → (l.os.cpus c).proc = some i →
    ⟨l.os.timer.time, c, i⟩ ∈ l.table

/-- How a CPU comes to be done with the slot. -/
theorem doneSlot_before (hcpu : CpuStep cfg eff s c t) (hctl : Control cfg s)
    (hc : c < cfg.numCpus) (hdone : DoneSlot t c) (hproc : (t.cpus c).proc = some i) :
    DoneSlot s c ∧ (s.cpus c).proc = some i ∨ runEntry s (.cpu c) = some ⟨s.timer.time, c, i⟩ := by
  cases hcpu with
  | wake hb hw =>
    have hrun := congrFun (wake_ctl hw).1 (.cpu c)
    rw [Function.update_self] at hrun
    exact absurd hdone (not_doneSlot_of_run hrun (by simp [hctl.blocked_top c hc hb]))
  | fetchIdle hrun hpc hnone =>
    refine absurd hdone (not_doneSlot_of_run hrun ?_)
    simp only [fetch, setCpu_self] at hproc ⊢
    simp [hproc]
  | fetchFinish hrun => exact absurd hdone (not_doneSlot_of_run hrun (by simp [fetch, setCpu_self]))
  | put hrun => exact absurd hdone (not_doneSlot_of_run hrun (by simp [setCpu_self]))
  | keep hrun => exact absurd hdone (not_doneSlot_of_run hrun (by simp [setCpu_self]))
  | fetchPut hrun => exact absurd hdone (not_doneSlot_of_run hrun (by simp [fetch, setCpu_self]))
  | exit hrun => exact absurd hdone (not_doneSlot_of_run hrun (by simp [setCpu_self]))
  | skip hrun hpc hnone => simp [setCpu_self, hnone] at hproc
  | exec timeLeft hrun hpc hheld =>
    obtain rfl : _ = i := Option.some.inj (by simpa [setCpu_self] using hproc)
    exact Or.inr (by simp [runEntry, runsNow, hrun, hpc, hheld])
  | slot hrun hpc hset => exact Or.inl ⟨Or.inl ⟨hrun, hpc⟩, by simpa [setCpu_self] using hproc⟩
  | detach hrun hpc hd =>
    have hgone := congrFun (detachEvent_ctl hd).1 (.cpu c)
    rw [Function.update_self] at hgone
    rcases hdone with hdone | hdone <;> simp [hgone] at hdone

theorem not_doneSlot_tick (hctl : Control cfg s) {tm : TimerState Dev} {fsh event : ℕ}
    (htm : timerRoutine (devList cfg) s.timer = some tm) (htime : tm.time = s.timer.time + 1)
    (hpc : s.timer.pc = .collect [] fsh event) (hc : c < cfg.numCpus) :
    ¬DoneSlot { s with timer := tm } c := by
  intro hdone
  obtain ⟨htc, htcnt⟩ := timerRoutine_ctl htm
  rw [DoneSlot, htc, htcnt] at hdone
  rcases hctl.slot_over hpc (mem_devList_cpu hc) with hg | ⟨hb, hcnt⟩
  · simp [hg] at hdone
  · simp [hb, hcnt, htime] at hdone

theorem hasRun_step {l m : Timed σ} (hctl : Control cfg l.os)
    (hnext : timedStep cfg eff l th = some m) (h : HasRun cfg l) : HasRun cfg m := by
  obtain ⟨t, ht, rfl⟩ := Option.map_eq_some_iff.mp hnext
  have hstep := osStep_step ht
  intro c hc i hdone hproc
  dsimp only at hdone hproc ⊢
  by_cases hth : th = .cpu c
  · subst hth
    cases hstep with
    | cpu _ hcpu =>
      rw [cpuStep_time hcpu]
      rcases doneSlot_before hcpu hctl hc hdone hproc with ⟨hbefore, hheld⟩ | hentry
      · exact List.mem_append_right _ (h c hc i hbefore hheld)
      · rw [hentry]
        exact List.mem_cons_self ..
  · obtain ⟨hcpus, hctl'⟩ := hstep.other hth
    have hsame : t.timer.time = l.os.timer.time →
        (⟨t.timer.time, c, i⟩ : Entry ℕ ℕ) ∈ (runEntry l.os th).toList ++ l.table := by
      intro htime
      rw [DoneSlot, hcpus, hctl', cnt_other hstep hth, htime] at hdone
      rw [htime]
      exact List.mem_append_right _ (h c hc i hdone (hcpus ▸ hproc))
    cases hstep with
    | timer htm =>
      rcases timerRoutine_tick htm with htime | ⟨htime, fsh, event, hpc⟩
      · exact hsame htime
      · exact absurd hdone (not_doneSlot_tick hctl htm htime hpc hc)
    | ld hld => exact hsame (ldStep_time hld)
    | cpu he hcpu => exact hsame (cpuStep_time hcpu)

/-! ### Completed slots -/

/-- With at most `MAX_QUEUE_SIZE` processes at each priority none is lost. -/
theorem NoLoss.somewhere (hv : cfg.Valid) (h : NoLoss cfg s) (hi : i < s.next) :
    0 < waiting s.sched i ∨ (∃ c < cfg.numCpus, Holds s c i) ∨ s.pcOf i = cfg.size i := by
  obtain ⟨u, hu⟩ := h.tracks
  have hplaces := hu.reach.inv.places i
  rw [if_pos ((hu.added i).mpr hi), Usage.places, hu.dropped_nil hv h.control.next_le,
    hu.sched, List.count_nil] at hplaces
  by_cases hwait : 0 < waiting s.sched i
  · exact Or.inl hwait
  · have hheld : i ∈ u.held.map Prod.snd := List.count_pos_iff.mp (by omega)
    obtain ⟨⟨c, j⟩, hm, rfl⟩ := List.mem_map.mp hheld
    rcases hu.held c j hm with hh | hf
    · exact Or.inr (Or.inl ⟨c, hu.owner c j hm, hh⟩)
    · exact Or.inr (Or.inr (hu.freed j hf))

/-- A slot in which process `i` is not passed over for nothing. -/
def GoodSlot (cfg : Config) (table : List (Entry ℕ ℕ)) (i n : ℕ) : Prop :=
  LoadSlot cfg n ∨ WorksOn table n i ∨ AllBusy table (Finset.range cfg.numCpus) n

theorem GoodSlot.append {table : List (Entry ℕ ℕ)} {n : ℕ} (h : GoodSlot cfg table i n)
    (more : List (Entry ℕ ℕ)) : GoodSlot cfg (more ++ table) i n := by
  rcases h with hload | ⟨e, he, hat⟩ | hbusy
  · exact Or.inl hload
  · exact Or.inr (Or.inl ⟨e, List.mem_append_right _ he, hat⟩)
  · refine Or.inr (Or.inr fun c hc => ?_)
    obtain ⟨e, he, hat⟩ := hbusy c hc
    exact ⟨e, List.mem_append_right _ he, hat⟩

theorem putting_slot_over (hctl : Control cfg s) {fsh event : ℕ}
    (hpc : s.timer.pc = .collect [] fsh event) : putting cfg s = 0 := by
  apply Finset.sum_eq_zero
  intro c hc
  have hlt := Finset.mem_range.mp hc
  rcases hctl.slot_over hpc (mem_devList_cpu hlt) with hg | ⟨hb, -⟩
  · simp [hctl.gone_leave c hlt hg]
  · simp [hctl.blocked_top c hlt hb]

/-- The slot that is over: a CPU that has not run anything in it is spare, so nothing
waits, and the unfinished process is held by a CPU that has run it. -/
theorem goodSlot_over (hv : cfg.Valid) {l : Timed σ} (hloss : NoLoss cfg l.os)
    (hload : LoadsOnTime cfg l.os) (hdrained : Drained cfg l.os) (hrun : HasRun cfg l)
    {fsh event : ℕ} (hpc : l.os.timer.pc = .collect [] fsh event) (hi : i < cfg.numProcesses)
    (hafter : loadTime cfg i < l.os.timer.time) (hopen : l.os.pcOf i ≠ cfg.size i) :
    GoodSlot cfg l.table i l.os.timer.time := by
  have hctl := hloss.control
  have hover : ∀ c < cfg.numCpus, (l.os.cpus c).proc = none ∧ (l.os.cpus c).pc = .leave ∨
      DoneSlot l.os c := by
    intro c hc
    rcases hctl.slot_over hpc (mem_devList_cpu hc) with hg | hb
    · have hleave := hctl.gone_leave c hc hg
      exact Or.inl ⟨(hctl.leave_done c hc hleave).1, hleave⟩
    · exact Or.inr (Or.inr hb)
  by_cases hslot : LoadSlot cfg l.os.timer.time
  · exact Or.inl hslot
  by_cases hbusy : AllBusy l.table (Finset.range cfg.numCpus) l.os.timer.time
  · exact Or.inr (Or.inr hbusy)
  rw [AllBusy] at hbusy
  push Not at hbusy
  obtain ⟨c, hcmem, hidle⟩ := hbusy
  have hc := Finset.mem_range.mp hcmem
  have hspare : Spare l.os c := by
    rcases hover c hc with ⟨hproc, hleave⟩ | hdone
    · exact ⟨hproc, Or.inr (Or.inr hleave)⟩
    · cases hproc : (l.os.cpus c).proc with
      | none => exact ⟨hproc, Or.inl hdone⟩
      | some j => exact absurd rfl (hidle _ (hrun c hc j hdone hproc) rfl)
  have hqueued := hdrained ⟨c, hc, hspare⟩ hslot
  rw [putting_slot_over hctl hpc] at hqueued
  have hwait : waiting l.os.sched i = 0 :=
    Finset.sum_eq_zero_iff.mp (Nat.le_zero.mp hqueued) i (Finset.mem_range.mpr hi)
  have hnext : i < l.os.next := (hload.loadedByTime hctl).not_after i hi hafter
  rcases hloss.somewhere hv hnext with hw | ⟨d, hd, hheld⟩ | hfin
  · omega
  · rcases hover d hd with ⟨hproc, -⟩ | hdone
    · simp [hheld.1] at hproc
    · exact Or.inr (Or.inl ⟨_, hrun d hd i hdone hheld.1, rfl, rfl⟩)
  · exact absurd hfin hopen

/-! ### Whole runs -/

theorem finished_stays (hstep : OsStep cfg eff s th t) (hi : s.pcOf i = cfg.size i) :
    t.pcOf i = cfg.size i := by
  have hpcs := pcOf_osStep hstep
  cases hr : runsNow s th with
  | none =>
    rw [hr] at hpcs
    dsimp only at hpcs
    rw [hpcs]
    exact hi
  | some j =>
    rw [hr] at hpcs
    dsimp only at hpcs
    rw [hpcs, run_pcOf]
    split_ifs with hlt
    · have hij : i ≠ j := fun hij => by rw [← hij] at hlt; omega
      rw [Function.update_of_ne hij]
      exact hi
    · exact hi

structure ResponseInv (cfg : Config) (l : Timed σ) : Prop where
  drained : Drained cfg l.os
  hasRun : HasRun cfg l
  ran : WorkInv cfg l
  good : ∀ i < cfg.numProcesses, l.os.pcOf i ≠ cfg.size i → ∀ n, loadTime cfg i < n →
    n < l.os.timer.time → GoodSlot cfg l.table i n

theorem responseInv_start (cfg : Config) (mem : σ) : ResponseInv cfg (Timed.start cfg mem) where
  drained := drained_start cfg mem
  hasRun c _ i _ hproc := by simp [Timed.start, OsState.start] at hproc
  ran := workInv_start cfg mem
  good i _ _ n _ hlt := by simp [Timed.start, OsState.start, TimerState.start] at hlt

theorem good_step (hv : cfg.Valid) {l : Timed σ} (hloss : NoLoss cfg l.os)
    (hload : LoadsOnTime cfg l.os) (h : ResponseInv cfg l) (hstep : OsStep cfg eff l.os th t)
    (hi : i < cfg.numProcesses) (hopen : t.pcOf i ≠ cfg.size i) {n : ℕ}
    (hafter : loadTime cfg i < n) (hlt : n < t.timer.time) : GoodSlot cfg l.table i n := by
  have hopen' : l.os.pcOf i ≠ cfg.size i := fun heq => hopen (finished_stays hstep heq)
  by_cases hold : n < l.os.timer.time
  · exact h.good i hi hopen' n hafter hold
  · cases hstep with
    | ld hld =>
      rw [ldStep_time hld] at hlt
      exact absurd hlt hold
    | cpu hc hcpu =>
      rw [cpuStep_time hcpu] at hlt
      exact absurd hlt hold
    | @timer tm htm =>
      change n < tm.time at hlt
      rcases timerRoutine_tick htm with htime | ⟨htime, fsh, event, hpc⟩
      · omega
      · obtain rfl : n = l.os.timer.time := by omega
        exact goodSlot_over hv hloss hload h.drained h.hasRun hpc hi hafter hopen'

theorem responseInv_reachable (hv : cfg.Valid) {mem : σ} {l : Timed σ}
    (h : TimedReachable cfg eff mem (GetsServed cfg) l) : ResponseInv cfg l := by
  induction h with
  | init h0 =>
    obtain rfl := h0
    exact responseInv_start cfg mem
  | @step l m th hl hok hnext ih =>
    have hos := TimedReachable.os hl
    have hloss := noLoss_reachable hv hos
    obtain ⟨hctl, hex⟩ := exclusive_reachable (onlyRemoves_of_no_killall eff hv.no_killall) hos
    have hload := (loadsOnTime_reachable hos).2
    have hrun := hasRun_step hctl hnext ih.hasRun
    obtain ⟨t, ht, rfl⟩ := Option.map_eq_some_iff.mp hnext
    have hstep := osStep_step ht
    refine ⟨drained_step hv hctl hex hload hok hstep ih.drained, hrun, ?_,
      fun i hi hopen n hafter hlt =>
        (good_step hv hloss hload ih hstep hi hopen hafter hlt).append _⟩
    cases hentry : runEntry l.os th with
    | none => exact workInv_idle hex ih.ran hstep hentry
    | some e => exact workInv_run hv hctl hex ih.ran hstep hentry

/-- The slots in which a process is added after process `i`. -/
def laterLoads (cfg : Config) (i : ℕ) : Finset ℕ :=
  (Finset.Ioo i cfg.numProcesses).image (loadTime cfg)

theorem card_laterLoads (cfg : Config) (i : ℕ) :
    (laterLoads cfg i).card ≤ cfg.numProcesses - 1 - i := by
  calc (laterLoads cfg i).card ≤ (Finset.Ioo i cfg.numProcesses).card := Finset.card_image_le
    _ = cfg.numProcesses - 1 - i := by
      rw [Nat.card_Ioo]
      omega

theorem LoadSlot.mem_laterLoads {n : ℕ} (h : LoadSlot cfg n) (hafter : loadTime cfg i < n) :
    n ∈ laterLoads cfg i := by
  obtain ⟨j, hj, rfl⟩ := h
  refine Finset.mem_image_of_mem _ (Finset.mem_Ioo.mpr ⟨?_, hj⟩)
  by_contra hji
  rcases (not_lt.mp hji).eq_or_lt with rfl | hlt
  · exact lt_irrefl _ hafter
  · have := loadTime_lt_turnTime cfg hlt
    have := turnTime_le_loadTime cfg i
    omega

/-- What processes other than `i` can take of the CPUs, in calls of `run`. -/
def otherWork (cfg : Config) (i : ℕ) : ℕ :=
  ∑ j ∈ (Finset.range cfg.numProcesses).erase i, max 1 (cfg.size j)

/-- The load time of process `i`, its instructions, one slot for each process that
is added later, and the slots the other processes can fill. -/
def deadline (cfg : Config) (i : ℕ) : ℕ :=
  loadTime cfg i + cfg.size i + (cfg.numProcesses - 1 - i) + otherWork cfg i / cfg.numCpus

theorem ResponseInv.slots_le {l : Timed σ} (h : ResponseInv cfg l) (hinv : TimedInv cfg l)
    (hctl : Control cfg l.os) (hi : i < cfg.numProcesses) (hopen : l.os.pcOf i < cfg.size i) :
    cfg.numCpus * (l.os.timer.time - (loadTime cfg i + 1)) ≤
      cfg.numCpus * (l.os.pcOf i + (cfg.numProcesses - 1 - i)) + otherWork cfg i := by
  have hjobs : ∀ e ∈ l.table, e.job ∈ Finset.range cfg.numProcesses := fun e he =>
    Finset.mem_range.mpr ((hinv.loaded e he).1.trans_le hctl.next_le)
  have hother : l.table.countP (fun e => e.job ≠ i) ≤ otherWork cfg i := by
    rw [countP_ne_job hjobs (Finset.mem_range.mpr hi)]
    exact Finset.sum_le_sum fun j _ => h.ran.work_le j
  have hgreedy : (Finset.range cfg.numCpus).card * (l.os.timer.time - (loadTime cfg i + 1)) ≤
      (Finset.range cfg.numCpus).card * (work l.table i + (laterLoads cfg i).card) +
        l.table.countP fun e => e.job ≠ i := by
    apply slots_le_of_greedy
    intro n hfirst hlast
    rcases h.good i hi hopen.ne n hfirst hlast with hload | hown | hbusy
    · exact Or.inl (hload.mem_laterLoads hfirst)
    · exact Or.inr (Or.inl hown)
    · exact Or.inr (Or.inr hbusy)
  rw [Finset.card_range, h.ran.unfinished i hopen] at hgreedy
  have hcard := Nat.mul_le_mul_left cfg.numCpus
    (Nat.add_le_add_left (card_laterLoads cfg i) (l.os.pcOf i))
  omega

/-- In every run in which no `get_proc` call finds the quota spent at the only
non-empty level, a process has finished once its deadline is past. -/
theorem finished_by_deadline (hv : cfg.Valid) (eff : Effects σ) (mem : σ)
    (h : OsReachable cfg eff mem (GetsServed cfg) s) (hi : i < cfg.numProcesses)
    (hlate : deadline cfg i < s.timer.time) : s.pcOf i = cfg.size i := by
  obtain ⟨l, hl, rfl⟩ := exists_timed h
  have hinv := responseInv_reachable hv hl
  have hctl := (noLoss_reachable hv h).control
  by_contra hopen
  have hlt : l.os.pcOf i < cfg.size i := lt_of_le_of_ne (hinv.ran.pc_le i) hopen
  have hslots := hinv.slots_le
    (timedInv_reachable (onlyRemoves_of_no_killall eff hv.no_killall) hl) hctl hi hlt
  have hdiv : otherWork cfg i < cfg.numCpus * (otherWork cfg i / cfg.numCpus + 1) :=
    Nat.lt_mul_div_succ _ hv.cpus_pos
  rw [deadline] at hlate
  have hmore : cfg.numCpus * (l.os.pcOf i + (cfg.numProcesses - 1 - i) +
      (otherWork cfg i / cfg.numCpus + 1)) ≤
      cfg.numCpus * (l.os.timer.time - (loadTime cfg i + 1)) :=
    Nat.mul_le_mul_left _ (by omega)
  rw [Nat.mul_add] at hmore
  omega

/-- Both processes of `Config.staggered` on one CPU: the first is added in slot 2,
and its deadline is slot 5. -/
theorem finished_by_deadline_staggered :
    ∃ s, OsReachable (.staggered 1) noEffects () (GetsServed (.staggered 1)) s ∧
      deadline (.staggered 1) 0 = 5 ∧ s.timer.time = 6 ∧ s.pcOf 0 = 1 := by
  have hreach := reachable_of_guarded _ _ _ (reachable_tryAll
    (guarded (osStep (.staggered 1) noEffects) (GetsServed (.staggered 1)))
    (OsState.start (.staggered 1) ()) (List.replicate 40 [.ld, .cpu 0, .timer]).flatten (.init rfl))
  refine ⟨_, hreach, by decide, by decide +kernel, ?_⟩
  apply finished_by_deadline (staggered_valid 1 le_rfl) noEffects () hreach
  · decide
  · decide +kernel

end OsSim.Os
