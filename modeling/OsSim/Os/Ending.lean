import OsSim.Os.Progress

/-!
# Leaving the CPU loop (os.c:58-118)

When the loader has set `done`, nothing waits and nobody holds an unfinished
process, a CPU that comes back from `get_proc` through the second test finds
`done` and leaves. A CPU that has no process at the head of the loop never gets
there: `get_proc` answers `NULL`, and after `next_slot` it is at the head again
without having looked at `done`.
-/

namespace OsSim.Os
open OsSim.Base OsSim.Sched

variable {σ : Type}

/-- Nothing is left to do. -/
structure Ended (cfg : Config) (s : OsState σ) : Prop where
  done : s.done = true
  empty : ∀ l < maxPrio, level s.sched l = []
  held : ∀ c < cfg.numCpus, ∀ i, Holds s c i → s.pcOf i = cfg.size i

/-- Without a process at the head of the loop, or in the `next_slot` before it. -/
def IdleInLoop (s : OsState σ) (c : ℕ) : Prop :=
  (s.cpus c).proc = none ∧ ((s.cpus c).pc = .top ∨ (s.cpus c).pc = .slot)

def Thread.isCpu (c : ℕ) : Thread → Bool
  | .cpu e => e == c
  | _ => false

/-- However the threads go on, CPU `c` is out of the loop after a bounded number
of its own steps, and until then it is given another one. -/
def LeavesLoop (cfg : Config) (eff : Effects σ) (mem : σ) (s : OsState σ) (c : ℕ) : Prop :=
  (∃ n, ∀ labels t, Run (osSystem cfg eff mem) s labels t →
    n ≤ labels.countP (Thread.isCpu c) → (t.cpus c).pc = .leave) ∧
  ∀ labels t, Run (osSystem cfg eff mem) s labels t → (t.cpus c).pc ≠ .leave →
    ∃ more u, Run (osSystem cfg eff mem) t more u ∧ 0 < more.countP (Thread.isCpu c)

/-! ### The end is stable -/

theorem getProc_empty (prio : ℕ → ℕ) {s : SchedState ℕ} (h : ∀ l < maxPrio, level s l = []) :
    getProc prio s = (none, s) := by
  unfold getProc getMlqProc
  rw [if_pos ((queueEmpty_iff s).mpr h)]

theorem run_finished {cfg : Config} (eff : Effects σ) {s : OsState σ} {i : ℕ}
    (h : s.pcOf i = cfg.size i) : run cfg eff s i = s := by
  unfold run
  rw [List.getElem?_eq_none (show (cfg.text i).length ≤ s.pcOf i from h.ge)]

/-- What a step of CPU `c` does when nothing is left to do. -/
inductive EndStep (s : OsState σ) (c : ℕ) (t : OsState σ) : Prop where
  | wake : s.timer.ctl (.cpu c) = .blocked → t.timer.ctl (.cpu c) = .run →
      t.cpus c = s.cpus c → EndStep s c t
  | gone : (s.cpus c).pc = .leave → t.cpus c = s.cpus c → EndStep s c t
  | idle : (s.cpus c).pc = .top → (s.cpus c).proc = none → (t.cpus c).pc = .slot →
      (t.cpus c).proc = none → EndStep s c t
  | next : (s.cpus c).pc = .slot → (t.cpus c).pc = .top → (t.cpus c).proc = (s.cpus c).proc →
      EndStep s c t
  | fetch : (s.cpus c).pc = .afterPut ∨ (s.cpus c).pc = .top ∧ (s.cpus c).proc ≠ none →
      (t.cpus c).pc = .recheck → (t.cpus c).proc = none → EndStep s c t
  | exec : (s.cpus c).pc = .recheck → (s.cpus c).proc ≠ none → (t.cpus c).pc = .slot →
      (t.cpus c).proc ≠ none → EndStep s c t
  | leave : (s.cpus c).pc = .recheck → (s.cpus c).proc = none → (t.cpus c).pc = .leave →
      EndStep s c t

section Step
variable {cfg : Config} {eff : Effects σ} {s t : OsState σ} {c : ℕ}

theorem ended_fetch (h : Ended cfg s) (freed : ℕ → Bool) (c : ℕ) (pc : Option ℕ → CpuPc)
    (timeLeft : ℤ) : fetch cfg { s with freed := freed } c pc timeLeft =
      { s with freed := freed }.setCpu c ⟨pc none, none, timeLeft⟩ := by
  have hget : getProc cfg.prio s.sched = (none, s.sched) := getProc_empty cfg.prio h.empty
  simp only [fetch, hget, OsState.setCpu]

theorem Ended.setCpu (h : Ended cfg s) {cpu : Cpu}
    (hcpu : ∀ i, cpu.proc = some i → cpu.pc ≠ .afterPut → Holds s c i) :
    Ended cfg (s.setCpu c cpu) where
  done := h.done
  empty := h.empty
  held e he i hh := by
    by_cases hec : e = c
    · subst hec
      rw [Holds, setCpu_self] at hh
      exact h.held e he i (hcpu i hh.1 hh.2)
    · rw [Holds, setCpu_other _ _ hec] at hh
      exact h.held e he i hh

theorem ended_cpu (h : Ended cfg s) (hc : c < cfg.numCpus) (hstep : CpuStep cfg eff s c t) :
    Ended cfg t ∧ EndStep s c t := by
  cases hstep with
  | wake hb hw =>
    have hrun := congrFun (wake_ctl hw).1 (Dev.cpu c)
    rw [Function.update_self] at hrun
    exact ⟨⟨h.done, h.empty, h.held⟩, .wake hb hrun rfl⟩
  | detach hrun hpc => exact ⟨⟨h.done, h.empty, h.held⟩, .gone hpc rfl⟩
  | fetchIdle hrun hpc hproc =>
    have hf := ended_fetch h s.freed c (fun r => if r.isNone then .slot else .recheck)
      (s.cpus c).timeLeft
    rw [hf]
    exact ⟨h.setCpu (by simp), .idle hpc hproc (by rw [setCpu_self]; rfl) (by rw [setCpu_self])⟩
  | @fetchFinish i hrun hpc hproc hfin =>
    rw [ended_fetch h]
    have hmid : Ended cfg { s with freed := Function.update s.freed i true } :=
      ⟨h.done, h.empty, h.held⟩
    exact ⟨hmid.setCpu (by simp), .fetch (Or.inr ⟨hpc, by simp [hproc]⟩) (by rw [setCpu_self])
      (by rw [setCpu_self])⟩
  | put hrun hpc hproc hfin => exact absurd (h.held c hc _ ⟨hproc, by simp [hpc]⟩) hfin
  | keep hrun hpc hproc hfin => exact absurd (h.held c hc _ ⟨hproc, by simp [hpc]⟩) hfin
  | fetchPut hrun hpc =>
    have hf := ended_fetch h s.freed c (fun _ => .recheck) (s.cpus c).timeLeft
    rw [hf]
    exact ⟨h.setCpu (by simp), .fetch (Or.inl hpc) (by rw [setCpu_self]) (by rw [setCpu_self])⟩
  | exit hrun hpc hproc hdone =>
    exact ⟨h.setCpu (by simp [hproc]), .leave hpc hproc (by rw [setCpu_self])⟩
  | skip hrun hpc hproc hdone =>
    rw [h.done] at hdone
    exact absurd hdone (by simp)
  | @exec i timeLeft hrun hpc hproc =>
    have hheld : Holds s c i := ⟨hproc, by simp [hpc]⟩
    rw [run_finished eff (h.held c hc i hheld)]
    refine ⟨h.setCpu fun j hj _ => ?_, .exec hpc (by simp [hproc]) (by rw [setCpu_self])
      (by rw [setCpu_self]; simp)⟩
    obtain rfl := Option.some.inj hj
    exact hheld
  | @slot tm hrun hpc hset =>
    have hmid : Ended cfg { s with timer := tm } := ⟨h.done, h.empty, h.held⟩
    exact ⟨hmid.setCpu fun i hi _ => ⟨hi, by simp [hpc]⟩,
      .next hpc (by rw [setCpu_self]) (by rw [setCpu_self])⟩

theorem ended_step {th : Thread} (hctl : Control cfg s) (h : Ended cfg s)
    (hstep : OsStep cfg eff s th t) : Ended cfg t := by
  cases hstep with
  | timer => exact ⟨h.done, h.empty, h.held⟩
  | cpu hc hcpu => exact (ended_cpu h hc hcpu).1
  | ld hld =>
    -- the loader can only wait or detach
    have hleave := hctl.done_leave h.done
    cases hld with
    | wake => exact ⟨h.done, h.empty, h.held⟩
    | detach => exact ⟨h.done, h.empty, h.held⟩
    | next hrun hat => simp [hleave] at hat
    | all hrun hat => simp [hleave] at hat
    | early hrun hat => simp [hleave] at hat
    | start hrun hat => simp [hleave] at hat
    | add hrun hat => simp [hleave] at hat
    | slotWait hrun hat => simp [hleave] at hat
    | slotOuter hrun hat => simp [hleave] at hat
    | setDone hrun hat => simp [hleave] at hat

/-! ### Leaving and idling -/

/-- Steps of CPU `c` until it has left, unless it is idle. -/
def leaveWay (s : OsState σ) (c : ℕ) : ℕ :=
  match (s.cpus c).pc, (s.cpus c).proc with
  | .leave, _ => 0
  | .recheck, none => 1
  | .afterPut, _ => 2
  | .top, _ => if s.timer.ctl (.cpu c) = .blocked then 3 else 2
  | .slot, _ => 4
  | .recheck, some _ => 5

theorem leaveWay_le (s : OsState σ) (c : ℕ) : leaveWay s c ≤ 5 := by
  unfold leaveWay
  split
  all_goals first | split_ifs <;> omega | omega

theorem leaveWay_step (hctl : Control cfg s) (hc : c < cfg.numCpus) (hidle : ¬IdleInLoop s c)
    (h : EndStep s c t) : ¬IdleInLoop t c ∧
      ((t.cpus c).pc = .leave ∨ leaveWay t c < leaveWay s c) := by
  cases h with
  | wake hb hrun hcpus =>
    have htop := hctl.blocked_top c hc hb
    refine ⟨by rwa [IdleInLoop, hcpus], Or.inr ?_⟩
    simp [leaveWay, hcpus, htop, hb, hrun]
  | gone hpc hcpus =>
    rw [IdleInLoop, hcpus]
    exact ⟨hidle, Or.inl hpc⟩
  | idle hpc hproc => exact absurd ⟨hproc, Or.inl hpc⟩ hidle
  | next hpc htop hproc =>
    refine ⟨fun hi => hidle ⟨hproc ▸ hi.1, Or.inr hpc⟩, Or.inr ?_⟩
    simp only [leaveWay, htop, hpc]
    split_ifs <;> omega
  | fetch hpc hre hnone =>
    refine ⟨fun hi => by simp [IdleInLoop, hre] at hi, Or.inr ?_⟩
    obtain hpc | ⟨hpc, -⟩ := hpc
    · simp [leaveWay, hre, hnone, hpc]
    · simp only [leaveWay, hre, hnone, hpc]
      split_ifs <;> omega
  | exec hpc hproc hslot hsome =>
    refine ⟨fun hi => hsome hi.1, Or.inr ?_⟩
    obtain ⟨i, hi⟩ := Option.ne_none_iff_exists'.mp hproc
    simp [leaveWay, hslot, hpc, hi]
  | leave hpc hproc hleave => exact ⟨fun hi => by simp [IdleInLoop, hleave] at hi, Or.inl hleave⟩

theorem idle_step (hidle : IdleInLoop s c) (h : EndStep s c t) : IdleInLoop t c := by
  obtain ⟨hnone, hpc⟩ := hidle
  cases h with
  | wake hb hrun hcpus =>
    rw [IdleInLoop, hcpus]
    exact ⟨hnone, hpc⟩
  | gone hleave hcpus =>
    rw [IdleInLoop, hcpus]
    exact ⟨hnone, hpc⟩
  | idle _ _ hslot hproc => exact ⟨hproc, Or.inr hslot⟩
  | next _ htop hproc => exact ⟨hproc.trans hnone, Or.inl htop⟩
  | fetch hput => simp [hnone] at hput; rcases hpc with hpc | hpc <;> simp [hput] at hpc
  | exec hre => rcases hpc with hpc | hpc <;> simp [hre] at hpc
  | leave hre => rcases hpc with hpc | hpc <;> simp [hre] at hpc

theorem EndStep.stays_left (hleave : (s.cpus c).pc = .leave) (h : EndStep s c t) :
    (t.cpus c).pc = .leave := by
  cases h with
  | wake _ _ hcpus => rwa [hcpus]
  | gone _ hcpus => rwa [hcpus]
  | idle hpc => simp [hleave] at hpc
  | next hpc => simp [hleave] at hpc
  | fetch hpc => simp [hleave] at hpc
  | exec hpc => simp [hleave] at hpc
  | leave hpc => simp [hleave] at hpc

theorem not_leave_of_idle (hidle : IdleInLoop s c) : (s.cpus c).pc ≠ .leave := by
  rcases hidle.2 with hpc | hpc <;> simp [hpc]

end Step

/-! ### Whole runs -/

section Runs
variable {cfg : Config} {eff : Effects σ} {mem : σ} {s : OsState σ} {c : ℕ}

theorem ended_run (hctl : Control cfg s) (h : Ended cfg s) {labels : List Thread} {t : OsState σ}
    (hrun : Run (osSystem cfg eff mem) s labels t) : Control cfg t ∧ Ended cfg t := by
  apply hrun.invariant (fun s => Control cfg s ∧ Ended cfg s) _ ⟨hctl, h⟩
  intro s1 th t1 hs hnext
  have hstep := osStep_step hnext
  exact ⟨control_step hs.1 hstep, ended_step hs.1 hs.2 hstep⟩

theorem endStep_or_other (h : Ended cfg s) {t : OsState σ} {th : Thread}
    (hstep : OsStep cfg eff s th t) : th.isCpu c = true ∧ EndStep s c t ∧ c < cfg.numCpus ∨
      th.isCpu c = false ∧ t.cpus c = s.cpus c ∧
        t.timer.ctl (.cpu c) = s.timer.ctl (.cpu c) := by
  cases hth : th.isCpu c with
  | true =>
    cases hstep with
    | timer => simp [Thread.isCpu] at hth
    | ld => simp [Thread.isCpu] at hth
    | @cpu e _ he hcpu =>
      obtain rfl : e = c := by simpa [Thread.isCpu] using hth
      exact Or.inl ⟨rfl, (ended_cpu h he hcpu).2, he⟩
  | false =>
    refine Or.inr ⟨rfl, hstep.other ?_⟩
    rintro rfl
    simp [Thread.isCpu] at hth

theorem left_run (hctl : Control cfg s) (h : Ended cfg s) (hleave : (s.cpus c).pc = .leave)
    {labels : List Thread} {t : OsState σ} (hrun : Run (osSystem cfg eff mem) s labels t) :
    (t.cpus c).pc = .leave := by
  have hinv := hrun.invariant (fun s => Control cfg s ∧ Ended cfg s ∧ (s.cpus c).pc = .leave) ?_
    ⟨hctl, h, hleave⟩
  · exact hinv.2.2
  intro s1 th t1 ⟨hc1, he1, hl1⟩ hnext
  have hstep := osStep_step hnext
  refine ⟨control_step hc1 hstep, ended_step hc1 he1 hstep, ?_⟩
  rcases endStep_or_other (c := c) he1 hstep with ⟨-, hcpu, -⟩ | ⟨-, hcpus, -⟩
  · exact hcpu.stays_left hl1
  · rwa [hcpus]

theorem idle_run (hctl : Control cfg s) (h : Ended cfg s) (hidle : IdleInLoop s c)
    {labels : List Thread} {t : OsState σ} (hrun : Run (osSystem cfg eff mem) s labels t) :
    IdleInLoop t c := by
  have hinv := hrun.invariant (fun s => Control cfg s ∧ Ended cfg s ∧ IdleInLoop s c) ?_
    ⟨hctl, h, hidle⟩
  · exact hinv.2.2
  intro s1 th t1 ⟨hc1, he1, hi1⟩ hnext
  have hstep := osStep_step hnext
  refine ⟨control_step hc1 hstep, ended_step hc1 he1 hstep, ?_⟩
  rcases endStep_or_other (c := c) he1 hstep with ⟨-, hcpu, -⟩ | ⟨-, hcpus, -⟩
  · exact idle_step hi1 hcpu
  · rwa [IdleInLoop, hcpus]

/-- A CPU that is not idle is out of the loop, or each of its steps counts. -/
theorem leaveWay_run (hctl : Control cfg s) (h : Ended cfg s) (hidle : ¬IdleInLoop s c)
    {labels : List Thread} {t : OsState σ} (hrun : Run (osSystem cfg eff mem) s labels t) :
    (t.cpus c).pc = .leave ∨
      leaveWay t c + labels.countP (Thread.isCpu c) ≤ leaveWay s c := by
  induction hrun with
  | nil s => exact Or.inr le_rfl
  | @cons s m t th rest hnext hrest ih =>
    have hstep := osStep_step hnext
    have hctl' := control_step hctl hstep
    have hend' := ended_step hctl h hstep
    rcases endStep_or_other (c := c) h hstep with ⟨hth, hcpu, hc⟩ | ⟨hth, hcpus, hsame⟩
    · obtain ⟨hidle', hleave | hlt⟩ := leaveWay_step hctl hc hidle hcpu
      · exact Or.inl (left_run hctl' hend' hleave hrest)
      · rcases ih hctl' hend' hidle' with hl | hle
        · exact Or.inl hl
        · right
          rw [List.countP_cons_of_pos hth]
          omega
    · have hidle' : ¬IdleInLoop m c := by rwa [IdleInLoop, hcpus]
      have hway : leaveWay m c = leaveWay s c := by simp only [leaveWay, hcpus, hsame]
      rcases ih hctl' hend' hidle' with hl | hle
      · exact Or.inl hl
      · right
        rw [List.countP_cons_of_neg (by simp [hth]), ← hway]
        exact hle

theorem another_step (hctl : Control cfg s) (hc : c < cfg.numCpus)
    (hleave : (s.cpus c).pc ≠ .leave) :
    ∃ more u, Run (osSystem cfg eff mem) s more u ∧ 0 < more.countP (Thread.isCpu c) := by
  have hgone : s.timer.ctl (.cpu c) ≠ .gone := fun hg => hleave (hctl.gone_leave c hc hg)
  obtain ⟨labels, t, hrun, -, -, u, hu⟩ := cpu_let_go eff mem hctl hc hgone
  have hnext : (osSystem cfg eff mem).next t (.cpu c) u := hu
  refine ⟨labels ++ [.cpu c], u, hrun.append (.cons hnext (.nil u)), ?_⟩
  rw [List.countP_append]
  simp [Thread.isCpu]

theorem idle_steps (hctl : Control cfg s) (h : Ended cfg s) (hc : c < cfg.numCpus)
    (hidle : IdleInLoop s c) (n : ℕ) :
    ∃ labels t, Run (osSystem cfg eff mem) s labels t ∧ n ≤ labels.countP (Thread.isCpu c) := by
  induction n with
  | zero => exact ⟨[], s, .nil s, Nat.zero_le _⟩
  | succ n ih =>
    obtain ⟨labels, t, hrun, hle⟩ := ih
    have hleave := not_leave_of_idle (idle_run hctl h hidle hrun)
    obtain ⟨more, u, hmore, hpos⟩ := another_step (ended_run hctl h hrun).1 hc hleave
    refine ⟨labels ++ more, u, hrun.append hmore, ?_⟩
    rw [List.countP_append]
    omega

theorem not_leavesLoop_of_idle (hctl : Control cfg s) (h : Ended cfg s) (hc : c < cfg.numCpus)
    (hidle : IdleInLoop s c) : ¬LeavesLoop cfg eff mem s c := by
  rintro ⟨⟨n, hn⟩, -⟩
  obtain ⟨labels, t, hrun, hle⟩ := idle_steps hctl h hc hidle n
  exact not_leave_of_idle (idle_run hctl h hidle hrun) (hn labels t hrun hle)

theorem leavesLoop_of_not_idle (hctl : Control cfg s) (h : Ended cfg s) (hc : c < cfg.numCpus)
    (hidle : ¬IdleInLoop s c) : LeavesLoop cfg eff mem s c := by
  refine ⟨⟨6, fun labels t hrun hle => ?_⟩, fun labels t hrun hleave => ?_⟩
  · rcases leaveWay_run hctl h hidle hrun with hleave | hway
    · exact hleave
    · have := leaveWay_le s c
      omega
  · exact another_step (ended_run hctl h hrun).1 hc hleave

end Runs

theorem control_reachable {cfg : Config} {eff : Effects σ} {mem : σ}
    {ok : OsState σ → Thread → Prop} {s : OsState σ} (h : OsReachable cfg eff mem ok s) :
    Control cfg s := by
  apply Reachable.invariant (Control cfg) _ _ h
  · intro s0 h0
    obtain rfl : s0 = OsState.start cfg mem := h0
    exact control_start cfg mem
  · intro s1 th t hs _ hnext
    exact control_step hs (osStep_step hnext)

/-- For every number of CPUs and every configuration, when nothing is left to do
a CPU leaves the loop exactly if it is not without a process at the head of the
loop or in the `next_slot` before it. -/
theorem leavesLoop_iff {cfg : Config} {eff : Effects σ} {mem : σ} {s : OsState σ}
    (h : OsReachable cfg eff mem (fun _ _ => True) s) (hend : Ended cfg s) {c : ℕ}
    (hc : c < cfg.numCpus) : LeavesLoop cfg eff mem s c ↔ ¬IdleInLoop s c := by
  have hctl := control_reachable h
  constructor
  · intro hleaves hidle
    exact not_leavesLoop_of_idle hctl hend hc hidle hleaves
  · intro hidle
    exact leavesLoop_of_not_idle hctl hend hc hidle

/-- Two CPUs and one process of one instruction. -/
def Config.twoCpus : Config := { Config.single 0 1 with numCpus := 2 }

/-- CPU 0 gets the process and runs it while CPU 1 gets nothing; the timer lets
all go on, and the loader sets `done`. -/
def oneIdle : List Thread :=
  List.replicate 4 .ld ++ List.replicate 3 (.cpu 0) ++ List.replicate 2 (.cpu 1) ++
    List.replicate 8 .timer ++ List.replicate 3 .ld

theorem reachable_oneIdle :
    ∃ s, OsReachable .twoCpus noEffects () (fun _ _ => True) s ∧ Ended .twoCpus s ∧
      Holds s 0 0 ∧ IdleInLoop s 1 := by
  obtain ⟨s, hs, hp⟩ := exists_reachable_of_runAll (osStep .twoCpus noEffects)
    (fun _ _ => True) (OsState.start .twoCpus ()) oneIdle
    (fun s => decide (s.done = true ∧ (∀ l < maxPrio, level s.sched l = []) ∧ s.pcOf 0 = 1 ∧
      ((s.cpus 0).proc = some 0 ∧ (s.cpus 0).pc ≠ .afterPut) ∧ (s.cpus 1).proc = none ∧
        (s.cpus 1).pc = .top)) (by decide +kernel)
  obtain ⟨hdone, hempty, hpc, hheld, hnone, htop⟩ := of_decide_eq_true hp
  refine ⟨s, hs, ⟨hdone, hempty, fun c hc i hh => ?_⟩, hheld, hnone, Or.inl htop⟩
  have hc2 : c = 0 ∨ c = 1 := by
    have : c < 2 := hc
    omega
  rcases hc2 with rfl | rfl
  · obtain rfl : 0 = i := Option.some.inj (hheld.1.symm.trans hh.1)
    exact hpc
  · exact absurd (hnone.symm.trans hh.1) (by simp)

theorem leavesLoop_with_process :
    ∃ s, Ended .twoCpus s ∧ Holds s 0 0 ∧ LeavesLoop .twoCpus noEffects () s 0 := by
  obtain ⟨s, hs, hend, hheld, -⟩ := reachable_oneIdle
  refine ⟨s, hend, hheld, (leavesLoop_iff hs hend (show 0 < 2 by decide)).mpr fun hidle => ?_⟩
  exact absurd (hidle.1.symm.trans hheld.1) (by simp)

/-- CPU 1 never received a process and keeps looking for one. -/
theorem idle_cpu_never_leaves :
    ∃ s, OsReachable .twoCpus noEffects () (fun _ _ => True) s ∧ Ended .twoCpus s ∧
      (s.cpus 1).pc ≠ .leave ∧ ¬LeavesLoop .twoCpus noEffects () s 1 := by
  obtain ⟨s, hs, hend, -, hidle⟩ := reachable_oneIdle
  exact ⟨s, hs, hend, not_leave_of_idle hidle,
    not_leavesLoop_of_idle (control_reachable hs) hend (show 1 < 2 by decide) hidle⟩

end OsSim.Os
